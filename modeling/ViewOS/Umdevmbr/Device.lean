import Mathlib.Algebra.Order.Ring.Int
import ViewOS.Umdevmbr.Table

namespace ViewOS.Umdevmbr

inductive Errno where
  | einval
  | enodev
  deriving DecidableEq

-- The most that one call of pread64 or pwrite64 transfers.
def maxRwCount : Nat := 0x7ffff000

-- The kernel's test of the arguments: offsets are signed 64 bit.
def rwVerify (len : Nat) (pos : Int) : Bool := 0 ≤ pos ∧ pos + len < 2 ^ 63

-- What is moved: the offset in the image of the first byte, and the bytes.
structure Moved where
  offset : Nat
  bytes : List UInt8
  deriving DecidableEq

def Moved.none : Moved := ⟨0, []⟩

def pread64 (img : List UInt8) (len : Nat) (pos : Int) : Except Errno Moved :=
  if rwVerify len pos then .ok ⟨pos.toNat, (img.drop pos.toNat).take (min len maxRwCount)⟩
  else .error .einval

-- The image is a regular file, a write past its end makes it longer.
def pwrite64 (buf : List UInt8) (pos : Int) : Except Errno Moved :=
  if rwVerify buf.length pos then .ok ⟨pos.toNat, buf.take maxRwCount⟩ else .error .einval

def Mbr.partition (m : Mbr) (partno : Nat) : Option Partition :=
  if h : partno - 1 < ideMaxpart then m.part ⟨partno - 1, h⟩ else none

def Partition.begin (p : Partition) : Nat := p.lbaBegin.toNat * ideBlocksize

def Partition.length (p : Partition) : Nat := p.lbaNoblocks.toNat * ideBlocksize

-- pos >> IDE_BLOCKSIZE_LOG <= LBAnoblocks, the shift rounds down.
def Partition.starts (p : Partition) (pos : Int) : Bool := pos / ideBlocksize ≤ p.lbaNoblocks.toNat

def hdmbrRead (m : Mbr) (partno : Nat) (img : List UInt8) (len : Nat) (pos : Int) :
    Except Errno Moved :=
  if partno = 0 then pread64 img len pos
  else
    match m.partition partno with
    | none => .error .enodev
    | some p => if p.starts pos then pread64 img len (pos + p.begin) else .ok .none

def hdmbrWrite (m : Mbr) (partno : Nat) (buf : List UInt8) (pos : Int) : Except Errno Moved :=
  if partno = 0 then pwrite64 buf pos
  else
    match m.partition partno with
    | none => .error .enodev
    | some p => if p.starts pos then pwrite64 buf (pos + p.begin) else .error .einval

end ViewOS.Umdevmbr
