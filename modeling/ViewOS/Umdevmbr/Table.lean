import Mathlib.Tactic.Common

namespace ViewOS.Umdevmbr

def ideMaxpart : Nat := 63

def ideBlocksize : Nat := 512

abbrev Header := Fin 512 → UInt8

structure MbrPart where
  flags : UInt8
  type : UInt8
  chsEnd : Fin 3 → UInt8
  lbaBegin : UInt32
  lbaNoblocks : UInt32

-- The macro LE32_INT: what it loses as an int is not lost in the unsigned int it is stored in.
def le32Int (x : Fin 4 → UInt8) : UInt32 :=
  (x 0).toUInt32 + ((x 1).toUInt32 <<< 8) + ((x 2).toUInt32 <<< 16) + ((x 3).toUInt32 <<< 24)

def Header.field (h : Header) (i : Fin 4) (k : Fin 16) : UInt8 :=
  h ⟨446 + 16 * i.val + k.val, by omega⟩

def Header.mbrpart (h : Header) (i : Fin 4) : MbrPart where
  flags := h.field i 0
  type := h.field i 4
  chsEnd k := h.field i ⟨5 + k.val, by omega⟩
  lbaBegin := le32Int fun k => h.field i ⟨8 + k.val, by omega⟩
  lbaNoblocks := le32Int fun k => h.field i ⟨12 + k.val, by omega⟩

def Header.signed (h : Header) : Bool := h 510 == 0x55 && h 511 == 0xaa

structure Partition where
  flags : UInt8
  type : UInt8
  lbaBegin : UInt32
  lbaNoblocks : UInt32
  deriving DecidableEq, Repr

-- struct hd_geometry: heads and sectors are unsigned char, cylinders is unsigned short.
structure Geometry where
  heads : Nat
  sectors : Nat
  cylinders : Nat
  deriving DecidableEq, Repr

def maxgeom (g : Geometry) (chs : Fin 3 → UInt8) : Geometry :=
  let h := (chs 0).toNat
  let s := (chs 1).toNat % 64
  let c := (chs 2).toNat + (chs 1).toNat / 64 * 256
  let g := if h + 1 > g.heads then { g with heads := (h + 1) % 256 } else g
  let g := if s > g.sectors then { g with sectors := s } else g
  if c > g.cylinders then { g with cylinders := c } else g

structure Mbr where
  size : Nat
  geometry : Geometry
  part : Fin ideMaxpart → Option Partition

-- What pread64 does not read keeps the bytes that were there.
def preadHeader (img : List UInt8) (old : Header) (base : Nat) : Header :=
  fun k => (img[base + k.val]?).getD (old k)

-- The loop over the four primary partitions: the second component is ext_part_base.
def readPrimary (h : Header) (s : Mbr × UInt32) (i : Fin 4) : Mbr × UInt32 :=
  let p := h.mbrpart i
  if p.type ≠ 0 then
    let new : Partition := ⟨p.flags, p.type, p.lbaBegin, p.lbaNoblocks⟩
    ({ s.1 with
        geometry := maxgeom s.1.geometry p.chsEnd
        part := Function.update s.1.part (i.castLE (by decide)) (some new) },
      if p.type = 5 ∧ s.2 = 0 then new.lbaBegin else s.2)
  else s

def finishGeometry (m : Mbr) : Mbr :=
  let heads := if m.geometry.heads = 0 then 255 else m.geometry.heads
  let sectors := if m.geometry.sectors = 0 then 63 else m.geometry.sectors
  { m with geometry := ⟨heads, sectors, m.size / ideBlocksize / (heads * sectors) % 65536⟩ }

def readPrimaries (h : Header) (m : Mbr) : Mbr × UInt32 :=
  let s := [0, 1, 2, 3].foldl (readPrimary h) ({ m with geometry := ⟨0, 0, 0⟩ }, 0)
  (finishGeometry s.1, s.2)

-- The array part is written past its end.
inductive Overrun where
  | part
  deriving DecidableEq

def logical (h : Header) (sector : UInt32) : Partition :=
  let p := h.mbrpart 0
  ⟨p.flags, p.type, p.lbaBegin + sector, p.lbaNoblocks⟩

def storeLogical (m : Mbr) (i : Nat) (h : Header) (sector : UInt32) : Except Overrun (Mbr × Nat) :=
  if (h.mbrpart 0).type ≠ 0 then
    if hi : i < ideMaxpart then
      .ok ({ m with part := Function.update m.part ⟨i, hi⟩ (some (logical h sector)) }, i + 1)
    else .error .part
  else .ok (m, i)

-- The chain of logical partitions. No result: the loop is still running.
def readChain (img : List UInt8) (ext : UInt32) :
    Nat → Header → UInt32 → Nat → Mbr → Option (Except Overrun Mbr)
  | 0, _, _, _, _ => none
  | fuel + 1, old, offset, i, m =>
    let sector := ext + offset
    let h := preadHeader img old (sector.toNat * ideBlocksize)
    if h.signed then
      match storeLogical m i h sector with
      | .error e => some (.error e)
      | .ok (m, i) =>
        if (h.mbrpart 1).type = 5 then readChain img ext fuel h (h.mbrpart 1).lbaBegin i m
        else some (.ok m)
    else some (.ok m)

-- stack is what is in mbr_header before it is read.
def mbrRead (fuel : Nat) (img : List UInt8) (stack : Header) (m : Mbr) :
    Option (Except Overrun Mbr) :=
  let h := preadHeader img stack 0
  if h.signed then
    let s := readPrimaries h m
    if s.2 = 0 then some (.ok s.1) else readChain img s.2 fuel h 0 4 s.1
  else some (.ok m)

def mbrReread (fuel : Nat) (img : List UInt8) (stack : Header) (m : Mbr) :
    Option (Except Overrun Mbr) :=
  mbrRead fuel img stack { m with part := fun _ => none }

structure Ebr where
  sector : UInt32
  header : Header

def Ebr.used (e : Ebr) : Bool := (e.header.mbrpart 0).type != 0

def Ebr.linked (e : Ebr) : Bool := (e.header.mbrpart 1).type == 5

def Ebr.link (e : Ebr) : UInt32 := (e.header.mbrpart 1).lbaBegin

def extBase (h : Header) : Option UInt32 :=
  if h.signed then
    (([0, 1, 2, 3].map h.mbrpart).find? fun p => p.type = 5 ∧ p.lbaBegin ≠ 0).map MbrPart.lbaBegin
  else none

end ViewOS.Umdevmbr
