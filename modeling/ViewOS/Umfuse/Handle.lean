import Mathlib.Algebra.Order.Ring.Nat

namespace ViewOS.Umfuse

structure File where
  data : List UInt8
  short : data.length < 2 ^ 63
  deriving DecidableEq

def File.empty : File := ⟨[], by decide⟩

def File.size (f : File) : Int64 := Int64.ofNat f.data.length

def eperm : Int := 1

def enoent : Int := 2

def ebadf : Int := 9

def eexist : Int := 17

def enotdir : Int := 20

def eisdir : Int := 21

def einval : Int := 22

def efbig : Int := 27

def erofs : Int := 30

def fopsRead (f : File) (count : Nat) (off : Int) : Except Int (List UInt8) :=
  if off < 0 then .error einval else .ok ((f.data.drop off.toNat).take count)

def overwrite (data buf : List UInt8) (off : Nat) : List UInt8 :=
  if buf = [] then data
  else (data ++ List.replicate (off - data.length) 0).take off ++ buf ++ data.drop (off + buf.length)

theorem length_overwrite_lt {data buf : List UInt8} {off bound : Nat} (hdata : data.length < bound)
    (hend : off + buf.length < bound) : (overwrite data buf off).length < bound := by
  unfold overwrite
  split_ifs
  · exact hdata
  · simp only [List.length_append,List.length_take,List.length_replicate,List.length_drop]
    omega

def fopsWrite (f : File) (buf : List UInt8) (off : Int) : Except Int File :=
  if off < 0 then .error einval
  else if h : off.toNat + buf.length < 2 ^ 63 then
    .ok ⟨overwrite f.data buf off.toNat, length_overwrite_lt f.short h⟩
  else .error efbig

inductive Accmode where
  | rdonly
  | wronly
  | rdwr
  deriving DecidableEq

structure Flags where
  accmode : Accmode
  append : Bool
  creat : Bool
  excl : Bool
  trunc : Bool
  directory : Bool
  deriving DecidableEq

structure Stat where
  size : Int64
  isDir : Bool
  deriving DecidableEq

structure Fileinfo where
  pos : Int64
  size : Int64
  accmode : Accmode
  append : Bool
  deriving DecidableEq

structure State where
  file : File
  ft : Fileinfo
  deriving DecidableEq

-- permission is the error of check_permission for a mount with FUSE_HUMAN.
structure Mount where
  rdonly : Bool
  permission : Option Int
  deriving DecidableEq

def openFile (fuse : Mount) (flags : Flags) : Option File → Except Int File
  | some f =>
    match fuse.permission with
    | some errno => .error errno
    | none =>
      if flags.creat ∧ flags.excl then .error eexist
      else if flags.trunc ∧ flags.accmode ≠ .rdonly then .ok .empty
      else .ok f
  | none => if flags.creat then .ok .empty else .error enoent

-- The file that path names is a regular one, or there is none and buf keeps what it held.
def umfuseOpen (fuse : Mount) (fs : Option File) (flags : Flags) (garbage : Stat) : Except Int State :=
  let buf := (fs.map fun f => (⟨f.size, false⟩ : Stat)).getD garbage
  let ft : Fileinfo := ⟨0, buf.size, flags.accmode, flags.append⟩
  if flags.accmode ≠ .rdonly ∧ fuse.rdonly then .error erofs
  else if flags.directory ∧ !buf.isDir then .error enotdir
  else if flags.accmode ≠ .rdonly ∧ buf.isDir then .error eisdir
  else (openFile fuse flags fs).map fun f => ⟨f, ft⟩

inductive Result where
  | bytes (buf : List UInt8)
  | value (rv : Int)
  | error (errno : Int)
  deriving DecidableEq

inductive Whence where
  | set
  | cur
  | end
  deriving DecidableEq

def umfuseRead (s : State) (count : Nat) : Result × State :=
  if s.ft.accmode = .wronly then (.error ebadf, s)
  else if s.ft.pos = s.ft.size then (.bytes [], s)
  else match fopsRead s.file count s.ft.pos.toInt with
    | .error errno => (.error errno, s)
    | .ok buf => (.bytes buf, { s with ft := { s.ft with pos := s.ft.pos + Int64.ofNat buf.length } })

def umfuseLseek64 (s : State) (offset : Int64) : Whence → Int64 × State
  | .set => (offset, { s with ft := { s.ft with pos := offset } })
  | .cur => (s.ft.pos + offset, { s with ft := { s.ft with pos := s.ft.pos + offset } })
  | .end => (s.file.size + offset, { s with ft := { s.ft with pos := s.file.size + offset } })

def writeAt (s : State) (buf : List UInt8) : Result × State :=
  match fopsWrite s.file buf s.ft.pos.toInt with
  | .error errno => (.error errno, s)
  | .ok f => (.value buf.length, ⟨f, { s.ft with pos := s.ft.pos + Int64.ofNat buf.length }⟩)

-- The position that lseek returns is put in an int, where -1 is taken for an error.
def umfuseWrite (s : State) (buf : List UInt8) : Result × State :=
  if s.ft.accmode = .rdonly then (.error ebadf, s)
  else
    let x := if s.ft.append then umfuseLseek64 s 0 .end else (0, s)
    if x.1.toInt32 = -1 then (.error eperm, x.2) else writeAt x.2 buf

def umfusePread64 (s : State) (count : Nat) (offset : Int64) : Result × State :=
  if s.ft.accmode = .wronly then (.error ebadf, s)
  else if s.ft.size ≤ offset then (.bytes [], s)
  else match fopsRead s.file count offset.toInt with
    | .error errno => (.error errno, s)
    | .ok buf => (.bytes buf, s)

def umfusePwrite64 (s : State) (buf : List UInt8) (offset : Int64) : Result × State :=
  if s.ft.accmode = .rdonly then (.error ebadf, s)
  else match fopsWrite s.file buf offset.toInt with
    | .error errno => (.error errno, s)
    | .ok f => (.value buf.length, { s with file := f })

inductive Op where
  | read (count : Nat)
  | write (buf : List UInt8)
  | pread (count : Nat) (offset : Int64)
  | pwrite (buf : List UInt8) (offset : Int64)
  | lseek (offset : Int64) (whence : Whence)
  deriving DecidableEq

def perform (s : State) : Op → Result × State
  | .read count => umfuseRead s count
  | .write buf => umfuseWrite s buf
  | .pread count offset => umfusePread64 s count offset
  | .pwrite buf offset => umfusePwrite64 s buf offset
  | .lseek offset whence =>
    let x := umfuseLseek64 s offset whence
    (.value x.1.toInt, x.2)

end ViewOS.Umfuse
