import Mathlib.Tactic.Common

namespace ViewOS.Umbinfmt

structure Umregister where
  name : List UInt8
  enabled : UInt8
  type : UInt8
  flags : List UInt8
  interpreter : List UInt8
  deriving DecidableEq

inductive File where
  | root
  | register
  | status
  | reg (id : Nat)
  deriving DecidableEq

structure Binfileinfo where
  file : File
  pos : Nat
  deriving DecidableEq

-- The registrations by the order in which they were made, none for those that were freed. head is
-- the list along next. root is the byte behind rootdir that is the field enabled of ft->reg when
-- that is rootdir; the one of registerfile is the end of its string.
structure State where
  root : UInt8
  enabled : UInt8
  inuse : Int
  regs : List (Option Umregister)
  head : List Nat
  fds : List (Option Binfileinfo)
  deriving DecidableEq

def State.init (root : UInt8) : State := ⟨root, 1, 0, [], [], []⟩

def State.reg (s : State) (id : Nat) : Option Umregister := s.regs[id]?.join

def State.fd (s : State) (fd : Nat) : Option Binfileinfo := s.fds[fd]?.join

def bytes (s : List Char) : List UInt8 := s.map fun c => c.toNat.toUInt8

def registerfile : List UInt8 := bytes ['r', 'e', 'g', 'i', 's', 't', 'e', 'r']

def statusfile : List UInt8 := bytes ['s', 't', 'a', 't', 'u', 's']

-- The path is the one inside the mount, none is the mount point.
def searchfile (s : State) : Option (List UInt8) → Option File
  | none => some .root
  | some name =>
    if name = registerfile then some .register
    else if name = statusfile then some .status
    else (s.head.find? fun id => (s.reg id).any (·.name = name)).map .reg

structure OpenFlags where
  wronly : Bool
  rdwr : Bool
  directory : Bool
  deriving DecidableEq

def umbinfmtOpen (s : State) (path : Option (List UInt8)) (flags : OpenFlags) : State :=
  match searchfile s path with
  | none => s
  | some file =>
    if (file = .register ∧ !flags.wronly) ∨ flags.rdwr ∨
        (file = .root ∧ !flags.directory ∧ flags.wronly) then s
    else { s with fds := s.fds ++ [some ⟨file, 0⟩], inuse := s.inuse + 1 }

def deleteReg (this : Nat) : List Nat → List Nat × Bool
  | [] => ([], false)
  | head :: next => if head = this then (next, true) else deleteReg this next

def deleteAllreg (s : State) : State :=
  { s with head := [], regs := s.head.foldl (fun regs id => regs.set id none) s.regs }

def removeReg (s : State) (id : Nat) : State :=
  let x := deleteReg id s.head
  { s with head := x.1, regs := if x.2 then s.regs.set id none else s.regs }

-- stale is what is read for the field enabled of a registration that was freed.
def enabledOf (s : State) (id : Nat) (stale : UInt8) : UInt8 := ((s.reg id).map (·.enabled)).getD stale

def closeFile (s : State) (stale : UInt8) : File → State
  | .status => if s.enabled = 0xff then deleteAllreg s else s
  | .reg id => if enabledOf s id stale = 0xff then removeReg s id else s
  -- delete_reg does not find rootdir in the list and returns NULL.
  | .root => if s.root = 0xff then { s with head := [] } else s
  | .register => s

def umbinfmtClose (s : State) (fd : Nat) (stale : UInt8) : Option State := do
  let ft ← s.fd fd
  let s := closeFile { s with inuse := s.inuse - 1 } stale ft.file
  some { s with fds := s.fds.set fd none }

def newline : UInt8 := 10

def toknext (sep : UInt8) (str : List UInt8) : List UInt8 × List UInt8 :=
  let inside := fun c : UInt8 => c != sep && c != newline
  (str.takeWhile inside, (str.dropWhile inside).drop 1)

def fields (sep : UInt8) : Nat → List UInt8 → List (List UInt8)
  | 0, _ => []
  | n + 1, str => (toknext sep str).1 :: fields sep n (toknext sep str).2

-- The registration that a text asks for: name, type, offset, magic, mask, interpreter and flags.
def parse : List UInt8 → Option Umregister
  | [] => none
  | sep :: buf =>
    match fields sep 7 ((buf.take 254).takeWhile (· ≠ 0)) with
    | [name, type, _, magic, _, interpreter, flags] =>
      if name ≠ [] ∧ magic ≠ [] ∧ interpreter ≠ [] then
        match type with
        | c :: _ => if c = 77 ∨ c = 69 then some ⟨name, 1, c, flags, interpreter⟩ else none
        | [] => none
      else none
    | _ => none

def ubmRegister (s : State) (buf : List UInt8) : State :=
  match parse buf with
  | none => s
  | some new => { s with regs := s.regs ++ [some new], head := s.regs.length :: s.head }

def mark : List UInt8 → Option UInt8
  | 49 :: _ => some 1
  | 48 :: _ => some 0
  | 45 :: 49 :: _ => some 0xff
  | _ => none

def setEnabled (s : State) (id : Nat) (v : UInt8) : State :=
  { s with regs := s.regs.modify id (Option.map fun r => { r with enabled := v }) }

def writeFile (s : State) (pos : Nat) (buf : List UInt8) : File → State
  | .register => if pos = 0 then ubmRegister s buf else s
  | .status => { s with enabled := (mark buf).getD s.enabled }
  | .reg id =>
    match mark buf with
    | none => s
    | some v => setEnabled s id v
  | .root => { s with root := (mark buf).getD s.root }

def umbinfmtWrite (s : State) (fd : Nat) (buf : List UInt8) : Option State := do
  let ft ← s.fd fd
  let s := writeFile s ft.pos buf ft.file
  some { s with fds := s.fds.set fd (some { ft with pos := ft.pos + buf.length }) }

-- The position is cut to the length of the contents: register has none.
def umbinfmtLseek (s : State) (fd pos : Nat) : Option State := do
  let ft ← s.fd fd
  let pos := if ft.file = .register then 0 else pos
  some { s with fds := s.fds.set fd (some { ft with pos := pos }) }

inductive Op where
  | open (path : Option (List UInt8)) (flags : OpenFlags)
  | close (fd : Nat) (stale : UInt8)
  | write (fd : Nat) (buf : List UInt8)
  | lseek (fd pos : Nat)
  deriving DecidableEq

def step (s : State) : Op → Option State
  | .open path flags => some (umbinfmtOpen s path flags)
  | .close fd stale => umbinfmtClose s fd stale
  | .write fd buf => umbinfmtWrite s fd buf
  | .lseek fd pos => umbinfmtLseek s fd pos

end ViewOS.Umbinfmt
