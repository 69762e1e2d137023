import Mathlib.Data.List.DropRight

namespace ViewOS.Exec

def pathMax : Nat := 4096

structure Str where
  bytes : List UInt8
  nulFree : 0 ∉ bytes
  deriving DecidableEq

def Str.empty : Str := ⟨[], by simp⟩

def Str.at (mem : List UInt8) : Str :=
  ⟨mem.takeWhile (· ≠ 0), fun h => by simpa using List.mem_takeWhile_imp h⟩

def Str.sub (s : Str) (l : List UInt8) (h : l ⊆ s.bytes) : Str := ⟨l, fun hm => s.nulFree (h hm)⟩

def byte (c : Char) : UInt8 := c.toNat.toUInt8

def isBlank (c : UInt8) : Bool := c == byte ' ' || c == byte '\t'

def isEnd (c : UInt8) : Bool := c == byte '\n' || c == 0

structure BinfmtReq where
  interp : Str
  extraarg : Option Str
  keepArg0 : Bool
  deriving DecidableEq

def BinfmtReq.extra (req : BinfmtReq) : Str := req.extraarg.getD .empty

def stdinterp : Str := ⟨['/', 'b', 'i', 'n', '/', 'b', 'a', 's', 'h'].map byte, by decide⟩

-- The rest of the line after the interpreter: blanks on both sides go, and nothing left is no
-- argument.
def scriptArg : List UInt8 → Option Str
  | [] => none
  | c :: s =>
    if isBlank c then
      let arg := ((s.dropWhile isBlank).takeWhile fun c => !isEnd c).rdropWhile isBlank
      if arg = [] then none else some (Str.at arg)
    else none

-- The buffer ends with a NUL. Its first byte is a signed char.
def checkscript : List UInt8 → Option BinfmtReq
  | c0 :: c1 :: s =>
    if c0 < 10 ∨ 127 ≤ c0 then none
    else if c0 = byte '#' ∧ c1 = byte '!' then
      let s := s.dropWhile isBlank
      let inInterp := fun c => !isBlank c && !isEnd c
      let interp := Str.at (s.takeWhile inInterp)
      some ⟨if interp.bytes = [] then stdinterp else interp, scriptArg (s.dropWhile inInterp), false⟩
    else none
  | _ => none

-- binfmt is what the binfmt service answers, if one takes the file.
def request (buf : List UInt8) (binfmt : Option BinfmtReq) : Option BinfmtReq :=
  (checkscript buf).or binfmt

def chrootpath (root path : Str) : Str :=
  if root.bytes.length > 1 ∧ root.bytes <+: path.bytes then
    path.sub (path.bytes.drop root.bytes.length) (List.drop_subset _ _)
  else path

def oldarg0 (req : BinfmtReq) (argv0 : Str) : Str :=
  if req.keepArg0 then argv0.sub (argv0.bytes.take pathMax) (List.take_subset _ _) else .empty

def separators : List UInt8 := (List.range 254).map fun n => (n + 1).toUInt8

def findSep (path interp oldarg0 : Str) : UInt8 :=
  (separators.find? fun sep =>
    !(path.bytes.contains sep || interp.bytes.contains sep || oldarg0.bytes.contains sep)).getD 255

def pack (sep : UInt8) (req : BinfmtReq) (path oldarg0 : Str) : List UInt8 :=
  sep :: req.interp.bytes ++ sep :: req.extra.bytes ++ sep :: path.bytes ++
    if req.keepArg0 then sep :: oldarg0.bytes else []

inductive Outcome where
  | enoent
  | unwrapped
  | wrapped (argv0 : List UInt8)
  deriving DecidableEq

-- A full pathname is required. Where there is no interpreter the file itself is executed.
def wrapInExecve (buf : List UInt8) (binfmt : Option BinfmtReq) (root path argv0 : Str) : Outcome :=
  match request buf binfmt with
  | none => .unwrapped
  | some req =>
    if req.interp.bytes.head? ≠ some (byte '/') then .enoent
    else
      let path := chrootpath root path
      let oldarg0 := oldarg0 req argv0
      .wrapped (pack (findSep path req.interp oldarg0) req path oldarg0)

end ViewOS.Exec
