import ViewOS.Exec.Model
import ViewOS.Lib.Fields

namespace ViewOS.Exec
open Fields

def cut (sep c : UInt8) : UInt8 := if c = sep then 0 else c

theorem Str.ext {s s' : Str} (h : s.bytes = s'.bytes) : s = s' := by
  cases s
  cases s'
  simpa using h

def wanted (req : BinfmtReq) (path argv0 : Str) (args : List Str) : List Str :=
  (if req.keepArg0 then argv0 else req.interp) ::
    (if req.extra = .empty then [] else [req.extra]) ++ path :: args

def packed (sep : UInt8) (req : BinfmtReq) (path old : List UInt8) : List UInt8 :=
  req.interp.bytes ++ sep :: (req.extra.bytes ++ sep :: (path ++ if req.keepArg0 then sep :: old else []))

section Vector

variable {sep : UInt8} {req : BinfmtReq} {path old argv0 : Str} {newargv args : List Str}

end Vector

def FirstFree (used : List UInt8) (c : UInt8) : Prop :=
  c ≠ 0 ∧ c ∉ used ∧ ∀ b, b ≠ 0 → b < c → b ∈ used

theorem FirstFree.unique {used : List UInt8} {c d : UInt8} (hc : FirstFree used c)
    (hd : FirstFree used d) : c = d := by
  by_contra hne
  rcases UInt8.lt_or_lt_of_ne hne with h | h
  · exact hc.2.1 (hd.2.2 c hc.1 h)
  · exact hd.2.1 (hc.2.2 d hd.1 h)

def text (s : List Char) : Str := Str.at (s.map byte)

end ViewOS.Exec
