import Mathlib.Tactic.Common

namespace ScanHex

abbrev Word := BitVec 32

def hexDigits : List Char :=
  ['0', '1', '2', '3', '4', '5', '6', '7', '8', '9', 'a', 'b', 'c', 'd', 'e', 'f']

def upperDigits : List Char := ['A', 'B', 'C', 'D', 'E', 'F']

def hexVal (c : Char) : Option Nat :=
  (hexDigits.findIdx? (· == c)).or ((upperDigits.findIdx? (· == c)).map (· + 10))

def scanDigits : Nat → Nat → List Char → Nat
  | 0, a, _ => a
  | _ + 1, a, [] => a
  | n + 1, a, c :: s => match hexVal c with
    | some d => scanDigits n (a * 16 + d) s
    | none => a

def isspace (c : Char) : Bool := c == ' ' || (9 ≤ c.toNat && c.toNat ≤ 13)

def hasPrefix (s : List Char) : Bool :=
  s[0]? == some '0' && (s[1]? == some 'x' || s[1]? == some 'X')

-- At most n characters, 0x included.
def scanHex (n : Nat) (s : List Char) : Option Word :=
  if hasPrefix s then some (BitVec.ofNat 32 (scanDigits (n - 2) 0 (s.drop 2)))
  else if (s[0]?.bind hexVal).isSome then some (BitVec.ofNat 32 (scanDigits n 0 s)) else none

-- The conversion %x of scanf with a field width.
def scanX (n : Nat) (s : List Char) : Option Word :=
  let t := s.dropWhile isspace
  if t[0]? = some '-' then (scanHex (n - 1) t.tail).map (-·)
  else if t[0]? = some '+' then scanHex (n - 1) t.tail
  else scanHex n t

theorem hexVal_digit : ∀ d < 16, hexVal (hexDigits.getD d '0') = some d := by decide

theorem digit_not_space : ∀ c ∈ hexDigits, isspace c = false := by simp [hexDigits,isspace]

theorem digit_read : ∀ c ∈ hexDigits, (hexVal c).isSome = true ∧ c ≠ '-' ∧ c ≠ '+' := by
  simp [hexDigits,hexVal]

theorem digit_not_x : ∀ c ∈ hexDigits, c ≠ 'x' ∧ c ≠ 'X' := by simp [hexDigits]

theorem scanX_digits {c d : Char} (hc : c ∈ hexDigits) (hd : d ∈ hexDigits) (n : Nat)
    (s : List Char) :
    scanX n (c :: d :: s) = some (BitVec.ofNat 32 (scanDigits n 0 (c :: d :: s))) := by
  obtain ⟨hval,hminus,hplus⟩ := digit_read c hc
  obtain ⟨hx,hX⟩ := digit_not_x d hd
  rw [scanX,List.dropWhile_cons_of_neg (by simp [digit_not_space c hc])]
  simp [scanHex,hasPrefix,hval,hminus,hplus,hx,hX]

end ScanHex
