import ViewOS.Lib.FirstMatch
import ViewOS.Lib.ScanHex
import ViewOS.Umbinfmt.Model

namespace ViewOS.Umbinfmt

def typeE : UInt8 := 69
def typeM : UInt8 := 77
def backslash : UInt8 := 92

def isSpace (c : UInt8) : Bool := c == 32 || (9 ≤ c && c ≤ 13)

def digits (s : List UInt8) : Nat :=
  (s.takeWhile fun c => 48 ≤ c && c ≤ 57).foldl (fun n c => 10 * n + (c.toNat - 48)) 0

def atoi (s : List UInt8) : Int :=
  match s.dropWhile isSpace with
  | 45 :: s => -(digits s : Int)
  | 43 :: s => digits s
  | s => digits s

-- The fields of an accepted text; enabled as it was set since, and the byte that stands in memory
-- after the magic.
structure Registered where
  text : List UInt8
  accepted : (parse text).isSome
  enabled : UInt8
  after : UInt8

def field (text : List UInt8) (n : Nat) : List UInt8 :=
  match text with
  | [] => []
  | sep :: buf => (fields sep 7 ((buf.take 254).takeWhile (· ≠ 0)))[n]?.getD []

section

-- What the variable v of dechex holds where sscanf reads nothing.
variable (v : List UInt8 → UInt8)

def scan2x (s : List UInt8) : UInt8 :=
  match ScanHex.scanX 2 (s.map fun b => Char.ofNat b.toNat) with
  | some x => UInt8.ofNat x.toNat
  | none => v s

def dechexLoop : Nat → List UInt8 → List UInt8
  | 0, _ => []
  | _ + 1, [] => []
  | n + 1, c :: s =>
    if c = backslash ∧ s.head? = some 120 ∧ 3 ≤ s.length then
      scan2x v (s.drop 1) :: dechexLoop n (s.drop 3)
    else c :: dechexLoop n s

def dechex (src : List UInt8) (len : Nat) : List UInt8 :=
  let buf := dechexLoop v 128 src
  if len = 0 then buf else (buf ++ List.replicate (len - buf.length) 0xff).take len

namespace Registered

variable (r : Registered)

def type : UInt8 := (field r.text 1).headD 0
def offset : UInt8 := UInt8.ofNat ((atoi (field r.text 2)) % 256).toNat
def magic : List UInt8 := dechex v (field r.text 3) 0
def mask : List UInt8 := dechex v (field r.text 4) (r.magic v).length
end Registered

def magicLoop (buf : List UInt8) : Nat → List UInt8 → List UInt8 → Bool
  | i, m :: magic, k :: mask =>
    if i < 128 then
      if (buf.getD i 0 ^^^ m) &&& k = 0 then magicLoop buf (i + 1) magic mask else false
    else true
  | _, _, _ => true

def Registered.hits (path buf : List UInt8) (r : Registered) : Bool :=
  if r.type = typeE then
    let suffixpos : Int := path.length - (r.magic v).length
    0 < suffixpos && path.drop suffixpos.toNat == r.magic v && r.after == 0
  else if r.type = typeM then magicLoop buf r.offset.toNat (r.magic v) (r.mask v)
  else false

def EndsWith (path ext : List UInt8) : Prop := ext.length < path.length ∧ ext <:+ path

namespace Registered

variable (path buf : List UInt8) (r : Registered)

def decodedMagic : List UInt8 := dechexLoop v (field r.text 3).length (field r.text 3)
def decodedMask : List UInt8 := dechexLoop v (field r.text 4).length (field r.text 4)

def maskByte (j : Nat) : UInt8 := ((r.decodedMask v)[j]?).getD 0xff

def Inside (offset : Nat) : Prop :=
  ∀ j < min 128 (r.decodedMagic v).length, offset + j < 128 →
    (buf.getD (offset + j) 0 ^^^ (r.decodedMagic v).getD j 0) &&& r.maskByte v j = 0

def InRange : Prop :=
  0 ≤ atoi (field r.text 2) ∧ atoi (field r.text 2) + (r.decodedMagic v).length ≤ 128

def Matches : Prop :=
  (r.type = typeM ∧ r.InRange v ∧ r.Inside v buf (atoi (field r.text 2)).toNat) ∨
    (r.type = typeE ∧ EndsWith path (r.decodedMagic v))

def Sound : Prop :=
  (r.type = typeM → r.InRange v) ∧
    (r.type = typeE → r.after = 0 ∧ EndsWith path ((r.decodedMagic v).take 128) ∧
      EndsWith path (r.decodedMagic v))

end Registered

open Classical in
noncomputable def newest (head : List Registered) (path buf : List UInt8) : Option Registered :=
  head.find? fun r => r.enabled ≠ 0 ∧ r.Matches v path buf

end

section

variable {v : List UInt8 → UInt8} {path buf : List UInt8} {r : Registered}

theorem dechexLoop_take (n m : Nat) (s : List UInt8) (h : s.length ≤ m) :
    dechexLoop v n s = (dechexLoop v m s).take n := by
  induction m generalizing n s with
  | zero =>
    rw [List.length_eq_zero_iff.mp (Nat.le_zero.mp h)]
    cases n <;> rfl
  | succ m ih =>
    cases s with
    | nil => cases n <;> rfl
    | cons c s =>
      have hs : s.length ≤ m := Nat.le_of_succ_le_succ h
      cases n with
      | zero => rfl
      | succ n =>
        rw [dechexLoop,dechexLoop]
        split_ifs
        · rw [List.take_succ_cons,ih n _ (by rw [List.length_drop]; omega)]
        · rw [List.take_succ_cons,ih n _ hs]

theorem magic_eq : r.magic v = (r.decodedMagic v).take 128 :=
  dechexLoop_take 128 _ _ (Nat.le_refl _)

theorem mask_getElem? {j : Nat} (hj : j < (r.magic v).length) :
    (r.mask v)[j]? = some (r.maskByte v j) := by
  have hbound : (r.magic v).length ≤ 128 := by
    rw [magic_eq]
    exact List.length_take_le _ _
  have hbuf : dechexLoop v 128 (field r.text 4) = (r.decodedMask v).take 128 :=
    dechexLoop_take 128 _ _ (Nat.le_refl _)
  rw [Registered.mask,dechex,if_neg (by omega),List.getElem?_take_of_lt hj,hbuf,
    Registered.maskByte]
  rcases Nat.lt_or_ge j (r.decodedMask v).length with hlt | hge
  · rw [List.getElem?_append_left (by rw [List.length_take]; omega),
      List.getElem?_take_of_lt (by omega),List.getElem?_eq_getElem hlt]
    rfl
  · rw [List.take_of_length_le (by omega),List.getElem?_append_right hge,
      List.getElem?_eq_none hge,List.getElem?_replicate_of_lt (by omega)]
    rfl

theorem magicLoop_iff (buf : List UInt8) (i : Nat) (magic mask : List UInt8) :
    magicLoop buf i magic mask = true ↔ ∀ j m k, magic[j]? = some m → mask[j]? = some k →
      i + j < 128 → (buf.getD (i + j) 0 ^^^ m) &&& k = 0 := by
  induction magic generalizing i mask with
  | nil => simp [magicLoop]
  | cons m magic ih =>
    cases mask with
    | nil => simp [magicLoop]
    | cons k mask =>
      rw [magicLoop]
      split_ifs with hi hbyte
      · rw [ih]
        constructor
        · intro h j m' k' hm hk hj
          cases j with
          | zero =>
            cases hm
            cases hk
            exact hbyte
          | succ j =>
            rw [show i + (j + 1) = i + 1 + j by omega] at hj ⊢
            exact h j m' k' hm hk hj
        · intro h j m' k' hm hk hj
          have hnext := h (j + 1) m' k' hm hk (by omega)
          rwa [show i + (j + 1) = i + 1 + j by omega] at hnext
      · exact iff_of_false id fun h => hbyte (h 0 m k rfl rfl hi)
      · exact iff_of_true rfl fun j m' k' _ _ hj => absurd hj (by omega)

theorem magicLoop_inside (offset : Nat) :
    magicLoop buf offset (r.magic v) (r.mask v) = true ↔ r.Inside v buf offset := by
  have hlen : (r.magic v).length = min 128 (r.decodedMagic v).length := by
    rw [magic_eq,List.length_take]
  have hget : ∀ j, j < min 128 (r.decodedMagic v).length →
      (r.magic v)[j]? = some ((r.decodedMagic v).getD j 0) := by
    intro j hj
    rw [magic_eq,List.getElem?_take_of_lt (by omega),List.getD_eq_getElem?_getD,
      List.getElem?_eq_getElem (by omega)]
    rfl
  rw [magicLoop_iff]
  constructor
  · intro h j hj
    exact h j _ _ (hget j hj) (mask_getElem? (by omega))
  · intro h j m k hm hk
    have hj : j < (r.magic v).length := (List.getElem?_eq_some_iff.mp hm).1
    rw [hget j (by omega)] at hm
    rw [mask_getElem? hj] at hk
    cases hm
    cases hk
    exact h j (by omega)

theorem endsWith_iff (path ext : List UInt8) :
    (0 < (path.length - ext.length : Int) ∧
      path.drop (path.length - ext.length : Int).toNat = ext) ↔ EndsWith path ext := by
  have hpos : (path.length - ext.length : Int).toNat = path.length - ext.length := by omega
  rw [hpos,EndsWith,List.suffix_iff_eq_drop,eq_comm]
  exact and_congr_left fun _ => by omega

theorem typeM_ne_typeE : typeM ≠ typeE := by decide

theorem hits_iff : r.hits v path buf = true ↔
    (r.type = typeM ∧ r.Inside v buf r.offset.toNat) ∨
      (r.type = typeE ∧ EndsWith path ((r.decodedMagic v).take 128) ∧ r.after = 0) := by
  unfold Registered.hits
  dsimp only
  split_ifs with he hm
  · rw [Bool.and_eq_true,Bool.and_eq_true,beq_iff_eq,beq_iff_eq,decide_eq_true_iff,
      endsWith_iff,magic_eq,he]
    exact ⟨fun h => .inr ⟨rfl,h⟩,fun h => h.elim (fun h => absurd h.1.symm typeM_ne_typeE)
      fun h => h.2⟩
  · rw [magicLoop_inside,hm]
    exact ⟨fun h => .inl ⟨rfl,h⟩,fun h => h.elim (fun h => h.2)
      fun h => absurd h.1 typeM_ne_typeE⟩
  · exact iff_of_false id fun h => h.elim (fun h => hm h.1) fun h => he h.1

end

end ViewOS.Umbinfmt
