import Mathlib.Tactic.Common

namespace ViewOS.Lwip

def ipReassBufsize : Nat := 65535

def ip4ReassBitmapSize : Nat := ipReassBufsize / 64

abbrev Bitmap := Nat → BitVec 8

def bitmapBits : Nat → BitVec 8
  | 0 => 0xff
  | 1 => 0x7f
  | 2 => 0x3f
  | 3 => 0x1f
  | 4 => 0x0f
  | 5 => 0x07
  | 6 => 0x03
  | _ => 0x01

def Bitmap.orAt (bit : Bitmap) (i : Nat) (b : BitVec 8) : Bitmap :=
  fun k => if k = i then bit k ||| b else bit k

def Bitmap.setBetween (bit : Bitmap) (i j : Nat) : Bitmap :=
  fun k => if i ≤ k ∧ k < j then 0xff else bit k

def fillBitmap (bit : Bitmap) (off len : Nat) : Bitmap :=
  ((bit.orAt (off / 64) (bitmapBits (off / 8 % 8))).setBetween (1 + off / 64)
    ((off + len) / 64)).orAt ((off + len) / 64) (~~~ bitmapBits ((off + len) / 8 % 8))

def updateBitmap (bit : Bitmap) (off len : Nat) : Bitmap :=
  if off / 64 = (off + len) / 64 then
    bit.orAt (off / 64) (bitmapBits (off / 8 % 8) &&& ~~~ bitmapBits ((off + len) / 8 % 8))
  else
    fillBitmap bit off len

def testedBytes (len : Nat) : Nat := (len / 64 + 4294967295) % 4294967296

def complete (bit : Bitmap) (len : Nat) : Option Bool :=
  if ∃ i < min (testedBytes len) ip4ReassBitmapSize, bit i ≠ 0xff then
    some false
  else if ip4ReassBitmapSize < testedBytes len ∨ ip4ReassBitmapSize ≤ len / 64 then
    none
  else
    some (bit (len / 64) = ~~~ bitmapBits (len / 8 % 8))

def Bitmap.Marked (bit : Bitmap) (u : Nat) : Prop := (bit (u / 8)).getLsbD (7 - u % 8) = true

instance (bit : Bitmap) (u : Nat) : Decidable (bit.Marked u) := inferInstanceAs (Decidable (_ = _))

variable {bit : Bitmap} {i j u : Nat} {b : BitVec 8}

theorem getLsbD_bitmapBits (hi : i < 8) (hj : j < 8) :
    (bitmapBits i).getLsbD (7 - j) = decide (i ≤ j) := by
  have h : ∀ i j : Fin 8, (bitmapBits i.val).getLsbD (7 - j.val) = decide (i.val ≤ j.val) := by
    decide
  exact h ⟨i,hi⟩ ⟨j,hj⟩

theorem getLsbD_not_bitmapBits (hi : i < 8) (hj : j < 8) :
    (~~~ bitmapBits i).getLsbD (7 - j) = decide (j < i) := by
  rw [BitVec.getLsbD_not,getLsbD_bitmapBits hi hj]
  by_cases h : i ≤ j
  · simp [h]
  · simp [h]
    omega

theorem marked_orAt :
    (bit.orAt i b).Marked u ↔ bit.Marked u ∨ u / 8 = i ∧ b.getLsbD (7 - u % 8) = true := by
  rw [Bitmap.Marked,Bitmap.orAt,Bitmap.Marked]
  split_ifs with h
  · simp [h,BitVec.getLsbD_or]
  · simp [h]

theorem marked_setBetween :
    (bit.setBetween i j).Marked u ↔ bit.Marked u ∨ i ≤ u / 8 ∧ u / 8 < j := by
  rw [Bitmap.Marked,Bitmap.setBetween,Bitmap.Marked]
  split_ifs with h
  · refine iff_of_true ?_ (.inr h)
    exact (getLsbD_bitmapBits (by decide : 0 < 8) (Nat.mod_lt u (by decide))).trans (by simp)
  · simp [h]

theorem marked_updateBitmap (off len : Nat) :
    (updateBitmap bit off len).Marked u ↔
      bit.Marked u ∨ off / 8 ≤ u ∧ u < (off + len) / 8 := by
  have hu : u % 8 < 8 := Nat.mod_lt u (by decide)
  have ho : off / 8 % 8 < 8 := Nat.mod_lt _ (by decide)
  have he : (off + len) / 8 % 8 < 8 := Nat.mod_lt _ (by decide)
  rw [updateBitmap]
  split_ifs with h
  · rw [marked_orAt,BitVec.getLsbD_and,getLsbD_bitmapBits ho hu,getLsbD_not_bitmapBits he hu,
      Bool.and_eq_true,decide_eq_true_iff,decide_eq_true_iff]
    apply or_congr_right
    omega
  · rw [fillBitmap,marked_orAt,marked_setBetween,marked_orAt,getLsbD_bitmapBits ho hu,
      getLsbD_not_bitmapBits he hu,decide_eq_true_iff,decide_eq_true_iff,or_assoc,or_assoc]
    apply or_congr_right
    omega

theorem marked_fillBitmap_header {len : Nat} (h : len < 64) :
    (fillBitmap (fun _ => 0) 0 len).Marked u ↔ u < 8 := by
  have hu : u % 8 < 8 := Nat.mod_lt u (by decide)
  have he : (0 + len) / 8 % 8 < 8 := Nat.mod_lt _ (by decide)
  have h0 : ¬ Bitmap.Marked (fun _ => 0) u := by simp [Bitmap.Marked]
  rw [fillBitmap,marked_orAt,marked_setBetween,marked_orAt,
    getLsbD_bitmapBits (Nat.mod_lt _ (by decide)) hu,getLsbD_not_bitmapBits he hu,
    decide_eq_true_iff,decide_eq_true_iff,or_iff_right h0]
  omega

theorem full_iff : bit i = 0xff ↔ ∀ u, u / 8 = i → bit.Marked u := by
  constructor
  · rintro h u rfl
    rw [Bitmap.Marked,h]
    exact (getLsbD_bitmapBits (by decide : 0 < 8) (Nat.mod_lt u (by decide))).trans (by simp)
  · intro h
    apply BitVec.eq_of_getLsbD_eq
    intro k hk
    have hu := h (8 * i + (7 - k)) (by omega)
    rw [Bitmap.Marked,show (8 * i + (7 - k)) / 8 = i by omega,
      show 7 - (8 * i + (7 - k)) % 8 = k by omega] at hu
    have hff := getLsbD_bitmapBits (by decide : 0 < 8) (by omega : 7 - k < 8)
    rw [show 7 - (7 - k) = k by omega] at hff
    rw [hu,eq_comm]
    exact hff.trans (by simp)

theorem upTo_iff {m : Nat} (hm : m < 8) :
    bit i = ~~~ bitmapBits m ↔ ∀ u, u / 8 = i → (bit.Marked u ↔ u % 8 < m) := by
  constructor
  · rintro h u rfl
    rw [Bitmap.Marked,h,getLsbD_not_bitmapBits hm (Nat.mod_lt u (by decide)),decide_eq_true_iff]
  · intro h
    apply BitVec.eq_of_getLsbD_eq
    intro k hk
    have hu := h (8 * i + (7 - k)) (by omega)
    rw [Bitmap.Marked,show (8 * i + (7 - k)) / 8 = i by omega,
      show 7 - (8 * i + (7 - k)) % 8 = k by omega,
      show (8 * i + (7 - k)) % 8 = 7 - k by omega] at hu
    have hnot := getLsbD_not_bitmapBits hm (by omega : 7 - k < 8)
    rw [show 7 - (7 - k) = k by omega] at hnot
    rw [hnot,Bool.eq_iff_iff,hu,decide_eq_true_iff]

theorem complete_eq_true {len : Nat} (h : complete bit len = some true) :
    64 ≤ len ∧ (∀ i, i + 1 < len / 64 → bit i = 0xff) ∧
      bit (len / 64) = ~~~ bitmapBits (len / 8 % 8) := by
  have hgap : ¬ ∃ i < min (testedBytes len) ip4ReassBitmapSize, bit i ≠ 0xff := by
    intro hgap
    rw [complete,if_pos hgap] at h
    cases h
  rw [complete,if_neg hgap] at h
  split_ifs at h with hout
  rw [not_or,Nat.not_lt,Nat.not_le,testedBytes,ip4ReassBitmapSize,ipReassBufsize] at hout
  have hlow : 64 ≤ len := by omega
  have htested : testedBytes len = len / 64 - 1 := by
    rw [testedBytes]
    omega
  refine ⟨hlow,fun i hi => ?_,by simpa using h⟩
  by_contra hne
  refine hgap ⟨i,?_,hne⟩
  rw [htested,ip4ReassBitmapSize,ipReassBufsize]
  omega

end ViewOS.Lwip
