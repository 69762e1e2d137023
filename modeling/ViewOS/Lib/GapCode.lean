import Mathlib.Tactic.Common

namespace GapCode

variable {α : Type*} {w s : Nat} {filler : α}

def Ascending : Nat → List (Nat × α) → Prop
  | _, [] => True
  | s, x :: xs => s ≤ x.1 ∧ Ascending x.1 xs

def encode (w : Nat) (filler : α) : Nat → List (Nat × α) → List (Nat × α)
  | _, [] => []
  | s, x :: xs => List.replicate ((x.1 - s) / w) (w, filler) ++
      ((x.1 - s) % w, x.2) :: encode w filler x.1 xs

def places : Nat → List (Nat × α) → List (Nat × Nat × α)
  | _, [] => []
  | s, c :: cs => (s + c.1, c) :: places (s + c.1) cs

def decode (w s : Nat) (cs : List (Nat × α)) : List (Nat × α) :=
  (places s cs).filterMap fun p => if p.2.1 = w then none else some (p.1, p.2.2)

theorem Ascending.weaken {xs : List (Nat × α)} {t : Nat} (h : Ascending s xs) (hts : t ≤ s) :
    Ascending t xs := by
  cases xs with
  | nil => trivial
  | cons x xs => exact ⟨Nat.le_trans hts h.1,h.2⟩

theorem Ascending.insert {xs : List (Nat × α)} (h : Ascending s xs) (x : Nat × α) (hx : s ≤ x.1) :
    Ascending s (xs.takeWhile (fun y => y.1 < x.1) ++ x :: xs.dropWhile fun y => y.1 < x.1) := by
  induction xs generalizing s with
  | nil => exact ⟨hx,trivial⟩
  | cons y xs ih =>
    by_cases hy : y.1 < x.1
    · rw [List.takeWhile_cons_of_pos (by simpa),List.dropWhile_cons_of_pos (by simpa)]
      exact ⟨h.1,ih h.2 (Nat.le_of_lt hy)⟩
    · rw [List.takeWhile_cons_of_neg (by simpa using hy),List.dropWhile_cons_of_neg (by simpa using hy)]
      exact ⟨hx,Nat.le_of_not_lt hy,h.2⟩

theorem Ascending.sublist {xs ys : List (Nat × α)} (hsub : ys.Sublist xs) (h : Ascending s xs) :
    Ascending s ys := by
  induction hsub generalizing s with
  | slnil => trivial
  | cons x _ ih => exact (ih h.2).weaken h.1
  | cons_cons x _ ih => exact ⟨h.1,ih h.2⟩

theorem Ascending.le {xs : List (Nat × α)} (h : Ascending s xs) {x : Nat × α} (hx : x ∈ xs) :
    s ≤ x.1 := by
  induction xs generalizing s with
  | nil => cases hx
  | cons y xs ih =>
    rcases List.mem_cons.mp hx with rfl | hx
    · exact h.1
    · exact Nat.le_trans h.1 (ih h.2 hx)

theorem encode_far (hw : 0 < w) {x : Nat × α} {xs : List (Nat × α)} (h : s + w ≤ x.1) :
    encode w filler s (x :: xs) = (w, filler) :: encode w filler (s + w) (x :: xs) := by
  have hgap : x.1 - s = x.1 - (s + w) + w := by omega
  simp only [encode,hgap,Nat.add_div_right _ hw,Nat.add_mod_right,List.replicate_succ,
    List.cons_append]

theorem encode_near {x : Nat × α} {xs : List (Nat × α)} (h : x.1 < s + w) (hs : s ≤ x.1) :
    encode w filler s (x :: xs) = (x.1 - s, x.2) :: encode w filler x.1 xs := by
  have hlt : x.1 - s < w := by omega
  simp only [encode,Nat.div_eq_of_lt hlt,Nat.mod_eq_of_lt hlt,List.replicate_zero,List.nil_append]

theorem encode_induction (hw : 0 < w) {P : Nat → List (Nat × α) → Prop} (nil : ∀ s, P s [])
    (far : ∀ s x xs, s + w ≤ x.1 → Ascending s (x :: xs) → P (s + w) (x :: xs) → P s (x :: xs))
    (near : ∀ s x xs, x.1 < s + w → Ascending s (x :: xs) → P x.1 xs → P s (x :: xs))
    (xs : List (Nat × α)) (s : Nat) (h : Ascending s xs) : P s xs := by
  induction xs generalizing s with
  | nil => exact nil s
  | cons x xs ih =>
    have hrest : P x.1 xs := ih x.1 h.2
    obtain ⟨n,hn⟩ : ∃ n, x.1 - s ≤ n := ⟨_,Nat.le_refl _⟩
    induction n generalizing s with
    | zero => exact near s x xs (by have := h.1; omega) h hrest
    | succ n ihn =>
      by_cases hfar : s + w ≤ x.1
      · exact far s x xs hfar h (ihn (s + w) ⟨hfar,h.2⟩ (by omega))
      · exact near s x xs (Nat.lt_of_not_le hfar) h hrest

theorem decode_encode (hw : 0 < w) {xs : List (Nat × α)} (h : Ascending s xs) :
    decode w s (encode w filler s xs) = xs := by
  apply encode_induction hw (P := fun s xs => decode w s (encode w filler s xs) = xs) _ _ _ xs s h
  · intro s
    rfl
  · intro s x xs hfar _ ih
    rw [encode_far hw hfar,decode,places,List.filterMap_cons_none (by simp)]
    exact ih
  · intro s x xs hnear h ih
    have hpos : s + (x.1 - s) = x.1 := Nat.add_sub_cancel' h.1
    have hgap : x.1 - s ≠ w := by have := h.1; omega
    rw [encode_near hnear h.1,decode,places,List.filterMap_cons_some (b := x) (by simp [hgap,hpos]),
      hpos]
    exact congrArg (x :: ·) ih

theorem gap_le_of_mem_encode (hw : 0 < w) {xs : List (Nat × α)} {c : Nat × α}
    (hc : c ∈ encode w filler s xs) : c.1 ≤ w ∧ (c.1 = w → c.2 = filler) := by
  induction xs generalizing s with
  | nil => cases hc
  | cons x xs ih =>
    rcases List.mem_append.mp hc with hc | hc
    · rw [List.eq_of_mem_replicate hc]
      exact ⟨Nat.le_refl w,fun _ => rfl⟩
    · rcases List.mem_cons.mp hc with rfl | hc
      · have hlt := Nat.mod_lt (x.1 - s) hw
        exact ⟨Nat.le_of_lt hlt,fun h => absurd h (Nat.ne_of_lt hlt)⟩
      · exact ih hc

theorem le_of_mem_places {cs : List (Nat × α)} {p : Nat × Nat × α} (hp : p ∈ places s cs) :
    s + p.2.1 ≤ p.1 := by
  induction cs generalizing s with
  | nil => cases hp
  | cons c cs ih =>
    rcases List.mem_cons.mp hp with rfl | hp
    · exact Nat.le_refl _
    · have := ih hp
      omega

theorem places_pairwise (s : Nat) (cs : List (Nat × α)) :
    (places s cs).Pairwise fun p q => p.1 + q.2.1 ≤ q.1 := by
  induction cs generalizing s with
  | nil => exact .nil
  | cons c cs ih => exact .cons (fun q hq => le_of_mem_places hq) (ih _)

theorem cell_mem_of_mem_places {cs : List (Nat × α)} {p : Nat × Nat × α} (hp : p ∈ places s cs) :
    p.2 ∈ cs := by
  induction cs generalizing s with
  | nil => cases hp
  | cons c cs ih =>
    rcases List.mem_cons.mp hp with rfl | hp
    · exact List.mem_cons_self
    · exact List.mem_cons_of_mem _ (ih hp)

theorem exists_value_of_mem_places (hw : 0 < w) {xs : List (Nat × α)} (h : Ascending s xs) :
    ∀ p ∈ places s (encode w filler s xs), ∃ x ∈ xs, p.1 ≤ x.1 := by
  apply encode_induction hw
    (P := fun s xs => ∀ p ∈ places s (encode w filler s xs), ∃ x ∈ xs, p.1 ≤ x.1) _ _ _ xs s h
  · intro s p hp
    cases hp
  · intro s x xs hfar _ ih p hp
    rw [encode_far hw hfar] at hp
    rcases List.mem_cons.mp hp with rfl | hp
    · exact ⟨x,List.mem_cons_self,hfar⟩
    · exact ih p hp
  · intro s x xs hnear h ih p hp
    have hpos : s + (x.1 - s) = x.1 := Nat.add_sub_cancel' h.1
    rw [encode_near hnear h.1,places,hpos] at hp
    rcases List.mem_cons.mp hp with rfl | hp
    · exact ⟨x,List.mem_cons_self,Nat.le_refl _⟩
    · obtain ⟨y,hy,hle⟩ := ih p hp
      exact ⟨y,List.mem_cons_of_mem _ hy,hle⟩

theorem length_encode_cons (x : Nat × α) (xs : List (Nat × α)) :
    (encode w filler s (x :: xs)).length = (x.1 - s) / w + 1 + (encode w filler x.1 xs).length := by
  simp only [encode,List.length_append,List.length_replicate,List.length_cons]
  omega

theorem length_encode_earlier (hw : 0 < w) {t : Nat} {xs : List (Nat × α)} (h : Ascending t xs)
    (hst : s ≤ t) : (encode w filler s xs).length ≤ (t - s) / w + 1 + (encode w filler t xs).length := by
  cases xs with
  | nil => exact Nat.zero_le _
  | cons x xs =>
    have hsum : x.1 - s = (t - s) + (x.1 - t) := by have := h.1; omega
    have hdiv : (x.1 - s) / w ≤ (t - s) / w + (x.1 - t) / w + 1 := by
      rw [hsum,Nat.add_div hw]
      split_ifs <;> omega
    rw [length_encode_cons,length_encode_cons]
    omega

theorem length_encode_sublist (hw : 0 < w) {xs ys : List (Nat × α)} (hsub : ys.Sublist xs)
    (h : Ascending s xs) : (encode w filler s ys).length ≤ (encode w filler s xs).length := by
  induction hsub generalizing s with
  | slnil => exact Nat.le_refl _
  | @cons ys xs x hsub ih =>
    have hearlier : (encode w filler s ys).length ≤ (x.1 - s) / w + 1 + (encode w filler x.1 ys).length :=
      length_encode_earlier hw (h.2.sublist hsub) h.1
    have := ih h.2
    rw [length_encode_cons]
    omega
  | cons_cons x _ ih =>
    have := ih h.2
    rw [length_encode_cons,length_encode_cons]
    omega

theorem lt_of_mem_encode (hw : 0 < w) {xs : List (Nat × α)} (h : Ascending s xs) :
    ∀ x ∈ xs, x.1 < s + w * (encode w filler s xs).length := by
  apply encode_induction hw
    (P := fun s xs => ∀ x ∈ xs, x.1 < s + w * (encode w filler s xs).length) _ _ _ xs s h
  · intro s x hx
    cases hx
  · intro s x xs hfar _ ih y hy
    have := ih y hy
    rw [encode_far hw hfar,List.length_cons,Nat.mul_add,Nat.mul_one]
    omega
  · intro s x xs hnear h ih y hy
    rw [encode_near hnear h.1,List.length_cons,Nat.mul_add,Nat.mul_one]
    rcases List.mem_cons.mp hy with rfl | hy
    · omega
    · have := ih y hy
      omega

end GapCode
