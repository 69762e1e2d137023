import Mathlib.Algebra.BigOperators.Group.List.Basic
import Mathlib.Algebra.Order.Ring.Nat

namespace Tiling

variable {α : Type*} {off size : α → Nat}

def Tiles (off size : α → Nat) : Nat → List α → Prop
  | _, [] => True
  | a, e :: es => off e = a ∧ 0 < size e ∧ Tiles off size (a + size e) es

instance decidableTiles : (l : List α) → (a : Nat) → Decidable (Tiles off size a l)
  | [], _ => inferInstanceAs (Decidable True)
  | e :: es, a =>
    have := decidableTiles es (a + size e)
    inferInstanceAs (Decidable (_ ∧ _ ∧ _))

def extent (size : α → Nat) (l : List α) : Nat := (l.map size).sum

@[simp] theorem extent_nil : extent size [] = 0 := rfl

@[simp] theorem extent_cons (e : α) (l : List α) : extent size (e :: l) = size e + extent size l := by
  simp [extent]

@[simp] theorem extent_append (l r : List α) :
    extent size (l ++ r) = extent size l + extent size r := by
  simp [extent]

theorem tiles_append {a : Nat} {l r : List α} :
    Tiles off size a (l ++ r) ↔ Tiles off size a l ∧ Tiles off size (a + extent size l) r := by
  induction l generalizing a with
  | nil => simp [Tiles]
  | cons e l ih =>
    rw [List.cons_append,Tiles,Tiles,ih,extent_cons,← Nat.add_assoc]
    simp only [and_assoc]

theorem Tiles.of_forall₂ {a : Nat} {l r : List α} (h : Tiles off size a l)
    (hlr : List.Forall₂ (fun e f => off f = off e ∧ size f = size e) l r) : Tiles off size a r := by
  induction hlr generalizing a with
  | nil => trivial
  | cons hef _ ih =>
    obtain ⟨h1,h2,h3⟩ := h
    refine ⟨hef.1.trans h1,hef.2.symm ▸ h2,?_⟩
    rw [hef.2]
    exact ih h3

theorem extent_of_forall₂ {l r : List α}
    (hlr : List.Forall₂ (fun e f => off f = off e ∧ size f = size e) l r) :
    extent size r = extent size l := by
  induction hlr with
  | nil => rfl
  | cons hef _ ih => rw [extent_cons,extent_cons,hef.2,ih]

theorem Tiles.bounds {a : Nat} {l : List α} (h : Tiles off size a l) {e : α} (he : e ∈ l) :
    a ≤ off e ∧ off e + size e ≤ a + extent size l := by
  induction l generalizing a with
  | nil => simp at he
  | cons f l ih =>
    obtain ⟨h1,-,h3⟩ := h
    rw [extent_cons]
    rcases List.mem_cons.mp he with rfl | he
    · omega
    · have := ih h3 he
      omega

theorem Tiles.unique {a : Nat} {l : List α} (h : Tiles off size a l) {e f : α} (he : e ∈ l)
    (hf : f ∈ l) {x : Nat} (hxe : off e ≤ x ∧ x < off e + size e)
    (hxf : off f ≤ x ∧ x < off f + size f) : e = f := by
  induction l generalizing a with
  | nil => simp at he
  | cons g l ih =>
    obtain ⟨h1,-,h3⟩ := h
    rcases List.mem_cons.mp he with rfl | he' <;> rcases List.mem_cons.mp hf with rfl | hf'
    · rfl
    · have := (h3.bounds hf').1
      omega
    · have := (h3.bounds he').1
      omega
    · exact ih h3 he' hf'

end Tiling
