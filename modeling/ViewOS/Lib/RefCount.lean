import Mathlib.Algebra.BigOperators.Group.List.Basic
import Mathlib.Algebra.Order.Group.Multiset
import Mathlib.Tactic.Abel

namespace RefCount

variable {ι : Type*} [DecidableEq ι]

def tally (refs : Multiset ι) (i : ι) : Option Int :=
  if refs.count i = 0 then none else some (refs.count i)

theorem tally_of_mem {refs : Multiset ι} {i : ι} (h : i ∈ refs) :
    tally refs i = some (refs.count i : Int) :=
  if_neg (Multiset.count_ne_zero.mpr h)

theorem tally_eq_none {refs : Multiset ι} {i : ι} : tally refs i = none ↔ i ∉ refs := by
  rw [tally,ite_eq_left_iff,← Multiset.count_eq_zero]
  simp

theorem tally_retain (refs : Multiset ι) (i : ι) :
    tally ({i} + refs) = Function.update (tally refs) i (some (refs.count i + 1)) := by
  funext j
  rcases eq_or_ne j i with rfl | hj
  · simp [tally,add_comm]
  · simp [tally,hj]

theorem tally_release (refs : Multiset ι) (i : ι) :
    tally refs = Function.update (tally ({i} + refs)) i (tally refs i) := by
  funext j
  rcases eq_or_ne j i with rfl | hj
  · simp
  · simp [tally,hj]

section Sums

variable {α M : Type*} [AddCommMonoid M]

theorem sum_map_split (f : α → M) {xs : List α} {i : Nat} {a : α} (h : xs[i]? = some a) :
    ∃ r, (xs.map f).sum = f a + r ∧ ∀ b, ((xs.set i b).map f).sum = f b + r := by
  induction xs generalizing i with
  | nil => simp at h
  | cons x xs ih =>
    cases i with
    | zero =>
      obtain rfl : x = a := by simpa using h
      exact ⟨(xs.map f).sum,by simp,by simp⟩
    | succ i =>
      obtain ⟨r,h1,h2⟩ := ih (by simpa using h)
      refine ⟨f x + r,?_,fun b => ?_⟩
      · simp only [List.map_cons,List.sum_cons,h1]
        abel
      · simp only [List.set_cons_succ,List.map_cons,List.sum_cons,h2 b]
        abel

end Sums

end RefCount
