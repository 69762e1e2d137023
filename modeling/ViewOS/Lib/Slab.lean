import Mathlib.Logic.Function.Basic

-- Objects behind handles: a handle that was given back is not given out again.
structure Slab (α : Type*) where
  cell : Nat → Option α
  fresh : Nat
  fits : ∀ k, fresh ≤ k → cell k = none

namespace Slab

variable {α : Type*}

theorem empty_fits (k : Nat) (_ : 0 ≤ k) : (none : Option α) = none := rfl

def empty : Slab α where
  cell := fun _ => none
  fresh := 0
  fits := empty_fits

theorem alloc_fits (s : Slab α) (a : α) (k : Nat) (h : s.fresh + 1 ≤ k) :
    Function.update s.cell s.fresh (some a) k = none := by
  rw [Function.update_of_ne (by omega)]
  exact s.fits k (by omega)

def alloc (s : Slab α) (a : α) : Slab α where
  cell := Function.update s.cell s.fresh (some a)
  fresh := s.fresh + 1
  fits := s.alloc_fits a

theorem modify_fits (s : Slab α) (k : Nat) (f : α → α) (j : Nat) (h : s.fresh ≤ j) :
    Function.update s.cell k ((s.cell k).map f) j = none := by
  rcases eq_or_ne j k with rfl | hj
  · rw [Function.update_self,s.fits j h]
    rfl
  · rw [Function.update_of_ne hj]
    exact s.fits j h

def modify (s : Slab α) (k : Nat) (f : α → α) : Slab α where
  cell := Function.update s.cell k ((s.cell k).map f)
  fresh := s.fresh
  fits := s.modify_fits k f

theorem free_fits (s : Slab α) (k j : Nat) (h : s.fresh ≤ j) :
    Function.update s.cell k none j = none := by
  rcases eq_or_ne j k with rfl | hj
  · exact Function.update_self j none s.cell
  · rw [Function.update_of_ne hj]
    exact s.fits j h

def free (s : Slab α) (k : Nat) : Slab α where
  cell := Function.update s.cell k none
  fresh := s.fresh
  fits := s.free_fits k

end Slab
