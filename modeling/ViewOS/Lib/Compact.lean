import Mathlib.Data.List.Basic

namespace Compact

variable {α : Type*}

def moved (slots : List α) (j i : Nat) (e : α) : List α :=
  if j < i then slots.set j e else slots

structure Holds (slots : List α) (j i : Nat) (kept rest : List α) : Prop where
  le : j ≤ i
  bound : i ≤ slots.length
  kept : slots.take j = kept
  rest : slots.drop i = rest

variable {slots new kept rest : List α} {i j : Nat} {e : α}

theorem Holds.start (slots : List α) : Holds slots 0 0 [] slots :=
  ⟨Nat.le_refl 0,Nat.zero_le _,rfl,rfl⟩

theorem Holds.getElem? (h : Holds slots j i kept rest) : slots[i]? = rest.head? := by
  rw [← h.rest,List.head?_drop]

theorem Holds.skip (h : Holds slots j i kept (e :: rest)) : Holds slots j (i + 1) kept rest := by
  have hlt := (List.getElem?_eq_some_iff.mp h.getElem?).1
  refine ⟨by have := h.le; omega,hlt,h.kept,?_⟩
  rw [← List.tail_drop,h.rest,List.tail_cons]

theorem length_moved : (moved slots j i e).length = slots.length := by
  rw [moved]
  split_ifs
  · exact List.length_set
  · rfl

theorem Holds.keep (h : Holds slots j i kept (e :: rest)) :
    Holds (moved slots j i e) (j + 1) (i + 1) (kept ++ [e]) rest := by
  have hle := h.le
  have hget := h.getElem?
  rw [List.head?_cons] at hget
  obtain ⟨hlt,heq⟩ := List.getElem?_eq_some_iff.mp hget
  have hset : moved slots j i e = slots.set j e := by
    rw [moved]
    split_ifs with hji
    · rfl
    · obtain rfl : j = i := by omega
      rw [← heq,List.set_getElem_self]
  rw [hset]
  refine ⟨by omega,by rw [List.length_set]; exact hlt,?_,?_⟩
  · rw [List.take_add_one,List.take_set_of_le (Nat.le_refl j),h.kept,
      List.getElem?_set_self (by omega)]
    rfl
  · rw [List.drop_set_of_lt (by omega)]
    exact h.skip.rest

theorem Holds.grow (h : Holds slots j i kept rest) (new : List α) :
    Holds (slots ++ new) j i kept (rest ++ new) := by
  have hbound := h.bound
  refine ⟨h.le,by rw [List.length_append]; omega,?_,?_⟩
  · rw [List.take_append_of_le_length (by have := h.le; omega),h.kept]
  · rw [List.drop_append_of_le_length hbound,h.rest]

theorem split_at (h : slots[i]? = some e) :
    ∃ a b, slots = a ++ e :: b ∧ a.length = i ∧ ∀ x, slots.set i x = a ++ x :: b := by
  obtain ⟨hlt,rfl⟩ := List.getElem?_eq_some_iff.mp h
  refine ⟨slots.take i,slots.drop (i + 1),?_,List.length_take_of_le (Nat.le_of_lt hlt),
    fun x => ?_⟩
  · rw [List.getElem_cons_drop,List.take_append_drop]
  · exact List.set_eq_take_append_cons_drop.trans (if_pos hlt)

def squeeze (keep : α → Bool) : Nat → List α → Nat → Nat → List α
  | 0, slots, _, j => slots.take j
  | n + 1, slots, i, j =>
    match slots[i]? with
    | none => slots.take j
    | some e =>
      if keep e then squeeze keep n (moved slots j i e) (i + 1) (j + 1)
      else squeeze keep n slots (i + 1) j

theorem Holds.squeeze (keep : α → Bool) (h : Holds slots j i kept rest) :
    squeeze keep rest.length slots i j = kept ++ rest.filter keep := by
  induction rest generalizing slots i j kept with
  | nil => rw [List.length_nil,Compact.squeeze,h.kept,List.filter_nil,List.append_nil]
  | cons e rest ih =>
    rw [List.length_cons,Compact.squeeze,h.getElem?,List.head?_cons]
    dsimp only
    split_ifs with hkeep
    · rw [ih h.keep,List.filter_cons_of_pos hkeep,List.append_assoc,List.singleton_append]
    · rw [ih h.skip,List.filter_cons_of_neg hkeep]

end Compact
