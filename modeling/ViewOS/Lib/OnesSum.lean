import Mathlib.Algebra.Order.Ring.Nat
import Mathlib.Algebra.BigOperators.Group.List.Basic

namespace OnesSum

def fold (acc : Nat) : Nat :=
  let sum := acc % 65536 + acc / 65536
  (sum + sum / 65536) % 65536

def swap (w : Nat) : Nat := w % 256 * 256 + w / 256

variable {acc : Nat}

theorem fold_eq (h : acc < 4294967296) :
    fold acc = if acc = 0 then 0 else (acc - 1) % 65535 + 1 := by
  obtain ⟨b,a,ha,hb,rfl⟩ : ∃ b a, a < 65536 ∧ b < 65536 ∧ acc = 65536 * b + a :=
    ⟨acc / 65536,acc % 65536,Nat.mod_lt _ (by decide),by omega,(Nat.div_add_mod _ _).symm⟩
  have hsum : fold (65536 * b + a) = if a + b < 65536 then a + b else a + b - 65535 := by
    rw [fold]
    split_ifs <;> omega
  have hmod : (65536 * b + a - 1) % 65535 = (a + b - 1) % 65535 := by omega
  rw [hsum,hmod]
  split_ifs <;> omega

theorem fold_eq_ones_iff (h : acc < 4294967296) :
    fold acc = 65535 ↔ acc ≠ 0 ∧ acc % 65535 = 0 := by
  rw [fold_eq h]
  split_ifs with h0
  · simp [h0]
  · omega

theorem fold_fill (h : acc < 4294901760) : fold (acc + (65535 - fold acc)) = 65535 := by
  rw [fold_eq_ones_iff (by omega),fold_eq (by omega)]
  split_ifs <;> omega

theorem swap_lt {w : Nat} (h : w < 65536) : swap w < 65536 := by
  rw [swap]
  omega

theorem swap_eq_zero {w : Nat} (h : w < 65536) : swap w = 0 ↔ w = 0 := by
  rw [swap]
  omega

theorem swap_swap {w : Nat} (h : w < 65536) : swap (swap w) = w := by
  rw [swap,swap]
  omega

theorem swap_mod (w : Nat) : swap w % 65535 = 256 * w % 65535 := by
  rw [swap]
  omega

theorem sum_le {ws : List Nat} (h : ∀ w ∈ ws, w < 65536) : ws.sum ≤ 65535 * ws.length := by
  induction ws with
  | nil => exact Nat.zero_le _
  | cons w ws ih =>
    rw [List.forall_mem_cons] at h
    have hs := ih h.2
    rw [List.sum_cons,List.length_cons]
    omega

-- The number of 1 to 65535 that an accumulator other than 0 stands for.
def canon (acc : Nat) : Nat := if acc = 0 then 0 else (acc - 1) % 65535 + 1

def wrap (acc : Nat) : Nat := if acc < 65536 then acc else wrap (acc % 65536 + acc / 65536)
termination_by acc
decreasing_by omega

theorem canon_lt (acc : Nat) : canon acc < 65536 := by
  rw [canon]
  split_ifs <;> omega

theorem canon_mod (acc : Nat) : canon acc % 65535 = acc % 65535 := by
  rw [canon]
  split_ifs <;> omega

theorem canon_eq_zero : canon acc = 0 ↔ acc = 0 := by
  rw [canon]
  split_ifs with h <;> simp [h]

theorem eq_canon {x : Nat} (hlt : x < 65536) (hmod : x % 65535 = acc % 65535) (hzero : x = 0 ↔ acc = 0) :
    x = canon acc := by
  rw [canon]
  split_ifs <;> omega

theorem wrap_eq (acc : Nat) : wrap acc = canon acc := by
  induction acc using Nat.strongRecOn with
  | ind acc ih =>
    rw [wrap]
    split_ifs with h
    · exact eq_canon h rfl Iff.rfl
    · rw [ih _ (by omega)]
      exact eq_canon (canon_lt _) (by rw [canon_mod]; omega) (by rw [canon_eq_zero]; omega)

theorem canon_inj {acc' : Nat} (hzero : acc = 0 ↔ acc' = 0) :
    canon acc = canon acc' ↔ acc % 65535 = acc' % 65535 := by
  constructor
  · intro h
    rw [← canon_mod acc,← canon_mod acc',h]
  · intro h
    exact eq_canon (canon_lt _) ((canon_mod acc).trans h) (canon_eq_zero.trans hzero)

theorem canon_of_lt (h : acc < 65536) : canon acc = acc := (eq_canon h rfl Iff.rfl).symm

theorem eq_iff_mod {x y : Nat} (hx : x < 65536) (hy : y < 65536) (hzero : x = 0 ↔ y = 0) :
    x = y ↔ x % 65535 = y % 65535 := by
  rw [← canon_inj hzero,canon_of_lt hx,canon_of_lt hy]

theorem canon_add (a b : Nat) : canon (canon a + b) = canon (a + b) := by
  have hmod := canon_mod a
  have hzero := @canon_eq_zero a
  exact (canon_inj (by omega)).mpr (by omega)

theorem canon_eq_ones : canon acc = 65535 ↔ acc ≠ 0 ∧ acc % 65535 = 0 := by
  rw [canon]
  split_ifs with h
  · simp [h]
  · omega

theorem canon_fill (acc : Nat) : canon (acc + (65535 - canon acc)) = 65535 := by
  rw [canon,canon]
  split_ifs <;> omega

def add (a b : Nat) : Nat := if a + b < 65536 then a + b else a + b - 65535

def onesSum (ws : List Nat) : Nat := ws.foldl add 0

theorem foldl_add {ws : List Nat} (h : ∀ w ∈ ws, w < 65536) (hacc : acc < 65536) :
    ws.foldl add acc = canon (acc + ws.sum) := by
  induction ws generalizing acc with
  | nil => exact (canon_of_lt hacc).symm
  | cons w ws ih =>
    rw [List.forall_mem_cons] at h
    have hlt : add acc w < 65536 := by
      rw [add]
      split_ifs <;> omega
    have hadd : add acc w = canon (acc + w) := by
      apply eq_canon hlt
      all_goals rw [add]; split_ifs <;> omega
    rw [List.foldl_cons,ih h.2 hlt,hadd,canon_add,List.sum_cons,add_assoc]

theorem onesSum_eq {ws : List Nat} (h : ∀ w ∈ ws, w < 65536) : onesSum ws = canon ws.sum := by
  rw [onesSum,foldl_add h (by decide),zero_add]

end OnesSum
