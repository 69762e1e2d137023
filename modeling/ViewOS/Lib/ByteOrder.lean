import Mathlib.Data.Nat.Bitwise

namespace ByteOrder

abbrev Byte := Fin 256

inductive Endian where
  | little
  | big
  deriving DecidableEq

def encLE : Nat → Nat → List Byte
  | 0, _ => []
  | n + 1, v => Fin.ofNat 256 v :: encLE n (v / 256)

def decLE : List Byte → Nat
  | [] => 0
  | b :: l => b.val + 256 * decLE l

def store : Endian → Nat → Nat → List Byte
  | .little, n, v => encLE n v
  | .big, n, v => (encLE n v).reverse

def load : Endian → List Byte → Nat
  | .little, l => decLE l
  | .big, l => decLE l.reverse

def readAt (m : Nat → Byte) (a n : Nat) : List Byte := (List.range n).map fun j => m (a + j)

def writeAt (m : Nat → Byte) (a : Nat) (l : List Byte) (j : Nat) : Byte :=
  if a ≤ j then (l[j - a]?).getD (m j) else m j

variable {e : Endian} {n v a b : Nat} {l : List Byte} {m : Nat → Byte}

theorem length_encLE (n v : Nat) : (encLE n v).length = n := by
  induction n generalizing v with
  | zero => rfl
  | succ n ih => exact congrArg (· + 1) (ih _)

@[simp]
theorem length_store (e : Endian) (n v : Nat) : (store e n v).length = n := by
  cases e with
  | little => exact length_encLE n v
  | big => rw [store,List.length_reverse,length_encLE]

theorem decLE_encLE (n v : Nat) : decLE (encLE n v) = v % 256 ^ n := by
  induction n generalizing v with
  | zero => simp [encLE,decLE,Nat.mod_one]
  | succ n ih =>
    rw [encLE,decLE,ih,Nat.pow_succ',Nat.mod_mul]
    rfl

theorem load_store (h : v < 256 ^ n) : load e (store e n v) = v := by
  cases e with
  | little => rw [load,store,decLE_encLE,Nat.mod_eq_of_lt h]
  | big => rw [load,store,List.reverse_reverse,decLE_encLE,Nat.mod_eq_of_lt h]

theorem encLE_decLE (l : List Byte) : encLE l.length (decLE l) = l := by
  induction l with
  | nil => rfl
  | cons b l ih =>
    have hhead : Fin.ofNat 256 (b.val + 256 * decLE l) = b := by
      apply Fin.ext
      have hb := b.isLt
      simp only [Fin.ofNat]
      omega
    have htail : (b.val + 256 * decLE l) / 256 = decLE l := by
      have hb := b.isLt
      omega
    rw [List.length_cons,decLE,encLE,hhead,htail,ih]

theorem store_load (e : Endian) (l : List Byte) : store e l.length (load e l) = l := by
  cases e with
  | little => exact encLE_decLE l
  | big =>
    have hrev := encLE_decLE l.reverse
    rw [List.length_reverse] at hrev
    rw [store,load,hrev,List.reverse_reverse]

theorem decLE_lt (l : List Byte) : decLE l < 256 ^ l.length := by
  induction l with
  | nil => exact Nat.one_pos
  | cons b l ih =>
    have hb := b.isLt
    rw [decLE,List.length_cons,Nat.pow_succ']
    omega

theorem load_lt (e : Endian) (l : List Byte) : load e l < 256 ^ l.length := by
  cases e with
  | little => exact decLE_lt l
  | big =>
    have hlt := decLE_lt l.reverse
    rwa [List.length_reverse] at hlt

theorem decLE_take (l : List Byte) (n : Nat) : decLE (l.take n) = decLE l % 256 ^ n := by
  induction n generalizing l with
  | zero => simp [decLE,Nat.mod_one]
  | succ n ih =>
    cases l with
    | nil => simp [decLE]
    | cons b l =>
      have hb := b.isLt
      have hmod : (b.val + 256 * decLE l) % 256 = b.val := by omega
      have hdiv : (b.val + 256 * decLE l) / 256 = decLE l := by omega
      rw [List.take_succ_cons,decLE,decLE,ih,Nat.pow_succ',Nat.mod_mul,hmod,hdiv]

@[simp]
theorem length_readAt (m : Nat → Byte) (a n : Nat) : (readAt m a n).length = n := by
  rw [readAt,List.length_map,List.length_range]

theorem readAt_writeAt : readAt (writeAt m a l) a l.length = l := by
  apply List.ext_getElem
  · simp [readAt]
  · intro j h₁ h₂
    simp [readAt,writeAt,h₂]

theorem writeAt_of_disjoint {j : Nat} (h : j < a ∨ a + l.length ≤ j) : writeAt m a l j = m j := by
  rw [writeAt]
  split
  · rw [List.getElem?_eq_none (by omega)]
    rfl
  · rfl

theorem readAt_writeAt_of_disjoint (h : b + n ≤ a ∨ a + l.length ≤ b) :
    readAt (writeAt m a l) b n = readAt m b n := by
  refine List.map_congr_left fun j hj => writeAt_of_disjoint ?_
  have hj' := List.mem_range.mp hj
  omega

end ByteOrder
