import ViewOS.Treepoch.Model
import Mathlib.Data.List.Basic

namespace ViewOS.Treepoch

theorem wordBit_getLsbD : ∀ b < 32, ∀ i < 64,
    (wordBit b).getLsbD i = (decide (i = b) || (decide (b = 31) && decide (31 ≤ i))) := by
  decide +kernel

theorem wordBit_ne_zero (b : Nat) : wordBit b ≠ 0#64 := by
  have h : ∀ k < 32, (1#32 <<< k).signExtend 64 ≠ 0#64 := by decide +kernel
  exact h _ (Nat.mod_lt _ (by decide))

theorem getbit_setbit (v : BitVec 64) (b : Nat) (val : Bool) : getbit (setbit v b val) b = val := by
  cases val with
  | false =>
    have h : v &&& ~~~wordBit b &&& wordBit b = 0#64 := by
      ext i hi; simp
    simp [getbit,setbit,h]
  | true =>
    have h : (v ||| wordBit b) &&& wordBit b = wordBit b := by
      ext i hi
      simp
      tauto
    simp [getbit,setbit,h,wordBit_ne_zero]

theorem getLsbD_setbit_lt {v : BitVec 64} {b i : Nat} (val : Bool) (hb : b < 32) (hi : i < b) :
    (setbit v b val).getLsbD i = v.getLsbD i := by
  have hw : (wordBit b).getLsbD i = false := by
    rw [wordBit_getLsbD b hb i (by omega)]
    simp
    omega
  cases val <;> simp [setbit,hw]
  intro h
  omega

theorem getLsbD_setbit_self {v : BitVec 64} {b : Nat} (val : Bool) (hb : b < 32) :
    (setbit v b val).getLsbD b = val := by
  have hw : (wordBit b).getLsbD b = true := by
    rw [wordBit_getLsbD b hb b (by omega)]
    simp
  cases val <;> simp [setbit,hw]

theorem mask_getLsbD : ∀ len < 32, ∀ i < 64,
    ((intShl (len % 64) - 1#32).signExtend 64).getLsbD i = decide (i < len) := by
  decide +kernel

theorem diffbitstr_eq_false_iff {a b : BitVec 64} {len : Nat} (h : len < 32) :
    diffbitstr a b len = false ↔ ∀ i < len, a.getLsbD i = b.getLsbD i := by
  have hm := mask_getLsbD len h
  simp only [diffbitstr]
  generalize (intShl (len % 64) - 1#32).signExtend 64 = mask at hm
  have hsame : a &&& mask = b &&& mask ↔ ∀ i < len, a.getLsbD i = b.getLsbD i := by
    constructor
    · intro he i hi
      have hb := congrArg (fun v => v.getLsbD i) he
      simpa [hm i (by omega),hi] using hb
    · intro hb
      apply BitVec.eq_of_getLsbD_eq
      intro i hi
      simp only [BitVec.getLsbD_and,hm i hi]
      by_cases hl : i < len
      · rw [hb i hl]
      · simp [hl]
  rw [← hsame]
  by_cases h0 : mask = 0#64
  · simp [h0]
  · simp [h0]

theorem wordBit_disjoint : ∀ p < 32, ∀ q < 32, q ≠ p → wordBit p &&& wordBit q = 0#64 := by
  decide +kernel

theorem getbit_eq_getLsbD (v : BitVec 64) {i : Nat} (hi : i < 31) : getbit v i = v.getLsbD i := by
  have hw : ∀ j < 64, (wordBit i).getLsbD j = decide (j = i) := by
    intro j hj
    rw [wordBit_getLsbD i (by omega) j hj]
    simp
    omega
  have hzero : v &&& wordBit i = 0#64 ↔ v.getLsbD i = false := by
    constructor
    · intro h
      have hb := congrArg (fun w => w.getLsbD i) h
      simpa [hw i (by omega)] using hb
    · intro h
      apply BitVec.eq_of_getLsbD_eq
      intro j hj
      simp only [BitVec.getLsbD_and,hw j hj,BitVec.getLsbD_zero]
      by_cases hji : j = i
      · simp [hji,h]
      · simp [hji]
  rw [getbit,Bool.eq_iff_iff,bne_iff_ne,ne_eq,hzero,Bool.not_eq_false]

theorem getbit_setbit_of_ne (v : BitVec 64) (x : Bool) {p q : Nat} (hp : p < 32) (hq : q < 32)
    (hne : q ≠ p) : getbit (setbit v p x) q = getbit v q := by
  have hdis := wordBit_disjoint p hp q hq hne
  have hkeep : setbit v p x &&& wordBit q = v &&& wordBit q := by
    apply BitVec.eq_of_getLsbD_eq
    intro j hj
    have hj' := congrArg (fun w => w.getLsbD j) hdis
    simp only [BitVec.getLsbD_and,BitVec.getLsbD_zero] at hj'
    cases x <;> simp [setbit,hj] <;> cases h : (wordBit p).getLsbD j <;> simp_all
  rw [getbit,getbit,hkeep]

def ShiftOk (b : Nat) : Prop := b % 64 < 32

instance (b : Nat) : Decidable (ShiftOk b) := inferInstanceAs (Decidable (b % 64 < 32))

structure DiffExact (a b : BitVec 64) (len : Nat) : Prop where
  shift : ShiftOk len
  exact : diffbitstr a b len = true ↔ ∃ i < len, getbit a i ≠ getbit b i

structure BitStored (v : BitVec 64) (p : Nat) (x : Bool) (q : Nat) : Prop where
  shift : ShiftOk p ∧ ShiftOk q
  stored : getbit (setbit v p x) p = x
  kept : q ≠ p → getbit (setbit v p x) q = getbit v q

theorem diffbitstr_eq_true_iff {a b : BitVec 64} {len : Nat} (h : len < 32) :
    diffbitstr a b len = true ↔ ∃ i < len, getbit a i ≠ getbit b i := by
  have hsame : (∀ i < len, a.getLsbD i = b.getLsbD i) ↔ ∀ i < len, getbit a i = getbit b i := by
    refine forall_congr' fun i => forall_congr' fun hi => ?_
    rw [getbit_eq_getLsbD a (by omega),getbit_eq_getLsbD b (by omega)]
  rw [← Bool.not_eq_false,diffbitstr_eq_false_iff h,hsame]
  simp

theorem diffbitstr_word (a b : BitVec 64) : diffbitstr a b maxDepth = false := by
  have hmask : (intShl (maxDepth % 64) - 1#32).signExtend 64 = 0#64 := by decide
  simp [diffbitstr,hmask]

theorem diffExact_iff {a b : BitVec 64} {len : Nat} (h : len ≤ maxDepth) :
    DiffExact a b len ↔ len < 32 ∨ len = maxDepth ∧ ∀ i < maxDepth, getbit a i = getbit b i := by
  constructor
  · rintro ⟨hshift,hexact⟩
    rcases Nat.lt_or_ge len 32 with hl | hl
    · exact .inl hl
    · have hlen : len = maxDepth := by
        simp only [ShiftOk,maxDepth] at hshift h ⊢
        omega
      subst hlen
      rw [diffbitstr_word] at hexact
      exact .inr ⟨rfl,by simpa using hexact⟩
  · rintro (hl | ⟨rfl,hsame⟩)
    · exact ⟨by simp only [ShiftOk]; omega,diffbitstr_eq_true_iff hl⟩
    · exact ⟨by decide,by rw [diffbitstr_word]; simpa using hsame⟩

theorem bitStored_iff {v : BitVec 64} {p q : Nat} {x : Bool} (hp : p < maxDepth)
    (hq : q < maxDepth) : BitStored v p x q ↔ p < 32 ∧ q < 32 := by
  rw [maxDepth] at hp hq
  constructor
  · rintro ⟨⟨h1,h2⟩,-,-⟩
    simp only [ShiftOk] at h1 h2
    omega
  · rintro ⟨h1,h2⟩
    exact ⟨⟨by simp only [ShiftOk]; omega,by simp only [ShiftOk]; omega⟩,getbit_setbit v p x,
      getbit_setbit_of_ne v x h1 h2⟩

theorem bitstr_exact_iff (a b v : BitVec 64) (len p q : Nat) (x : Bool) (hlen : len ≤ maxDepth)
    (hp : p < maxDepth) (hq : q < maxDepth) :
    (DiffExact a b len ↔
      len < 32 ∨ len = maxDepth ∧ ∀ i < maxDepth, getbit a i = getbit b i) ∧
    (BitStored v p x q ↔ p < 32 ∧ q < 32) :=
  ⟨diffExact_iff hlen,bitStored_iff hp hq⟩

theorem bitstr_exact_shallow : DiffExact 5#64 1#64 31 ∧ BitStored 5#64 3 true 31 := by
  obtain ⟨hdiff,hstored⟩ := bitstr_exact_iff 5#64 1#64 5#64 31 3 31 true (by decide) (by decide)
    (by decide)
  exact ⟨hdiff.mpr (.inl (by decide)),hstored.mpr (by decide)⟩

theorem bitstr_inexact : ¬ ((∀ a b len, len ≤ maxDepth → DiffExact a b len) ∧
    ∀ v p x q, p < maxDepth → q < maxDepth → BitStored v p x q) := by
  rintro ⟨hdiff,-⟩
  have hexact := (hdiff 0#64 1#64 maxDepth (by decide)).exact
  rw [show diffbitstr 0#64 1#64 maxDepth = false by decide] at hexact
  exact Bool.noConfusion (hexact.mpr ⟨0,by decide,by decide⟩)

end ViewOS.Treepoch
