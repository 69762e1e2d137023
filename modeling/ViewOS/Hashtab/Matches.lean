import ViewOS.Hashtab.Newest

namespace ViewOS.Hashtab
open HashChain Transition Treepoch

def rowMatches (t : Table) (test : HtElem → Bool) : Nat → Option Nat → List Nat
  | 0, _ => []
  | _, none => []
  | fuel + 1, some a =>
    let rest := rowMatches t test fuel (t.nexthash a)
    if test (t.elem a) then a :: rest else rest

def scanMatches (t : Table) (q : Query) : Nat → List Byte → Nat → BitVec 64 → List (Nat × Nat)
  | 0, _, _, _ => []
  | fuel + 1, objc, len, sum =>
    let next := scanMatches t q fuel objc.tail (len + 1) (hashadd sum (deref objc))
    if htScanStop q.type objc len q.exact then
      let ht := if len ≠ 0 then t.hash (.hash (hashmod sum)) else t.hash (.hash0 q.type)
      let met := (rowMatches t (scanTest q objc sum len) t.live.length ht).map (len, ·)
      if htScanTerminate q.type objc len q.objlen then met else met ++ next
    else next

def considered (t : Table) (q : Query) (n : Nat) : List (Nat × Nat) :=
  scanMatches t q n q.obj 0 (BitVec.ofNat 64 q.type.code)

def Reached (q : Query) (len : Nat) : Prop :=
  ∀ i < len, ¬ (htScanStop q.type (q.obj.drop i) i q.exact = true ∧
    htScanTerminate q.type (q.obj.drop i) i q.objlen = true)

section Rows

variable {t : Table} {q : Query} {row : HashHead → List Nat}

theorem rowMatches_eq (test : HtElem → Bool) {r : Ref HashHead Nat} {l : List Nat} {fuel : Nat}
    (hl : Chain t.chains r l) (hfuel : l.length ≤ fuel) :
    rowMatches t test fuel (t.chains.get r) = l.filter fun a => test (t.elem a) := by
  induction l generalizing r fuel with
  | nil =>
    rw [show t.chains.get r = none from hl]
    cases fuel <;> rfl
  | cons a l ih =>
    obtain ⟨fuel,rfl⟩ := Nat.exists_eq_add_one_of_ne_zero (Nat.ne_zero_of_lt hfuel)
    obtain ⟨hget,-,hl⟩ := hl
    have hrest : rowMatches t test fuel (t.nexthash a) = _ := ih hl (by simpa using hfuel)
    rw [hget]
    simp only [rowMatches,hrest,List.filter_cons]

structure Laid (t : Table) (row : HashHead → List Nat) : Prop where
  buckets : Buckets t.chains row
  fits : ∀ h, (row h).length ≤ t.live.length

theorem TableRep.laid {es : List Entry} (h : Contents t es) (hr : Chains t es row) : Laid t row := by
  refine ⟨hr.buckets,fun c => ?_⟩
  exact (List.subperm_of_subset (hr.buckets.nodup c) fun a ha => ((hr.mem_row h c a).mp ha).1).length_le

def bucketAt (q : Query) (sum : BitVec 64) (len : Nat) : HashHead :=
  if len ≠ 0 then .hash (hashmod sum) else .hash0 q.type

def rowAt (t : Table) (q : Query) (row : HashHead → List Nat) (objc : List Byte) (len : Nat)
    (sum : BitVec 64) : List Nat :=
  (row (bucketAt q sum len)).filter fun a => scanTest q objc sum len (t.elem a)

theorem bucket_get (q : Query) (sum : BitVec 64) (len : Nat) :
    (if len ≠ 0 then t.hash (.hash (hashmod sum)) else t.hash (.hash0 q.type)) =
      t.chains.get (.head (bucketAt q sum len)) := by
  unfold bucketAt
  split_ifs
  · rfl
  · rfl

theorem scanMatches_succ (h : Laid t row) (fuel : Nat) (objc : List Byte) (len : Nat)
    (sum : BitVec 64) : scanMatches t q (fuel + 1) objc len sum =
      if htScanStop q.type objc len q.exact then
        (rowAt t q row objc len sum).map (len, ·) ++
          if htScanTerminate q.type objc len q.objlen then []
          else scanMatches t q fuel objc.tail (len + 1) (hashadd sum (deref objc))
      else scanMatches t q fuel objc.tail (len + 1) (hashadd sum (deref objc)) := by
  simp only [scanMatches,bucket_get,rowMatches_eq _ (h.buckets.chain _) (h.fits _),rowAt]
  split_ifs
  · rw [List.append_nil]
  · rfl
  · rfl

theorem scanTest_past {objc : List Byte} {len : Nat} {sum : BitVec 64} {ht : HtElem}
    (hlen : q.obj.length < len) : scanTest q objc sum len ht = false := by
  by_contra h
  simp only [scanTest,Bool.not_eq_false,Bool.and_eq_true,beq_iff_eq] at h
  obtain ⟨⟨⟨⟨⟨⟨-,hle⟩,htake⟩,-⟩,-⟩,-⟩,-⟩ := h
  have hfits : len ≤ ht.obj.length := of_decide_eq_true hle
  have hsame := congrArg List.length htake
  simp only [List.length_take] at hsame
  omega

theorem scanMatches_past (h : Laid t row) {fuel len : Nat} {sum : BitVec 64} {objc : List Byte}
    (hlen : q.obj.length < len) : scanMatches t q fuel objc len sum = [] := by
  induction fuel generalizing objc len sum with
  | zero => rfl
  | succ fuel ih =>
    rw [scanMatches_succ h,ih (Nat.lt_succ_of_lt hlen)]
    simp [rowAt,scanTest_past hlen]

def Ahead (t : Table) (q : Query) (row : HashHead → List Nat) (k n : Nat) (m : Nat × Nat) : Prop :=
  k ≤ m.1 ∧ m.1 < k + n ∧ m.1 ≤ q.obj.length ∧
    (∀ i, k ≤ i → i < m.1 → ¬ (htScanStop q.type (q.obj.drop i) i q.exact = true ∧
      htScanTerminate q.type (q.obj.drop i) i q.objlen = true)) ∧
    Hit t q row (q.obj.take m.1) (q.obj.drop m.1) m.2

theorem ahead_succ {n k : Nat} (hk : k ≤ q.obj.length) {m : Nat × Nat} :
    Ahead t q row k (n + 1) m ↔
      m.1 = k ∧ Hit t q row (q.obj.take m.1) (q.obj.drop m.1) m.2 ∨
        ¬ (htScanStop q.type (q.obj.drop k) k q.exact = true ∧
          htScanTerminate q.type (q.obj.drop k) k q.objlen = true) ∧
        Ahead t q row (k + 1) n m := by
  constructor
  · rintro ⟨h1,h2,h3,h4,hit⟩
    rcases Nat.eq_or_lt_of_le h1 with heq | hlt
    · exact Or.inl ⟨heq.symm,hit⟩
    · exact Or.inr ⟨h4 k (Nat.le_refl k) hlt,hlt,by omega,h3,
        fun i hi => h4 i (Nat.le_of_succ_le hi),hit⟩
  · rintro (⟨heq,hit⟩ | ⟨h0,h1,h2,h3,h4,hit⟩)
    · exact ⟨by omega,by omega,by omega,fun i h1 h2 => by omega,hit⟩
    · refine ⟨Nat.le_of_succ_le h1,by omega,h3,fun i hi hl => ?_,hit⟩
      rcases Nat.eq_or_lt_of_le hi with rfl | hi
      · exact h0
      · exact h4 i hi hl

theorem mem_rowAt {k : Nat} (hk : k ≤ q.obj.length) {m : Nat × Nat} :
    m ∈ (rowAt t q row (q.obj.drop k) k (hashsum q.type (q.obj.take k))).map (k, ·) ∧
        htScanStop q.type (q.obj.drop k) k q.exact = true ↔
      m.1 = k ∧ Hit t q row (q.obj.take m.1) (q.obj.drop m.1) m.2 := by
  obtain ⟨len,a⟩ := m
  have hlen : (q.obj.take k).length = k := List.length_take_of_le hk
  have hb : bucketAt q (hashsum q.type (q.obj.take k)) k = bucketOf q (q.obj.take k) := by
    rw [bucketAt,bucketOf,hlen]
  simp only [rowAt,hb,List.mem_map,List.mem_filter,Prod.mk.injEq]
  constructor
  · rintro ⟨⟨b,⟨hrow,htest⟩,rfl,rfl⟩,hstop⟩
    exact ⟨rfl,by rw [hlen]; exact hstop,hrow,by rw [hlen]; exact htest⟩
  · rintro ⟨rfl,hstop,hrow,htest⟩
    rw [hlen] at hstop htest
    exact ⟨⟨a,⟨hrow,htest⟩,rfl,rfl⟩,hstop⟩

theorem mem_scanMatches (h : Laid t row) {n k : Nat} (hk : k ≤ q.obj.length) {m : Nat × Nat} :
    m ∈ scanMatches t q n (q.obj.drop k) k (hashsum q.type (q.obj.take k)) ↔
      Ahead t q row k n m := by
  induction n generalizing k with
  | zero =>
    simp only [scanMatches,List.not_mem_nil,false_iff,Ahead]
    omega
  | succ n ih =>
    have hnext : m ∈ scanMatches t q n (q.obj.drop k).tail (k + 1)
        (hashadd (hashsum q.type (q.obj.take k)) (deref (q.obj.drop k))) ↔
        Ahead t q row (k + 1) n m := by
      rcases Nat.lt_or_ge k q.obj.length with hlt | hge
      · have hsum : hashadd (hashsum q.type (q.obj.take k)) (deref (q.obj.drop k)) =
            hashsum q.type (q.obj.take (k + 1)) := by
          rw [← hashsum_snoc,deref,List.drop_eq_getElem_cons hlt,List.headD_cons,
            List.take_append_getElem]
        rw [hsum,List.tail_drop,ih hlt]
      · rw [scanMatches_past h (by omega)]
        simp only [List.not_mem_nil,false_iff,Ahead]
        omega
    rw [ahead_succ hk,← mem_rowAt hk,← hnext,scanMatches_succ h]
    by_cases hs : htScanStop q.type (q.obj.drop k) k q.exact = true
    · by_cases ht : htScanTerminate q.type (q.obj.drop k) k q.objlen = true
      · simp [hs,ht]
      · simp [hs,ht]
    · simp [hs]

theorem mem_considered (h : Laid t row) {n : Nat} {m : Nat × Nat} :
    m ∈ considered t q n ↔ m.1 < n ∧ m.1 ≤ q.obj.length ∧ Reached q m.1 ∧
      Hit t q row (q.obj.take m.1) (q.obj.drop m.1) m.2 := by
  have hm := mem_scanMatches (q := q) (n := n) (m := m) h (Nat.zero_le _)
  rw [List.drop_zero,List.take_zero] at hm
  refine (Iff.trans Iff.rfl hm).trans ?_
  simp [Reached,Ahead]

end Rows

end ViewOS.Hashtab
