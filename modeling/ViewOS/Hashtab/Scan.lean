import ViewOS.Hashtab.Carrot

namespace ViewOS.Hashtab
open HashChain

def layerTime (t : Table) (q : Query) (a : Nat) : Nat :=
  matchingepoch q.te (some q.tst) (t.elem a).tst

def bucketOf (q : Query) (u : List Byte) : HashHead :=
  if u.length ≠ 0 then .hash (hashmod (hashsum q.type u)) else .hash0 q.type

structure Hit (t : Table) (q : Query) (row : HashHead → List Nat) (u v : List Byte) (a : Nat) :
    Prop where
  stop : htScanStop q.type v u.length q.exact
  bucket : a ∈ row (bucketOf q u)
  test : scanTest q v (hashsum q.type u) u.length (t.elem a)

structure StringKeyed (q : Query) : Prop where
  stop : ∀ objc len, deref objc = 0 → htScanStop q.type objc len q.exact
  terminate : ∀ objc len, htScanTerminate q.type objc len q.objlen = (deref objc == 0)

theorem hashsum_snoc (type : CheckType) (u : List Byte) (c : Byte) :
    hashsum type (u ++ [c]) = hashadd (hashsum type u) c := by
  simp [hashsum,List.foldl_append]

theorem splits_cons {c : Byte} {s : List Byte} {P : List Byte → List Byte → Prop} :
    (∃ u v, c :: s = u ++ v ∧ P u v) ↔ P [] (c :: s) ∨ ∃ u v, s = u ++ v ∧ P (c :: u) v := by
  constructor
  · rintro ⟨u,v,h,hp⟩
    cases u with
    | nil => exact Or.inl (by simpa [h] using hp)
    | cons d u =>
      obtain ⟨rfl,rfl⟩ := List.cons.inj h
      exact Or.inr ⟨u,v,rfl,hp⟩
  · rintro (hp | ⟨u,v,rfl,hp⟩)
    · exact ⟨[],_,rfl,hp⟩
    · exact ⟨c :: u,v,rfl,hp⟩

section Search

variable {t : Table} {q : Query} {S : Nat → Prop}

theorem confirmed_of_free (a : Nat) (h : (t.elem a).confirmfun = none) : confirmed t q a := by
  simp [confirmed,h]

theorem scanHash_inv (test : HtElem → Bool) {r : Ref HashHead Nat} {l : List Nat} {fuel : Nat}
    {carh : List Carrot} (hl : Chain t.chains r l)
    (hneg : ∀ a ∈ l, test (t.elem a) → (t.elem a).confirmfun ≠ some .negativeMount)
    (hfuel : l.length ≤ fuel) (h : CarrotInv S (confirmed t q) (layerTime t q) carh) :
    ∃ carh', scanHash t q test fuel (t.chains.get r) carh = some carh' ∧
      CarrotInv (fun x => S x ∨ x ∈ l ∧ test (t.elem x)) (confirmed t q) (layerTime t q) carh' := by
  induction l generalizing r S carh fuel with
  | nil =>
    refine ⟨carh,?_,h.congr (by simp)⟩
    rw [show t.chains.get r = none from hl]
    cases fuel <;> rfl
  | cons a l ih =>
    obtain ⟨fuel,rfl⟩ := Nat.exists_eq_add_one_of_ne_zero (Nat.ne_zero_of_lt hfuel)
    obtain ⟨hget,_,hl⟩ := hl
    obtain ⟨hna,hneg⟩ := List.forall_mem_cons.mp hneg
    have hlen : l.length ≤ fuel := by simpa using hfuel
    rw [hget]
    simp only [scanHash]
    by_cases ht : test (t.elem a)
    · rw [if_pos ht,scanElem,if_neg (hna ht)]
      obtain ⟨carh',e,h'⟩ := ih hl hneg hlen (h.insert confirmed_of_free a)
      refine ⟨carh',e,h'.congr fun x => ?_⟩
      grind
    · rw [if_neg ht]
      obtain ⟨carh',e,h'⟩ := ih hl hneg hlen h
      refine ⟨carh',e,h'.congr fun x => ?_⟩
      grind

variable {row : HashHead → List Nat}

def scanAt (t : Table) (q : Query) (u v : List Byte) (carh : List Carrot) : Option (List Carrot) :=
  if htScanStop q.type v u.length q.exact then
    scanHash t q (scanTest q v (hashsum q.type u) u.length) t.live.length
      (t.chains.get (.head (bucketOf q u))) carh
  else some carh

theorem scanObj_succ (hq : StringKeyed q) (u v : List Byte) (fuel : Nat) (carh : List Carrot) :
    scanObj t q (fuel + 1) v u.length (hashsum q.type u) carh =
      (scanAt t q u v carh).bind fun carh =>
        if deref v = 0 then some carh
        else scanObj t q fuel v.tail (u ++ [deref v]).length (hashsum q.type (u ++ [deref v])) carh := by
  have hbucket : (if u.length ≠ 0 then t.hash (.hash (hashmod (hashsum q.type u)))
      else t.hash (.hash0 q.type)) = t.chains.get (.head (bucketOf q u)) := by
    unfold bucketOf
    split_ifs <;> rfl
  simp only [scanObj,scanAt,hbucket,hq.terminate,hashsum_snoc,List.length_append,
    List.length_singleton,beq_iff_eq]
  by_cases hs : htScanStop q.type v u.length q.exact
  · simp [hs]
  · have hv : deref v ≠ 0 := fun hv => hs (hq.stop v _ hv)
    rw [if_neg hs,if_neg hs,Option.bind_some,if_neg hv]

theorem scanTest_type {objc : List Byte} {sum : BitVec 64} {len : Nat} {ht : HtElem}
    (h : scanTest q objc sum len ht) : ht.type = q.type := by
  simp only [scanTest,Bool.and_eq_true,beq_iff_eq] at h
  exact h.1.1.1.1.1.1.1.symm

theorem scanAt_inv (hrow : Buckets t.chains row)
    (hneg : ∀ h, ∀ a ∈ row h, (t.elem a).type = q.type →
      (t.elem a).confirmfun ≠ some .negativeMount)
    (hlen : ∀ h, (row h).length ≤ t.live.length) (u v : List Byte) {carh : List Carrot}
    (h : CarrotInv S (confirmed t q) (layerTime t q) carh) :
    ∃ carh', scanAt t q u v carh = some carh' ∧
      CarrotInv (fun x => S x ∨ Hit t q row u v x) (confirmed t q) (layerTime t q) carh' := by
  unfold scanAt
  split_ifs with hs
  · obtain ⟨carh',e,h'⟩ := scanHash_inv (q := q) (scanTest q v (hashsum q.type u) u.length)
      (hrow.chain (bucketOf q u)) (fun a ha ht => hneg _ a ha (scanTest_type ht)) (hlen _) h
    refine ⟨carh',e,h'.congr fun x => or_congr_right ?_⟩
    exact ⟨fun hx => ⟨hx.2,hx.3⟩,fun hx => ⟨hs,hx.1,hx.2⟩⟩
  · exact ⟨carh,rfl,h.congr fun x => or_iff_left fun hx => hs hx.stop⟩

theorem scanObj_inv (hq : StringKeyed q) (hrow : Buckets t.chains row)
    (hneg : ∀ h, ∀ a ∈ row h, (t.elem a).type = q.type →
      (t.elem a).confirmfun ≠ some .negativeMount)
    (hlen : ∀ h, (row h).length ≤ t.live.length) {u v : List Byte} (hz : 0 ∉ v)
    {fuel : Nat} (hfuel : v.length < fuel) {carh : List Carrot}
    (h : CarrotInv S (confirmed t q) (layerTime t q) carh) :
    ∃ carh', scanObj t q fuel v u.length (hashsum q.type u) carh = some carh' ∧
      CarrotInv (fun x => S x ∨ ∃ u' v', v = u' ++ v' ∧ Hit t q row (u ++ u') v' x)
        (confirmed t q) (layerTime t q) carh' := by
  induction v generalizing u fuel carh S with
  | nil =>
    obtain ⟨fuel,rfl⟩ : ∃ m, fuel = m + 1 := ⟨fuel - 1,by simp at hfuel; omega⟩
    obtain ⟨carh',e,h'⟩ := scanAt_inv hrow hneg hlen u [] h
    refine ⟨carh',by rw [scanObj_succ hq,e]; rfl,h'.congr fun x => or_congr_right ?_⟩
    simp
  | cons c v ih =>
    obtain ⟨fuel,rfl⟩ : ∃ m, fuel = m + 1 := ⟨fuel - 1,by simp at hfuel; omega⟩
    obtain ⟨hc,hz⟩ := not_or.mp (List.mem_cons.not.mp hz)
    obtain ⟨carh1,e1,h1⟩ := scanAt_inv hrow hneg hlen u (c :: v) h
    obtain ⟨carh',e,h'⟩ := ih (u := u ++ [c]) hz (by simpa using hfuel : v.length < fuel) h1
    refine ⟨carh',?_,h'.congr fun x => ?_⟩
    · rw [scanObj_succ hq,e1,Option.bind_some]
      exact (if_neg (Ne.symm hc)).trans e
    · rw [splits_cons,or_assoc]
      simp

theorem search_best (hq : StringKeyed q) (hrow : Buckets t.chains row)
    (hneg : ∀ h, ∀ a ∈ row h, (t.elem a).type = q.type →
      (t.elem a).confirmfun ≠ some .negativeMount)
    (hlen : ∀ h, (row h).length ≤ t.live.length) (hz : 0 ∉ q.obj) :
    ∃ best, htTabInternalSearch t q = some (best.map Carrot.elem) ∧
      Best (fun x => ∃ u v, q.obj = u ++ v ∧ Hit t q row u v x) (confirmed t q) (layerTime t q)
        best := by
  have hfuel : q.obj.length < max q.obj.length q.objlen + 1 := by omega
  obtain ⟨carh,e,h⟩ := scanObj_inv (u := []) hq hrow hneg hlen hz hfuel (carrotInv_nil (confirmed t q))
  refine ⟨carh.find? fun c => confirmed t q c.elem,?_,?_⟩
  · simp only [htTabInternalSearch]
    rw [show BitVec.ofNat 64 q.type.code = hashsum q.type [] from rfl]
    exact congrArg (Option.bind · _) e
  · refine CarrotInv.best (h.congr fun x => ?_)
    simp

end Search

end ViewOS.Hashtab
