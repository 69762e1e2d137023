import Mathlib.Data.List.Perm.Subperm
import ViewOS.Hashtab.Scan
import ViewOS.Hashtab.Threads

namespace ViewOS.Hashtab
open HashChain Transition Treepoch

def DecimalDigit (c : Byte) : Prop := 48 ≤ c.toNat ∧ c.toNat ≤ 57

def Boundary (trailing : Bool) (v : List Byte) : Prop :=
  v = [] ∨ v.head? = some slash ∨
    trailing ∧ v ≠ [] ∧ (∀ c ∈ v, DecimalDigit c) ∧ ∃ c ∈ v, c ≠ digit0

def KeyMatches (ht : HtElem) (p : List Byte) : Prop :=
  ∃ v, p = ht.obj ++ v ∧ Boundary ht.trailingnumbers v

def Collides (ht : HtElem) (p : List Byte) : Prop :=
  ∃ u v, p = u ++ v ∧ u ≠ [] ∧ u <+: ht.obj ∧ u ≠ ht.obj ∧
    hashsum .path u = hashsum .path ht.obj ∧ Boundary ht.trailingnumbers v

structure Visible (t : Table) (q : Query) (a : Nat) : Prop where
  live : a ∈ t.live
  type : (t.elem a).type = q.type
  valid : (t.elem a).invalid = false
  older : (t.elem a).tst.epoch < q.tst.epoch
  matching : 0 < layerTime t q a

def Layer (t : Table) (q : Query) (a : Nat) : Prop :=
  Visible t q a ∧ KeyMatches (t.elem a) q.obj ∧
    ((t.elem a).confirmfun = none ∨ q.confirm a = true)

def SelectsNewest (t : Table) (q : Query) (res : Option Nat) : Prop :=
  (res = none ↔ ∀ a, ¬Layer t q a) ∧
    ∀ r ∈ res, Layer t q r ∧ ∀ a, Layer t q a → layerTime t q a ≤ layerTime t q r

theorem isDigit_iff (c : Byte) : isDigit c = true ↔ DecimalDigit c := by
  revert c
  unfold DecimalDigit
  decide

theorem digitValue_eq_zero (c : Byte) : digitValue c = 0 ↔ c = digit0 := by
  revert c
  decide

theorem trailnumLoop_ne_zero {s : List Byte} (hs : 0 ∉ s) (n : BitVec 32) :
    trailnumLoop n s ≠ 0 ↔ (∀ c ∈ s, DecimalDigit c) ∧ (n ≠ 0 ∨ ∃ c ∈ s, c ≠ digit0) := by
  induction s generalizing n with
  | nil => simp [trailnumLoop]
  | cons c s ih =>
    obtain ⟨hc,hs⟩ := not_or.mp (List.mem_cons.not.mp hs)
    rw [trailnumLoop,if_neg (Ne.symm hc)]
    by_cases hd : isDigit c
    · rw [if_pos hd,ih hs]
      have hor : n ||| digitValue c = 0 ↔ n = 0 ∧ c = digit0 := by
        rw [← digitValue_eq_zero c]
        exact BitVec.or_eq_zero_iff
      simp only [List.forall_mem_cons,List.exists_mem_cons_iff,(isDigit_iff c).mp hd,true_and,
        ne_eq,hor,not_and_or,or_assoc]
    · rw [if_neg hd]
      simp only [ne_eq,not_true_eq_false,false_iff,List.forall_mem_cons]
      exact fun h => hd ((isDigit_iff c).mpr h.1.1)

theorem trailnum_ne_zero {s : List Byte} (hs : 0 ∉ s) :
    trailnum s ≠ 0 ↔ s ≠ [] ∧ (∀ c ∈ s, DecimalDigit c) ∧ ∃ c ∈ s, c ≠ digit0 := by
  cases s with
  | nil => simp [trailnum]
  | cons c s =>
    obtain ⟨_,hs⟩ := not_or.mp (List.mem_cons.not.mp hs)
    rw [trailnum]
    by_cases hd : isDigit c
    · rw [if_pos hd,trailnumLoop_ne_zero hs]
      simp only [List.forall_mem_cons,List.exists_mem_cons_iff,(isDigit_iff c).mp hd,true_and,
        ne_eq,digitValue_eq_zero,reduceCtorEq,not_false_eq_true]
    · rw [if_neg hd]
      simp only [ne_eq,not_true_eq_false,false_iff,List.forall_mem_cons]
      exact fun h => hd ((isDigit_iff c).mpr h.2.1.1)

theorem boundary_iff {v : List Byte} (hv : 0 ∉ v) (n : Nat) (trailing : Bool) :
    (htScanStop .path v n false ∧ (trailing || trailnum v == 0) = true) ↔ Boundary trailing v := by
  have hnum := trailnum_ne_zero hv
  cases v with
  | nil => simp [htScanStop,deref,Boundary,trailnum]
  | cons c v =>
    have hc : c ≠ 0 := fun h => hv (by simp [h])
    by_cases hs : c = slash
    · subst hs
      simp [htScanStop,deref,Boundary,trailnum,isDigit,digit9,digit0,slash]
    · have hstop : htScanStop .path (c :: v) n false = (trailnum (c :: v) != 0) := by
        simp only [htScanStop,deref,List.headD_cons,beq_eq_false_iff_ne.mpr hc,
          beq_eq_false_iff_ne.mpr hs,Bool.false_or,Bool.not_false,Bool.true_and]
      rw [hstop,bne_iff_ne,Bool.or_eq_true,beq_iff_eq]
      simp only [Boundary,List.head?_cons,Option.some.injEq,hs,false_or,reduceCtorEq]
      constructor
      · rintro ⟨h1,h2⟩
        exact ⟨h2.resolve_right h1,hnum.mp h1⟩
      · rintro ⟨h1,h2⟩
        exact ⟨hnum.mpr h2,Or.inl h1⟩

theorem tstMatchingepoch_value {s : State} {service ts : Timestamp} {process : Option Timestamp}
    {e : Nat} (h : tstMatchingepoch s service process = some (ts, e)) :
    ts.epoch = service.epoch ∧ (e = 0 ∨ e = service.epoch) := by
  unfold tstMatchingepoch at h
  simp only [Option.bind_eq_bind,Option.bind_eq_some_iff] at h
  obtain ⟨_,_,_,_,b,_,h⟩ := h
  have hvalue : ∀ {r : Nat}, r = 0 ∨ r = service.epoch →
      some (({ service with treepoch := some b } : Timestamp), r) = some (ts, e) →
      ts.epoch = service.epoch ∧ (e = 0 ∨ e = service.epoch) := by
    intro r hr hts
    obtain ⟨rfl,rfl⟩ := Prod.mk.inj (Option.some.inj hts)
    exact ⟨rfl,hr⟩
  split at h
  · exact hvalue (Or.inr rfl) h
  · split at h
    · exact hvalue (Or.inl rfl) h
    · split_ifs at h
      · exact hvalue (Or.inl rfl) h
      · exact hvalue (Or.inr rfl) h
      · exact hvalue (Or.inl rfl) h

theorem layerTime_eq {t : Table} {q : Query} {a : Nat} (h : 0 < layerTime t q a) :
    layerTime t q a = (t.elem a).tst.epoch := by
  unfold layerTime matchingepoch at h ⊢
  rcases hm : tstMatchingepoch q.te (t.elem a).tst (some q.tst) with _ | ⟨ts,e⟩
  · simp [hm] at h
  · rw [hm] at h
    exact (tstMatchingepoch_value hm).2.resolve_left (Nat.pos_iff_ne_zero.mp h)

theorem stringKeyed_path (te : State) (p : List Byte) (tst : Timestamp) (confirm : Nat → Bool) :
    StringKeyed (pathQuery te p tst confirm) :=
  ⟨fun objc len h => by simp [pathQuery,htScanStop,h],fun _ _ => rfl⟩

section Layers

variable {t : Table} {es : List Entry} {row : HashHead → List Nat} {te : State} {p : List Byte}
  {tst : Timestamp} {confirm : Nat → Bool} {a b : Nat}

theorem scanTest_iff {q : Query} {u v : List Byte} (hp : q.obj = u ++ v) (hc : Contents t es)
    (ha : a ∈ t.live) :
    scanTest q v (hashsum q.type u) u.length (t.elem a) = true ↔
      Visible t q a ∧ u <+: (t.elem a).obj ∧ hashsum q.type u = hashsum q.type (t.elem a).obj ∧
        ((t.elem a).trailingnumbers || trailnum v == 0) = true := by
  obtain ⟨e,he,rfl⟩ := hc.mem_live.mp ha
  have hpre : (u.length ≤ (t.elem e.addr).obj.length ∧ q.obj.take u.length =
      (t.elem e.addr).obj.take u.length) ↔ u <+: (t.elem e.addr).obj := by
    rw [hp,List.take_left]
    constructor
    · rintro ⟨_,h⟩
      exact List.prefix_iff_eq_take.mpr h
    · intro h
      exact ⟨h.length_le,List.prefix_iff_eq_take.mp h⟩
  rw [← hpre]
  simp only [scanTest,HtElem.objlen,Bool.and_eq_true,beq_iff_eq,
    Bool.not_eq_true',hc.hashsum e he,← hc.obj e he]
  constructor
  · rintro ⟨⟨⟨⟨⟨⟨⟨h1,h2⟩,h3⟩,h4⟩,h5⟩,h6⟩,h7⟩,h8⟩
    rw [← hc.type e he,← h1] at h2
    exact ⟨⟨ha,h1.symm,h8,of_decide_eq_true h6,of_decide_eq_true h7⟩,
      ⟨of_decide_eq_true h3,h4⟩,h2,h5⟩
  · rintro ⟨⟨_,h1,h8,h6,h7⟩,⟨h3,h4⟩,h2,h5⟩
    refine ⟨⟨⟨⟨⟨⟨⟨h1.symm,?_⟩,decide_eq_true h3⟩,h4⟩,h5⟩,decide_eq_true h6⟩,
      decide_eq_true h7⟩,h8⟩
    rw [h2,← hc.type e he,h1]

theorem hit_key {q : Query} {u v : List Byte} (hp : q.obj = u ++ v) (hc : Contents t es)
    (hr : Chains t es row) :
    Hit t q row u v a ↔ htScanStop q.type v u.length q.exact ∧
      ((t.elem a).trailingnumbers || trailnum v == 0) = true ∧ Visible t q a ∧
        (u = (t.elem a).obj ∨ u ≠ [] ∧ u <+: (t.elem a).obj ∧ u ≠ (t.elem a).obj ∧
          hashsum q.type u = hashsum q.type (t.elem a).obj) := by
  have hhome : ∀ a ∈ t.live, (t.elem a).type = q.type →
      homeOf (t.elem a) = bucketOf q (t.elem a).obj := by
    intro a ha hty
    obtain ⟨e,he,rfl⟩ := hc.mem_live.mp ha
    rw [home_of_entry hc he,← hc.obj e he,← hc.type e he,hty,hashhead,bucketOf]
    split_ifs <;> simp_all
  constructor
  · rintro ⟨hstop,hbucket,htest⟩
    obtain ⟨hlive,hbucket⟩ := (hr.mem_row hc _ a).mp hbucket
    obtain ⟨hvis,hpre,hsum,htrail⟩ := (scanTest_iff hp hc hlive).mp htest
    refine ⟨hstop,htrail,hvis,?_⟩
    by_cases hu : u = (t.elem a).obj
    · exact Or.inl hu
    · refine Or.inr ⟨?_,hpre,hu,hsum⟩
      rintro rfl
      rw [hhome a hlive hvis.type] at hbucket
      unfold bucketOf at hbucket
      have : (t.elem a).obj.length ≠ 0 := fun h => hu (List.length_eq_zero_iff.mp h).symm
      simp [this] at hbucket
  · rintro ⟨hstop,htrail,hvis,hu⟩
    have hpre : u <+: (t.elem a).obj := hu.elim (fun h => h ▸ List.prefix_rfl) (·.2.1)
    have hsum : hashsum q.type u = hashsum q.type (t.elem a).obj := hu.elim (congrArg _) (·.2.2.2)
    refine ⟨hstop,(hr.mem_row hc _ a).mpr ⟨hvis.live,?_⟩,
      (scanTest_iff hp hc hvis.live).mpr ⟨hvis,hpre,hsum,htrail⟩⟩
    rw [hhome a hvis.live hvis.type]
    rcases hu with rfl | ⟨hne,-,-,-⟩
    · rfl
    · have h1 : u.length ≠ 0 := fun h => hne (List.length_eq_zero_iff.mp h)
      have h2 : (t.elem a).obj.length ≠ 0 := by
        have := hpre.length_le
        omega
      simp only [bucketOf,h1,h2,ne_eq,not_false_eq_true,if_true,hsum]

theorem hit_iff {u v : List Byte} (hp : p = u ++ v) (hz : 0 ∉ v) (hc : Contents t es)
    (hr : Chains t es row) :
    Hit t (pathQuery te p tst confirm) row u v a ↔
      Visible t (pathQuery te p tst confirm) a ∧ Boundary (t.elem a).trailingnumbers v ∧
        (u = (t.elem a).obj ∨ u ≠ [] ∧ u <+: (t.elem a).obj ∧ u ≠ (t.elem a).obj ∧
          hashsum .path u = hashsum .path (t.elem a).obj) := by
  rw [hit_key (q := pathQuery te p tst confirm) hp hc hr,← boundary_iff hz u.length]
  exact ⟨fun ⟨h1,h2,h3,h4⟩ => ⟨h3,⟨h1,h2⟩,h4⟩,fun ⟨h3,⟨h1,h2⟩,h4⟩ => ⟨h1,h2,h3,h4⟩⟩

theorem hits_iff (hz : 0 ∉ p) (hc : Contents t es) (hr : Chains t es row) :
    (∃ u v, p = u ++ v ∧ Hit t (pathQuery te p tst confirm) row u v a) ↔
      Visible t (pathQuery te p tst confirm) a ∧
        (KeyMatches (t.elem a) p ∨ Collides (t.elem a) p) := by
  constructor
  · rintro ⟨u,v,hp,hit⟩
    have hv : 0 ∉ v := fun h => hz (hp ▸ List.mem_append_right _ h)
    obtain ⟨hvis,hb,rfl | ⟨h1,h2,h3,h4⟩⟩ := (hit_iff hp hv hc hr).mp hit
    · exact ⟨hvis,Or.inl ⟨v,hp,hb⟩⟩
    · exact ⟨hvis,Or.inr ⟨u,v,hp,h1,h2,h3,h4,hb⟩⟩
  · rintro ⟨hvis,⟨v,hp,hb⟩ | ⟨u,v,hp,h1,h2,h3,h4,hb⟩⟩
    · have hv : 0 ∉ v := fun h => hz (hp ▸ List.mem_append_right _ h)
      exact ⟨_,v,hp,(hit_iff hp hv hc hr).mpr ⟨hvis,hb,Or.inl rfl⟩⟩
    · have hv : 0 ∉ v := fun h => hz (hp ▸ List.mem_append_right _ h)
      exact ⟨u,v,hp,(hit_iff hp hv hc hr).mpr ⟨hvis,hb,Or.inr ⟨h1,h2,h3,h4⟩⟩⟩

theorem layerTime_inj {q : Query} (hc : Contents t es) (ha : Visible t q a) (hb : Visible t q b)
    (h : layerTime t q a = layerTime t q b) : a = b := by
  rw [layerTime_eq ha.matching,layerTime_eq hb.matching] at h
  exact hc.epochs a ha.live b hb.live h

theorem confirmed_iff {q : Query} :
    confirmed t q a = true ↔ (t.elem a).confirmfun = none ∨ q.confirm a = true := by
  simp [confirmed]

end Layers

def Outdated (t : Table) (q : Query) (a : Nat) : Prop :=
  ∃ b, Layer t q b ∧ layerTime t q a ≤ layerTime t q b

theorem search_selects_newest_iff (ops : List Op) (t : Table)
    (h : exec step Table.empty ops = some t)
    (hneg : ∀ a ∈ t.live, (t.elem a).confirmfun ≠ some .negativeMount) (te : State) (p : List Byte)
    (hp : 0 ∉ p) (tst : Timestamp) (confirm : Nat → Bool) :
    ∃ res, htTabPathsearch t te p tst confirm = some res ∧
      (SelectsNewest t (pathQuery te p tst confirm) res ↔
        ∀ a, Visible t (pathQuery te p tst confirm) a → Collides (t.elem a) p →
          ((t.elem a).confirmfun = none ∨ confirm a = true) →
          Outdated t (pathQuery te p tst confirm) a) := by
  obtain ⟨hc,_,row,hr⟩ := rep_exec rep_empty h
  have hlive : ∀ c, ∀ a ∈ row c, a ∈ t.live := fun c a ha => ((hr.mem_row hc c a).mp ha).1
  obtain ⟨best,hres,hbest⟩ := search_best (stringKeyed_path te p tst confirm) hr.buckets
    (fun c a ha _ => hneg a (hlive c a ha))
    (fun c => (List.subperm_of_subset (hr.buckets.nodup c) (hlive c)).length_le) hp
  refine ⟨best.map Carrot.elem,hres,?_⟩
  have hS : ∀ a, (∃ u v, p = u ++ v ∧ Hit t (pathQuery te p tst confirm) row u v a) ↔
      Visible t (pathQuery te p tst confirm) a ∧
        (KeyMatches (t.elem a) p ∨ Collides (t.elem a) p) := fun a => hits_iff hp hc hr
  have hlayer : ∀ b, Layer t (pathQuery te p tst confirm) b →
      (∃ u v, p = u ++ v ∧ Hit t (pathQuery te p tst confirm) row u v b) ∧
        confirmed t (pathQuery te p tst confirm) b = true := fun b hb =>
    ⟨(hS b).mpr ⟨hb.1,Or.inl hb.2.1⟩,confirmed_iff.mpr hb.2.2⟩
  constructor
  · intro hsel a hvis hcol hconf
    have hhit := (hS a).mpr ⟨hvis,Or.inr hcol⟩
    cases best with
    | none =>
      have hrej := hbest.none rfl a hhit
      rw [confirmed_iff.mpr hconf] at hrej
      contradiction
    | some c =>
      refine ⟨c.elem,(hsel.2 c.elem rfl).1,?_⟩
      rw [← (hbest.some c rfl).2.2]
      exact hbest.greatest c rfl a hhit (confirmed_iff.mpr hconf)
  · intro hout
    cases best with
    | none =>
      refine ⟨⟨fun _ b hb => ?_,fun _ => rfl⟩,by simp⟩
      have hrej := hbest.none rfl b (hlayer b hb).1
      rw [(hlayer b hb).2] at hrej
      contradiction
    | some c =>
      obtain ⟨hhit,hconf,htime⟩ := hbest.some c rfl
      have hmax : ∀ b, Layer t (pathQuery te p tst confirm) b →
          layerTime t (pathQuery te p tst confirm) b ≤
            layerTime t (pathQuery te p tst confirm) c.elem := fun b hb =>
        htime ▸ hbest.greatest c rfl b (hlayer b hb).1 (hlayer b hb).2
      obtain ⟨hvis,hkey⟩ := (hS c.elem).mp hhit
      have hself : Layer t (pathQuery te p tst confirm) c.elem := by
        rcases hkey with hkey | hcol
        · exact ⟨hvis,hkey,confirmed_iff.mp hconf⟩
        · obtain ⟨b,hb,hle⟩ := hout c.elem hvis hcol (confirmed_iff.mp hconf)
          obtain rfl := layerTime_inj hc hvis hb.1 (hle.antisymm (hmax b hb))
          exact hb
      refine ⟨⟨by simp,fun hno => absurd hself (hno _)⟩,?_⟩
      rintro r ⟨⟩
      exact ⟨hself,hmax⟩

def rootView : State := (forkRoot State.empty).1

def nested : List Op :=
  [.add 1 (mount .path [47, 97]) (some 0), .add 2 (mount .path [47, 97, 47, 98]) (some 0)]

theorem nested_search : (exec step Table.empty nested).isSome ∧
    ∀ t, exec step Table.empty nested = some t →
      htTabPathsearch t rootView [47, 97, 47, 98, 47, 99] ⟨9, some 0⟩ (fun _ => true) =
          some (some 2) ∧
        ∃ res, htTabPathsearch t rootView [47, 97, 47, 98, 47, 99] ⟨9, some 0⟩ (fun _ => true) =
            some res ∧
          (SelectsNewest t
              (pathQuery rootView [47, 97, 47, 98, 47, 99] ⟨9, some 0⟩ fun _ => true) res ↔
            ∀ a, Visible t
                (pathQuery rootView [47, 97, 47, 98, 47, 99] ⟨9, some 0⟩ fun _ => true) a →
              Collides (t.elem a) [47, 97, 47, 98, 47, 99] →
              ((t.elem a).confirmfun = none ∨ true = true) →
              Outdated t
                (pathQuery rootView [47, 97, 47, 98, 47, 99] ⟨9, some 0⟩ fun _ => true) a) := by
  have hrun : (exec step Table.empty nested).all (fun t =>
      htTabPathsearch t rootView [47,97,47,98,47,99] ⟨9,some 0⟩ (fun _ => true) =
        some (some 2) ∧ ∀ a ∈ t.live, (t.elem a).confirmfun ≠ some .negativeMount) := by
    decide +kernel
  refine ⟨by decide,fun t h => ?_⟩
  obtain ⟨hsearch,hneg⟩ := of_decide_eq_true ((Option.all_eq_true _ _).mp hrun t h)
  exact ⟨hsearch,search_selects_newest_iff nested t h hneg rootView _ (by decide) ⟨9,some 0⟩ _⟩

def shortName : List Byte := [47, 106, 109, 99, 97, 114, 117, 116, 97, 101, 101, 109, 111, 104]

def longName : List Byte := shortName ++ [59]

theorem colliding_key_found : hashsum .path longName = hashsum .path shortName ∧
    (exec step Table.empty [.add 1 (mount .path longName) (some 0)]).isSome ∧
    ∀ t, exec step Table.empty [.add 1 (mount .path longName) (some 0)] = some t →
      (∀ a ∈ t.live, (t.elem a).confirmfun ≠ some .negativeMount) ∧
      htTabPathsearch t rootView shortName ⟨9, some 0⟩ (fun _ => true) = some (some 1) ∧
      ¬SelectsNewest t (pathQuery rootView shortName ⟨9, some 0⟩ fun _ => true) (some 1) := by
  have hrun : (exec step Table.empty [.add 1 (mount .path longName) (some 0)]).all (fun t =>
      (∀ a ∈ t.live, (t.elem a).confirmfun ≠ some .negativeMount) ∧
      htTabPathsearch t rootView shortName ⟨9,some 0⟩ (fun _ => true) = some (some 1) ∧
      (t.elem 1).obj = longName) := by
    decide +kernel
  refine ⟨by decide +kernel,by decide,fun t h => ?_⟩
  obtain ⟨hneg,hsearch,hobj⟩ := of_decide_eq_true ((Option.all_eq_true _ _).mp hrun t h)
  refine ⟨hneg,hsearch,fun hsel => ?_⟩
  obtain ⟨_,⟨v,hv,_⟩,_⟩ := (hsel.2 1 rfl).1
  have hlen := congrArg List.length hv
  rw [hobj] at hlen
  simp [pathQuery,longName] at hlen

end ViewOS.Hashtab
