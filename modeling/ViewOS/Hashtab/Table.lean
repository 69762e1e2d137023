import ViewOS.Lib.Run
import ViewOS.Hashtab.Links

namespace ViewOS.Hashtab
open HashChain RingList Transition

structure Entry where
  addr : Nat
  type : CheckType
  obj : List Byte
  deriving DecidableEq, Repr

def specStep (es : List Entry) : Op → List Entry
  | .add new m _ => es ++ [⟨new, m.type, m.obj⟩]
  | .del ht => es.filter fun e => e.addr != ht
  | .invalidate _ => es
  | .renew _ _ => es

def replay (ops : List Op) : List Entry := ops.foldl specStep []

def ofType (es : List Entry) (type : CheckType) : List Nat :=
  (es.filter fun e => e.type = type).map Entry.addr

structure Rings (t : Table) (es : List Entry) : Prop where
  head : ∀ type, t.htHead type = (ofType es type).getLast?
  ring : ∀ type, IsRing t.next t.prev (ofType es type)

structure Chains (t : Table) (es : List Entry) (row : HashHead → List Nat) : Prop where
  buckets : Buckets t.chains row
  home : ∀ h a, a ∈ row h ↔ ∃ e ∈ es, e.addr = a ∧ hashhead e.type e.obj = h

structure Contents (t : Table) (es : List Entry) : Prop where
  live : t.live.Perm (es.map Entry.addr)
  nodup : (es.map Entry.addr).Nodup
  type : ∀ e ∈ es, (t.elem e.addr).type = e.type
  obj : ∀ e ∈ es, (t.elem e.addr).obj = e.obj
  hashsum : ∀ e ∈ es, (t.elem e.addr).hashsum = hashsum e.type e.obj
  young : ∀ a ∈ t.live, (t.elem a).tst.epoch < t.epochNow
  epochs : ∀ a ∈ t.live, ∀ b ∈ t.live, (t.elem a).tst.epoch = (t.elem b).tst.epoch → a = b

structure TableRep (t : Table) (es : List Entry) : Prop where
  contents : Contents t es
  rings : Rings t es
  chains : ∃ row, Chains t es row

section Entries

variable {es : List Entry} {type : CheckType} {a : Nat}

theorem mem_ofType : a ∈ ofType es type ↔ ∃ e ∈ es, e.addr = a ∧ e.type = type := by
  simp [ofType,and_comm,and_assoc]

theorem ofType_nodup (h : (es.map Entry.addr).Nodup) (type : CheckType) :
    (ofType es type).Nodup :=
  h.sublist ((List.filter_sublist).map _)

theorem entry_unique (h : (es.map Entry.addr).Nodup) {e f : Entry} (he : e ∈ es) (hf : f ∈ es)
    (hef : e.addr = f.addr) : e = f :=
  List.inj_on_of_nodup_map h he hf hef

theorem ofType_disjoint (h : (es.map Entry.addr).Nodup) {type' : CheckType}
    (ha : a ∈ ofType es type) (ha' : a ∈ ofType es type') : type = type' := by
  obtain ⟨e,he,rfl,rfl⟩ := mem_ofType.mp ha
  obtain ⟨f,hf,hef,rfl⟩ := mem_ofType.mp ha'
  rw [entry_unique h hf he hef]

theorem ofType_append_self (e : Entry) : ofType (es ++ [e]) e.type = ofType es e.type ++ [e.addr] := by
  simp [ofType]

theorem ofType_append_other {e : Entry} (h : type ≠ e.type) :
    ofType (es ++ [e]) type = ofType es type := by
  simp [ofType,h.symm]

theorem ofType_remove : ofType (es.filter fun e => e.addr != a) type =
    (ofType es type).filter fun b => b != a := by
  simp only [ofType,List.filter_filter,List.filter_map]
  congr 1
  exact List.filter_congr fun e _ => Bool.and_comm _ _

theorem ofType_split (h : (es.map Entry.addr).Nodup) (ha : a ∈ ofType es type) :
    ∃ l r, ofType es type = l ++ a :: r ∧
      ofType (es.filter fun e => e.addr != a) type = l ++ r := by
  obtain ⟨l,r,e⟩ := List.append_of_mem ha
  have hn := ofType_nodup h type
  refine ⟨l,r,e,?_⟩
  rw [ofType_remove,← hn.erase_eq_filter,e,List.erase_append_right,List.erase_cons_head]
  rw [e] at hn
  exact fun hl => (List.nodup_append'.mp hn).2.2 hl (by simp)

theorem ofType_keep (ha : a ∉ ofType es type) :
    ofType (es.filter fun e => e.addr != a) type = ofType es type := by
  rw [ofType_remove,List.filter_eq_self]
  intro b hb
  simpa using fun e : b = a => ha (e ▸ hb)

end Entries

section Add

variable {t : Table} {es : List Entry} {new : Nat} {m : Mount} {treepoch : Option Nat}

theorem Rings.linkType (hn : (es.map Entry.addr).Nodup) (h : Rings t es)
    (hnew : new ∉ es.map Entry.addr) (e : Entry) (he : e.addr = new) :
    Rings (linkType t e.type new) (es ++ [e]) := by
  have hfresh : ∀ type, new ∉ ofType es type := fun type hm => by
    obtain ⟨f,hf,hfa,_⟩ := mem_ofType.mp hm
    exact hnew (hfa ▸ List.mem_map_of_mem hf)
  refine ⟨fun type => ?_,fun type => ?_⟩
  · rw [linkType_htHead]
    by_cases hty : type = e.type
    · subst hty
      simp [ofType_append_self,he]
    · rw [Function.update_of_ne hty,ofType_append_other hty,h.head]
  · have hhead := h.head e.type
    rcases hz : t.htHead e.type with _ | z
    · obtain ⟨e1,e2⟩ := linkType_first new hz
      rw [e1,e2]
      by_cases hty : type = e.type
      · subst hty
        rw [ofType_append_self,List.getLast?_eq_none_iff.mp (hhead.symm.trans hz),he]
        exact isRing_singleton new
      · rw [ofType_append_other hty]
        refine (h.ring type).congr fun x hx => ?_
        have hx' : x ≠ new := fun hxn => hfresh type (hxn ▸ hx)
        simp [hx']
    · have hlast : (ofType es e.type).getLast? = some z := hhead.symm.trans hz
      have hzm := List.mem_of_getLast? hlast
      have hnm := ((h.ring e.type).inverse hzm).1
      have hnew : t.next z ≠ new := fun hx => hfresh e.type (hx ▸ hnm)
      obtain ⟨e1,e2⟩ := linkType_append hz hnew
      rw [e1,e2]
      by_cases hty : type = e.type
      · subst hty
        rw [ofType_append_self,he]
        exact (h.ring e.type).append (ofType_nodup hn e.type) hlast (hfresh e.type)
      · rw [ofType_append_other hty]
        refine (h.ring type).congr fun x hx => ?_
        have hxn : x ≠ new := fun e => hfresh type (e ▸ hx)
        have hxz : x ≠ z := fun e => hty (ofType_disjoint hn hx (e ▸ hzm))
        have hxf : x ≠ t.next z := fun e => hty (ofType_disjoint hn hx (e ▸ hnm))
        simp [hxn,hxz,hxf]

theorem Chains.linkHash {row : HashHead → List Nat} (h : Chains t es row)
    (hnew : new ∉ es.map Entry.addr) (e : Entry) (he : e.addr = new) :
    ∃ row', Chains (linkHash t (hashhead e.type e.obj) new) (es ++ [e]) row' := by
  have hfresh : ∀ c, new ∉ row c := fun c hm => by
    obtain ⟨f,hf,hfa,_⟩ := (h.home c new).mp hm
    exact hnew (hfa ▸ List.mem_map_of_mem hf)
  refine ⟨_,by rw [linkHash_chains]; exact h.buckets.push hfresh,fun c a => ?_⟩
  by_cases hc : c = hashhead e.type e.obj
  · subst hc
    simp only [Function.update_self,List.mem_cons,h.home,List.mem_append]
    grind
  · rw [Function.update_of_ne hc,h.home]
    grind

theorem Contents.fillElem (h : Contents t es) (hnew : new ∉ es.map Entry.addr) :
    Contents (fillElem t new m treepoch) (es ++ [⟨new, m.type, m.obj⟩]) := by
  have hne : ∀ e ∈ es, e.addr ≠ new := fun e he hx => hnew (hx ▸ List.mem_map_of_mem he)
  have hlive : ∀ a ∈ t.live, a ≠ new := fun a ha hx => hnew (hx ▸ h.live.subset ha)
  have hfield : ∀ {β : Type} (p : HtElem → β) (q : Entry → β),
      (∀ e ∈ es, p (t.elem e.addr) = q e) →
      p ((Hashtab.fillElem t new m treepoch).elem new) = q ⟨new,m.type,m.obj⟩ →
      ∀ e ∈ es ++ [⟨new,m.type,m.obj⟩],
        p ((Hashtab.fillElem t new m treepoch).elem e.addr) = q e := by
    intro β p q hold hq e he
    rcases List.mem_append.mp he with he | he
    · simpa [Hashtab.fillElem,hne e he] using hold e he
    · obtain rfl := List.mem_singleton.mp he
      exact hq
  refine ⟨?_,?_,hfield _ _ h.type ?_,hfield _ _ h.obj ?_,hfield _ _ h.hashsum ?_,?_,?_⟩
  · simpa [Hashtab.fillElem] using (h.live.cons new).trans (List.perm_append_singleton _ _).symm
  · simpa [List.nodup_append',h.nodup] using hne
  · simp [Hashtab.fillElem]
  · simp [Hashtab.fillElem]
  · simp [Hashtab.fillElem]
  · intro a ha
    rcases List.mem_cons.mp ha with rfl | ha
    · simp [Hashtab.fillElem]
    · simpa [Hashtab.fillElem,hlive a ha] using Nat.lt_succ_of_lt (h.young a ha)
  · intro a ha b hb
    rcases List.mem_cons.mp ha with rfl | ha' <;> rcases List.mem_cons.mp hb with hb' | hb'
    · exact fun _ => hb'.symm
    · have := h.young b hb'
      simp only [Hashtab.fillElem,Function.update_self,Function.update_of_ne (hlive b hb')]
      omega
    · have := h.young a ha'
      rw [hb']
      simp only [Hashtab.fillElem,Function.update_self,Function.update_of_ne (hlive a ha')]
      omega
    · simpa [Hashtab.fillElem,hlive a ha',hlive b hb'] using h.epochs a ha' b hb'

end Add

section Del

variable {t : Table} {es : List Entry} {e : Entry}

theorem head_after_unlink {type : CheckType} {ht : Nat} {l r : List Nat}
    (hr : IsRing t.next t.prev (l ++ ht :: r)) (hn : (l ++ ht :: r).Nodup)
    (hh : t.htHead type = (l ++ ht :: r).getLast?) (hty : (t.elem ht).type = type) :
    (unlinkType t ht).htHead type = (l ++ r).getLast? := by
  rw [unlinkType_htHead,hty,hh]
  cases r with
  | nil =>
    rw [List.getLast?_concat,if_pos rfl,Function.update_self,List.append_nil]
    cases l with
    | nil =>
      rw [if_pos (hr.2 ht rfl ht rfl).1]
      rfl
    | cons b l =>
      have hb : b ≠ ht := fun hb => (List.nodup_cons.mp hn).1 (by simp [hb])
      obtain ⟨z,hz⟩ : ∃ z, (b :: l).getLast? = some z :=
        ⟨_,List.getLast?_eq_some_getLast (List.cons_ne_nil b l)⟩
      obtain ⟨hprev,hnext⟩ := hr.neighbours_last
      rw [if_neg (hnext b rfl ▸ hb),hprev z hz,hz]
  | cons c r =>
    have hlast : ((l ++ ht :: c :: r).getLast?) = (l ++ c :: r).getLast? := by
      simp [List.getLast?_append]
    have hne : (l ++ c :: r).getLast? ≠ some ht := by
      intro hc
      rw [List.getLast?_append_of_ne_nil _ (List.cons_ne_nil c r)] at hc
      have hnr := (List.nodup_append'.mp hn).2.1
      exact (List.nodup_cons.mp hnr).1 (List.mem_of_getLast? hc)
    rw [hlast,if_neg hne,hh,hlast]

theorem Rings.unlinkType (hn : (es.map Entry.addr).Nodup) (h : Rings t es) (he : e ∈ es)
    (hty : (t.elem e.addr).type = e.type) :
    Rings (unlinkType t e.addr) (es.filter fun f => f.addr != e.addr) := by
  have hm : e.addr ∈ ofType es e.type := mem_ofType.mpr ⟨e,he,rfl,rfl⟩
  obtain ⟨l,r,hl,hlr⟩ := ofType_split hn hm
  have hring := h.ring e.type
  have hnd := ofType_nodup hn e.type
  have hnext := (hring.inverse hm).1
  have hprev := (hring.inverse hm).2.1
  have hother : ∀ type, type ≠ e.type → e.addr ∉ ofType es type := fun type ht hx =>
    ht (ofType_disjoint hn hx hm)
  refine ⟨fun type => ?_,fun type => ?_⟩
  · by_cases ht : type = e.type
    · subst ht
      have hhead := h.head e.type
      rw [hl] at hring hnd hhead
      rw [hlr,head_after_unlink hring hnd hhead hty]
    · rw [ofType_keep (hother type ht),← h.head,unlinkType_htHead,hty]
      split_ifs <;> simp [ht]
  · obtain ⟨e1,e2⟩ := unlinkType_remove t e.addr
    rw [e1,e2]
    by_cases ht : type = e.type
    · subst ht
      rw [hl] at hring hnd
      rw [hlr]
      exact hring.remove hnd
    · rw [ofType_keep (hother type ht)]
      refine (h.ring type).congr fun x hx => ?_
      have hxp : x ≠ t.prev e.addr := fun hxe => ht (ofType_disjoint hn hx (hxe ▸ hprev))
      have hxn : x ≠ t.next e.addr := fun hxe => ht (ofType_disjoint hn hx (hxe ▸ hnext))
      simp [hxp,hxn]

theorem Chains.unlinkHash_erase {row : HashHead → List Nat} (h : Chains t es row) (he : e ∈ es) :
    Chains (unlinkHash t e.addr) (es.filter fun f => f.addr != e.addr)
      fun c => (row c).erase e.addr := by
  have hm : e.addr ∈ row (hashhead e.type e.obj) := (h.home _ _).mpr ⟨e,he,rfl,rfl⟩
  have hrow : (fun c => (row c).erase e.addr) = Function.update row (hashhead e.type e.obj)
      ((row (hashhead e.type e.obj)).erase e.addr) := by
    funext c
    by_cases hc : c = hashhead e.type e.obj
    · subst hc
      rw [Function.update_self]
    · rw [Function.update_of_ne hc]
      exact List.erase_of_not_mem fun ha => hc (h.buckets.apart c _ _ ha hm)
  refine ⟨by rw [unlinkHash_chains,hrow]; exact h.buckets.unlink hm,fun c a => ?_⟩
  rw [(h.buckets.nodup c).mem_erase_iff,h.home]
  grind

theorem Chains.unlinkHash {row : HashHead → List Nat} (h : Chains t es row) (he : e ∈ es) :
    ∃ row', Chains (unlinkHash t e.addr) (es.filter fun f => f.addr != e.addr) row' :=
  ⟨_,h.unlinkHash_erase he⟩

theorem Contents.erase (h : Contents t es) (e : Entry) :
    Contents { t with live := t.live.erase e.addr } (es.filter fun f => f.addr != e.addr) := by
  have hsub : ∀ f ∈ es.filter (fun f => f.addr != e.addr), f ∈ es := fun f hf =>
    List.mem_of_mem_filter hf
  have hlive : ∀ a ∈ t.live.erase e.addr, a ∈ t.live := fun a ha => List.mem_of_mem_erase ha
  have hmap : (es.filter fun f => f.addr != e.addr).map Entry.addr =
      (es.map Entry.addr).erase e.addr := by
    rw [h.nodup.erase_eq_filter,List.filter_map]
    rfl
  refine ⟨?_,?_,fun f hf => h.type f (hsub f hf),fun f hf => h.obj f (hsub f hf),
    fun f hf => h.hashsum f (hsub f hf),fun a ha => h.young a (hlive a ha),
    fun a ha b hb => h.epochs a (hlive a ha) b (hlive b hb)⟩
  · rw [hmap]
    exact h.live.erase e.addr
  · rw [hmap]
    exact h.nodup.erase e.addr

end Del

section Step

variable {t u : Table} {es : List Entry}

theorem Rings.congr (h : Rings t es) (hu : SameRings t u) : Rings u es :=
  ⟨fun type => by rw [hu.htHead,h.head],fun type => by rw [hu.next,hu.prev]; exact h.ring type⟩

theorem Chains.congr {row : HashHead → List Nat} (h : Chains t es row) (hu : u.chains = t.chains) :
    Chains u es row :=
  ⟨hu ▸ h.buckets,h.home⟩

theorem Contents.congr (h : Contents t es) (hu : SameContent t u) : Contents u es := by
  obtain ⟨e1,e2,e3⟩ := hu
  refine ⟨?_,h.nodup,?_,?_,?_,?_,?_⟩ <;> simp only [e1,e2,e3]
  exacts [h.live,h.type,h.obj,h.hashsum,h.young,h.epochs]

theorem Contents.mem_live (h : Contents t es) {a : Nat} : a ∈ t.live ↔ ∃ e ∈ es, e.addr = a := by
  rw [h.live.mem_iff,List.mem_map]

theorem rep_empty : TableRep Table.empty [] := by
  refine ⟨⟨by simp [Table.empty],by simp,?_,?_,?_,?_,?_⟩,⟨fun _ => rfl,fun _ => ?_⟩,
    fun _ => [],⟨fun _ => rfl,fun _ => .nil,?_⟩,?_⟩ <;> simp [ofType,IsRing,Table.empty]

theorem rep_add (h : TableRep t es) {new : Nat} (m : Mount) (treepoch : Option Nat)
    (hnew : new ∉ t.live) :
    TableRep (internalHtTabAdd t new m treepoch) (es ++ [⟨new, m.type, m.obj⟩]) := by
  obtain ⟨hc,hr,row,hh⟩ := h
  have hnew' : new ∉ es.map Entry.addr := fun hx => hnew (hc.live.mem_iff.mpr hx)
  have hr1 : Rings (fillElem t new m treepoch) es := hr.congr ⟨rfl,rfl,rfl⟩
  have hr2 := hr1.linkType hc.nodup hnew' ⟨new,m.type,m.obj⟩ rfl
  have hh1 : Chains (fillElem t new m treepoch) es row := hh.congr rfl
  refine ⟨?_,?_,?_⟩
  · exact ((hc.fillElem hnew').congr (linkType_content _ _ _)).congr (linkHash_content _ _ _)
  · exact hr2.congr (linkHash_rings _ _ _)
  · exact (hh1.congr (linkType_chains _ m.type new)).linkHash hnew' ⟨new,m.type,m.obj⟩ rfl

theorem rep_del (h : TableRep t es) {ht : Nat} (hl : ht ∈ t.live) :
    TableRep (htTabDelLocked t ht) (es.filter fun f => f.addr != ht) := by
  obtain ⟨hc,hr,row,hh⟩ := h
  obtain ⟨e,he,rfl⟩ := hc.mem_live.mp hl
  have hc1 := (hc.congr (unlinkType_content t e.addr)).congr (unlinkHash_content _ e.addr)
  have hr1 := (hr.unlinkType hc.nodup he (hc.type e he)).congr (unlinkHash_rings _ e.addr)
  obtain ⟨row',hh1⟩ := (hh.congr (unlinkType_chains t e.addr)).unlinkHash he
  exact ⟨hc1.erase e,hr1.congr ⟨rfl,rfl,rfl⟩,row',hh1.congr rfl⟩

theorem Contents.rewrite {e' : HtElem} {ht : Nat} {now : Nat} (h : Contents t es)
    (ho : e'.obj = (t.elem ht).obj) (hy : e'.type = (t.elem ht).type)
    (hs : e'.hashsum = (t.elem ht).hashsum)
    (htst : now = t.epochNow ∧ e'.tst.epoch = (t.elem ht).tst.epoch ∨
      now = t.epochNow + 1 ∧ e'.tst.epoch = t.epochNow) :
    Contents { t with elem := Function.update t.elem ht e', epochNow := now } es := by
  have hkeep : ∀ {β : Type} (p : HtElem → β), p e' = p (t.elem ht) →
      ∀ a, p (Function.update t.elem ht e' a) = p (t.elem a) := by
    intro β p hp a
    by_cases ha : a = ht
    · subst ha
      simpa using hp
    · simp [ha]
  refine ⟨h.live,h.nodup,fun e he => ?_,fun e he => ?_,fun e he => ?_,fun a ha => ?_,
    fun a ha b hb => ?_⟩
  · exact (hkeep HtElem.type hy e.addr).trans (h.type e he)
  · exact (hkeep HtElem.obj ho e.addr).trans (h.obj e he)
  · exact (hkeep HtElem.hashsum hs e.addr).trans (h.hashsum e he)
  · have := h.young a ha
    by_cases hat : a = ht
    · subst hat
      simp only [Function.update_self]
      omega
    · simp only [Function.update_of_ne hat]
      omega
  · have hya := h.young a ha
    have hyb := h.young b hb
    have hab := h.epochs a ha b hb
    by_cases hat : a = ht <;> by_cases hbt : b = ht
    · exact fun _ => hat.trans hbt.symm
    · subst hat
      simp only [Function.update_self,Function.update_of_ne hbt]
      omega
    · subst hbt
      simp only [Function.update_self,Function.update_of_ne hat]
      omega
    · simpa only [Function.update_of_ne hat,Function.update_of_ne hbt] using hab

theorem rep_step (h : TableRep t es) {o : Op} (hs : step t o = some u) :
    TableRep u (specStep es o) := by
  obtain ⟨hen,rfl⟩ : Enabled t o ∧ perform t o = u := by
    unfold step at hs
    split_ifs at hs with hen
    exact ⟨hen,Option.some.inj hs⟩
  cases o with
  | add new m treepoch => exact rep_add h m treepoch hen
  | del ht => exact rep_del h hen
  | invalidate ht =>
    obtain ⟨hc,hr,row,hh⟩ := h
    exact ⟨hc.rewrite rfl rfl rfl (Or.inl ⟨rfl,rfl⟩),hr.congr ⟨rfl,rfl,rfl⟩,row,
      hh.congr rfl⟩
  | renew ht treepoch =>
    obtain ⟨hc,hr,row,hh⟩ := h
    exact ⟨hc.rewrite rfl rfl rfl (Or.inr ⟨rfl,rfl⟩),hr.congr ⟨rfl,rfl,rfl⟩,row,
      hh.congr rfl⟩

theorem rep_exec (h : TableRep t es) {ops : List Op} (hx : exec step t ops = some u) :
    TableRep u (ops.foldl specStep es) := by
  induction ops generalizing t es with
  | nil =>
    obtain rfl : t = u := by simpa [exec] using hx
    exact h
  | cons o ops ih =>
    obtain ⟨v,hv,hx⟩ := Option.bind_eq_some_iff.mp hx
    exact ih (rep_step h hv) hx

end Step

end ViewOS.Hashtab
