import ViewOS.Hashtab.Table

namespace ViewOS.Hashtab
open HashChain RingList Transition Treepoch

def homeOf (ht : HtElem) : HashHead :=
  if ht.objlen = 0 then .hash0 ht.type else .hash (hashmod ht.hashsum)

def scanned (t : Table) (te : State) (process : Option Timestamp) (a : Nat) : Bool :=
  !(t.elem a).invalid && 0 < matchingepoch te process (t.elem a).tst

structure WellLinked (t : Table) (es : List Entry) : Prop where
  live : ∀ a, a ∈ t.live ↔ ∃ e ∈ es, e.addr = a
  once : (es.map Entry.addr).Nodup
  type : ∀ e ∈ es, (t.elem e.addr).type = e.type
  newest : ∀ type, t.htHead type = (ofType es type).getLast?
  circle : ∀ type z, t.htHead type = some z →
    around t.next z (ofType es type).length z = some (ofType es type)
  inverse : ∀ type, ∀ a ∈ ofType es type, t.next a ∈ ofType es type ∧ t.prev a ∈ ofType es type ∧
    t.prev (t.next a) = a ∧ t.next (t.prev a) = a
  chain : ∀ h, ∃ l, Chain t.chains (.head h) l ∧ l.Nodup ∧
    ∀ a, a ∈ l ↔ a ∈ t.live ∧ homeOf (t.elem a) = h
  back : ∀ a ∈ t.live, t.pprevhash a = .head (homeOf (t.elem a)) ∧ t.hash (homeOf (t.elem a)) = some a ∨
    ∃ b ∈ t.live, t.pprevhash a = .link b ∧ t.nexthash b = some a
  visits : ∀ te process type,
    forallHtTabDo t te process type = some ((ofType es type).filter (scanned t te process))

theorem scanType_eq (t : Table) (visit : Nat → Bool) (head fuel x : Nat) :
    scanType t visit head fuel x = (around t.next head fuel x).map (List.filter visit) := by
  induction fuel generalizing x with
  | zero => rfl
  | succ fuel ih =>
    simp only [scanType,around]
    by_cases hx : t.next x = head
    · simp [hx,List.filter_cons]
    · simp only [hx,ne_eq,not_false_eq_true,if_true,if_false,ih,Option.map_map]
      cases around t.next head fuel (t.next x) <;> simp [List.filter_cons]

theorem forallHtTabDo_eq {t : Table} {es : List Entry} (h : TableRep t es) (te : State)
    (process : Option Timestamp) (type : CheckType) :
    forallHtTabDo t te process type = some ((ofType es type).filter (scanned t te process)) := by
  obtain ⟨hc,hr,_⟩ := h
  have hhead := hr.head type
  unfold forallHtTabDo
  rcases hz : t.htHead type with _ | z
  · simp [List.getLast?_eq_none_iff.mp (hhead.symm.trans hz)]
  · have hlen : (ofType es type).length ≤ t.live.length + 1 := by
      rw [hc.live.length_eq,List.length_map,ofType,List.length_map]
      exact Nat.le_succ_of_le (List.length_filter_le _ _)
    dsimp only
    rw [scanType_eq,(hr.ring type).around (ofType_nodup hc.nodup type) (hhead.symm.trans hz) hlen]
    rfl

theorem home_of_entry {t : Table} {es : List Entry} (h : Contents t es) {e : Entry} (he : e ∈ es) :
    homeOf (t.elem e.addr) = hashhead e.type e.obj := by
  simp only [homeOf,hashhead,HtElem.objlen,h.type e he,h.obj e he,h.hashsum e he]

theorem Chains.mem_row {t : Table} {es : List Entry} {row : HashHead → List Nat}
    (h : Chains t es row) (hc : Contents t es) (c : HashHead) (a : Nat) :
    a ∈ row c ↔ a ∈ t.live ∧ homeOf (t.elem a) = c := by
  rw [h.home,hc.mem_live]
  constructor
  · rintro ⟨e,he,rfl,rfl⟩
    exact ⟨⟨e,he,rfl⟩,home_of_entry hc he⟩
  · rintro ⟨⟨e,he,rfl⟩,rfl⟩
    exact ⟨e,he,rfl,(home_of_entry hc he).symm⟩

theorem TableRep.wellLinked {t : Table} {es : List Entry} (h : TableRep t es) :
    WellLinked t es := by
  obtain ⟨hc,hr,row,hh⟩ := id h
  refine ⟨fun a => hc.mem_live,hc.nodup,hc.type,hr.head,fun type z hz => ?_,
    fun type a ha => (hr.ring type).inverse ha,
    fun c => ⟨row c,hh.buckets.chain c,hh.buckets.nodup c,hh.mem_row hc c⟩,fun a ha => ?_,
    forallHtTabDo_eq h⟩
  · exact (hr.ring type).around (ofType_nodup hc.nodup type) ((hr.head type).symm.trans hz) le_rfl
  · have hm : a ∈ row (homeOf (t.elem a)) := (hh.mem_row hc _ a).mpr ⟨ha,rfl⟩
    have hget := hh.buckets.points_back hm
    obtain ⟨l,s,hls⟩ := List.append_of_mem hm
    have hchain := hh.buckets.chain (homeOf (t.elem a))
    rw [hls] at hchain
    have hp : t.pprevhash a = _ := hchain.back.2.2
    rcases hl : l.getLast? with _ | b
    · rw [hl] at hp
      refine Or.inl ⟨hp,?_⟩
      change t.chains.get (t.pprevhash a) = some a at hget
      rwa [hp] at hget
    · rw [hl] at hp
      change t.chains.get (t.pprevhash a) = some a at hget
      rw [hp] at hget
      have hb : b ∈ row (homeOf (t.elem a)) := by
        rw [hls]
        exact List.mem_append_left _ (List.mem_of_getLast? hl)
      exact Or.inr ⟨b,((hh.mem_row hc _ b).mp hb).1,hp,hget⟩

theorem table_well_linked (ops : List Op) (t : Table) (h : exec step Table.empty ops = some t) :
    WellLinked t (replay ops) :=
  (rep_exec rep_empty h).wellLinked

def mount (type : CheckType) (obj : List Byte) : Mount := ⟨type, obj, false, none, none⟩

def churn : List Op :=
  [.add 7 (mount .path [47, 97]) none, .add 3 (mount .path []) none,
    .add 5 (mount .module [97]) none, .add 9 (mount .path [47, 98]) (some 0), .del 3,
    .invalidate 7, .add 3 (mount .path [47, 97]) none, .renew 9 none, .del 5]

theorem churn_well_linked : (exec step Table.empty churn).isSome ∧
    ofType (replay churn) .path = [7, 9, 3] ∧
    ∀ t, exec step Table.empty churn = some t → WellLinked t (replay churn) :=
  ⟨by decide,by decide,fun t h => table_well_linked churn t h⟩

end ViewOS.Hashtab
