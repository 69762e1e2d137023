import ViewOS.Rsc.Callbacks
import ViewOS.Rsc.GenericList

namespace ViewOS.Rsc.EventMonitor

open Transition Callbacks

structure Listel where
  esfd : Int
  mfd : Int
  event : Int
  deriving DecidableEq

def toShort (x : Int) : Int := (x + 32768) % 65536 - 32768

structure State where
  cbs : RegCbs
  list : GenericList.State Listel

-- sent: the request has been written; ready is what the test of the descriptor finds, fill what
-- realloc leaves.
inductive Request where
  | register (fd how : Int) (sent ready : Bool) (fill : Nat → Option Listel)
  | deregister (fd how : Int) (sent : Bool)
  | event (fd how : Int)

def manageSub (esfd fd how : Int) (ready : Bool) (fill : Nat → Option Listel)
    (list : GenericList.State Listel) : Option (Ack × GenericList.State Listel) :=
  if ready then some (.fdReady, list)
  else (GenericList.step list (.add ⟨esfd, fd, toShort how⟩ fill)).map fun list => (.fdReg, list)

def manageDereg (esfd fd how : Int) (list : GenericList.State Listel) :
    Option (GenericList.State Listel) :=
  match (GenericList.listSearch list.list (· == ⟨esfd, fd, toShort how⟩)).2 with
  | none => some list
  | some i => GenericList.step list (.del i)

def present (cbs : RegCbs) (fd how : Int) : Option Nat :=
  if 0 < cbs.nentry then search cbs fd how else none

def register (esfd fd how : Int) (sent ready : Bool) (fill : Nat → Option Listel) (s : State) :
    Option State :=
  match present s.cbs fd how with
  | some _ => some s
  | none =>
    if sent then
      (manageSub esfd fd how ready fill s.list).bind fun r => (regCbAdd s.cbs fd how).map fun q =>
        ⟨if r.1 = .fdReady then regCbDel q.1 q.2 else q.1, r.2⟩
    else some s

def deregister (esfd fd how : Int) (sent : Bool) (s : State) : Option State :=
  match present s.cbs fd how with
  | none => some s
  | some i =>
    if sent then (manageDereg esfd fd how s.list).map fun list => ⟨regCbDel s.cbs i, list⟩
    else some s

def eventOccurred (esfd fd how : Int) (s : State) : State :=
  match (GenericList.listSearch s.list.list (· == ⟨esfd, fd, how⟩)).2, search s.cbs fd how with
  | some _, some i => { s with cbs :=
      { s.cbs with v := s.cbs.v.modify i fun c => { c with cbExecuted := true } } }
  | _, _ => s

def step (esfd : Int) (s : State) : Request → Option State
  | .register fd how sent ready fill => register esfd fd how sent ready fill s
  | .deregister fd how sent => deregister esfd fd how sent s
  | .event fd how => some (eventOccurred esfd fd how s)

def Short (how : Int) : Prop := -32768 ≤ how ∧ how < 32768

def Plain (esfd : Int) (s : State) : Request → Prop
  | .register fd how _ _ fill => fd ≠ -1 ∧ Short how ∧
      GenericList.Clean s.list (.add ⟨esfd, fd, how⟩ fill)
  | .deregister fd _ _ => fd ≠ -1
  | .event _ _ => True

def ownKey (esfd : Int) (x : GenericList.Live Listel) : Option (Int × Int) :=
  if x.elem.esfd = esfd then some (x.elem.mfd, x.elem.event) else none

def ownKeys (esfd : Int) (list : GenericList.State Listel) : List (Int × Int) :=
  list.live.filterMap (ownKey esfd)

structure Agree (esfd : Int) (s : State) : Prop where
  wf : Wf s.cbs
  good : GenericList.Good s.list
  perm : (keys s.cbs).Perm (ownKeys esfd s.list)
  short : ∀ k ∈ keys s.cbs, Short k.2

section Agree

variable {esfd fd how : Int} {s t : State} {i : Nat} {sent ready : Bool}
  {fill : Nat → Option Listel} {list list' : GenericList.State Listel}

theorem toShort_eq (h : Short how) : toShort how = how := by
  obtain ⟨h₁,h₂⟩ := h
  rw [toShort]
  omega

theorem mem_ownKeys : (fd, how) ∈ ownKeys esfd list ↔ ∃ x ∈ list.live, x.elem = ⟨esfd, fd, how⟩ := by
  simp only [ownKeys,List.mem_filterMap,ownKey]
  constructor
  · rintro ⟨x,hx,hkey⟩
    split at hkey
    · rename_i hes
      obtain ⟨hm,he⟩ := Prod.mk.inj (Option.some.inj hkey)
      refine ⟨x,hx,?_⟩
      rw [← hes,← hm,← he]
    · exact absurd hkey (by simp)
  · rintro ⟨x,hx,helem⟩
    exact ⟨x,hx,by simp [helem]⟩

theorem present_eq_some (h : present s.cbs fd how = some i) :
    ∃ c, s.cbs.v[i]? = some c ∧ c.fd = fd ∧ c.how = how := by
  rw [present] at h
  split at h
  · exact search_eq_some h
  · exact absurd h (by simp)

theorem present_eq_none (hwf : Wf s.cbs) (h : present s.cbs fd how = none) :
    (fd, how) ∉ keys s.cbs := by
  rw [present] at h
  split at h
  · exact search_eq_none h
  · rename_i hzero
    have hnil : keys s.cbs = [] := List.length_eq_zero_iff.mp (by rw [← hwf.count]; omega)
    rw [hnil]
    exact List.not_mem_nil

theorem ownKeys_add (h : GenericList.step list (.add ⟨esfd, fd, how⟩ fill) = some list') :
    ownKeys esfd list' = (fd, how) :: ownKeys esfd list := by
  obtain ⟨r,-,rfl⟩ := Option.map_eq_some_iff.mp h
  rw [ownKeys,List.filterMap_cons,ownKey,if_pos rfl]
  rfl

theorem live_perm {live : List (GenericList.Live Listel)} (h : (live.map (·.slot)).Nodup)
    {x : GenericList.Live Listel} (hx : x ∈ live) :
    live.Perm (x :: live.filter (·.slot ≠ x.slot)) := by
  induction live with
  | nil => exact absurd hx List.not_mem_nil
  | cons y live ih =>
    obtain ⟨hy,hlive⟩ := List.nodup_cons.mp h
    rcases List.mem_cons.mp hx with rfl | hx
    · have hkeep : live.filter (·.slot ≠ x.slot) = live :=
        List.filter_eq_self.mpr fun z hz =>
          decide_eq_true fun heq => hy (List.mem_map.mpr ⟨z,hz,heq⟩)
      rw [List.filter_cons_of_neg (by simp),hkeep]
    · have hne : y.slot ≠ x.slot := fun heq => hy (List.mem_map.mpr ⟨x,hx,heq.symm⟩)
      rw [List.filter_cons_of_pos (by simpa using hne)]
      exact ((ih hlive hx).cons y).trans (List.Perm.swap ..)

theorem ownKeys_del (hgood : GenericList.Good list) {x : GenericList.Live Listel}
    (hx : x ∈ list.live) (helem : x.elem = ⟨esfd, fd, how⟩)
    (h : GenericList.step list (.del x.slot) = some list') :
    (ownKeys esfd list').Perm ((ownKeys esfd list).erase (fd, how)) := by
  obtain rfl := Option.some.inj h
  have hperm := (live_perm hgood.slots hx).filterMap (ownKey esfd)
  rw [List.filterMap_cons,ownKey,helem,if_pos rfl] at hperm
  have herase := hperm.erase (fd, how)
  rw [List.erase_cons_head] at herase
  exact herase.symm

theorem Agree.register (h : Agree esfd s) (hok : Plain esfd s (.register fd how sent ready fill))
    (hst : register esfd fd how sent ready fill s = some t) : Agree esfd t ∧
      (present s.cbs fd how = none → sent = false ∨ ready = true →
        (fd, how) ∉ keys t.cbs ∧ (fd, how) ∉ ownKeys esfd t.list) := by
  obtain ⟨hfd,hshort,hclean⟩ := hok
  rw [EventMonitor.register] at hst
  cases hp : present s.cbs fd how with
  | some i =>
    rw [hp] at hst
    obtain rfl := Option.some.inj hst
    exact ⟨h,fun hnone => absurd hnone (by simp)⟩
  | none =>
    have hnot := present_eq_none h.wf hp
    obtain ⟨q,i,hadd,hwf,hkeys,hi⟩ := h.wf.add hfd hnot
    have hnone : (fd, how) ∉ ownKeys esfd s.list := fun hmem => hnot (h.perm.mem_iff.mpr hmem)
    rw [hp,hadd,manageSub,toShort_eq hshort] at hst
    cases sent with
    | false =>
      obtain rfl := Option.some.inj hst
      exact ⟨h,fun _ _ => ⟨hnot,hnone⟩⟩
    | true =>
    cases ready with
    | true =>
      obtain rfl := Option.some.inj hst
      obtain ⟨hwf',hdel⟩ := hwf.del hi hfd
      have hback := hkeys.erase (fd, how)
      rw [List.erase_cons_head] at hback
      have hsame := hdel.trans hback
      refine ⟨⟨hwf',h.good,hsame.trans h.perm,fun k hk => h.short k (hsame.mem_iff.mp hk)⟩,
        fun _ _ => ⟨fun hmem => hnot (hsame.mem_iff.mp hmem),hnone⟩⟩
    | false =>
      obtain ⟨u,hu,hgood⟩ := h.good.add hclean
      rw [hu] at hst
      obtain rfl := Option.some.inj hst
      refine ⟨⟨hwf,hgood,?_,fun k hk => ?_⟩,fun _ hor => absurd hor (by simp)⟩
      · exact (hkeys.trans (h.perm.cons _)).trans (List.Perm.of_eq (ownKeys_add hu).symm)
      · rcases List.mem_cons.mp (hkeys.mem_iff.mp hk) with rfl | hk
        · exact hshort
        · exact h.short k hk

theorem manageDereg_spec (hgood : GenericList.Good list) (hshort : Short how)
    (hmem : (fd, how) ∈ ownKeys esfd list) : ∃ list', manageDereg esfd fd how list = some list' ∧
      GenericList.Good list' ∧ (ownKeys esfd list').Perm ((ownKeys esfd list).erase (fd, how)) := by
  obtain ⟨x,hx,helem⟩ := mem_ownKeys.mp hmem
  have hsearch := hgood.searches (· == ⟨esfd, fd, how⟩)
  rw [manageDereg,toShort_eq hshort]
  cases hi : (GenericList.listSearch list.list (· == ⟨esfd, fd, how⟩)).2 with
  | none => exact absurd (hsearch.missed hi x hx) (by simp [helem])
  | some i =>
    obtain ⟨y,hy,rfl,hcompare⟩ := hsearch.found i hi
    have hyelem : y.elem = ⟨esfd, fd, how⟩ := by simpa using hcompare
    obtain ⟨list',hdel,hgood'⟩ := hgood.del ((hgood.occupied y.slot y.elem).mpr ⟨y.id,hy⟩)
    exact ⟨list',hdel,hgood',ownKeys_del hgood hy hyelem hdel⟩

theorem Agree.deregister (h : Agree esfd s) (hfd : fd ≠ -1)
    (hst : deregister esfd fd how sent s = some t) : Agree esfd t := by
  rw [EventMonitor.deregister] at hst
  cases hp : present s.cbs fd how with
  | none =>
    rw [hp] at hst
    obtain rfl := Option.some.inj hst
    exact h
  | some i =>
    obtain ⟨c,hc,rfl,rfl⟩ := present_eq_some hp
    have hmem : (c.fd, c.how) ∈ keys s.cbs :=
      List.mem_filterMap.mpr ⟨c,List.mem_of_getElem? hc,key_eq_some hfd⟩
    obtain ⟨list',hdereg,hgood,hown⟩ :=
      manageDereg_spec h.good (h.short _ hmem) (h.perm.mem_iff.mp hmem)
    rw [hp,hdereg] at hst
    cases sent with
    | false =>
      obtain rfl := Option.some.inj hst
      exact h
    | true =>
    obtain rfl := Option.some.inj hst
    obtain ⟨hwf,hdel⟩ := h.wf.del hc hfd
    exact ⟨hwf,hgood,(hdel.trans (h.perm.erase _)).trans hown.symm,fun k hk =>
      h.short k (List.mem_of_mem_erase (hdel.mem_iff.mp hk))⟩

theorem Agree.event (h : Agree esfd s) : Agree esfd (eventOccurred esfd fd how s) := by
  rw [eventOccurred]
  split
  · rename_i i _ _
    have hkeys : keys { s.cbs with v := s.cbs.v.modify i fun c => { c with cbExecuted := true } } =
        keys s.cbs := by
      rw [keys,keys_modify]
      · rfl
      · exact fun _ => rfl
    exact ⟨h.wf.congr rfl hkeys,h.good,hkeys ▸ h.perm,hkeys ▸ h.short⟩
  · exact h

theorem Agree.step {o : Request} (h : Agree esfd s) (hok : Plain esfd s o)
    (hst : step esfd s o = some t) : Agree esfd t := by
  cases o with
  | register fd how sent ready fill => exact (h.register hok hst).1
  | deregister fd how sent => exact h.deregister hok hst
  | event fd how =>
    obtain rfl := Option.some.inj hst
    exact h.event

end Agree

-- list is what the server holds when the connection starts.
theorem subscriptions_agree {esfd : Int} {list : GenericList.State Listel} {s : State}
    (hgood : GenericList.Good list) (hold : ∀ x ∈ list.live, x.elem.esfd ≠ esfd)
    (hrun : Run (step esfd) (Plain esfd) ⟨initRegCb, list⟩ s) :
    (∀ fd how, (fd, how) ∈ keys s.cbs ↔ ∃ x ∈ s.list.live, x.elem = ⟨esfd, fd, how⟩) ∧
    ∀ fd how sent ready fill t, Plain esfd s (.register fd how sent ready fill) →
      present s.cbs fd how = none → sent = false ∨ ready = true →
      step esfd s (.register fd how sent ready fill) = some t →
        (fd, how) ∉ keys t.cbs ∧ ∀ x ∈ t.list.live, x.elem ≠ ⟨esfd, fd, how⟩ := by
  have hstart : Agree esfd ⟨initRegCb, list⟩ := by
    have hnone : ownKeys esfd list = [] :=
      List.filterMap_eq_nil_iff.mpr fun x hx => if_neg (hold x hx)
    refine ⟨wf_init,hgood,?_,fun k hk => absurd hk ?_⟩
    · rw [hnone]
      exact List.Perm.refl _
    · exact List.not_mem_nil
  have h : Agree esfd s := hrun.invariant (fun _ _ _ h hok hst => h.step hok hst) hstart
  refine ⟨fun fd how => h.perm.mem_iff.trans mem_ownKeys,
    fun fd how sent ready fill t hok hp hor hst => ?_⟩
  obtain ⟨hkeys,hown⟩ := (h.register hok hst).2 hp hor
  exact ⟨hkeys,fun x hx helem => hown (mem_ownKeys.mpr ⟨x,hx,helem⟩)⟩

def started : State := ⟨initRegCb, GenericList.init 10⟩

theorem subscriptions_agree_registered : ∃ s, Run (step 4) (Plain 4) started s ∧
    keys s.cbs = [(7, 2)] ∧ ∃ x ∈ s.list.live, x.elem = ⟨4, 7, 2⟩ := by
  have hplain : ∀ s fd how sent ready, fd ≠ -1 ∧ -32768 ≤ how ∧ how < 32768 ∧
      s.list.list.nentry < s.list.list.v.length →
      Plain 4 s (.register fd how sent ready fun _ => none) := by
    rintro s fd how sent ready ⟨hfd,hlow,hhigh,hlt⟩
    exact ⟨hfd,⟨hlow,hhigh⟩,fun hfull => by omega⟩
  have hevent : ∀ s, Plain 4 s (.event 5 1) := fun _ => trivial
  have hderegister : ∀ s, Plain 4 s (.deregister 5 1 true) := fun _ =>
    show (5 : Int) ≠ -1 by decide
  have h₁ : Run (step 4) (Plain 4) started _ :=
    (Run.refl started).tail (hplain _ 5 1 true false (by decide)) rfl
  have h₂ := h₁.tail (hplain _ 6 1 true true (by decide)) rfl
  have h₃ := (h₂.tail (hplain _ 7 2 true false (by decide)) rfl).tail (hevent _) rfl
  have h₄ := (h₃.tail (hderegister _) rfl).tail (hplain _ 8 1 false false (by decide)) rfl
  have hagree := (subscriptions_agree (GenericList.good_init 10) (by simp [GenericList.init]) h₄).1
  exact ⟨_,h₄,by decide,(hagree 7 2).mp (by decide)⟩

theorem truncated_event_disagrees : ¬∀ (esfd : Int) (s : State),
    Run (step esfd) (fun _ _ => True) started s →
      ∀ fd how, (fd, how) ∈ keys s.cbs ↔ ∃ x ∈ s.list.live, x.elem = ⟨esfd, fd, how⟩ := by
  intro h
  have hrun : Run (step 4) (fun _ _ => True) started _ :=
    @Run.tail _ _ _ _ _ _ _ (.register 5 65537 true false fun _ => none) (.refl started) trivial rfl
  have hagree := h 4 _ hrun 5 65537
  exact absurd hagree (by decide)

end ViewOS.Rsc.EventMonitor
