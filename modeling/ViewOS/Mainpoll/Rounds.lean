import Mathlib.Data.List.Nodup
import ViewOS.Mainpoll.Pollfd

namespace ViewOS.Mainpoll

open Compact Transition List

inductive RoundPhase (F A : Type) where
  | idle
  | round (todo : List (Registration F A))
  | calling (r : Registration F A) (todo : List (Registration F A))
  deriving DecidableEq

structure Ledger (F A : Type) where
  live : List (Registration F A)
  phase : RoundPhase F A
  deriving DecidableEq

section Spec

variable {F A : Type} [DecidableEq F] [DecidableEq A]

def Registration.hit (fd : Int) (arg : A) (r : Registration F A) : Bool :=
  r.fd = fd && r.arg = arg

def ledgerStep (a : Ledger F A) : PollEvent F A → Option (Ledger F A)
  | .added r => some { a with live := a.live ++ [r] }
  | .deleted fd arg => some { a with live := a.live.eraseP (Registration.hit fd arg) }
  | .polled slots =>
    match a.phase with
    | .idle =>
      if slots.map Slot.registration? = a.live.map some then
        some { a with phase := .round (active (slots.filter Slot.ready)) }
      else none
    | _ => none
  | .called ext =>
    match a.phase with
    | .round (r :: todo) =>
      if r.ext = ext ∧ r ∈ a.live then some { a with phase := .calling r todo } else none
    | _ => none
  | .skipped ext =>
    match a.phase with
    | .round (r :: todo) =>
      if r.ext = ext ∧ r ∉ a.live then some { a with phase := .round todo } else none
    | _ => none
  | .returned =>
    match a.phase with
    | .calling r todo => some ⟨if r.persistent then a.live else a.live.erase r, .round todo⟩
    | _ => none
  | .finished =>
    match a.phase with
    | .round [] => some { a with phase := .idle }
    | _ => none

def ledgerInit : Ledger F A := ⟨[], .idle⟩

end Spec

section Slots

variable {F A : Type}

structure Expects (s : Slot F A) (r : Registration F A) : Prop where
  ext : s.ext = r.ext
  persistent : s.persistent = r.persistent
  registration (q : Registration F A) : s.registration? = some q → q = r

structure Ahead (slots : List (Slot F A)) (i rv : Nat) (todo : List (Registration F A)) : Prop where
  count : rv = (slots.drop i).countP Slot.ready
  todo : Forall₂ Expects ((slots.drop i).filter Slot.ready) todo

def Matching (slots : List (Slot F A)) : Phase → RoundPhase F A → Prop
  | .idle, .idle => True
  | .scanning i rv, .round todo => Ahead slots i rv todo
  | .calling i rv, .calling r todo =>
    (∃ s, slots[i]? = some s ∧ Expects s r) ∧ Ahead slots (i + 1) rv todo
  | _, _ => False

structure Agrees (t : Pollfds F A) (a : Ledger F A) : Prop where
  live : a.live = active t.slots
  nodup : (t.slots.map Slot.ext).Nodup
  fresh : ∀ s ∈ t.slots, s.ext < t.next
  phase : Matching t.slots t.phase a.phase

def Dimmed (s s' : Slot F A) : Prop := s' = s ∨ s' = s.cleared

variable {s s' : Slot F A} {slots slots' l l' : List (Slot F A)} {i rv : Nat}
  {r : Registration F A} {todo : List (Registration F A)}

theorem active_append (l l' : List (Slot F A)) : active (l ++ l') = active l ++ active l' :=
  List.filterMap_append

theorem active_cons (s : Slot F A) (l : List (Slot F A)) :
    active (s :: l) = s.registration?.toList ++ active l := by
  rw [active,List.filterMap_cons]
  cases s.registration? <;> rfl

theorem cleared_registration? (s : Slot F A) : s.cleared.registration? = none := rfl

theorem mem_active_ext (h : r ∈ active l) : r.ext ∈ l.map Slot.ext := by
  obtain ⟨s,hs,hr⟩ := List.mem_filterMap.mp h
  obtain ⟨fn,-,rfl⟩ := Option.map_eq_some_iff.mp hr
  exact List.mem_map_of_mem hs

theorem Dimmed.refl (s : Slot F A) : Dimmed s s := .inl rfl

theorem Dimmed.ready (h : Dimmed s s') : s'.ready = s.ready := by
  rcases h with rfl | rfl <;> rfl

theorem Dimmed.ext (h : Dimmed s s') : s'.ext = s.ext := by
  rcases h with rfl | rfl <;> rfl

theorem Dimmed.expects (h : Dimmed s s') (he : Expects s r) : Expects s' r := by
  rcases h with rfl | rfl
  · exact he
  · exact ⟨he.ext,he.persistent,fun q hq => by cases hq⟩

theorem dimmed_map_ext (h : Forall₂ Dimmed slots slots') :
    slots'.map Slot.ext = slots.map Slot.ext := by
  induction h with
  | nil => rfl
  | cons hs _ ih => rw [List.map_cons,List.map_cons,hs.ext,ih]

theorem dimmed_filter (h : Forall₂ Dimmed slots slots') :
    Forall₂ Dimmed (slots.filter Slot.ready) (slots'.filter Slot.ready) := by
  induction h with
  | nil => exact .nil
  | @cons s s' _ _ hs _ ih =>
    cases hready : s.ready with
    | true =>
      rw [List.filter_cons_of_pos hready,List.filter_cons_of_pos (hs.ready.trans hready)]
      exact .cons hs ih
    | false =>
      rw [List.filter_cons_of_neg (by simp [hready]),
        List.filter_cons_of_neg (by simp [hs.ready,hready])]
      exact ih

theorem dimmed_expects (h : Forall₂ Dimmed l l') (he : Forall₂ Expects l todo) :
    Forall₂ Expects l' todo := by
  induction h generalizing todo with
  | nil => exact he
  | cons hs _ ih =>
    cases he with
    | cons hr htail => exact .cons (hs.expects hr) (ih htail)

theorem Ahead.dimmed (h : Ahead slots i rv todo) (hd : Forall₂ Dimmed slots slots') :
    Ahead slots' i rv todo := by
  have hdrop := dimmed_filter (List.forall₂_drop i hd)
  refine ⟨?_,dimmed_expects hdrop h.todo⟩
  rw [h.count,List.countP_eq_length_filter,List.countP_eq_length_filter,hdrop.length_eq]

theorem Ahead.append (h : Ahead slots i rv todo) (hs : s.ready = false) :
    Ahead (slots ++ [s]) i rv todo := by
  have hnone : ([s].drop (i - slots.length)).filter Slot.ready = [] := by
    refine List.filter_eq_nil_iff.mpr fun u hu => ?_
    obtain rfl := List.mem_singleton.mp (List.mem_of_mem_drop hu)
    simp [hs]
  refine ⟨?_,?_⟩
  · rw [h.count,List.drop_append,List.countP_append,List.countP_eq_length_filter (l := [s].drop _),
      hnone,List.length_nil,Nat.add_zero]
  · rw [List.drop_append,List.filter_append,hnone,List.append_nil]
    exact h.todo

theorem Matching.idle_eq {p' : RoundPhase F A} (h : Matching slots .idle p') : p' = .idle := by
  cases p' with
  | idle => rfl
  | round todo | calling r todo => exact h.elim

theorem Matching.scanning_eq {p' : RoundPhase F A} (h : Matching slots (.scanning i rv) p') :
    ∃ todo, p' = .round todo ∧ Ahead slots i rv todo := by
  cases p' with
  | round todo => exact ⟨todo,rfl,h⟩
  | idle | calling r todo => exact h.elim

theorem Matching.calling_eq {p' : RoundPhase F A} (h : Matching slots (.calling i rv) p') :
    ∃ r todo, p' = .calling r todo ∧ (∃ s, slots[i]? = some s ∧ Expects s r) ∧
      Ahead slots (i + 1) rv todo := by
  cases p' with
  | calling r todo => exact ⟨r,todo,rfl,h⟩
  | idle | round todo => exact h.elim

theorem Matching.mono {p : Phase} {p' : RoundPhase F A} (h : Matching slots p p')
    (hahead : ∀ {i rv todo}, Ahead slots i rv todo → Ahead slots' i rv todo)
    (hslot : ∀ {i : Nat} {s r}, slots[i]? = some s → Expects s r →
      ∃ s', slots'[i]? = some s' ∧ Expects s' r) :
    Matching slots' p p' := by
  cases p with
  | idle => cases p' <;> exact h
  | scanning i rv =>
    cases p' with
    | round todo => exact hahead h
    | idle | calling r todo => exact h
  | calling i rv =>
    cases p' with
    | calling r todo =>
      obtain ⟨⟨s,hs,he⟩,h⟩ := h
      exact ⟨hslot hs he,hahead h⟩
    | idle | round todo => exact h

theorem Matching.dimmed {p : Phase} {p' : RoundPhase F A} (h : Matching slots p p')
    (hd : Forall₂ Dimmed slots slots') : Matching slots' p p' := by
  refine h.mono (·.dimmed hd) fun hs he => ?_
  obtain ⟨hlt,rfl⟩ := List.getElem?_eq_some_iff.mp hs
  have hlt' := hd.length_eq ▸ hlt
  exact ⟨_,List.getElem?_eq_getElem hlt',(hd.get hlt hlt').expects he⟩

theorem Matching.append {p : Phase} {p' : RoundPhase F A} (h : Matching slots p p')
    (hs : s.ready = false) : Matching (slots ++ [s]) p p' := by
  refine h.mono (·.append hs) fun hu he => ?_
  have hlt := (List.getElem?_eq_some_iff.mp hu).1
  exact ⟨_,(List.getElem?_append_left hlt).trans hu,he⟩

theorem mpPack_eq (slots : List (Slot F A)) :
    mpPack slots = slots.filter fun s => s.fn.isSome := by
  rw [mpPack,(Holds.start slots).squeeze,List.nil_append]

theorem active_mpPack (slots : List (Slot F A)) : active (mpPack slots) = active slots := by
  rw [mpPack_eq]
  induction slots with
  | nil => rfl
  | cons s slots ih =>
    rw [active_cons,← ih]
    cases hfn : s.fn with
    | none =>
      rw [List.filter_cons_of_neg (by simp [hfn]),Slot.registration?,hfn]
      rfl
    | some fn => rw [List.filter_cons_of_pos (by simp [hfn]),active_cons]

theorem mpPack_sublist (slots : List (Slot F A)) : mpPack slots <+ slots := by
  rw [mpPack_eq]
  exact List.filter_sublist

theorem map_reported {B : Type} (f : Slot F A → B) (report : Nat → Nat) (slots : List (Slot F A))
    (hf : ∀ s n, f { s with revents := n } = f s) :
    (reported report slots).map f = slots.map f := by
  refine List.ext_getElem? fun i => ?_
  rw [List.getElem?_map,reported,List.getElem?_mapIdx,Option.map_map,List.getElem?_map]
  simp only [Function.comp_def,hf]

theorem active_reported (report : Nat → Nat) (slots : List (Slot F A)) :
    active (reported report slots) = active slots := by
  have hmap := map_reported Slot.registration? report slots fun _ _ => rfl
  have heq := congrArg (List.filterMap id) hmap
  rwa [List.filterMap_map,List.filterMap_map] at heq

theorem map_registration_of_active (h : ∀ s ∈ slots, s.fn.isSome = true) :
    slots.map Slot.registration? = (active slots).map some := by
  induction slots with
  | nil => rfl
  | cons s slots ih =>
    obtain ⟨fn,hfn⟩ := Option.isSome_iff_exists.mp (h s List.mem_cons_self)
    rw [List.map_cons,ih fun u hu => h u (List.mem_cons_of_mem _ hu),active_cons,
      Slot.registration?,hfn]
    rfl

theorem expects_active (h : ∀ s ∈ l, s.fn.isSome = true) : Forall₂ Expects l (active l) := by
  induction l with
  | nil => exact .nil
  | cons s l ih =>
    obtain ⟨fn,hfn⟩ := Option.isSome_iff_exists.mp (h s List.mem_cons_self)
    have htail := ih fun u hu => h u (List.mem_cons_of_mem _ hu)
    rw [active_cons,Slot.registration?,hfn]
    refine .cons ⟨rfl,rfl,fun q hq => ?_⟩ htail
    rw [Slot.registration?,hfn] at hq
    exact (Option.some.inj hq).symm

theorem Expects.live_iff (he : Expects s r) (hs : s ∈ slots) (hnodup : (slots.map Slot.ext).Nodup) :
    r ∈ active slots ↔ s.fn.isSome = true := by
  constructor
  · intro hr
    obtain ⟨u,hu,hreg⟩ := List.mem_filterMap.mp hr
    obtain ⟨fn,hfn,rfl⟩ := Option.map_eq_some_iff.mp hreg
    obtain rfl := List.inj_on_of_nodup_map hnodup hu hs he.ext.symm
    rw [hfn,Option.isSome_some]
  · intro hsome
    obtain ⟨fn,hfn⟩ := Option.isSome_iff_exists.mp hsome
    have hreg : s.registration? = some ⟨s.ext,s.fd,s.events,fn,s.arg,s.persistent⟩ := by
      rw [Slot.registration?,hfn,Option.map_some]
    obtain rfl := he.registration _ hreg
    exact List.mem_filterMap.mpr ⟨s,hs,hreg⟩

theorem drop_of_getElem? (h : slots[i]? = some s) : slots.drop i = s :: slots.drop (i + 1) := by
  obtain ⟨hlt,rfl⟩ := List.getElem?_eq_some_iff.mp h
  exact List.drop_eq_getElem_cons hlt

theorem Ahead.of_not_ready (h : Ahead slots i rv todo) (hs : slots[i]? = some s)
    (hready : s.ready = false) : Ahead slots (i + 1) rv todo := by
  have hcount := h.count
  have htodo := h.todo
  rw [drop_of_getElem? hs] at hcount htodo
  rw [List.countP_cons_of_neg (by simp [hready])] at hcount
  rw [List.filter_cons_of_neg (by simp [hready])] at htodo
  exact ⟨hcount,htodo⟩

theorem Ahead.of_ready (h : Ahead slots i (rv + 1) todo) (hs : slots[i]? = some s)
    (hready : s.ready = true) :
    ∃ r rest, todo = r :: rest ∧ Expects s r ∧ Ahead slots (i + 1) rv rest := by
  have hcount := h.count
  have htodo := h.todo
  rw [drop_of_getElem? hs] at hcount htodo
  rw [List.countP_cons_of_pos hready] at hcount
  rw [List.filter_cons_of_pos hready] at htodo
  cases htodo with
  | cons he htail => exact ⟨_,_,rfl,he,by omega,htail⟩

theorem Ahead.todo_nil (h : Ahead slots i 0 todo) : todo = [] := by
  have hcount := h.count
  rw [List.countP_eq_length_filter] at hcount
  have htodo := h.todo
  rw [List.length_eq_zero_iff.mp hcount.symm] at htodo
  cases htodo
  rfl

theorem Ahead.slot (h : Ahead slots i (rv + 1) todo) : ∃ s, slots[i]? = some s := by
  cases hs : slots[i]? with
  | some s => exact ⟨s,rfl⟩
  | none =>
    have hcount := h.count
    rw [List.drop_eq_nil_of_le (List.getElem?_eq_none_iff.mp hs),List.countP_nil] at hcount
    cases hcount

theorem registration?_eq_none_iff : s.registration? = none ↔ s.fn = none :=
  Option.map_eq_none_iff

theorem ext_of_registration? (h : s.registration? = some r) : r.ext = s.ext := by
  obtain ⟨fn,-,rfl⟩ := Option.map_eq_some_iff.mp h
  rfl

theorem fired_dimmed (s : Slot F A) : Dimmed s s.fired := by
  rw [Slot.fired]
  split_ifs
  · exact .inl rfl
  · exact .inr rfl

theorem modify_fired_dimmed (i : Nat) (slots : List (Slot F A)) :
    Forall₂ Dimmed slots (slots.modify i Slot.fired) := by
  induction slots generalizing i with
  | nil => cases i <;> exact .nil
  | cons s slots ih =>
    cases i with
    | zero =>
      rw [List.modify_zero_cons]
      exact .cons (fired_dimmed s) (List.forall₂_same.mpr fun _ _ => .refl _)
    | succ i =>
      rw [List.modify_succ_cons]
      exact .cons (.refl _) (ih i)

theorem Agrees.dim {t : Pollfds F A} {a : Ledger F A} {live : List (Registration F A)}
    {p : Phase} {p' : RoundPhase F A} {log : List (PollEvent F A)} (h : Agrees t a)
    (hd : Forall₂ Dimmed t.slots slots') (hlive : live = active slots')
    (hp : Matching slots' p p') :
    Agrees { t with slots := slots', phase := p, log := log } ⟨live,p'⟩ where
  live := hlive
  nodup := by
    rw [dimmed_map_ext hd]
    exact h.nodup
  fresh := by
    intro s hs
    have hmem : s.ext ∈ t.slots.map Slot.ext := by
      rw [← dimmed_map_ext hd]
      exact List.mem_map_of_mem hs
    obtain ⟨u,hu,hext⟩ := List.mem_map.mp hmem
    exact hext ▸ h.fresh u hu
  phase := hp

theorem Agrees.pack {t : Pollfds F A} {a : Ledger F A} (h : Agrees t a)
    (log : List (PollEvent F A)) :
    Agrees { t with slots := mpPack t.slots, phase := .idle, log := log } ⟨a.live,.idle⟩ where
  live := h.live.trans (active_mpPack t.slots).symm
  nodup := h.nodup.sublist ((mpPack_sublist t.slots).map Slot.ext)
  fresh := fun s hs => h.fresh s ((mpPack_sublist t.slots).subset hs)
  phase := trivial

theorem Agrees.add {t : Pollfds F A} {a : Ledger F A} (h : Agrees t a) (fd : Int) (events : Nat)
    (fn : F) (arg : A) (persistent : Bool) :
    Agrees (mpAdd t fd events fn arg persistent)
      { a with live := a.live ++ [⟨t.next,fd,events,fn,arg,persistent⟩] } := by
  constructor
  case live =>
    rw [mpAdd,active_append,← h.live]
    rfl
  case nodup =>
    have hnew : t.next ∉ t.slots.map Slot.ext := by
      intro hmem
      obtain ⟨s,hs,hext⟩ := List.mem_map.mp hmem
      exact absurd (h.fresh s hs) (by omega)
    rw [mpAdd,List.map_append]
    exact h.nodup.append (List.nodup_singleton _) (by simpa using hnew)
  case fresh =>
    intro s hs
    rcases List.mem_append.mp hs with hs | hs
    · exact Nat.lt_succ_of_lt (h.fresh s hs)
    · obtain rfl := List.mem_singleton.mp hs
      exact Nat.lt_succ_self _
  case phase => exact h.phase.append rfl

theorem Agrees.report {t : Pollfds F A} {a : Ledger F A} {p : Phase} {p' : RoundPhase F A}
    {log : List (PollEvent F A)} (h : Agrees t a) (report : Nat → Nat)
    (hp : Matching (reported report t.slots) p p') :
    Agrees { t with slots := reported report t.slots, phase := p, log := log } ⟨a.live,p'⟩ where
  live := h.live.trans (active_reported report t.slots).symm
  nodup := by
    rw [map_reported Slot.ext report t.slots fun _ _ => rfl]
    exact h.nodup
  fresh := by
    intro s hs
    have hmem : s.ext ∈ t.slots.map Slot.ext := by
      rw [← map_reported Slot.ext report t.slots fun _ _ => rfl]
      exact List.mem_map_of_mem hs
    obtain ⟨u,hu,hext⟩ := List.mem_map.mp hmem
    exact hext ▸ h.fresh u hu
  phase := hp

theorem reported_active (hactive : ∀ s ∈ slots, s.fn.isSome = true) (report : Nat → Nat) :
    ∀ s ∈ reported report slots, s.fn.isSome = true := by
  intro s hs
  obtain ⟨i,hi,rfl⟩ := List.mem_mapIdx.mp hs
  have hfn := hactive _ (List.getElem_mem hi)
  exact hfn

theorem Agrees.init : Agrees (mainpollInit : Pollfds F A) ledgerInit where
  live := rfl
  nodup := List.nodup_nil
  fresh := fun _ hs => by cases hs
  phase := trivial

end Slots

section Deletion

variable {F A : Type} [DecidableEq A] {fd : Int} {arg : A} {s : Slot F A}
  {r : Registration F A} {slots : List (Slot F A)}

theorem hit_of_registration? (h : s.registration? = some r) : r.hit fd arg = s.hit fd arg := by
  obtain ⟨fn,-,rfl⟩ := Option.map_eq_some_iff.mp h
  rfl

theorem mpDelSlots_dimmed (fd : Int) (arg : A) (slots : List (Slot F A)) :
    Forall₂ Dimmed slots (mpDelSlots fd arg slots) := by
  induction slots with
  | nil => exact .nil
  | cons s slots ih =>
    rw [mpDelSlots]
    split_ifs
    · exact .cons (.inr rfl) (List.forall₂_same.mpr fun _ _ => .refl _)
    · exact .cons (.refl _) ih

theorem eraseP_active_of_none (h : ∀ u ∈ slots, u.hit fd arg = true → u.fn = none) :
    (active slots).eraseP (Registration.hit fd arg) = active slots := by
  refine List.eraseP_of_forall_not fun q hq hhit => ?_
  obtain ⟨u,hu,hreg⟩ := List.mem_filterMap.mp hq
  rw [hit_of_registration? hreg] at hhit
  rw [registration?_eq_none_iff.mpr (h u hu hhit)] at hreg
  cases hreg

theorem active_mpDelSlots
    (h : ∀ s ∈ slots.find? (Slot.hit fd arg), s.fn = none →
      ∀ u ∈ slots, u.hit fd arg = true → u.fn = none) :
    active (mpDelSlots fd arg slots) = (active slots).eraseP (Registration.hit fd arg) := by
  induction slots with
  | nil => rfl
  | cons s slots ih =>
    rw [mpDelSlots]
    cases hhit : s.hit fd arg with
    | true =>
      rw [if_pos rfl,active_cons,active_cons,cleared_registration?,Option.toList_none,
        List.nil_append]
      cases hreg : s.registration? with
      | some q =>
        rw [Option.toList_some,List.singleton_append,
          List.eraseP_cons_of_pos ((hit_of_registration? hreg).trans hhit)]
      | none =>
        have hnone := h s (by rw [List.find?_cons_of_pos hhit]; rfl)
          (registration?_eq_none_iff.mp hreg)
        rw [Option.toList_none,List.nil_append]
        exact (eraseP_active_of_none fun u hu =>
          hnone u (List.mem_cons_of_mem _ hu)).symm
    | false =>
      rw [List.find?_cons_of_neg (by simp [hhit])] at h
      have htail := ih fun u hu hfn w hw => h u hu hfn w (List.mem_cons_of_mem _ hw)
      rw [if_neg (by simp),active_cons,active_cons,htail]
      cases hreg : s.registration? with
      | some q =>
        have hmiss : q.hit fd arg = false := (hit_of_registration? hreg).trans hhit
        rw [Option.toList_some,List.singleton_append,List.singleton_append,
          List.eraseP_cons_of_neg (by simp [hmiss])]
      | none => rfl

theorem Agrees.enabled {t : Pollfds F A} {a : Ledger F A} {i rv : Nat}
    (h : Agrees t a) (hphase : t.phase = .scanning i rv) :
    (Mainpoll.mpStep t .step).isSome = true := by
  have hmatch := h.phase
  rw [hphase] at hmatch
  obtain ⟨todo,-,hahead⟩ := hmatch.scanning_eq
  rw [Mainpoll.mpStep,hphase]
  cases rv with
  | zero => rfl
  | succ rv =>
    obtain ⟨s,hs⟩ := hahead.slot
    simp only [mpPpollStep,hs,Option.map_some,Option.isSome_some]

end Deletion

section Refinement

variable {F A : Type} [DecidableEq F] [DecidableEq A]

def Clean (t : Pollfds F A) : PollOp F A → Prop
  | .del fd arg =>
    ∀ s ∈ t.slots.find? (Slot.hit fd arg), s.fn = none →
      ∀ u ∈ t.slots, u.hit fd arg = true → u.fn = none
  | .poll _ => ∀ s ∈ t.slots, s.fn.isSome = true
  | _ => True

instance (t : Pollfds F A) : (op : PollOp F A) → Decidable (Clean t op)
  | .del fd arg =>
    inferInstanceAs (Decidable (∀ s ∈ t.slots.find? (Slot.hit fd arg), s.fn = none →
      ∀ u ∈ t.slots, u.hit fd arg = true → u.fn = none))
  | .poll _ => inferInstanceAs (Decidable (∀ s ∈ t.slots, s.fn.isSome = true))
  | .add .. => .isTrue trivial
  | .step => .isTrue trivial
  | .ret => .isTrue trivial

variable {t t' : Pollfds F A} {a : Ledger F A} {s : Slot F A} {slots : List (Slot F A)}
  {i rv : Nat} {r : Registration F A}

theorem active_modify_fired (hs : slots[i]? = some s) (he : Expects s r)
    (hnodup : (slots.map Slot.ext).Nodup) :
    active (slots.modify i Slot.fired) =
      if r.persistent then active slots else (active slots).erase r := by
  induction slots generalizing i with
  | nil => cases hs
  | cons u slots ih =>
    rw [List.map_cons,List.nodup_cons] at hnodup
    cases i with
    | zero =>
      obtain rfl : u = s := by simpa using hs
      have hnot : r ∉ active slots := fun hr => hnodup.1 (he.ext ▸ mem_active_ext hr)
      rw [List.modify_zero_cons,Slot.fired,he.persistent,active_cons]
      split_ifs
      · rw [active_cons]
      · rw [cleared_registration?,Option.toList_none,List.nil_append,active_cons]
        cases hreg : u.registration? with
        | none => rw [Option.toList_none,List.nil_append,List.erase_of_not_mem hnot]
        | some q =>
          obtain rfl := he.registration q hreg
          rw [Option.toList_some,List.singleton_append,List.erase_cons_head]
    | succ i =>
      have hs' : slots[i]? = some s := by simpa using hs
      have hnot : r ∉ u.registration?.toList := by
        intro hr
        have hext := ext_of_registration? (Option.mem_toList.mp hr)
        have hmem := List.mem_map_of_mem (f := Slot.ext) (List.mem_of_getElem? hs')
        exact hnodup.1 (hext ▸ he.ext ▸ hmem)
      rw [List.modify_succ_cons,active_cons,active_cons,ih hs' hnodup.2]
      split_ifs
      · rfl
      · rw [List.erase_append_right _ hnot]

theorem ledgerStep_polled (ha : a.phase = .idle)
    (hslots : slots.map Slot.registration? = a.live.map some) :
    ledgerStep a (.polled slots) =
      some { a with phase := .round (active (slots.filter Slot.ready)) } := by
  simp only [ledgerStep,ha,if_pos hslots]

theorem Agrees.polled (h : Agrees t a) (hidle : t.phase = .idle)
    (hactive : ∀ s ∈ t.slots, s.fn.isSome = true) (report : Nat → Nat) :
    ledgerStep a (.polled (reported report t.slots)) =
      some ⟨a.live, .round (active ((reported report t.slots).filter Slot.ready))⟩ := by
  have hphase := h.phase
  rw [hidle] at hphase
  refine ledgerStep_polled hphase.idle_eq ?_
  rw [map_registration_of_active (reported_active hactive report),active_reported,h.live]

theorem Agrees.poll (h : Agrees t a) (hidle : t.phase = .idle)
    (hactive : ∀ s ∈ t.slots, s.fn.isSome = true) (report : Option (Nat → Nat)) :
    ∃ evs a', (mpPpollStart t report).log = t.log ++ evs ∧ exec ledgerStep a evs = some a' ∧
      Agrees (mpPpollStart t report) a' := by
  cases report with
  | none =>
    have hnone : (reported (fun _ => 0) t.slots).filter Slot.ready = [] := by
      refine List.filter_eq_nil_iff.mpr fun s hs => ?_
      obtain ⟨i,hi,rfl⟩ := List.mem_mapIdx.mp hs
      simp [Slot.ready]
    have hpolled := h.polled hidle hactive fun _ => 0
    rw [hnone] at hpolled
    refine ⟨_,⟨a.live,.idle⟩,rfl,?_,?_⟩
    · rw [exec,hpolled]
      rfl
    · have hpack := h.pack (mpPpollStart t none).log
      rwa [← hidle] at hpack
  | some report =>
    have hahead : Ahead (reported report t.slots) 0
        ((reported report t.slots).countP Slot.ready)
        (active ((reported report t.slots).filter Slot.ready)) := by
      refine ⟨rfl,expects_active fun s hs => ?_⟩
      exact reported_active hactive report s (List.mem_of_mem_filter hs)
    refine ⟨_,⟨a.live,.round (active ((reported report t.slots).filter Slot.ready))⟩,rfl,?_,
      h.report report hahead⟩
    rw [exec,h.polled hidle hactive]
    rfl

theorem Agrees.step (h : Agrees t a) (hphase : t.phase = .scanning i rv)
    (hstep : mpPpollStep t i rv = some t') :
    ∃ evs a', t'.log = t.log ++ evs ∧ exec ledgerStep a evs = some a' ∧ Agrees t' a' := by
  have hmatch := h.phase
  rw [hphase] at hmatch
  obtain ⟨todo,ha,hahead⟩ := hmatch.scanning_eq
  have hsame : Forall₂ Dimmed t.slots t.slots := List.forall₂_same.mpr fun _ _ => .refl _
  cases rv with
  | zero =>
    obtain rfl := Option.some.inj hstep
    obtain rfl := hahead.todo_nil
    refine ⟨_,⟨a.live,.idle⟩,rfl,?_,h.pack _⟩
    simp only [exec,ledgerStep,ha,Option.bind_some]
  | succ rv =>
    obtain ⟨s,hs,rfl⟩ := Option.map_eq_some_iff.mp hstep
    cases hready : s.ready with
    | false =>
      rw [if_neg (by simp)]
      refine ⟨[],a,(List.append_nil _).symm,rfl,?_⟩
      have hnext : Agrees { t with phase := .scanning (i + 1) (rv + 1) }
          ⟨a.live,.round todo⟩ :=
        h.dim hsame h.live (hahead.of_not_ready hs hready)
      rwa [← ha] at hnext
    | true =>
      rw [if_pos rfl]
      obtain ⟨r,rest,rfl,he,hrest⟩ := hahead.of_ready hs hready
      have hlive := he.live_iff (List.mem_of_getElem? hs) h.nodup
      rw [← h.live] at hlive
      cases hfn : s.fn with
      | none =>
        refine ⟨_,⟨a.live,.round rest⟩,rfl,?_,h.dim hsame h.live hrest⟩
        have hdead : r.ext = s.ext ∧ r ∉ a.live :=
          ⟨he.ext.symm,by rw [hlive,hfn]; simp⟩
        simp only [exec,ledgerStep,ha,if_pos hdead,Option.bind_some]
      | some fn =>
        refine ⟨_,⟨a.live,.calling r rest⟩,rfl,?_,
          h.dim hsame h.live ⟨⟨s,hs,he⟩,hrest⟩⟩
        have hcall : r.ext = s.ext ∧ r ∈ a.live := ⟨he.ext.symm,by rw [hlive,hfn]; rfl⟩
        simp only [exec,ledgerStep,ha,if_pos hcall,Option.bind_some]

theorem Agrees.ret (h : Agrees t a) (hphase : t.phase = .calling i rv) :
    ∃ a', exec ledgerStep a [.returned] = some a' ∧ Agrees (mpPpollReturn t i rv) a' := by
  have hmatch := h.phase
  rw [hphase] at hmatch
  obtain ⟨r,todo,ha,⟨s,hs,he⟩,hahead⟩ := hmatch.calling_eq
  have hdim := modify_fired_dimmed i t.slots
  refine ⟨⟨if r.persistent then a.live else a.live.erase r,.round todo⟩,?_,?_⟩
  · simp only [exec,ledgerStep,ha,Option.bind_some]
  · refine h.dim hdim ?_ (hahead.dimmed hdim)
    rw [active_modify_fired hs he h.nodup,h.live]

theorem Agrees.mpStep (h : Agrees t a) {op : PollOp F A} (hclean : Clean t op)
    (hstep : mpStep t op = some t') :
    ∃ evs a', t'.log = t.log ++ evs ∧ exec ledgerStep a evs = some a' ∧ Agrees t' a' := by
  cases op with
  | add fd events fn arg persistent =>
    obtain rfl := Option.some.inj hstep
    exact ⟨_,_,rfl,rfl,h.add fd events fn arg persistent⟩
  | del fd arg =>
    obtain rfl := Option.some.inj hstep
    have hdim := mpDelSlots_dimmed fd arg t.slots
    refine ⟨_,_,rfl,rfl,h.dim hdim ?_ (h.phase.dimmed hdim)⟩
    rw [active_mpDelSlots hclean,h.live]
  | poll report =>
    rw [Mainpoll.mpStep] at hstep
    cases hphase : t.phase with
    | idle =>
      rw [hphase] at hstep
      obtain rfl := Option.some.inj hstep
      split_ifs
      · exact ⟨[],a,(List.append_nil _).symm,rfl,h⟩
      · exact h.poll hphase hclean report
    | scanning i rv | calling i rv =>
      rw [hphase] at hstep
      cases hstep
  | step =>
    rw [Mainpoll.mpStep] at hstep
    cases hphase : t.phase with
    | scanning i rv =>
      rw [hphase] at hstep
      exact h.step hphase hstep
    | idle | calling i rv =>
      rw [hphase] at hstep
      cases hstep
  | ret =>
    rw [Mainpoll.mpStep] at hstep
    cases hphase : t.phase with
    | calling i rv =>
      rw [hphase] at hstep
      obtain rfl := Option.some.inj hstep
      obtain ⟨a',hexec,hagrees⟩ := h.ret hphase
      exact ⟨_,a',rfl,hexec,hagrees⟩
    | idle | scanning i rv =>
      rw [hphase] at hstep
      cases hstep

theorem rounds_exact (t : Pollfds F A) (h : Run mpStep Clean mainpollInit t) :
    (∃ a, exec ledgerStep ledgerInit t.log = some a ∧ a.live = active t.slots) ∧
      ∀ i rv, t.phase = .scanning i rv → (mpStep t .step).isSome = true := by
  have hinv := h.invariant
    (I := fun t => ∃ a, exec ledgerStep ledgerInit t.log = some a ∧ Agrees t a)
    (fun t op t' ht hclean hstep => by
      obtain ⟨a,hexec,hagrees⟩ := ht
      obtain ⟨evs,a',hlog,hnext,hagrees'⟩ := hagrees.mpStep hclean hstep
      refine ⟨a',?_,hagrees'⟩
      rw [hlog,exec_append,hexec,Option.bind_some,hnext]) ⟨ledgerInit,rfl,.init⟩
  obtain ⟨a,hexec,hagrees⟩ := hinv
  exact ⟨⟨a,hexec,hagrees.live⟩,fun i rv hphase => hagrees.enabled hphase⟩

end Refinement

def crowded : List (PollOp Unit Nat) :=
  [.add 3 1 () 0 true, .add 4 1 () 0 false, .poll (some fun _ => 1), .step, .del 4 0, .ret, .step,
    .step]

theorem rounds_exact_crowded :
    ∃ t : Pollfds Unit Nat, Run mpStep Clean mainpollInit t ∧ t.slots.length = 1 ∧
      ∃ a, exec ledgerStep ledgerInit t.log = some a ∧ a.live = active t.slots := by
  have hrun : ((exec mpStep (mainpollInit : Pollfds Unit Nat) crowded).any fun t =>
      t.slots.length == 1) = true := by
    decide
  have hmeets : Meets mpStep Clean (mainpollInit : Pollfds Unit Nat) crowded := by
    decide
  obtain ⟨t,ht,hlen⟩ := (Option.any_eq_true _ _).mp hrun
  have hsteps := Run.of_exec ht hmeets
  exact ⟨t,hsteps,beq_iff_eq.mp hlen,(rounds_exact t hsteps).1⟩

theorem deleted_still_polled :
    ¬∀ t : Pollfds Unit Nat, Run mpStep (fun _ _ => True) mainpollInit t →
      ∃ a, exec ledgerStep ledgerInit t.log = some a ∧ a.live = active t.slots := by
  intro hall
  have hrun : ((exec mpStep (mainpollInit : Pollfds Unit Nat)
      [.add 3 1 () 0 true,.del 3 0,.poll none]).any fun t =>
        (exec ledgerStep ledgerInit t.log).isNone) = true := by
    decide
  obtain ⟨t,ht,hnone⟩ := (Option.any_eq_true _ _).mp hrun
  obtain ⟨a,ha,-⟩ := hall t (Run.of_exec ht (Meets.of_forall (fun _ _ => trivial) _ _))
  rw [ha] at hnone
  cases hnone

end ViewOS.Mainpoll
