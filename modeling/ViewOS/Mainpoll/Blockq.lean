import ViewOS.Lib.Compact
import ViewOS.Lib.Run

namespace ViewOS.Mainpoll

open Compact Transition

inductive Pollstatus where
  | ready
  | blocked
  | wakeMeUp
  | terminated
  deriving DecidableEq, Repr

structure Entry (P F : Type) where
  pc : P
  fn : F
  deriving DecidableEq, Repr

def stepSizePollfdTable : Nat := 8

structure Blockq (P F : Type) where
  pollstatus : P → Pollstatus
  slots : List (Entry P F)
  maxbq : Nat

inductive Act (P F : Type) where
  | add (fn : F) (pc : P)
  | block (pc : P)
  | unblock (pc : P)
  | signal (pc : P)
  | terminate (pc : P)

section Scan

variable {P F : Type}

def adds (acts : List (Act P F)) : List (Entry P F) :=
  acts.filterMap fun
    | .add fn pc => some ⟨pc, fn⟩
    | _ => none

structure Scan (P F : Type) where
  queue : Blockq P F
  i : Nat
  j : Nat
  reached : List (Entry P F × Pollstatus)
  calls : List (Entry P F)
  freed : List (Entry P F)
  added : List (Entry P F)

abbrev Behaviour (P F : Type) := List (Entry P F) → Blockq P F → List (Act P F)

def scanStart (q : Blockq P F) : Scan P F := ⟨q, 0, 0, [], [], [], []⟩

def Pollstatus.stays : Pollstatus → Bool
  | .wakeMeUp => false
  | .terminated => false
  | _ => true

def withStatus (p : Pollstatus → Bool) (reached : List (Entry P F × Pollstatus)) :
    List (Entry P F) :=
  (reached.filter fun r => p r.2).map Prod.fst

structure Passing (q : Blockq P F) (s : Scan P F) : Prop where
  order : s.reached.map Prod.fst ++ s.queue.slots.drop s.i = q.slots ++ s.added
  bounds : s.j ≤ s.i ∧ s.i ≤ s.queue.slots.length
  index : s.reached.length = s.i
  calls : s.calls = withStatus (· = .wakeMeUp) s.reached
  freed : s.freed = withStatus (fun st => !st.stays) s.reached
  kept : s.queue.slots.take s.j = withStatus Pollstatus.stays s.reached
  inside : q.slots.length ≤ q.maxbq → s.queue.slots.length ≤ s.queue.maxbq

structure Passed (q : Blockq P F) (s : Scan P F) : Prop where
  order : s.reached.map Prod.fst = q.slots ++ s.added
  calls : s.calls = withStatus (· = .wakeMeUp) s.reached
  freed : s.freed = withStatus (fun st => !st.stays) s.reached
  queue : s.queue.slots = withStatus Pollstatus.stays s.reached

variable {q : Blockq P F} {s : Scan P F}

theorem withStatus_append (p : Pollstatus → Bool) (l : List (Entry P F × Pollstatus))
    (e : Entry P F) (st : Pollstatus) :
    withStatus p (l ++ [(e, st)]) = withStatus p l ++ if p st then [e] else [] := by
  rw [withStatus,List.filter_append,List.map_append,withStatus]
  cases hp : p st <;> simp [hp]

theorem Passing.start (q : Blockq P F) : Passing q (scanStart q) where
  order := (List.append_nil _).symm
  bounds := ⟨Nat.le_refl 0,Nat.zero_le _⟩
  index := rfl
  calls := rfl
  freed := rfl
  kept := rfl
  inside := id

theorem Passing.holds (h : Passing q s) :
    Holds s.queue.slots s.j s.i (withStatus Pollstatus.stays s.reached)
      (s.queue.slots.drop s.i) :=
  ⟨h.bounds.1,h.bounds.2,h.kept,rfl⟩

theorem Passing.length (h : Passing q s) :
    s.queue.slots.length = q.slots.length + s.added.length := by
  have hlen := congrArg List.length h.order
  have hbound := h.bounds.2
  rw [List.length_append,List.length_map,h.index,List.length_drop,List.length_append] at hlen
  omega

theorem Passing.passed (h : Passing q s) (hend : s.queue.slots[s.i]? = none) :
    Passed q { s with queue := { s.queue with slots := s.queue.slots.take s.j } } where
  order := by
    have hle := List.getElem?_eq_none_iff.mp hend
    have horder := h.order
    rwa [List.drop_eq_nil_of_le hle,List.append_nil] at horder
  calls := h.calls
  freed := h.freed
  queue := h.kept

end Scan

section Queue

variable {P F : Type} [DecidableEq P]

def setStatus (pc : P) (st : Pollstatus) (q : Blockq P F) : Blockq P F :=
  { q with pollstatus := fun p => if p = pc then st else q.pollstatus p }

def bqAdd (fn : F) (pc : P) (q : Blockq P F) : Option (Blockq P F) :=
  if q.pollstatus pc = .ready then none
  else
    some { q with
      maxbq := if q.maxbq ≤ q.slots.length then q.maxbq + stepSizePollfdTable else q.maxbq
      slots := q.slots ++ [⟨pc, fn⟩] }

def bqSignal (pc : P) (q : Blockq P F) : Blockq P F := setStatus pc .wakeMeUp q

def bqTerminate (pc : P) (q : Blockq P F) : Blockq P F := setStatus pc .terminated q

def bqBlock (pc : P) (q : Blockq P F) : Blockq P F := setStatus pc .blocked q

def bqUnblock (pc : P) (q : Blockq P F) : Blockq P F := setStatus pc .ready q

def perform (q : Blockq P F) : Act P F → Option (Blockq P F)
  | .add fn pc => bqAdd fn pc q
  | .block pc => some (bqBlock pc q)
  | .unblock pc => some (bqUnblock pc q)
  | .signal pc => some (bqSignal pc q)
  | .terminate pc => some (bqTerminate pc q)

def performAll : List (Act P F) → Blockq P F → Option (Blockq P F)
  | [], q => some q
  | a :: acts, q => (perform q a).bind (performAll acts)

def Act.status (st : P → Pollstatus) : Act P F → P → Pollstatus
  | .add _ _ => st
  | .block pc => Function.update st pc .blocked
  | .unblock pc => Function.update st pc .ready
  | .signal pc => Function.update st pc .wakeMeUp
  | .terminate pc => Function.update st pc .terminated

-- No process is READY when it is added.
def Admitted : (P → Pollstatus) → List (Act P F) → Prop
  | _, [] => True
  | st, a :: acts => (∀ fn pc, a = .add fn pc → st pc ≠ .ready) ∧ Admitted (a.status st) acts

def visit (behave : Behaviour P F) (s : Scan P F) (e : Entry P F) : Option (Scan P F) :=
  let st := s.queue.pollstatus e.pc
  let s := { s with reached := s.reached ++ [(e, st)] }
  match st with
  | .wakeMeUp =>
    let calls := s.calls ++ [e]
    let acts := behave calls s.queue
    (performAll acts s.queue).map fun q =>
      { s with
        queue := q
        i := s.i + 1
        calls := calls
        freed := s.freed ++ [e]
        added := s.added ++ adds acts }
  | .terminated => some { s with i := s.i + 1, freed := s.freed ++ [e] }
  | _ =>
    some { s with
      queue := { s.queue with slots := moved s.queue.slots s.j s.i e }
      i := s.i + 1
      j := s.j + 1 }

def tryStep (behave : Behaviour P F) (s : Scan P F) (_ : Unit) : Option (Scan P F) :=
  s.queue.slots[s.i]?.bind (visit behave s)

def bqTryLoop (behave : Behaviour P F) : Nat → Scan P F → Option (Option (Scan P F))
  | 0, _ => none
  | fuel + 1, s =>
    match s.queue.slots[s.i]? with
    | none => some (some s)
    | some e =>
      match visit behave s e with
      | none => some none
      | some s => bqTryLoop behave fuel s

def bqTry (behave : Behaviour P F) (fuel : Nat) (q : Blockq P F) : Option (Option (Scan P F)) :=
  (bqTryLoop behave fuel (scanStart q)).map fun r => r.map fun s =>
    { s with queue := { s.queue with slots := s.queue.slots.take s.j } }

abbrev Reaches (behave : Behaviour P F) (q : Blockq P F) (s : Scan P F) : Prop :=
  Run (tryStep behave) (fun _ _ => True) (scanStart q) s

variable {behave : Behaviour P F} {q q' : Blockq P F} {s t : Scan P F} {e : Entry P F}
  {acts : List (Act P F)}

theorem perform_effect {a : Act P F} (h : perform q a = some q') :
    q'.slots = q.slots ++ adds [a] ∧
      (q.slots.length ≤ q.maxbq → q'.slots.length ≤ q'.maxbq) := by
  cases a with
  | add fn pc =>
    rw [perform,bqAdd] at h
    split_ifs at h <;> obtain rfl := Option.some.inj h
    · refine ⟨rfl,fun hle => ?_⟩
      rw [List.length_append,List.length_singleton]
      exact Nat.add_le_add hle (by decide)
    · refine ⟨rfl,fun hle => ?_⟩
      rw [List.length_append,List.length_singleton]
      dsimp only
      omega
  | block pc | unblock pc | signal pc | terminate pc =>
    obtain rfl := Option.some.inj h
    exact ⟨(List.append_nil _).symm,id⟩

theorem performAll_effect (h : performAll acts q = some q') :
    q'.slots = q.slots ++ adds acts ∧
      (q.slots.length ≤ q.maxbq → q'.slots.length ≤ q'.maxbq) := by
  induction acts generalizing q with
  | nil =>
    obtain rfl := Option.some.inj h
    exact ⟨(List.append_nil _).symm,id⟩
  | cons a acts ih =>
    obtain ⟨u,hu,hrest⟩ := Option.bind_eq_some_iff.mp h
    obtain ⟨hslots,hroom⟩ := perform_effect hu
    obtain ⟨hslots',hroom'⟩ := ih hrest
    refine ⟨?_,fun hle => hroom' (hroom hle)⟩
    rw [hslots',hslots,List.append_assoc,adds,adds,adds,← List.filterMap_append]
    rfl

theorem perform_status {a : Act P F} (h : perform q a = some q') :
    q'.pollstatus = a.status q.pollstatus := by
  cases a with
  | add fn pc =>
    rw [perform,bqAdd] at h
    split_ifs at h <;> obtain rfl := Option.some.inj h <;> rfl
  | block pc | unblock pc | signal pc | terminate pc =>
    obtain rfl := Option.some.inj h
    funext p
    exact (Function.update_apply ..).symm

theorem perform_isSome (a : Act P F) :
    (perform q a).isSome = true ↔ ∀ fn pc, a = .add fn pc → q.pollstatus pc ≠ .ready := by
  cases a with
  | add fn pc =>
    rw [perform,bqAdd]
    split_ifs with hready
    · exact iff_of_false nofun fun h => h fn pc rfl hready
    all_goals exact iff_of_true rfl fun _ _ heq => by cases heq; exact hready
  | block pc | unblock pc | signal pc | terminate pc => exact iff_of_true rfl nofun

theorem performAll_isSome (acts : List (Act P F)) (q : Blockq P F) :
    (performAll acts q).isSome = true ↔ Admitted q.pollstatus acts := by
  induction acts generalizing q with
  | nil => exact iff_of_true rfl trivial
  | cons a acts ih =>
    rw [performAll,Admitted,← perform_isSome]
    cases hq : perform q a with
    | none => simp
    | some u => simpa [← perform_status hq] using ih u

theorem visit_isSome (behave : Behaviour P F) (s : Scan P F) (e : Entry P F) :
    (visit behave s e).isSome = true ↔ (s.queue.pollstatus e.pc = .wakeMeUp →
      Admitted s.queue.pollstatus (behave (s.calls ++ [e]) s.queue)) := by
  rw [visit,← performAll_isSome]
  cases s.queue.pollstatus e.pc <;> simp

theorem visit_passing (h : Passing q s) (he : s.queue.slots[s.i]? = some e)
    (hv : visit behave s e = some t) : Passing q t := by
  have hlt := (List.getElem?_eq_some_iff.mp he).1
  have hbounds := h.bounds
  have hrest : s.queue.slots.drop s.i = e :: s.queue.slots.drop (s.i + 1) := by
    rw [List.drop_eq_getElem_cons hlt,(List.getElem?_eq_some_iff.mp he).2]
  have hholds := h.holds
  rw [hrest] at hholds
  have hskip := hholds.skip
  have horder : (s.reached.map Prod.fst ++ [e]) ++ s.queue.slots.drop (s.i + 1) =
      q.slots ++ s.added := by
    rw [List.append_assoc,List.singleton_append,← hrest,h.order]
  rw [visit] at hv
  cases hst : s.queue.pollstatus e.pc with
  | wakeMeUp =>
    rw [hst] at hv
    obtain ⟨q',hq',rfl⟩ := Option.map_eq_some_iff.mp hv
    obtain ⟨hslots,hroom⟩ := performAll_effect hq'
    have hgrow := hskip.grow (adds (behave (s.calls ++ [e]) s.queue))
    rw [← hslots] at hgrow
    constructor
    case order =>
      rw [hgrow.rest,List.map_append,← List.append_assoc,← List.append_assoc]
      exact congrArg (· ++ _) horder
    case bounds => exact ⟨hgrow.le,hgrow.bound⟩
    case index => rw [List.length_append,h.index]; rfl
    case calls => rw [withStatus_append,h.calls]; rfl
    case freed => rw [withStatus_append,h.freed]; rfl
    case kept => rw [hgrow.kept,withStatus_append]; exact (List.append_nil _).symm
    case inside => exact fun hle => hroom (h.inside hle)
  | terminated =>
    rw [hst] at hv
    obtain rfl := Option.some.inj hv
    constructor
    case order => rw [List.map_append]; exact horder
    case bounds => exact ⟨hskip.le,hskip.bound⟩
    case index => rw [List.length_append,h.index]; rfl
    case calls => rw [withStatus_append,h.calls]; exact (List.append_nil _).symm
    case freed => rw [withStatus_append,h.freed]; rfl
    case kept => rw [hskip.kept,withStatus_append]; exact (List.append_nil _).symm
    case inside => exact h.inside
  | ready | blocked =>
    rw [hst] at hv
    obtain rfl := Option.some.inj hv
    have hkeep := hholds.keep
    constructor
    case order => rw [hkeep.rest,List.map_append]; exact horder
    case bounds => exact ⟨hkeep.le,hkeep.bound⟩
    case index => rw [List.length_append,h.index]; rfl
    case calls => rw [withStatus_append,h.calls]; exact (List.append_nil _).symm
    case freed => rw [withStatus_append,h.freed]; exact (List.append_nil _).symm
    case kept => rw [hkeep.kept,withStatus_append]; rfl
    case inside =>
      intro hle
      rw [length_moved]
      exact h.inside hle

theorem visit_next (hv : visit behave s e = some t) :
    t.i = s.i + 1 ∧ t.reached = s.reached ++ [(e, s.queue.pollstatus e.pc)] := by
  rw [visit] at hv
  cases hst : s.queue.pollstatus e.pc with
  | wakeMeUp =>
    rw [hst] at hv
    obtain ⟨q',-,rfl⟩ := Option.map_eq_some_iff.mp hv
    exact ⟨rfl,rfl⟩
  | ready | blocked | terminated =>
    rw [hst] at hv
    obtain rfl := Option.some.inj hv
    exact ⟨rfl,rfl⟩

theorem tryStep_eq (he : s.queue.slots[s.i]? = some e) (u : Unit) :
    tryStep behave s u = visit behave s e := by
  rw [tryStep,he,Option.bind_some]

theorem tryStep_passing (h : Passing q s) (hstep : tryStep behave s () = some t) :
    Passing q t := by
  obtain ⟨e,he,hv⟩ := Option.bind_eq_some_iff.mp hstep
  exact visit_passing h he hv

theorem Reaches.passing (h : Reaches behave q s) : Passing q s :=
  h.invariant (fun _ _ _ ht _ hu => tryStep_passing ht hu) (.start q)

theorem bqTryLoop_cases (behave : Behaviour P F) (fuel : Nat) (s : Scan P F) :
    (tryStep behave s () = none ∧
        (bqTryLoop behave (fuel + 1) s = some none ∨
          bqTryLoop behave (fuel + 1) s = some (some s) ∧ s.queue.slots[s.i]? = none)) ∨
      ∃ t, tryStep behave s () = some t ∧
        bqTryLoop behave (fuel + 1) s = bqTryLoop behave fuel t := by
  rw [bqTryLoop]
  cases he : s.queue.slots[s.i]? with
  | none => exact .inl ⟨by rw [tryStep,he,Option.bind_none],.inr ⟨rfl,rfl⟩⟩
  | some e =>
    rw [tryStep_eq he]
    cases hv : visit behave s e with
    | none => exact .inl ⟨rfl,.inl (by simp [hv])⟩
    | some t => exact .inr ⟨t,rfl,by simp [hv]⟩

theorem bqTryLoop_reaches {fuel : Nat} (hs : Reaches behave q s)
    (h : bqTryLoop behave fuel s = some (some t)) :
    Reaches behave q t ∧ t.queue.slots[t.i]? = none := by
  induction fuel generalizing s with
  | zero => cases h
  | succ fuel ih =>
    rcases bqTryLoop_cases behave fuel s with ⟨-,heq | ⟨heq,hend⟩⟩ | ⟨u,hu,heq⟩
    · rw [heq] at h
      cases Option.some.inj h
    · rw [heq] at h
      obtain rfl := Option.some.inj (Option.some.inj h)
      exact ⟨hs,hend⟩
    · rw [heq] at h
      exact ih (hs.tail trivial hu) h

theorem bqTry_passed {fuel : Nat} (h : bqTry behave fuel q = some (some t)) : Passed q t := by
  obtain ⟨r,hr,hmap⟩ := Option.map_eq_some_iff.mp h
  obtain ⟨s,rfl,rfl⟩ := Option.map_eq_some_iff.mp hmap
  obtain ⟨hreach,hend⟩ := bqTryLoop_reaches (.refl _) hr
  exact (Reaches.passing hreach).passed hend

theorem bqTryLoop_ends {bound : Nat}
    (hbound : ∀ s, Reaches behave q s → s.added.length ≤ bound) (n : Nat)
    (hs : Reaches behave q s) (hn : q.slots.length + bound < s.i + n) :
    (bqTryLoop behave n s).isSome = true := by
  induction n generalizing s with
  | zero =>
    have hp := Reaches.passing hs
    have hle := hp.bounds.2
    rw [hp.length] at hle
    have hadded := hbound s hs
    omega
  | succ n ih =>
    rcases bqTryLoop_cases behave n s with ⟨-,heq | ⟨heq,-⟩⟩ | ⟨u,hu,heq⟩
    · rw [heq,Option.isSome_some]
    · rw [heq,Option.isSome_some]
    · obtain ⟨e,-,hv⟩ := Option.bind_eq_some_iff.mp hu
      rw [heq]
      refine ih (hs.tail trivial hu) ?_
      rw [(visit_next hv).1]
      omega

theorem bqTryLoop_bounded {fuel : Nat} (h : (bqTryLoop behave fuel s).isSome = true) :
    ∃ bound, ∀ t, Run (tryStep behave) (fun _ _ => True) s t → t.added.length ≤ bound := by
  induction fuel generalizing s with
  | zero => cases h
  | succ fuel ih =>
    rcases bqTryLoop_cases behave fuel s with ⟨hstop,-⟩ | ⟨u,hu,heq⟩
    · refine ⟨s.added.length,fun t ht => ?_⟩
      rcases ht.cases_head with rfl | ⟨o,v,-,hv,-⟩
      · exact Nat.le_refl _
      · rw [hstop] at hv
        cases hv
    · rw [heq] at h
      obtain ⟨bound,hbound⟩ := ih h
      refine ⟨max s.added.length bound,fun t ht => ?_⟩
      rcases ht.cases_head with rfl | ⟨o,v,-,hv,hrun⟩
      · exact Nat.le_max_left _ _
      · obtain rfl := Option.some.inj (hu.symm.trans hv)
        exact Nat.le_trans (hbound t hrun) (Nat.le_max_right _ _)

theorem bqTry_ends_iff (behave : Behaviour P F) (q : Blockq P F) :
    (∃ fuel, (bqTry behave fuel q).isSome = true) ↔
      ∃ bound, ∀ s, Reaches behave q s → s.added.length ≤ bound := by
  simp only [bqTry,Option.isSome_map]
  constructor
  · rintro ⟨fuel,hfuel⟩
    exact bqTryLoop_bounded hfuel
  · rintro ⟨bound,hbound⟩
    exact ⟨q.slots.length + bound + 1,bqTryLoop_ends hbound _ (.refl _) (by omega)⟩

theorem bqTryLoop_passes {fuel : Nat} {r : Option (Scan P F)} (h : bqTryLoop behave fuel s = some r) :
    r.isSome = true ↔ ∀ t e, Run (tryStep behave) (fun _ _ => True) s t →
      t.queue.slots[t.i]? = some e → (visit behave t e).isSome = true := by
  induction fuel generalizing s with
  | zero => cases h
  | succ fuel ih =>
    rw [bqTryLoop] at h
    cases he : s.queue.slots[s.i]? with
    | none =>
      rw [he] at h
      obtain rfl := Option.some.inj h
      refine iff_of_true rfl fun t e ht hte => ?_
      rcases ht.cases_head with rfl | ⟨o,v,-,hv,-⟩
      · rw [he] at hte
        cases hte
      · rw [tryStep,he] at hv
        cases hv
    | some e =>
      simp only [he] at h
      cases hv : visit behave s e with
      | none =>
        rw [hv] at h
        obtain rfl := Option.some.inj h
        refine iff_of_false nofun fun hall => ?_
        have hsome := hall s e (.refl s) he
        rw [hv] at hsome
        cases hsome
      | some u =>
        simp only [hv] at h
        have hu : tryStep behave s () = some u := (tryStep_eq he ()).trans hv
        rw [ih h]
        refine ⟨fun hall t e' ht hte => ?_,fun hall t e' ht hte =>
          hall t e' ((Run.refl s).tail trivial hu |>.trans ht) hte⟩
        rcases ht.cases_head with rfl | ⟨o,v,-,hv',hrun⟩
        · obtain rfl := Option.some.inj (he.symm.trans hte)
          rw [hv]
          rfl
        · obtain rfl := Option.some.inj (hu.symm.trans hv')
          exact hall t e' hrun hte

theorem pass_exact (behave : Behaviour P F) (q : Blockq P F) :
    (∀ s, Reaches behave q s → Passing q s ∧ ∀ e, s.queue.slots[s.i]? = some e →
        ((∃ t, tryStep behave s () = some t ∧
            t.reached = s.reached ++ [(e, s.queue.pollstatus e.pc)]) ↔
          (s.queue.pollstatus e.pc = .wakeMeUp →
            Admitted s.queue.pollstatus (behave (s.calls ++ [e]) s.queue)))) ∧
      (∀ fuel t, bqTry behave fuel q = some (some t) → Passed q t) ∧
      ((∃ fuel, (bqTry behave fuel q).isSome = true) ↔
        ∃ bound, ∀ s, Reaches behave q s → s.added.length ≤ bound) ∧
      ((∃ fuel t, bqTry behave fuel q = some (some t)) ↔
        (∃ bound, ∀ s, Reaches behave q s → s.added.length ≤ bound) ∧
        ∀ s e, Reaches behave q s → s.queue.slots[s.i]? = some e →
          s.queue.pollstatus e.pc = .wakeMeUp →
            Admitted s.queue.pollstatus (behave (s.calls ++ [e]) s.queue)) := by
  refine ⟨fun s hs => ⟨Reaches.passing hs,fun e he => ?_⟩,fun fuel t => bqTry_passed,
    bqTry_ends_iff behave q,?_⟩
  · rw [← visit_isSome,tryStep_eq he,Option.isSome_iff_exists]
    exact exists_congr fun t => and_iff_left_of_imp fun hv => (visit_next hv).2
  · simp only [← visit_isSome]
    rw [← bqTry_ends_iff]
    constructor
    · rintro ⟨fuel,t,ht⟩
      obtain ⟨r,hr,hmap⟩ := Option.map_eq_some_iff.mp ht
      refine ⟨⟨fuel,by rw [ht]; rfl⟩,(bqTryLoop_passes hr).mp ?_⟩
      rw [← Option.isSome_map,hmap]
      rfl
    · rintro ⟨⟨fuel,hfuel⟩,hall⟩
      obtain ⟨r,hr⟩ := Option.isSome_iff_exists.mp (Option.isSome_map.symm.trans hfuel)
      obtain ⟨s,rfl⟩ := Option.isSome_iff_exists.mp ((bqTryLoop_passes hr).mpr hall)
      exact ⟨fuel,_,by rw [bqTry,hr]; rfl⟩

end Queue

-- Process 1 is blocked, 2 is to be woken, 3 terminated and 4 ready; the wake-up adds 1 again.
def fourStatus : Nat → Pollstatus
  | 1 => .blocked
  | 2 => .wakeMeUp
  | 3 => .terminated
  | _ => .ready

def four : Blockq Nat Unit := ⟨fourStatus, [⟨1, ()⟩, ⟨2, ()⟩, ⟨3, ()⟩, ⟨4, ()⟩], 4⟩

theorem pass_exact_added : ∃ t, bqTry (fun _ _ => [.add () 1]) 6 four = some (some t) ∧
    t.calls = [⟨2, ()⟩] ∧ t.queue.slots = [⟨1, ()⟩, ⟨4, ()⟩, ⟨1, ()⟩] ∧ Passed four t :=
  ⟨_,rfl,rfl,rfl,(pass_exact (fun _ _ => [.add () 1]) four).2.1 6 _ rfl⟩

end ViewOS.Mainpoll
