import Mathlib.Tactic.Common

namespace ViewOS.Select.Poll

abbrev Events := BitVec 16

def pollin : Events := 1#16

structure Pollfd where
  fd : Int
  events : Events
  revents : Events
  deriving DecidableEq, Repr

structure Pending where
  fd : Int
  how : Events
  deriving DecidableEq, Repr

def pairLoop (f : Pending → Pollfd → Pollfd) : List Pending → List Pollfd → List Pollfd
  | [], ufds => ufds
  | _ :: _, [] => []
  | p :: ps, e :: ufds =>
    if e.fd = p.fd then f p e :: pairLoop f ps ufds else e :: pairLoop f (p :: ps) ufds

def ready (ufds : List Pollfd) : Nat := ufds.countP fun e => e.revents ≠ 0#16

inductive Kernel where
  | failed (errno : Nat) (report : Nat → Events)
  | done (report : Nat → Events)

def Kernel.report : Kernel → Nat → Events
  | .failed _ report => report
  | .done report => report

def Kernel.leaves (kernel : Kernel) (ufds : List Pollfd) : List Pollfd :=
  ufds.mapIdx fun i e => { e with revents := kernel.report i }

def Kernel.retval (kernel : Kernel) (ufds : List Pollfd) : Int :=
  match kernel with
  | .failed errno _ => -(errno + 1 : Int)
  | .done _ => ready (kernel.leaves ufds)

structure Outcome where
  retval : Int
  ufds : List Pollfd

section Call

variable (virt : Int → Bool) (answer : Int → Events → Events)

def waits (e : Pollfd) : Bool := e.events ≠ 0#16 && virt e.fd

def pending (ufds : List Pollfd) : List Pending :=
  (ufds.filter (waits virt)).map fun e => ⟨e.fd, e.events⟩

def listen (e : Pollfd) : Pollfd := if waits virt e then { e with events := pollin } else e

def wrapInPoll (ufds : List Pollfd) : Option (List Pending × List Pollfd) :=
  if (pending virt ufds).length = 0 then none
  else some (pending virt ufds, ufds.map (listen virt))

def answerEntry (p : Pending) (e : Pollfd) : Pollfd :=
  { e with events := p.how, revents := answer p.fd p.how }

def resetEntry (p : Pending) (e : Pollfd) : Pollfd := { e with events := p.how, revents := 0#16 }

def wrapOutPoll (ps : List Pending) (retval : Int) (ufds : List Pollfd) : Outcome :=
  if 0 ≤ retval then
    let ufds := pairLoop (answerEntry answer) ps ufds
    ⟨ready ufds, ufds⟩
  else ⟨retval, pairLoop resetEntry ps ufds⟩

def poll (kernel : Kernel) (ufds : List Pollfd) : Outcome :=
  match wrapInPoll virt ufds with
  | none => ⟨kernel.retval ufds, kernel.leaves ufds⟩
  | some (ps, waited) =>
    wrapOutPoll answer ps (kernel.retval waited) (kernel.leaves waited)

end Call

structure Served (virt : Int → Bool) (answer : Int → Events → Events) (report : Nat → Events)
    (ufds : List Pollfd) (out : Outcome) : Prop where
  entry (i : Nat) : out.ufds[i]? = ufds[i]?.map fun e =>
    ⟨e.fd, e.events, if waits virt e then answer e.fd e.events else report i⟩
  retval : out.retval = ready out.ufds

structure Restored (errno : Nat) (ufds : List Pollfd) (out : Outcome) : Prop where
  events : out.ufds.map Pollfd.events = ufds.map Pollfd.events
  retval : out.retval = -(errno + 1 : Int)

def Transparent (virt : Int → Bool) (answer : Int → Events → Events) (kernel : Kernel)
    (ufds : List Pollfd) (out : Outcome) : Prop :=
  match kernel with
  | .failed errno _ => Restored errno ufds out
  | .done report => Served virt answer report ufds out

def Paired (virt : Int → Bool) : List Pollfd → Prop
  | [] => True
  | e :: ufds =>
    (e.events = 0#16 → (ufds.find? (waits virt)).map Pollfd.fd ≠ some e.fd) ∧ Paired virt ufds

variable {virt : Int → Bool} {answer : Int → Events → Events} {report : Nat → Events}
  {f : Pending → Pollfd → Pollfd} {e : Pollfd} {ufds : List Pollfd}

theorem waits_iff : waits virt e = true ↔ e.events ≠ 0#16 ∧ virt e.fd = true := by
  simp [waits]

@[simp] theorem listen_fd (virt : Int → Bool) (e : Pollfd) : (listen virt e).fd = e.fd := by
  rw [listen]
  split_ifs <;> rfl

theorem listen_of_not (h : ¬waits virt e = true) : listen virt e = e := if_neg h

theorem pending_cons (virt : Int → Bool) (e : Pollfd) (ufds : List Pollfd) :
    pending virt (e :: ufds) =
      if waits virt e then ⟨e.fd, e.events⟩ :: pending virt ufds else pending virt ufds := by
  rw [pending,List.filter_cons]
  split_ifs <;> rfl

theorem head_pending (virt : Int → Bool) (ufds : List Pollfd) :
    (pending virt ufds).head? = (ufds.find? (waits virt)).map fun e => ⟨e.fd, e.events⟩ := by
  rw [pending,List.head?_map,List.head?_filter]

def landed (virt : Int → Bool) (f : Pending → Pollfd → Pollfd) (report : Nat → Events) (i : Nat)
    (e : Pollfd) : Pollfd :=
  if waits virt e then f ⟨e.fd, e.events⟩ { listen virt e with revents := report i }
  else { e with revents := report i }

theorem pairLoop_nil (f : Pending → Pollfd → Pollfd) (ufds : List Pollfd) :
    pairLoop f [] ufds = ufds := by
  cases ufds <;> rfl

theorem pairLoop_skip {ps : List Pending} (h : ∀ p, ps.head? = some p → e.fd ≠ p.fd) :
    pairLoop f ps (e :: ufds) = e :: pairLoop f ps ufds := by
  cases ps with
  | nil => rw [pairLoop_nil,pairLoop_nil]
  | cons p ps => rw [pairLoop,if_neg (h p rfl)]

theorem pairLoop_hit {p : Pending} {ps : List Pending} (h : e.fd = p.fd) :
    pairLoop f (p :: ps) (e :: ufds) = f p e :: pairLoop f ps ufds := by
  rw [pairLoop,if_pos h]

theorem next_ne (hno : ¬waits virt e = true)
    (hpair : e.events = 0#16 → (ufds.find? (waits virt)).map Pollfd.fd ≠ some e.fd) (p : Pending)
    (hp : (pending virt ufds).head? = some p) : e.fd ≠ p.fd := by
  rw [head_pending,Option.map_eq_some_iff] at hp
  obtain ⟨e',he',rfl⟩ := hp
  intro heq
  by_cases hzero : e.events = 0#16
  · refine hpair hzero ?_
    rw [he',Option.map_some,heq]
  · have hvirt := (waits_iff.mp (List.find?_some he')).2
    exact hno (waits_iff.mpr ⟨hzero,heq ▸ hvirt⟩)

theorem pairLoop_paired (h : Paired virt ufds) (report : Nat → Events) :
    pairLoop f (pending virt ufds)
        ((ufds.map (listen virt)).mapIdx fun i e => { e with revents := report i }) =
      ufds.mapIdx (landed virt f report) := by
  induction ufds generalizing report with
  | nil => rfl
  | cons e ufds ih =>
    rw [List.map_cons,List.mapIdx_cons,List.mapIdx_cons,pending_cons]
    have hrest := ih h.2 fun i => report (i + 1)
    by_cases hwaits : waits virt e = true
    · rw [if_pos hwaits,pairLoop_hit (listen_fd virt e),hrest,landed,if_pos hwaits]
      rfl
    · rw [if_neg hwaits,listen_of_not hwaits,
        pairLoop_skip (e := { e with revents := report 0 }) (next_ne hwaits h.1),hrest,landed,
        if_neg hwaits]
      rfl

theorem pairLoop_unpaired (h : ¬Paired virt ufds) (report : Nat → Events)
    (hf : ∀ p e, (f p e).events = p.how) :
    (pairLoop f (pending virt ufds)
        ((ufds.map (listen virt)).mapIdx fun i e => { e with revents := report i })).map
      Pollfd.events ≠ ufds.map Pollfd.events := by
  induction ufds generalizing report with
  | nil => exact absurd trivial h
  | cons e ufds ih =>
    rw [List.map_cons,List.mapIdx_cons,pending_cons,List.map_cons]
    by_cases hwaits : waits virt e = true
    · have hzero := (waits_iff.mp hwaits).1
      rw [if_pos hwaits,pairLoop_hit (listen_fd virt e),List.map_cons]
      intro heq
      exact ih (fun hrest => h ⟨fun hz => absurd hz hzero,hrest⟩) (fun i => report (i + 1))
        (List.cons.inj heq).2
    · rw [if_neg hwaits,listen_of_not hwaits]
      by_cases hpair : e.events = 0#16 → (ufds.find? (waits virt)).map Pollfd.fd ≠ some e.fd
      · rw [pairLoop_skip (e := { e with revents := report 0 }) (next_ne hwaits hpair),
          List.map_cons]
        intro heq
        exact ih (fun hrest => h ⟨hpair,hrest⟩) (fun i => report (i + 1)) (List.cons.inj heq).2
      · simp only [ne_eq,Classical.not_imp,not_not] at hpair
        obtain ⟨hzero,hnext⟩ := hpair
        obtain ⟨e',he',hfd⟩ := Option.map_eq_some_iff.mp hnext
        have hhead := head_pending virt ufds
        rw [he',Option.map_some] at hhead
        obtain ⟨ps,hps⟩ := List.head?_eq_some_iff.mp hhead
        rw [hps,pairLoop_hit hfd.symm,List.map_cons,hf]
        intro heq
        exact (waits_iff.mp (List.find?_some he')).1 ((List.cons.inj heq).1.trans hzero)

theorem paired_of_pending (h : pending virt ufds = []) : Paired virt ufds := by
  induction ufds with
  | nil => trivial
  | cons e ufds ih =>
    rw [pending_cons] at h
    split_ifs at h
    refine ⟨fun _ hnext => ?_,ih h⟩
    have hhead := head_pending virt ufds
    obtain ⟨e',he',-⟩ := Option.map_eq_some_iff.mp hnext
    rw [h,he'] at hhead
    cases hhead

theorem poll_none (h : pending virt ufds = []) (kernel : Kernel) :
    poll virt answer kernel ufds = ⟨kernel.retval ufds, kernel.leaves ufds⟩ := by
  rw [poll,wrapInPoll,h]
  rfl

theorem poll_done (answer : Int → Events → Events) (h : pending virt ufds ≠ []) (report : Nat → Events) :
    (poll virt answer (.done report) ufds).ufds =
      pairLoop (answerEntry answer) (pending virt ufds)
        ((ufds.map (listen virt)).mapIdx fun i e => { e with revents := report i }) ∧
    (poll virt answer (.done report) ufds).retval =
      ready (poll virt answer (.done report) ufds).ufds := by
  rw [poll,wrapInPoll,if_neg (mt List.length_eq_zero_iff.mp h)]
  dsimp only
  rw [wrapOutPoll,Kernel.retval,if_pos (Int.natCast_nonneg _)]
  exact ⟨rfl,rfl⟩

theorem poll_failed (h : pending virt ufds ≠ []) (errno : Nat) (report : Nat → Events) :
    poll virt answer (.failed errno report) ufds =
      ⟨-(errno + 1 : Int), pairLoop resetEntry (pending virt ufds)
        ((ufds.map (listen virt)).mapIdx fun i e => { e with revents := report i })⟩ := by
  rw [poll,wrapInPoll,if_neg (mt List.length_eq_zero_iff.mp h)]
  dsimp only
  rw [wrapOutPoll,Kernel.retval,if_neg (by omega)]
  rfl

theorem waits_of_pending (h : pending virt ufds = []) (he : e ∈ ufds) : ¬waits virt e = true := by
  rw [pending,List.map_eq_nil_iff,List.filter_eq_nil_iff] at h
  exact h e he

theorem mapIdx_events {g : Nat → Pollfd → Pollfd} (h : ∀ i e, (g i e).events = e.events)
    (ufds : List Pollfd) : (ufds.mapIdx g).map Pollfd.events = ufds.map Pollfd.events := by
  refine List.ext_getElem? fun i => ?_
  rw [List.getElem?_map,List.getElem?_mapIdx,List.getElem?_map,Option.map_map]
  refine Option.map_congr fun e _ => h i e

theorem landed_events (hf : ∀ p e, (f p e).events = p.how) (i : Nat) (e : Pollfd) :
    (landed virt f report i e).events = e.events := by
  rw [landed]
  split_ifs
  · exact hf _ _
  · rfl

theorem landed_answer (i : Nat) (e : Pollfd) :
    landed virt (answerEntry answer) report i e =
      ⟨e.fd, e.events, if waits virt e then answer e.fd e.events else report i⟩ := by
  rw [landed]
  split_ifs
  · rw [answerEntry,listen_fd]
  · rfl

theorem Served.events {out : Outcome} (h : Served virt answer report ufds out) :
    out.ufds.map Pollfd.events = ufds.map Pollfd.events := by
  refine List.ext_getElem? fun i => ?_
  rw [List.getElem?_map,h.entry,List.getElem?_map,Option.map_map]
  rfl

theorem poll_transparent_iff (virt : Int → Bool) (answer : Int → Events → Events)
    (kernel : Kernel) (ufds : List Pollfd) :
    Transparent virt answer kernel ufds (poll virt answer kernel ufds) ↔ Paired virt ufds := by
  by_cases hnone : pending virt ufds = []
  · refine iff_of_true ?_ (paired_of_pending hnone)
    rw [poll_none hnone]
    cases kernel with
    | failed errno report =>
      refine ⟨?_,rfl⟩
      refine mapIdx_events (fun i e => ?_) ufds
      rfl
    | done report =>
      refine ⟨fun i => ?_,rfl⟩
      rw [Kernel.leaves,List.getElem?_mapIdx]
      refine Option.map_congr fun e he => ?_
      rw [if_neg (waits_of_pending hnone (List.mem_of_getElem? he))]
      rfl
  · cases kernel with
    | failed errno report =>
      rw [poll_failed hnone]
      constructor
      · intro h
        by_contra hno
        exact pairLoop_unpaired hno report (fun _ _ => rfl) h.events
      · intro h
        refine ⟨?_,rfl⟩
        rw [pairLoop_paired h]
        exact mapIdx_events (landed_events fun _ _ => rfl) ufds
    | done report =>
      obtain ⟨hufds,hretval⟩ := poll_done answer hnone report
      constructor
      · intro h
        by_contra hno
        have hevents := h.events
        rw [hufds] at hevents
        exact pairLoop_unpaired hno report (fun _ _ => rfl) hevents
      · intro h
        refine ⟨fun i => ?_,hretval⟩
        rw [hufds,pairLoop_paired h,List.getElem?_mapIdx]
        exact Option.map_congr fun e _ => landed_answer i e

def twiceFive : List Pollfd := [⟨5, 0#16, 0#16⟩, ⟨5, 1#16, 0#16⟩]

theorem silent_entry_answered :
    ¬Transparent (fun _ => true) (fun _ how => how) (.done fun _ => 0#16) twiceFive
      (poll (fun _ => true) (fun _ how => how) (.done fun _ => 0#16) twiceFive) := by
  intro h
  exact absurd h.events (by decide)

end ViewOS.Select.Poll
