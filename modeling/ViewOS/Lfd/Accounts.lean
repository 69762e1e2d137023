import ViewOS.Lfd.Calls
import ViewOS.Lib.Run

namespace ViewOS.Lfd
open RefCount Transition

def fileSlots (l : Nat) : Option PcbFile → Nat
  | none => 0
  | some p => p.lfdlist.count (some l)

def State.slots (s : State) (l : Nat) : Nat := (s.files.map (fileSlots l)).sum

def State.inFlight (s : State) (l : Nat) : Nat :=
  s.procs.countP fun q => q.bind Pcb.held = some l

structure Accounted (s : State) : Prop where
  count : ∀ l e, s.lfds.entry l = some e → e.count = s.slots l + s.inFlight l
  mapped : ∀ l, s.slots l ≠ 0 → s.lfds.entry l ≠ none
  freed : ∀ l, s.lfds.entry l = none ↔ s.slots l + s.inFlight l = 0

def Regular (s : State) : Op → Prop
  | .addproc pp cloneFiles => cloneFiles ∨ ∀ q ∈ s.proc pp, ∀ p ∈ s.file q.fds,
      ∀ x ∈ p.lfdlist, ∀ l ∈ x, ∀ e ∈ s.lfds.entry l,
        e.count + p.lfdlist.count (some l) ≤ shrtMax
  | .delproc pid => ∀ q ∈ s.proc pid, q.held = none
  | .call pid c => ∀ q ∈ s.proc pid, ∀ p ∈ s.file q.fds, RegularCall s q p c

instance (s : State) : (o : Op) → Decidable (Enabled s o)
  | .addproc _ _ => inferInstanceAs (Decidable (_ ≠ _))
  | .delproc _ => inferInstanceAs (Decidable (_ ≠ _))
  | .call _ (.out _ _) => inferInstanceAs (Decidable (∃ q ∈ _, _))
  | .call _ (.openIn _ _ _ _) => inferInstanceAs (Decidable (∃ q ∈ _, _))
  | .call _ (.closeIn _ _) => inferInstanceAs (Decidable (∃ q ∈ _, _))
  | .call _ (.dupIn _ _) => inferInstanceAs (Decidable (∃ q ∈ _, _))
  | .call _ (.fcntlIn _) => inferInstanceAs (Decidable (∃ q ∈ _, _))

instance (s : State) (q : Pcb) (p : PcbFile) : (c : Call) → Decidable (RegularCall s q p c)
  | .openIn _ _ _ _ => inferInstanceAs (Decidable True)
  | .closeIn _ _ => inferInstanceAs (Decidable True)
  | .dupIn _ _ => inferInstanceAs (Decidable (∀ l ∈ _, ∀ e ∈ _, _))
  | .fcntlIn _ => inferInstanceAs (Decidable (∀ l ∈ _, ∀ e ∈ _, _))
  | .out _ _ => inferInstanceAs (Decidable (∀ fd ∈ _, _))

instance (s : State) : (o : Op) → Decidable (Regular s o)
  | .addproc _ _ => inferInstanceAs (Decidable (_ ∨ _))
  | .delproc _ => inferInstanceAs (Decidable (∀ q ∈ _, _))
  | .call _ _ => inferInstanceAs (Decidable (∀ q ∈ _, ∀ p ∈ _, _))

theorem count_optRef (l : Nat) (x : Option Nat) :
    (optRef x).count l = if x = some l then 1 else 0 := by
  cases x with
  | none => simp [optRef]
  | some a =>
    simp only [optRef,Multiset.count_singleton,Option.some.injEq]
    exact if_congr eq_comm rfl rfl

theorem count_refs (l : Nat) (xs : List (Option Nat)) :
    ((xs.map optRef).sum).count l = xs.count (some l) := by
  induction xs with
  | nil => simp
  | cons x xs ih =>
    rw [List.map_cons,List.sum_cons,Multiset.count_add,ih,count_optRef,List.count_cons,
      add_comm]
    simp

theorem count_slots (l : Nat) (files : List (Option PcbFile)) :
    ((files.map fileRefs).sum).count l = (files.map (fileSlots l)).sum := by
  induction files with
  | nil => simp
  | cons f files ih =>
    rw [List.map_cons,List.sum_cons,Multiset.count_add,ih,List.map_cons,List.sum_cons]
    cases f with
    | none => simp [fileRefs,fileSlots]
    | some p => rw [fileRefs,fileSlots,PcbFile.refs,count_refs]

theorem count_inFlight (l : Nat) (procs : List (Option Pcb)) :
    ((procs.map heldRefs).sum).count l = procs.countP fun q => q.bind Pcb.held = some l := by
  induction procs with
  | nil => simp
  | cons q procs ih =>
    rw [List.map_cons,List.sum_cons,Multiset.count_add,ih,List.countP_cons,add_comm]
    cases q with
    | none => simp [heldRefs]
    | some q => simp [heldRefs,count_optRef]

theorem State.count_refs (s : State) (l : Nat) : s.refs.count l = s.slots l + s.inFlight l := by
  rw [State.refs,Multiset.count_add,count_slots,count_inFlight]
  rfl

theorem Inv.accounted {s : State} (h : Inv s) : Accounted s := by
  have hfreed : ∀ l, s.lfds.entry l = none ↔ s.slots l + s.inFlight l = 0 := by
    intro l
    rw [h.rep.not_mem,← Multiset.count_eq_zero,s.count_refs]
  refine ⟨fun l e he => ?_,fun l hl hnone => ?_,hfreed⟩
  · have hmem : l ∈ s.refs := by
      by_contra hno
      simp [h.rep.not_mem.mpr hno] at he
    obtain ⟨e',he',hc⟩ := h.rep.entry hmem
    obtain rfl := Option.some.inj (he.symm.trans he')
    rw [hc,s.count_refs]
    push_cast
    rfl
  · have := (hfreed l).mp hnone
    omega

theorem Inv.wrapIn {s : State} {pid : Nat} {q : Pcb} {p : PcbFile} (h : Inv s)
    (hq : s.proc pid = some q) (hp : s.file q.fds = some p) (hidle : q.pending = none) {c : Call}
    (hreg : RegularCall s q p c) (hc : ∀ rv addfd, c ≠ .out rv addfd) :
    ∃ s', wrapIn s pid q p c = some s' ∧ Inv s' := by
  cases c with
  | openIn denied hte sfd rewrite => exact h.wrapInOpen hq hp hidle denied hte sfd rewrite
  | closeIn fd rv => exact h.wrapInClose hq hp hidle fd rv
  | dupIn fd oldfd => exact h.wrapInDup hq hp hidle fd oldfd hreg
  | fcntlIn fd => exact h.wrapInFcntl hq hp hidle fd hreg
  | out rv addfd => exact absurd rfl (hc rv addfd)

theorem Inv.wrapOut {s : State} {pid : Nat} {q : Pcb} {p : PcbFile} (h : Inv s)
    (hq : s.proc pid = some q) (hp : s.file q.fds = some p) {pending : Pending}
    (hpend : q.pending = some pending) {rv : Option Nat} {addfd : Bool}
    (hreg : RegularCall s q p (.out rv addfd)) :
    ∃ s', wrapOut s pid q p rv addfd pending = some s' ∧ Inv s' := by
  have hheld : q.held = pending.held := by rw [Pcb.held,hpend,Option.bind_some]
  have hold : q.oldfd = pending.oldfd := by rw [Pcb.oldfd,hpend,Option.bind_some]
  simp only [RegularCall,hheld,hold] at hreg
  have hfree := fun fd hfd => (hreg fd hfd).2
  cases pending with
  | opening lfd => exact h.settle hq hp hheld hfree addfd
  | closing fd => exact h.wrapOutClose hq hp hheld fd
  | duping oldfd lfd => exact h.settle hq hp hheld hfree addfd
  | dupfd lfd =>
    have hlfd : ¬ (lfd = none ∧ rv ≠ none) := by
      rintro ⟨rfl,hrv⟩
      obtain ⟨fd,rfl⟩ := Option.ne_none_iff_exists'.mp hrv
      exact (hreg fd rfl).1 hpend
    simp only [Lfd.wrapOut,Lfd.wrapOutFcntl,if_neg hlfd]
    exact h.settle hq hp hheld hfree addfd

theorem Inv.umprocAddproc {s : State} {pp : Nat} {q : Pcb} {p : PcbFile} (h : Inv s)
    (hq : s.proc pp = some q) (hp : s.file q.fds = some p) {cloneFiles : Bool}
    (hreg : Regular s (.addproc pp cloneFiles)) :
    ∃ s', umprocAddproc s pp cloneFiles = some s' ∧ Inv s' := by
  simp only [Lfd.umprocAddproc,hq,hp,Option.bind_eq_bind,Option.bind_some]
  cases cloneFiles with
  | true => exact ⟨_,rfl,h.clone hp hq⟩
  | false =>
    obtain ⟨r,hr,_⟩ := sum_map_split fileRefs (file_eq_some.mp hp)
    have hle : p.refs ≤ s.refs := by
      rw [State.refs,hr,fileRefs,add_assoc]
      exact Multiset.le_add_right _ _
    have hroom : ∀ l, ((p.refs + s.refs).count l : Int) ≤ shrtMax := by
      intro l
      rw [Multiset.count_add,PcbFile.refs,Lfd.count_refs]
      by_cases hl : some l ∈ p.lfdlist
      · have hmem : l ∈ s.refs := Multiset.mem_of_le hle (by
          rw [← Multiset.count_ne_zero,PcbFile.refs,Lfd.count_refs]
          exact (List.count_pos_iff.mpr hl).ne')
        obtain ⟨e,he,hc⟩ := h.rep.entry hmem
        have := hreg.resolve_left (by simp) q hq p hp (some l) hl l rfl e he
        push_cast
        omega
      · rw [List.count_eq_zero_of_not_mem hl,zero_add]
        exact h.rep.fits l
    obtain ⟨t,ht,hrep⟩ := h.rep.dupAll hle hroom
    simp only [ht,Option.bind_some,Bool.false_eq_true,if_false]
    exact ⟨_,rfl,h.fork hrep⟩

theorem Inv.umprocDelproc {s : State} {pid : Nat} {q : Pcb} {p : PcbFile} (h : Inv s)
    (hq : s.proc pid = some q) (hp : s.file q.fds = some p) (hheld : q.held = none) :
    ∃ s', umprocDelproc s pid = some s' ∧ Inv s' := by
  simp only [Lfd.umprocDelproc,hq,hp,Option.bind_eq_bind,Option.bind_some]
  split_ifs with hlast
  · obtain ⟨r,hrep,_⟩ := h.split hq hp
    obtain ⟨t,ht,_⟩ := hrep.closeAll
    refine ⟨_,by rw [ht]; rfl,h.exit hq hp hheld (by simp [hlast]) fun r' hr' => ?_⟩
    obtain ⟨t',ht',hrep'⟩ := hr'.closeAll
    obtain rfl := Option.some.inj (ht.symm.trans ht')
    simpa [fileRefs] using hrep'
  · exact ⟨_,rfl,h.exit hq hp hheld (by simp [hlast]) fun r' hr' => hr'⟩

theorem Inv.perform {s : State} (h : Inv s) {o : Op} (hen : Enabled s o) (hreg : Regular s o) :
    ∃ s', perform s o = some s' ∧ Inv s' := by
  cases o with
  | addproc pp cloneFiles =>
    obtain ⟨q,hq⟩ := Option.ne_none_iff_exists'.mp hen
    obtain ⟨p,hp⟩ := h.file hq
    exact h.umprocAddproc hq hp hreg
  | delproc pid =>
    obtain ⟨q,hq⟩ := Option.ne_none_iff_exists'.mp hen
    obtain ⟨p,hp⟩ := h.file hq
    exact h.umprocDelproc hq hp (hreg q hq)
  | call pid c =>
    obtain ⟨q,hq,hpend⟩ : ∃ q, s.proc pid = some q ∧
        ((∃ rv addfd pending, c = .out rv addfd ∧ q.pending = some pending) ∨
          (∀ rv addfd, c ≠ .out rv addfd) ∧ q.pending = none) := by
      cases c with
      | out rv addfd =>
        obtain ⟨q,hq,hne⟩ := hen
        obtain ⟨pending,hpending⟩ := Option.ne_none_iff_exists'.mp hne
        exact ⟨q,hq,Or.inl ⟨rv,addfd,pending,rfl,hpending⟩⟩
      | _ =>
        obtain ⟨q,hq,hidle⟩ := hen
        exact ⟨q,hq,Or.inr ⟨by simp,hidle⟩⟩
    obtain ⟨p,hp⟩ := h.file hq
    simp only [Lfd.perform,hq,hp,Option.bind_eq_bind,Option.bind_some]
    rcases hpend with ⟨rv,addfd,pending,rfl,hpending⟩ | ⟨hin,hidle⟩
    · simp only [hpending]
      exact h.wrapOut hq hp hpending (hreg q hq p hp)
    · rw [hidle]
      have hkept := h.wrapIn hq hp hidle (hreg q hq p hp) hin
      cases c <;> exact hkept

theorem inv_init : Inv State.init := by
  have hrefs : State.init.refs = 0 := by
    simp [State.init,State.refs,fileRefs,PcbFile.refs,heldRefs,Pcb.held,optRef]
  have husers : State.init.users = {0} := by simp [State.init,State.users,fdsRefs]
  refine ⟨⟨?_,?_,[],trivial,List.nodup_nil,?_,?_⟩,?_⟩
  · rw [hrefs]
    rfl
  · simp [hrefs,shrtMax]
  · simp [State.init,Lfds.empty]
  · intro a _
    rfl
  · rw [husers]
    funext a
    cases a with
    | zero => rfl
    | succ a => simp [fileCounts,State.init,tally]

theorem lfd_counts_accounted (s : State)
    (hrun : Run perform (fun s o => Enabled s o ∧ Regular s o) State.init s) :
    Accounted s ∧ ∀ o, Enabled s o → Regular s o → (perform s o).isSome := by
  have hinv : Inv s := by
    refine hrun.invariant (fun t o u ht ho hu => ?_) inv_init
    obtain ⟨u',hu',hinv⟩ := ht.perform ho.1 ho.2
    obtain rfl := Option.some.inj (hu.symm.trans hu')
    exact hinv
  refine ⟨hinv.accounted,fun o hen hreg => ?_⟩
  obtain ⟨s',hs',_⟩ := hinv.perform hen hreg
  rw [hs']
  rfl

def busyFiles : List Op :=
  [.call 0 (.openIn false (some 7) 5 false), .call 0 (.out (some 3) true),
    .call 0 (.dupIn (some 3) (some 4)), .addproc 0 false, .call 0 (.out (some 4) true),
    .call 1 (.closeIn (some 3) 0), .addproc 0 true, .call 2 (.openIn false none 0 true),
    .call 1 (.out none true), .call 2 (.out none true), .delproc 1, .call 0 (.fcntlIn (some 4))]

theorem busyFiles_accounted :
    ((exec perform State.init busyFiles).all fun s => s.slots 0 = 2 ∧ s.inFlight 0 = 1) ∧
      ∃ s, exec perform State.init busyFiles = some s ∧ Accounted s ∧
        ∀ o, Enabled s o → Regular s o → (perform s o).isSome := by
  have hok : Meets perform (fun s o => Enabled s o ∧ Regular s o) State.init busyFiles := by
    decide +kernel
  have hsome : (exec perform State.init busyFiles).isSome := by decide +kernel
  obtain ⟨s,hs⟩ := Option.isSome_iff_exists.mp hsome
  exact ⟨by decide +kernel,s,hs,lfd_counts_accounted s (Run.of_exec hs hok)⟩

def sharedClose : List Op :=
  [.call 0 (.openIn false (some 7) 5 false), .call 0 (.out (some 3) true), .addproc 0 true,
    .call 0 (.closeIn (some 3) 0), .call 1 (.openIn false (some 7) 6 false),
    .call 1 (.out (some 3) true), .call 0 (.out none true)]

def killedOpen : List Op := [.call 0 (.openIn false (some 7) 5 false), .delproc 0]

def refusedDupfd : List Op :=
  [.call 0 (.openIn false (some 7) 5 false), .call 0 (.out (some 3) true), .addproc 0 true,
    .call 0 (.closeIn (some 3) 0), .call 1 (.fcntlIn (some 3)), .call 1 (.out (some 0) true)]

theorem references_lost :
    (Meets perform Enabled State.init sharedClose ∧
      ∃ s, exec perform State.init sharedClose = some s ∧ s.slots 0 = 0 ∧ s.inFlight 0 = 0 ∧
        (s.lfds.entry 0).map LfdTable.count = some 1) ∧
    (Meets perform Enabled State.init killedOpen ∧
      ∃ s, exec perform State.init killedOpen = some s ∧ s.slots 0 = 0 ∧ s.inFlight 0 = 0 ∧
        (s.lfds.entry 0).map LfdTable.count = some 1) ∧
    Meets perform Enabled State.init refusedDupfd ∧
      exec perform State.init refusedDupfd = none := by
  have hlost : ∀ os : List Op, (exec perform State.init os).isSome →
      ((exec perform State.init os).all fun s => s.slots 0 = 0 ∧ s.inFlight 0 = 0 ∧
        (s.lfds.entry 0).map LfdTable.count = some 1) →
      ∃ s, exec perform State.init os = some s ∧ s.slots 0 = 0 ∧ s.inFlight 0 = 0 ∧
        (s.lfds.entry 0).map LfdTable.count = some 1 := by
    intro os hsome hall
    obtain ⟨s,hs⟩ := Option.isSome_iff_exists.mp hsome
    exact ⟨s,hs,of_decide_eq_true ((Option.all_eq_true _ _).mp hall s hs)⟩
  exact ⟨⟨by decide +kernel,hlost sharedClose (by decide +kernel) (by decide +kernel)⟩,
    ⟨by decide +kernel,hlost killedOpen (by decide +kernel) (by decide +kernel)⟩,
    by decide +kernel,Option.isNone_iff_eq_none.mp (by decide +kernel)⟩

end ViewOS.Lfd
