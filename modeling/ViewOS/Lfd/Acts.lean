import ViewOS.Lfd.Calls
import ViewOS.Lib.Run

namespace ViewOS.Lfd
open Transition

inductive Act where
  | opened (hte : Option Nat) (sfd : Int)
  | dup (lfd : Option Nat)
  | close (lfd : Option Nat)
  | service (lfd : Nat) (rv : Int)
  deriving DecidableEq, Repr

def act (t : Lfds) : Act → Option Lfds
  | .opened hte sfd => (lfdOpen t hte sfd).map Prod.fst
  | .dup lfd => lfdDup t lfd
  | .close lfd => lfdClose t lfd
  | .service lfd rv => do
      let e ← t.entry lfd
      match e.hte with
      | some h => closeService t lfd h e rv
      | none => some t

def Op.opens : Op → List (Nat × Int)
  | .call _ (.openIn false (some h) sfd _) => if sfd < 0 then [] else [(h, sfd)]
  | _ => []

def State.closing (s : State) : Op → Option Nat
  | .call pid (.closeIn fd _) =>
    if fd = some umMmapSecret then none
    else (s.proc pid).bind fun q => (s.file q.fds).bind fun p => fd2lfd p fd
  | _ => none

def LfdTable.Spent (e : LfdTable) : Prop := e.hte ≠ none ∧ e.sfd < 0

instance (e : LfdTable) : Decidable e.Spent := inferInstanceAs (Decidable (_ ∧ _))

def Forks (s : State) (o : Op) (xs : List (Option Nat)) : Prop :=
  ∃ pp q p, o = .addproc pp false ∧ s.proc pp = some q ∧ s.file q.fds = some p ∧ xs = p.lfdlist

inductive Acts (s : State) (o : Op) : List Act → Prop
  | opened (hte : Option Nat) (sfd : Int) (hopens : o.opens = hte.toList.map (·, sfd))
      (hsfd : hte ≠ none → 0 ≤ sfd) (hclosing : s.closing o = none) : Acts s o [.opened hte sfd]
  | service {pid lfd : Nat} {fd : Option Nat} {rv : Int} (ho : o = .call pid (.closeIn fd rv))
      (hclosing : s.closing o = some lfd) : Acts s o [.service lfd rv]
  | dups (xs : List (Option Nat)) (hopens : o.opens = []) (hclosing : s.closing o = none)
      (hxs : Forks s o xs ∨ ∀ x ∈ xs, ∀ l ∈ x, ∀ e ∈ s.lfds.entry l, ¬ e.Spent) :
      Acts s o (xs.map .dup)
  | closes (xs : List (Option Nat)) (hopens : o.opens = []) (hclosing : s.closing o = none) :
      Acts s o (xs.map .close)

theorem Acts.idle {s : State} {o : Op} (hopens : o.opens = []) (hclosing : s.closing o = none) :
    Acts s o [] :=
  .closes [] hopens hclosing

theorem exec_one {t t' : Lfds} {a : Act} (h : act t a = some t') : exec act t [a] = some t' := by
  rw [exec,h]
  rfl

inductive Touches (s : State) (pid : Nat) (q : Pcb) (p : PcbFile) : State → Prop
  | same : Touches s pid q p s
  | put (pending : Option Pending) {b : PcbFile} (h : b.count = p.count) (t : Lfds) :
      Touches s pid q p (s.put pid { q with pending := pending } b t)

structure Turn (s s' : State) (pid : Nat) (q : Pcb) (p : PcbFile) (o : Op) : Prop where
  touches : Touches s pid q p s'
  acts : ∃ acts, Acts s o acts ∧ exec act s.lfds acts = some s'.lfds

section Calls

variable {s s' : State} {pid : Nat} {q : Pcb} {p b : PcbFile} {t t' : Lfds} {o : Op}

theorem Turn.idle (hopens : o.opens = []) (hclosing : s.closing o = none)
    (h : some s = some s') : Turn s s' pid q p o := by
  obtain rfl := Option.some.inj h
  exact ⟨.same,[],.idle hopens hclosing,rfl⟩

theorem Turn.put {acts : List Act} {pending : Option Pending} (hacts : Acts s o acts)
    (ht : exec act s.lfds acts = some t) (hb : b.count = p.count)
    (h : some (s.put pid { q with pending := pending } b t) = some s') : Turn s s' pid q p o := by
  obtain rfl := Option.some.inj h
  exact ⟨.put _ hb _,acts,hacts,ht⟩

theorem Turn.closes {xs : List (Option Nat)} {pending : Option Pending} (hopens : o.opens = [])
    (hclosing : s.closing o = none) (ht : xs.foldlM lfdClose s.lfds = some t)
    (hb : b.count = p.count)
    (h : some (s.put pid { q with pending := pending } b t) = some s') : Turn s s' pid q p o :=
  .put (.closes xs hopens hclosing) ((exec_map _ _ _).trans ht) hb h

theorem wrapInOpen_turn {denied rewrite : Bool} {hte : Option Nat} {sfd : Int}
    (h : wrapInOpen s pid q p denied hte sfd rewrite = some s') :
    Turn s s' pid q p (.call pid (.openIn denied hte sfd rewrite)) := by
  have hopen : ∀ {o hte sfd}, Acts s o [.opened hte sfd] →
      ((lfdOpen s.lfds hte sfd).bind fun x =>
        some (s.put pid { q with pending := some (.opening x.2) } p x.1)) = some s' →
      Turn s s' pid q p o := by
    intro o hte sfd hacts ho
    obtain ⟨x,hx,hs⟩ := Option.bind_eq_some_iff.mp ho
    exact .put hacts (exec_one (by rw [act,hx]; rfl)) rfl hs
  unfold wrapInOpen at h
  cases denied with
  | true => exact .idle rfl rfl (by simpa using h)
  | false =>
    simp only [Bool.false_eq_true,if_false] at h
    cases hte with
    | none =>
      dsimp only at h
      split_ifs at h with hrw
      · exact hopen (.opened none (-1) rfl (by simp) rfl) h
      · exact .idle rfl rfl h
    | some hte =>
      dsimp only at h
      split_ifs at h with hneg
      · exact .idle (by simp [Op.opens,hneg]) rfl h
      · exact hopen (.opened (some hte) sfd (by simp [Op.opens,hneg])
          (fun _ => not_lt.mp hneg) rfl) h

theorem wrapInClose_turn {fd : Option Nat} {rv : Int} (hq : s.proc pid = some q)
    (hp : s.file q.fds = some p) (h : wrapInClose s pid q p fd rv = some s') :
    Turn s s' pid q p (.call pid (.closeIn fd rv)) := by
  have hclosing : s.closing (.call pid (.closeIn fd rv)) =
      if fd = some umMmapSecret then none else fd2lfd p fd := by
    rw [State.closing,hq,Option.bind_some,hp]
    rfl
  unfold wrapInClose at h
  split_ifs at h with hsec
  · exact .idle rfl (by rw [hclosing,if_pos hsec]) h
  · rw [if_neg hsec] at hclosing
    cases hlfd : fd2lfd p fd with
    | none =>
      refine .idle rfl (hclosing.trans hlfd) ?_
      cases fd with
      | none => exact h
      | some fd =>
        simp only [hlfd] at h
        exact h
    | some lfd =>
      cases fd with
      | none => simp [fd2lfd] at hlfd
      | some fd =>
        simp only [hlfd] at h
        obtain ⟨e,he,h⟩ := Option.bind_eq_some_iff.mp h
        have hturn : ∀ {t}, act s.lfds (.service lfd rv) = some t →
            some (s.put pid { q with pending := some (.closing fd) } p t) = some s' →
            Turn s s' pid q p (.call pid (.closeIn (some fd) rv)) := fun ht hs =>
          .put (.service rfl (hclosing.trans hlfd)) (exec_one ht) rfl hs
        cases hte : e.hte with
        | none =>
          rw [hte] at h
          exact hturn (by simp only [act,he,Option.bind_eq_bind,Option.bind_some,hte]) h
        | some m =>
          rw [hte] at h
          obtain ⟨t,ht,h⟩ := Option.bind_eq_some_iff.mp h
          refine hturn ?_ h
          simp only [act,he,Option.bind_eq_bind,Option.bind_some,hte]
          exact ht

theorem dup_acts {lfd : Nat} {e : LfdTable} (hopens : o.opens = []) (hclosing : s.closing o = none)
    (he : s.lfds.entry lfd = some e) (hspent : ¬ e.Spent) : Acts s o [.dup (some lfd)] := by
  refine .dups [some lfd] hopens hclosing (Or.inr fun x hx l hl e' he' => ?_)
  obtain rfl : x = some lfd := by simpa using hx
  obtain rfl : lfd = l := by simpa using hl
  obtain rfl : e = e' := Option.some.inj (he.symm.trans he')
  exact hspent

theorem wrapInDup_turn {fd oldfd : Option Nat} (h : wrapInDup s pid q p fd oldfd = some s') :
    Turn s s' pid q p (.call pid (.dupIn fd oldfd)) := by
  unfold wrapInDup at h
  cases hfd : fd2lfd p fd with
  | none =>
    simp only [hfd] at h
    split_ifs at h
    · exact .idle rfl rfl h
    · exact .put (.idle rfl rfl) rfl rfl h
    · exact .idle rfl rfl h
  | some lfd =>
    simp only [hfd,Option.bind_eq_bind] at h
    split_ifs at h
    · exact .idle rfl rfl h
    · obtain ⟨e,he,h⟩ := Option.bind_eq_some_iff.mp h
      split_ifs at h with hspent
      · exact .idle rfl rfl h
      · obtain ⟨t,ht,h⟩ := Option.bind_eq_some_iff.mp h
        exact .put (dup_acts rfl rfl he fun hs => hspent hs.symm) (exec_one ht) rfl h

theorem wrapInFcntl_turn {fd : Option Nat} (h : wrapInFcntl s pid q p fd = some s') :
    Turn s s' pid q p (.call pid (.fcntlIn fd)) := by
  unfold wrapInFcntl at h
  split_ifs at h
  · exact .idle rfl rfl h
  · split at h
    · exact .idle rfl rfl h
    · simp only [Option.bind_eq_bind,Option.bind_eq_some_iff] at h
      obtain ⟨e,he,h⟩ := h
      split_ifs at h with hhte hsfd
      · exact .idle rfl rfl h
      · exact .put (.idle rfl rfl) rfl rfl h
      · obtain ⟨t,ht,h⟩ := Option.bind_eq_some_iff.mp h
        exact .put (dup_acts rfl rfl he fun hs => hsfd hs.2) (exec_one ht) rfl h

theorem lfdDeregisterNClose_closes {fd : Nat} (h : lfdDeregisterNClose t p fd = some (t', b)) :
    b.count = p.count ∧ ∃ xs : List (Option Nat), xs.foldlM lfdClose t = some t' := by
  unfold lfdDeregisterNClose at h
  split at h
  · obtain ⟨rfl,rfl⟩ := Prod.mk.inj (Option.some.inj h)
    exact ⟨rfl,[],rfl⟩
  · rename_i lfd _
    obtain ⟨u,hu,h⟩ := Option.bind_eq_some_iff.mp h
    obtain ⟨rfl,rfl⟩ := Prod.mk.inj (Option.some.inj h)
    exact ⟨rfl,[some lfd],by simp [hu]⟩

theorem closeOld_closes {oldfd : Option Nat} (h : closeOld t p oldfd = some (t', b)) :
    b.count = p.count ∧ ∃ xs : List (Option Nat), xs.foldlM lfdClose t = some t' := by
  cases oldfd with
  | none =>
    obtain ⟨rfl,rfl⟩ := Prod.mk.inj (Option.some.inj h)
    exact ⟨rfl,[],rfl⟩
  | some oldfd => exact lfdDeregisterNClose_closes h

theorem settle_turn {oldfd lfd rv : Option Nat} {addfd : Bool} (hopens : o.opens = [])
    (hclosing : s.closing o = none) (h : settle s pid q p oldfd lfd rv addfd = some s') :
    Turn s s' pid q p o := by
  simp only [settle,Option.bind_eq_bind,Option.bind_eq_some_iff] at h
  obtain ⟨ok,_,h⟩ := h
  split at h
  · obtain ⟨⟨t,b⟩,hb,h⟩ := Option.bind_eq_some_iff.mp h
    obtain ⟨hcount,xs,hxs⟩ := closeOld_closes hb
    cases lfd with
    | none => exact .closes hopens hclosing hxs hcount h
    | some lfd => exact .closes hopens hclosing hxs (b := lfdRegister b _ lfd) hcount h
  · obtain ⟨t,ht,h⟩ := Option.bind_eq_some_iff.mp h
    have hone : [lfd].foldlM lfdClose s.lfds = some t := by simpa using ht
    exact .closes hopens hclosing hone rfl h

theorem wrapOut_turn {rv : Option Nat} {addfd : Bool} {pending : Pending}
    (hopens : o.opens = []) (hclosing : s.closing o = none)
    (h : wrapOut s pid q p rv addfd pending = some s') : Turn s s' pid q p o := by
  cases pending with
  | opening lfd => exact settle_turn hopens hclosing h
  | closing fd =>
    obtain ⟨⟨t,b⟩,hb,h⟩ := Option.bind_eq_some_iff.mp h
    obtain ⟨hcount,xs,hxs⟩ := lfdDeregisterNClose_closes hb
    exact .closes hopens hclosing hxs hcount h
  | duping oldfd lfd => exact settle_turn hopens hclosing h
  | dupfd lfd =>
    rw [wrapOut,wrapOutFcntl] at h
    split_ifs at h
    exact settle_turn hopens hclosing h

theorem call_turn {c : Call} (h : perform s (.call pid c) = some s') :
    ∃ q p, s.proc pid = some q ∧ s.file q.fds = some p ∧ Turn s s' pid q p (.call pid c) := by
  simp only [perform,Option.bind_eq_bind,Option.bind_eq_some_iff] at h
  obtain ⟨q,hq,p,hp,h⟩ := h
  refine ⟨q,p,hq,hp,?_⟩
  cases c with
  | openIn denied hte sfd rewrite => exact wrapInOpen_turn h
  | closeIn fd rv => exact wrapInClose_turn hq hp h
  | dupIn fd oldfd => exact wrapInDup_turn h
  | fcntlIn fd => exact wrapInFcntl_turn h
  | out rv addfd =>
    cases hpend : q.pending with
    | none => simp [hpend,wrapIn] at h
    | some pending =>
      simp only [hpend] at h
      exact wrapOut_turn rfl rfl h

end Calls

theorem umprocAddproc_some {s s' : State} {pp : Nat} {cloneFiles : Bool}
    (h : umprocAddproc s pp cloneFiles = some s') :
    ∃ q p, s.proc pp = some q ∧ s.file q.fds = some p ∧
      if cloneFiles then s' = ⟨s.lfds, s.files.set q.fds (some { p with count := p.count + 1 }),
        s.procs ++ [some ⟨q.fds,none⟩]⟩
      else ∃ t, p.lfdlist.foldlM lfdDup s.lfds = some t ∧
        s' = ⟨t,s.files ++ [some ⟨1,p.lfdlist⟩],s.procs ++ [some ⟨s.files.length,none⟩]⟩ := by
  simp only [umprocAddproc,Option.bind_eq_bind,Option.bind_eq_some_iff] at h
  obtain ⟨q,hq,p,hp,h⟩ := h
  refine ⟨q,p,hq,hp,?_⟩
  cases cloneFiles with
  | true => exact (Option.some.inj h).symm
  | false =>
    obtain ⟨t,ht,h⟩ := Option.bind_eq_some_iff.mp h
    exact ⟨t,ht,(Option.some.inj h).symm⟩

theorem perform_acts {s s' : State} {o : Op} (h : perform s o = some s') :
    ∃ acts, Acts s o acts ∧ exec act s.lfds acts = some s'.lfds := by
  cases o with
  | addproc pp cloneFiles =>
    obtain ⟨q,p,hq,hp,h⟩ := umprocAddproc_some h
    cases cloneFiles with
    | true =>
      obtain rfl : s' = _ := by simpa using h
      exact ⟨[],.idle rfl rfl,rfl⟩
    | false =>
      obtain ⟨t,ht,rfl⟩ : ∃ t, p.lfdlist.foldlM lfdDup s.lfds = some t ∧ s' = _ := by
        simpa using h
      exact ⟨_,.dups _ rfl rfl (Or.inl ⟨pp,q,p,rfl,hq,hp,rfl⟩),(exec_map _ _ _).trans ht⟩
  | delproc pid =>
    simp only [perform,umprocDelproc,Option.bind_eq_bind,Option.bind_eq_some_iff] at h
    obtain ⟨q,hq,p,hp,h⟩ := h
    split_ifs at h
    · obtain ⟨t,ht,h⟩ := Option.bind_eq_some_iff.mp h
      obtain rfl := Option.some.inj h
      exact ⟨_,.closes p.lfdlist rfl rfl,(exec_map _ _ _).trans ht⟩
    · obtain rfl := Option.some.inj h
      exact ⟨[],.idle rfl rfl,rfl⟩
  | call pid c =>
    obtain ⟨q,p,-,-,hturn⟩ := call_turn h
    exact hturn.acts

end ViewOS.Lfd
