import ViewOS.Lfd.Balance

namespace ViewOS.Lfd
open RefCount

def Pending.oldfd : Pending → Option Nat
  | .duping oldfd _ => oldfd
  | _ => none

def Pcb.oldfd (q : Pcb) : Option Nat := q.pending.bind Pending.oldfd

def RegularCall (s : State) (q : Pcb) (p : PcbFile) : Call → Prop
  | .dupIn fd _ => ∀ l ∈ fd2lfd p fd, ∀ e ∈ s.lfds.entry l, e.count < shrtMax
  | .fcntlIn fd => ∀ l ∈ fd2lfd p fd, ∀ e ∈ s.lfds.entry l, e.count < shrtMax
  | .out rv _ => ∀ fd ∈ rv, q.pending ≠ some (.dupfd none) ∧
      (q.held = none ∨ fd2lfd p (some fd) = none ∨ q.oldfd = some fd)
  | _ => True

theorem fd2lfd_mem {p : PcbFile} {fd : Option Nat} {lfd : Nat} (h : fd2lfd p fd = some lfd) :
    lfd ∈ p.refs := by
  cases fd with
  | none => simp [fd2lfd] at h
  | some fd =>
    rw [refs_deregister h]
    simp

section InPhase

variable {s : State} {pid : Nat} {q : Pcb} {p : PcbFile}

theorem Inv.idle (h : Inv s) (hq : s.proc pid = some q) (hp : s.file q.fds = some p)
    (hidle : q.pending = none) :
    ∃ r, Rep s.lfds (p.refs + r) ∧ ∀ t pending,
      Rep t (optRef (Pending.held pending) + (p.refs + r)) →
      Inv (s.put pid { q with pending := some pending } p t) := by
  obtain ⟨r,hrep,hput⟩ := h.split hq hp
  rw [Pcb.held,hidle,Option.bind_none,optRef,zero_add] at hrep
  refine ⟨r,hrep,fun t pending ht => hput t p (some pending) rfl ?_⟩
  rwa [Option.bind_some,add_left_comm]

theorem Inv.wrapInOpen (h : Inv s) (hq : s.proc pid = some q) (hp : s.file q.fds = some p)
    (hidle : q.pending = none) (denied : Bool) (hte : Option Nat) (sfd : Int)
    (needsPathRewrite : Bool) :
    ∃ s', wrapInOpen s pid q p denied hte sfd needsPathRewrite = some s' ∧ Inv s' := by
  obtain ⟨r,hrep,hput⟩ := h.idle hq hp hidle
  have hopen : ∀ hte sfd, ∃ s', ((Lfd.lfdOpen s.lfds hte sfd).bind fun x =>
      some (s.put pid { q with pending := some (.opening x.2) } p x.1)) = some s' ∧ Inv s' := by
    intro hte sfd
    obtain ⟨t,lfd,ho,ht⟩ := hrep.lfdOpen hte sfd
    exact ⟨_,by rw [ho]; rfl,hput t (.opening lfd) ht⟩
  unfold Lfd.wrapInOpen
  cases hte with
  | some hte =>
    dsimp only
    split_ifs
    · exact ⟨s,rfl,h⟩
    · exact ⟨s,rfl,h⟩
    · exact hopen (some hte) sfd
  | none =>
    dsimp only
    split_ifs
    · exact ⟨s,rfl,h⟩
    · exact hopen none (-1)
    · exact ⟨s,rfl,h⟩

theorem Rep.closeService {t : Lfds} {refs : Multiset Nat} (h : Rep t refs) {lfd : Nat}
    {e : LfdTable} (he : t.entry lfd = some e) (hte : Nat) (rv : Int) :
    ∃ t', closeService t lfd hte e rv = some t' ∧ Rep t' refs := by
  obtain ⟨m1,m2,m3⟩ := moduleClose_same t (some hte) e.sfd
  have hclose : Rep (moduleClose t (some hte) e.sfd) refs := h.of_same m1 m2 m3
  unfold Lfd.closeService
  dsimp only
  split_ifs
  · exact ⟨t,rfl,h⟩
  · have he' : (moduleClose t (some hte) e.sfd).entry lfd = some e := by
      rw [← he]
      unfold Lfds.entry
      rw [m1]
    obtain ⟨l,hl⟩ := hclose.free
    refine ⟨_,by rw [lfdNullsfd,he']; rfl,?_,h.fits,l,hl.store_live he' _⟩
    rw [counts_store,hclose.counts]
    refine Function.update_eq_self_iff.mpr ?_
    rw [← hclose.counts,Lfds.counts,he']
    rfl
  · exact ⟨_,rfl,hclose⟩
  · exact ⟨t,rfl,h⟩

theorem Inv.wrapInClose (h : Inv s) (hq : s.proc pid = some q) (hp : s.file q.fds = some p)
    (hidle : q.pending = none) (fd : Option Nat) (rv : Int) :
    ∃ s', wrapInClose s pid q p fd rv = some s' ∧ Inv s' := by
  obtain ⟨r,hrep,hput⟩ := h.idle hq hp hidle
  unfold Lfd.wrapInClose
  split_ifs
  · exact ⟨s,rfl,h⟩
  · cases fd with
    | none => exact ⟨s,rfl,h⟩
    | some fd =>
      cases hlfd : fd2lfd p (some fd) with
      | none => exact ⟨s,rfl,h⟩
      | some lfd =>
        obtain ⟨e,he,_⟩ := hrep.entry (Multiset.mem_add.mpr (Or.inl (fd2lfd_mem hlfd)))
        have hdone : ∀ t, Rep t (p.refs + r) →
            Inv (s.put pid { q with pending := some (.closing fd) } p t) := fun t ht =>
          hput t (.closing fd) (by rwa [Pending.held,optRef,zero_add])
        simp only [he,Option.bind_eq_bind,Option.bind_some]
        cases hhte : e.hte with
        | none => exact ⟨_,rfl,hdone _ hrep⟩
        | some hte =>
          obtain ⟨t,hc,ht⟩ := hrep.closeService he hte rv
          exact ⟨_,by simp only [hc]; rfl,hdone t ht⟩

theorem Rep.dupSlot {t : Lfds} {p : PcbFile} {r : Multiset Nat} {fd : Option Nat} {lfd : Nat}
    (h : Rep t (p.refs + r)) (hlfd : fd2lfd p fd = some lfd)
    (hroom : ∀ l ∈ fd2lfd p fd, ∀ e ∈ t.entry l, e.count < shrtMax) :
    ∃ e t', t.entry lfd = some e ∧ Lfd.lfdDup t (some lfd) = some t' ∧
      Rep t' ({lfd} + (p.refs + r)) := by
  have hmem : lfd ∈ p.refs + r := Multiset.mem_add.mpr (Or.inl (fd2lfd_mem hlfd))
  obtain ⟨e,he,hc⟩ := h.entry hmem
  obtain ⟨t',hd,ht⟩ := h.lfdDup hmem (hc ▸ hroom lfd hlfd e he)
  exact ⟨e,t',he,hd,ht⟩

theorem Inv.wrapInDup (h : Inv s) (hq : s.proc pid = some q) (hp : s.file q.fds = some p)
    (hidle : q.pending = none) (fd oldfd : Option Nat)
    (hroom : ∀ l ∈ fd2lfd p fd, ∀ e ∈ s.lfds.entry l, e.count < shrtMax) :
    ∃ s', wrapInDup s pid q p fd oldfd = some s' ∧ Inv s' := by
  obtain ⟨r,hrep,hput⟩ := h.idle hq hp hidle
  unfold Lfd.wrapInDup
  by_cases hsec : fd = some umMmapSecret ∨ oldfd = some umMmapSecret
  · exact ⟨s,if_pos hsec,h⟩
  · rw [if_neg hsec]
    cases hlfd : fd2lfd p fd with
    | some lfd =>
      obtain ⟨e,t,he,hd,ht⟩ := hrep.dupSlot hlfd hroom
      simp only [he,hd,Option.bind_eq_bind,Option.bind_some]
      split_ifs
      · exact ⟨s,rfl,h⟩
      · exact ⟨_,rfl,hput t (.duping oldfd (some lfd)) ht⟩
    | none =>
      dsimp only
      split_ifs
      · exact ⟨_,rfl,hput s.lfds (.duping oldfd none) (by simpa [Pending.held,optRef] using hrep)⟩
      · exact ⟨s,rfl,h⟩

theorem Inv.wrapInFcntl (h : Inv s) (hq : s.proc pid = some q) (hp : s.file q.fds = some p)
    (hidle : q.pending = none) (fd : Option Nat)
    (hroom : ∀ l ∈ fd2lfd p fd, ∀ e ∈ s.lfds.entry l, e.count < shrtMax) :
    ∃ s', wrapInFcntl s pid q p fd = some s' ∧ Inv s' := by
  obtain ⟨r,hrep,hput⟩ := h.idle hq hp hidle
  unfold Lfd.wrapInFcntl
  split_ifs
  · exact ⟨s,rfl,h⟩
  · cases hlfd : fd2lfd p fd with
    | none => exact ⟨s,rfl,h⟩
    | some lfd =>
      obtain ⟨e,t,he,hd,ht⟩ := hrep.dupSlot hlfd hroom
      simp only [he,hd,Option.bind_eq_bind,Option.bind_some]
      split_ifs
      · exact ⟨s,rfl,h⟩
      · exact ⟨_,rfl,hput s.lfds (.dupfd none) (by simpa [Pending.held,optRef] using hrep)⟩
      · exact ⟨_,rfl,hput t (.dupfd (some lfd)) ht⟩

end InPhase

section OutPhase

theorem fd2lfd_set_none {p : PcbFile} {fd x : Nat} (h : fd2lfd p (some x) = none ∨ x = fd) :
    fd2lfd { p with lfdlist := p.lfdlist.set fd none } (some x) = none := by
  rcases eq_or_ne x fd with rfl | hx
  · by_cases hlt : x < p.lfdlist.length
    · simp [fd2lfd,hlt]
    · simp [fd2lfd,not_lt.mp hlt]
  · simpa [fd2lfd,List.getElem?_set_ne hx.symm] using h.resolve_right hx

theorem Rep.lfdDeregisterNClose {t : Lfds} {p : PcbFile} {r : Multiset Nat}
    (h : Rep t (p.refs + r)) (fd : Nat) :
    ∃ t' p', lfdDeregisterNClose t p fd = some (t', p') ∧ p'.count = p.count ∧
      Rep t' (p'.refs + r) ∧
      ∀ x, fd2lfd p (some x) = none ∨ x = fd → fd2lfd p' (some x) = none := by
  unfold Lfd.lfdDeregisterNClose
  cases hlfd : fd2lfd p (some fd) with
  | none =>
    refine ⟨t,p,rfl,rfl,h,fun x hx => ?_⟩
    rcases hx with hx | rfl
    · exact hx
    · exact hlfd
  | some lfd =>
    rw [refs_deregister hlfd,add_assoc] at h
    obtain ⟨t',hc,ht⟩ := h.lfdClose
    exact ⟨t',{ p with lfdlist := p.lfdlist.set fd none },by simp only [hc]; rfl,rfl,ht,
      fun x hx => fd2lfd_set_none hx⟩

theorem Rep.closeOld {t : Lfds} {p : PcbFile} {r : Multiset Nat} (h : Rep t (p.refs + r))
    (oldfd : Option Nat) :
    ∃ t' p', closeOld t p oldfd = some (t', p') ∧ p'.count = p.count ∧ Rep t' (p'.refs + r) ∧
      ∀ x, fd2lfd p (some x) = none ∨ oldfd = some x → fd2lfd p' (some x) = none := by
  cases oldfd with
  | none => exact ⟨t,p,rfl,rfl,h,fun x hx => hx.resolve_right (by simp)⟩
  | some oldfd =>
    obtain ⟨t',p',hd,hcount,ht,hfree⟩ := h.lfdDeregisterNClose oldfd
    exact ⟨t',p',hd,hcount,ht,fun x hx => hfree x (hx.imp_right fun e => by simpa using e.symm)⟩

theorem Rep.accepted {t : Lfds} {refs : Multiset Nat} {lfd : Option Nat} (h : Rep t refs)
    (hlfd : ∀ l ∈ lfd, l ∈ refs) (rv : Option Nat) (addfd : Bool) :
    ∃ ok, accepted t lfd rv addfd = some ok := by
  cases rv with
  | none => exact ⟨_,rfl⟩
  | some fd =>
    cases lfd with
    | none => exact ⟨_,rfl⟩
    | some lfd =>
      obtain ⟨e,he,_⟩ := h.entry (hlfd lfd rfl)
      simp [Lfd.accepted,lfdGetht,he]

variable {s : State} {pid : Nat} {q : Pcb} {p : PcbFile}

theorem Inv.settle (h : Inv s) (hq : s.proc pid = some q) (hp : s.file q.fds = some p)
    {oldfd lfd rv : Option Nat} (hheld : q.held = lfd)
    (hfree : ∀ fd ∈ rv, lfd = none ∨ fd2lfd p (some fd) = none ∨ oldfd = some fd) (addfd : Bool) :
    ∃ s', settle s pid q p oldfd lfd rv addfd = some s' ∧ Inv s' := by
  obtain ⟨r,hrep,hput⟩ := h.split hq hp
  rw [hheld] at hrep
  have hdrop : ∃ s', ((Lfd.lfdClose s.lfds lfd).bind fun t =>
      some (s.put pid { q with pending := none } p t)) = some s' ∧ Inv s' := by
    rw [add_left_comm] at hrep
    obtain ⟨t,hc,ht⟩ := hrep.lfdClose_opt
    exact ⟨_,by rw [hc]; rfl,hput t p none rfl (by simpa [optRef] using ht)⟩
  have hmem : ∀ l ∈ lfd, l ∈ p.refs + (optRef lfd + r) := by
    rintro l rfl
    simp [optRef]
  obtain ⟨ok,hok⟩ := hrep.accepted hmem rv addfd
  unfold Lfd.settle
  simp only [hok,Option.bind_eq_bind,Option.bind_some]
  cases rv with
  | none => exact hdrop
  | some fd =>
    cases ok with
    | false => exact hdrop
    | true =>
      obtain ⟨t,p',hclose,hcount,ht,hslot⟩ := hrep.closeOld oldfd
      simp only [hclose,Option.bind_some]
      cases lfd with
      | none => exact ⟨_,rfl,hput t p' none hcount ht⟩
      | some lfd =>
        refine ⟨_,rfl,hput t _ none hcount ?_⟩
        rw [refs_register (hslot fd ((hfree fd rfl).resolve_left (by simp)))]
        rw [add_left_comm] at ht
        simpa [optRef,add_assoc] using ht

theorem Inv.wrapOutClose (h : Inv s) (hq : s.proc pid = some q) (hp : s.file q.fds = some p)
    (hheld : q.held = none) (fd : Nat) :
    ∃ s', wrapOutClose s pid q p fd = some s' ∧ Inv s' := by
  obtain ⟨r,hrep,hput⟩ := h.split hq hp
  rw [hheld] at hrep
  obtain ⟨t,p',hd,hcount,ht,_⟩ := hrep.lfdDeregisterNClose fd
  exact ⟨_,by simp only [Lfd.wrapOutClose,hd]; rfl,hput t p' none hcount ht⟩

end OutPhase

end ViewOS.Lfd
