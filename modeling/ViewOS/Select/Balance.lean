import ViewOS.Select.Subscription

namespace ViewOS.Select.Subscription

open List
open Poll (Events Pollfd)
open Mainpoll (Pollstatus)
open Transition

structure Ledger where
  outstanding : List Key
  settled : List Key
  deriving DecidableEq, Repr

def ledgerStep (l : Ledger) : Event → Option Ledger
  | .started clear => if clear = true ∧ l.outstanding = [] then some ⟨[], []⟩ else none
  | .subscribed key result =>
    some (if result = 0 then { l with outstanding := key :: l.outstanding } else l)
  | .cancelled key =>
    if key ∈ l.outstanding then some ⟨l.outstanding.erase key, key :: l.settled⟩
    else if key ∈ l.settled then none
    else some l
  | .gone => if l.outstanding = [] then some ⟨[], []⟩ else none

structure Balanced (s : State) (l : Ledger) : Prop where
  accepted : exec ledgerStep ⟨[], []⟩ s.log = some l
  settled : s.selset = none → l.outstanding = []
  alive : s.aborted = false

def asked (asks : List Ask) : List Ask := asks.takeWhile fun a => a.answer ≤ 0

def skipped (asks : List Ask) : List Ask := asks.dropWhile fun a => a.answer ≤ 0

def Unmixed (asks : List Ask) : Prop :=
  ∀ a ∈ asked asks, a.answer = 0 →
    (∀ b ∈ asked asks, b.key = a.key → b.answer = 0) ∧ ∀ b ∈ skipped asks, b.key ≠ a.key

instance (asks : List Ask) : Decidable (Unmixed asks) :=
  inferInstanceAs (Decidable (∀ a ∈ asked asks, a.answer = 0 → _ ∧ _))

def Fair (s : State) : Op → Prop
  | .selectIn n how answers => Unmixed (selectAsks s.fds n how answers)
  | .pollIn _ ufds answers => Unmixed (pollAsks s.fds ufds answers)
  | .pollOut room failed fds =>
    room = true ∧ (failed = true ∨ (s.selset.getD []).map Poll.Pending.fd <+ fds)
  | .fdsChange fds => ∀ p ∈ s.selset.getD [], fds p.fd = s.fds p.fd
  | .bqSignal => s.phase = .gone → s.queued = 0
  | .bqPidwake => s.phase = .gone → s.queued = 0
  | .spawn _ => s.queued = 0
  | _ => True

instance (s : State) : (op : Op) → Decidable (Fair s op)
  | .selectIn n how answers =>
    inferInstanceAs (Decidable (Unmixed (selectAsks s.fds n how answers)))
  | .pollIn _ ufds answers => inferInstanceAs (Decidable (Unmixed (pollAsks s.fds ufds answers)))
  | .pollOut room failed fds =>
    inferInstanceAs (Decidable (room = true ∧
      (failed = true ∨ (s.selset.getD []).map Poll.Pending.fd <+ fds)))
  | .fdsChange fds => inferInstanceAs (Decidable (∀ p ∈ s.selset.getD [], fds p.fd = s.fds p.fd))
  | .bqSignal => inferInstanceAs (Decidable (s.phase = .gone → s.queued = 0))
  | .bqPidwake => inferInstanceAs (Decidable (s.phase = .gone → s.queued = 0))
  | .spawn _ => inferInstanceAs (Decidable (s.queued = 0))
  | .checkSuspendOn .. => inferInstanceAs (Decidable True)
  | .selectOut => inferInstanceAs (Decidable True)
  | .bqTry => inferInstanceAs (Decidable True)
  | .exit => inferInstanceAs (Decidable True)

structure Waits (fds : Fds) (l : Ledger) (ps : List Poll.Pending) : Prop where
  fresh : l.settled = []
  keys : ∃ keys, cancelKeys fds ps = some keys ∧
    ∀ k ∈ l.outstanding, l.outstanding.count k = keys.count k

def Stands (s : State) (l : Ledger) : Phase → Prop
  | .running => s.selset = none ∧ s.queued = 0 ∧ l.outstanding = []
  | .suspended =>
    ∃ p, s.selset = some [p] ∧ s.queued = 1 ∧ s.pollstatus ≠ .terminated ∧ Waits s.fds l [p]
  | .selecting => ∃ ps, s.selset = some ps ∧ s.queued = 0 ∧ Waits s.fds l ps
  | .polling => ∃ ps, s.selset = some ps ∧ s.queued = 0 ∧ Waits s.fds l ps
  | .gone => s.selset = none ∧ (s.queued = 0 ∨ s.pollstatus = .terminated) ∧ l.outstanding = []

structure Agrees (s : State) (l : Ledger) : Prop where
  accepted : exec ledgerStep ⟨[], []⟩ s.log = some l
  alive : s.aborted = false
  stands : Stands s l s.phase

variable {s s' : State} {l l' : Ledger} {fds : Fds} {ps : List Poll.Pending} {p : Poll.Pending}
  {asks : List Ask} {evs : List Event} {op : Op}

theorem accepted_record (h : exec ledgerStep ⟨[], []⟩ s.log = some l)
    (hevs : exec ledgerStep l evs = some l') :
    exec ledgerStep ⟨[], []⟩ (s.record evs).log = some l' := by
  rw [State.record,exec_append,h,Option.bind_some,hevs]

theorem exec_cancelled {outstanding settled keys : List Key}
    (hopen : ∀ k ∈ outstanding, outstanding.count k = keys.count k)
    (hclosed : ∀ k ∈ settled, keys.count k = outstanding.count k) :
    ∃ settled', exec ledgerStep ⟨outstanding, settled⟩ (keys.map .cancelled) =
      some ⟨[], settled'⟩ := by
  induction keys generalizing outstanding settled with
  | nil =>
    have hnil : outstanding = [] := by
      refine List.eq_nil_iff_forall_not_mem.mpr fun k hk => ?_
      have hcount := hopen k hk
      have hpos := List.count_pos_iff.mpr hk
      rw [List.count_nil] at hcount
      omega
    subst hnil
    exact ⟨settled,rfl⟩
  | cons key keys ih =>
    rw [List.map_cons,exec,ledgerStep]
    dsimp only
    by_cases hmem : key ∈ outstanding
    · rw [if_pos hmem,Option.bind_some]
      have hkeep : ∀ k, (key :: keys).count k = outstanding.count k →
          keys.count k = (outstanding.erase key).count k := by
        intro k hk
        rw [List.count_cons] at hk
        rw [List.count_erase]
        omega
      refine ih (fun k hk => (hkeep k (hopen k (List.mem_of_mem_erase hk)).symm).symm)
        fun k hk => hkeep k ?_
      rcases List.mem_cons.mp hk with rfl | hk
      · exact (hopen k hmem).symm
      · exact hclosed k hk
    · have hnew : key ∉ settled := by
        intro hk
        have hcount := hclosed key hk
        rw [List.count_cons_self,List.count_eq_zero_of_not_mem hmem] at hcount
        omega
      rw [if_neg hmem,if_neg hnew,Option.bind_some]
      have hkeep : ∀ k, k ≠ key → (key :: keys).count k = keys.count k :=
        fun k hk => List.count_cons_of_ne hk.symm
      refine ih (fun k hk => ?_) fun k hk => ?_
      · rw [hopen k hk,hkeep k (fun heq => hmem (heq ▸ hk))]
      · rw [← hclosed k hk,hkeep k (fun heq => hnew (heq ▸ hk))]

theorem Waits.cancel (h : Waits s.fds l ps) (next : State → State) :
    ∃ evs settled', s.cancel ps next = next (s.record evs) ∧
      exec ledgerStep l evs = some ⟨[], settled'⟩ := by
  obtain ⟨keys,hkeys,hcount⟩ := h.keys
  have hl : l = ⟨l.outstanding,[]⟩ := by rw [← h.fresh]
  obtain ⟨settled',hexec⟩ := exec_cancelled hcount fun k (hk : k ∈ []) => absurd hk List.not_mem_nil
  rw [← hl] at hexec
  refine ⟨_,settled',?_,hexec⟩
  rw [State.cancel,hkeys]

def granted (asks : List Ask) : List Key :=
  ((asked asks).filter fun a => a.answer = 0).map Ask.key

theorem subscribeLoop_true (asks : List Ask) : subscribeLoop true asks = [] := by
  induction asks with
  | nil => rfl
  | cons a asks ih => rw [subscribeLoop,ih]

theorem granted_cons (a : Ask) (asks : List Ask) :
    granted (a :: asks) =
      if 0 < a.answer then [] else if a.answer = 0 then a.key :: granted asks else granted asks := by
  by_cases hready : 0 < a.answer
  · have hno : ¬a.answer ≤ 0 := by omega
    simp [granted,asked,hready,hno]
  · have hle : a.answer ≤ 0 := by omega
    by_cases hzero : a.answer = 0
    · simp [granted,asked,hzero]
    · simp [granted,asked,hready,hle,hzero]

theorem exec_subscribeLoop (asks : List Ask) (outstanding settled : List Key) :
    exec ledgerStep ⟨outstanding, settled⟩ (subscribeLoop false asks) =
      some ⟨(granted asks).reverse ++ outstanding, settled⟩ := by
  induction asks generalizing outstanding with
  | nil => rfl
  | cons a asks ih =>
    rw [subscribeLoop,exec,ledgerStep,Option.bind_some,granted_cons]
    by_cases hready : 0 < a.answer
    · rw [decide_eq_true hready,subscribeLoop_true,if_neg (by omega),if_pos hready]
      rfl
    · rw [decide_eq_false hready,if_neg hready]
      by_cases hzero : a.answer = 0
      · rw [if_pos hzero,if_pos hzero,ih,List.reverse_cons,List.append_assoc]
        rfl
      · rw [if_neg hzero,if_neg hzero,ih]

theorem count_granted (h : Unmixed asks) {k : Key} (hk : k ∈ granted asks) :
    (granted asks).count k = (asks.map Ask.key).count k := by
  obtain ⟨a,ha,rfl⟩ := List.mem_map.mp hk
  obtain ⟨hasked,hzero⟩ := List.mem_filter.mp ha
  obtain ⟨hsame,hrest⟩ := h a hasked (by simpa using hzero)
  have hsplit : asks = asked asks ++ skipped asks := List.takeWhile_append_dropWhile.symm
  conv_rhs => rw [hsplit]
  have hnone : ((skipped asks).map Ask.key).count a.key = 0 := by
    refine List.count_eq_zero.mpr fun hmem => ?_
    obtain ⟨b,hb,heq⟩ := List.mem_map.mp hmem
    exact hrest b hb heq
  rw [List.map_append,List.count_append,hnone,Nat.add_zero,granted,List.count_eq_countP,
    List.countP_map,List.countP_filter,List.count_eq_countP,List.countP_map]
  refine List.countP_congr fun b hb => ?_
  constructor
  · intro hboth
    exact (Bool.and_eq_true_iff.mp hboth).1
  · intro hkey
    refine Bool.and_eq_true_iff.mpr ⟨hkey,?_⟩
    have hb' := hsame b hb (by simpa using hkey)
    simpa using hb'

def FromTable (fds : Fds) (a : Ask) : Prop := (fds a.pending.fd).map (⟨·, a.pending.how⟩) = some a.key

theorem ask_fromTable {fd : Int} {how : Events} {answer : Int} {a : Ask}
    (h : ask fds fd how answer = some a) : FromTable fds a := by
  rw [ask] at h
  split_ifs at h
  obtain ⟨sfd,hsfd,rfl⟩ := Option.map_eq_some_iff.mp h
  rw [FromTable,hsfd]
  rfl

theorem selectAsks_fromTable {n : Nat} {how : Nat → Events} {answers : Nat → Int} {a : Ask}
    (h : a ∈ selectAsks fds n how answers) : FromTable fds a := by
  obtain ⟨fd,-,hfd⟩ := List.mem_filterMap.mp h
  exact ask_fromTable hfd

theorem pollAsks_fromTable {ufds : List Pollfd} {answers : Nat → Int} {a : Ask}
    (h : a ∈ pollAsks fds ufds answers) : FromTable fds a := by
  obtain ⟨o,ho,ha⟩ := List.mem_filterMap.mp h
  obtain ⟨i,hi,rfl⟩ := List.mem_mapIdx.mp ho
  exact ask_fromTable ha

theorem cancelKeys_asks (h : ∀ a ∈ asks, FromTable fds a) :
    cancelKeys fds (asks.map Ask.pending) = some (asks.map Ask.key) := by
  induction asks with
  | nil => rfl
  | cons a asks ih =>
    have hrest := ih fun b hb => h b (List.mem_cons_of_mem a hb)
    have hfirst := h a List.mem_cons_self
    rw [FromTable] at hfirst
    rw [cancelKeys] at hrest ⊢
    rw [List.map_cons,List.mapM_cons,hfirst,hrest]
    rfl

theorem cancelKeys_congr {fds' : Fds} (h : ∀ p ∈ ps, fds' p.fd = fds p.fd) :
    cancelKeys fds' ps = cancelKeys fds ps := by
  induction ps with
  | nil => rfl
  | cons p ps ih =>
    have hrest := ih fun q hq => h q (List.mem_cons_of_mem p hq)
    simp only [cancelKeys,List.mapM_cons] at hrest ⊢
    rw [h p List.mem_cons_self,hrest]

theorem matched_eq {fds : List Int} (h : ps.map Poll.Pending.fd <+ fds) : matched ps fds = ps := by
  induction fds generalizing ps with
  | nil =>
    cases ps with
    | nil => rfl
    | cons p ps => cases h
  | cons fd fds ih =>
    cases ps with
    | nil => rfl
    | cons p ps =>
      rw [matched]
      split_ifs with heq
      · subst heq
        rw [ih (List.cons_sublist_cons.mp h)]
      · rw [List.map_cons] at h
        cases h with
        | cons _ h => exact ih h
        | cons_cons _ h => exact absurd rfl heq

theorem Agrees.of_phase (hlog : exec ledgerStep ⟨[], []⟩ s.log = some l)
    (halive : s.aborted = false) {phase : Phase} (hphase : s.phase = phase)
    (hstands : Stands s l phase) : Agrees s l :=
  ⟨hlog,halive,hphase ▸ hstands⟩

theorem Agrees.running (h : Agrees s l) (hphase : s.phase = .running) :
    s.selset = none ∧ s.queued = 0 ∧ l.outstanding = [] := by
  have hstands := h.stands
  rwa [hphase] at hstands

theorem Agrees.enter (h : Agrees s l) (hphase : s.phase = .running) : Agrees s.enter ⟨[], []⟩ := by
  obtain ⟨hsel,hqueued,hout⟩ := h.running hphase
  have hstart : exec ledgerStep l [.started s.selset.isNone] = some ⟨[],[]⟩ := by
    rw [exec,ledgerStep,hsel,hout]
    rfl
  exact .of_phase (accepted_record h.accepted hstart) h.alive hphase ⟨hsel,hqueued,rfl⟩

theorem waits_of_asks (hasks : ∀ a ∈ asks, FromTable fds a) (hun : Unmixed asks) :
    Waits fds ⟨(granted asks).reverse, []⟩ (asks.map Ask.pending) := by
  refine ⟨rfl,_,cancelKeys_asks hasks,fun k hk => ?_⟩
  dsimp only at hk ⊢
  rw [List.count_reverse]
  exact count_granted hun (List.mem_reverse.mp hk)

theorem Agrees.wait (h : Agrees s ⟨[], []⟩) (hrun : s.phase = .running) {phase : Phase}
    (hphase : phase = .selecting ∨ phase = .polling) (hasks : ∀ a ∈ asks, FromTable s.fds a)
    (hun : Unmixed asks) : ∃ l', Agrees (s.wait phase asks) l' := by
  rw [State.wait]
  split_ifs
  · exact ⟨_,h⟩
  · have hexec := exec_subscribeLoop asks [] []
    rw [List.append_nil] at hexec
    refine ⟨_,accepted_record h.accepted hexec,h.alive,?_⟩
    have hqueued := (h.running hrun).2.1
    have hwaits := waits_of_asks hasks hun
    rcases hphase with rfl | rfl
    · exact ⟨_,rfl,hqueued,hwaits⟩
    · exact ⟨_,rfl,hqueued,hwaits⟩

theorem Agrees.suspendOn (h : Agrees s ⟨[], []⟩) (hrun : s.phase = .running) (fd : Int)
    (how : Events) (nonblock : Bool) (answer : Int) :
    ∃ l', Agrees (s.suspendOn fd how nonblock answer) l' := by
  obtain ⟨hsel,hqueued,-⟩ := h.running hrun
  rw [State.suspendOn,if_neg (by rw [hsel]; decide)]
  by_cases hsignaled : s.signaled = true
  · rw [if_pos hsignaled]
    exact ⟨_,h.accepted,h.alive,h.stands⟩
  · rw [if_neg hsignaled]
    cases hfd : s.fds fd with
    | none => exact ⟨_,h⟩
    | some sfd =>
      dsimp only
      split_ifs with hblock hzero
      · exact ⟨_,h⟩
      · subst hzero
        refine ⟨⟨[⟨sfd,how⟩],[]⟩,accepted_record h.accepted rfl,h.alive,?_⟩
        refine ⟨_,rfl,by rw [State.record,hqueued],Pollstatus.noConfusion,rfl,
          [⟨sfd,how⟩],?_,fun k _ => rfl⟩
        rw [State.record,cancelKeys,List.mapM_cons,hfd]
        rfl
      · have hrefused : exec ledgerStep ⟨[],[]⟩ [.subscribed ⟨sfd,how⟩ answer] =
            some ⟨[],[]⟩ := by
          rw [exec,ledgerStep,if_neg hzero]
          rfl
        exact ⟨_,.of_phase (accepted_record h.accepted hrefused) h.alive hrun
          ⟨hsel,hqueued,rfl⟩⟩

theorem Waits.cleanupPending (h : Waits s.fds l ps) (hsel : s.selset = some ps) :
    ∃ evs settled', s.cleanupPending =
        { s.record evs with selset := none, pollstatus := .terminated } ∧
      exec ledgerStep l evs = some ⟨[],settled'⟩ := by
  rw [State.cleanupPending,hsel]
  exact h.cancel _

theorem Waits.suspendSignaled (h : Waits s.fds l [p]) (hsel : s.selset = some [p]) :
    ∃ evs settled', s.suspendSignaled =
        { s.record evs with selset := none, phase := .running } ∧
      exec ledgerStep l evs = some ⟨[],settled'⟩ := by
  rw [State.suspendSignaled,hsel]
  exact h.cancel _

theorem Agrees.selectDone (h : Agrees s l) (hphase : s.phase = .selecting) :
    ∃ l', Agrees s.selectDone l' := by
  have hstands := h.stands
  rw [hphase] at hstands
  obtain ⟨ps,hsel,hqueued,hwaits⟩ := hstands
  obtain ⟨evs,settled',hcancel,hexec⟩ := hwaits.cancel
    fun s => { s with selset := none, phase := .running }
  rw [State.selectDone,hsel]
  dsimp only
  rw [hcancel]
  exact ⟨_,accepted_record h.accepted hexec,h.alive,rfl,hqueued,rfl⟩

theorem Agrees.pollDone (h : Agrees s l) (hphase : s.phase = .polling) {failed : Bool}
    {fds : List Int} (hfair : failed = true ∨ (s.selset.getD []).map Poll.Pending.fd <+ fds) :
    ∃ l', Agrees (s.pollDone true failed fds) l' := by
  have hstands := h.stands
  rw [hphase] at hstands
  obtain ⟨ps,hsel,hqueued,hwaits⟩ := hstands
  rw [State.pollDone,hsel]
  dsimp only
  rw [if_pos rfl]
  split_ifs with hfailed
  · have hwaits' : Waits ({ s with selset := some ps, phase := .running } : State).fds l ps := hwaits
    obtain ⟨evs,settled',hcancel,hexec⟩ := hwaits'.cleanupPending rfl
    rw [hcancel]
    exact ⟨_,accepted_record h.accepted hexec,h.alive,rfl,hqueued,rfl⟩
  · have hsub := hfair.resolve_left hfailed
    rw [hsel,Option.getD_some] at hsub
    obtain ⟨evs,settled',hcancel,hexec⟩ := hwaits.cancel
      fun s => { s with selset := none, phase := .running }
    rw [matched_eq hsub,hcancel]
    exact ⟨_,accepted_record h.accepted hexec,h.alive,rfl,hqueued,rfl⟩

theorem Agrees.tryEntry (h : Agrees s l) (hqueued : s.queued ≠ 0) :
    ∃ l', Agrees s.tryEntry l' := by
  have hstands := h.stands
  cases hphase : s.phase with
  | running =>
    rw [hphase] at hstands
    exact absurd hstands.2.1 hqueued
  | selecting | polling =>
    rw [hphase] at hstands
    obtain ⟨ps,-,hzero,-⟩ := hstands
    exact absurd hzero hqueued
  | suspended =>
    rw [hphase] at hstands
    obtain ⟨p,hsel,hone,hstatus,hwaits⟩ := hstands
    rw [State.tryEntry]
    cases hpoll : s.pollstatus with
    | ready | blocked => exact ⟨l,h⟩
    | terminated => exact absurd hpoll hstatus
    | wakeMeUp =>
      dsimp only
      rw [← hpoll]
      have hwaits' : Waits ({ s with queued := s.queued - 1 } : State).fds l [p] := hwaits
      obtain ⟨evs,settled',hcancel,hexec⟩ := hwaits'.suspendSignaled hsel
      rw [hcancel]
      refine ⟨_,accepted_record h.accepted hexec,h.alive,rfl,?_,rfl⟩
      rw [State.record,hone]
  | gone =>
    rw [hphase] at hstands
    obtain ⟨hsel,hstatus,hout⟩ := hstands
    rw [State.tryEntry,hstatus.resolve_left hqueued]
    exact ⟨l,.of_phase h.accepted h.alive hphase ⟨hsel,.inr rfl,hout⟩⟩

theorem Agrees.waiting (h : Agrees s l) (hrunning : s.phase ≠ .running)
    (hgone : s.phase ≠ .gone) : ∃ ps, s.selset = some ps ∧ Waits s.fds l ps := by
  have hstands := h.stands
  cases hphase : s.phase with
  | running => exact absurd hphase hrunning
  | gone => exact absurd hphase hgone
  | suspended =>
    rw [hphase] at hstands
    obtain ⟨p,hsel,-,-,hwaits⟩ := hstands
    exact ⟨[p],hsel,hwaits⟩
  | selecting | polling =>
    rw [hphase] at hstands
    obtain ⟨ps,hsel,-,hwaits⟩ := hstands
    exact ⟨ps,hsel,hwaits⟩

theorem Agrees.leave (h : Agrees s l) (hgone : s.phase ≠ .gone) : ∃ l', Agrees s.leave l' := by
  by_cases hphase : s.phase = .running
  · obtain ⟨hsel,hqueued,hout⟩ := h.running hphase
    have hleft : exec ledgerStep l [.gone] = some ⟨[],[]⟩ := by
      rw [exec,ledgerStep,if_pos hout]
      rfl
    have hclean : s.cleanupPending = s := by
      rw [State.cleanupPending,hsel]
    rw [State.leave,hclean,if_neg (by rw [h.alive]; decide)]
    exact ⟨_,accepted_record h.accepted hleft,h.alive,hsel,.inl hqueued,rfl⟩
  · obtain ⟨ps,hsel,hwaits⟩ := h.waiting hphase hgone
    obtain ⟨evs,settled',hclean,hexec⟩ := hwaits.cleanupPending hsel
    have halive : (s.record evs).aborted = false := h.alive
    have hlog := accepted_record h.accepted hexec
    rw [State.leave,hclean,if_neg (by rw [halive]; decide)]
    exact ⟨_,accepted_record hlog rfl,h.alive,rfl,.inr rfl,rfl⟩

theorem Waits.fdsChange {fds' : Fds} (h : Waits fds l ps) (hsame : ∀ p ∈ ps, fds' p.fd = fds p.fd) :
    Waits fds' l ps := by
  obtain ⟨keys,hkeys,hcount⟩ := h.keys
  exact ⟨h.fresh,keys,(cancelKeys_congr hsame).trans hkeys,hcount⟩

theorem Agrees.fdsChange (h : Agrees s l) {fds' : Fds}
    (hsame : ∀ p ∈ s.selset.getD [], fds' p.fd = s.fds p.fd) :
    Agrees { s with fds := fds' } l := by
  have hstands := h.stands
  cases hphase : s.phase with
  | running | gone =>
    rw [hphase] at hstands
    exact .of_phase h.accepted h.alive rfl hstands
  | suspended =>
    rw [hphase] at hstands
    obtain ⟨p,hsel,hone,hstatus,hwaits⟩ := hstands
    rw [hsel,Option.getD_some] at hsame
    exact .of_phase h.accepted h.alive rfl ⟨p,hsel,hone,hstatus,hwaits.fdsChange hsame⟩
  | selecting | polling =>
    rw [hphase] at hstands
    obtain ⟨ps,hsel,hzero,hwaits⟩ := hstands
    rw [hsel,Option.getD_some] at hsame
    exact .of_phase h.accepted h.alive rfl ⟨ps,hsel,hzero,hwaits.fdsChange hsame⟩

theorem Agrees.wake (h : Agrees s l) (hfair : s.phase = .gone → s.queued = 0) (signaled : Bool) :
    Agrees { s with signaled := signaled, pollstatus := .wakeMeUp } l := by
  have hstands := h.stands
  cases hphase : s.phase with
  | running | selecting | polling =>
    rw [hphase] at hstands
    exact .of_phase h.accepted h.alive rfl hstands
  | suspended =>
    rw [hphase] at hstands
    obtain ⟨p,hsel,hone,-,hwaits⟩ := hstands
    exact .of_phase h.accepted h.alive rfl ⟨p,hsel,hone,Pollstatus.noConfusion,hwaits⟩
  | gone =>
    rw [hphase] at hstands
    exact .of_phase h.accepted h.alive rfl ⟨hstands.1,.inl (hfair hphase),hstands.2.2⟩

theorem Agrees.spawn (h : Agrees s l) (hphase : s.phase = .gone) (hqueued : s.queued = 0)
    (fds' : Fds) :
    Agrees { s with
      fds := fds', selset := none, phase := .running, pollstatus := .ready, signaled := false }
      l := by
  have hstands := h.stands
  rw [hphase] at hstands
  exact ⟨h.accepted,h.alive,rfl,hqueued,hstands.2.2⟩

theorem Agrees.step (h : Agrees s l) (hfair : Fair s op) (hstep : s.step op = some s') :
    ∃ l', Agrees s' l' := by
  unfold State.step at hstep
  rw [if_neg (by rw [h.alive]; decide)] at hstep
  cases op with
  | checkSuspendOn fd how nonblock answer =>
    cases hphase : s.phase <;> rw [hphase] at hstep <;> cases hstep
    exact (h.enter hphase).suspendOn hphase ..
  | selectIn n how answers =>
    cases hphase : s.phase <;> rw [hphase] at hstep <;> cases hstep
    exact (h.enter hphase).wait hphase (.inl rfl) (fun a => selectAsks_fromTable) hfair
  | selectOut =>
    cases hphase : s.phase <;> rw [hphase] at hstep <;> cases hstep
    exact h.selectDone hphase
  | pollIn room ufds answers =>
    cases hphase : s.phase <;> rw [hphase] at hstep <;> cases hstep
    split_ifs
    · exact (h.enter hphase).wait hphase (.inr rfl) (fun a => pollAsks_fromTable) hfair
    · exact ⟨_,h.enter hphase⟩
  | pollOut room failed fds =>
    cases hphase : s.phase <;> rw [hphase] at hstep <;> cases hstep
    rw [hfair.1]
    exact h.pollDone hphase hfair.2
  | bqSignal =>
    obtain rfl := Option.some.inj hstep
    exact ⟨l,h.wake hfair s.signaled⟩
  | bqPidwake =>
    obtain rfl := Option.some.inj hstep
    split_ifs
    · exact ⟨l,h⟩
    · exact ⟨l,h.wake hfair true⟩
  | bqTry =>
    dsimp only at hstep
    split_ifs at hstep with hqueued
    obtain rfl := Option.some.inj hstep
    exact h.tryEntry hqueued
  | fdsChange fds =>
    obtain rfl := Option.some.inj hstep
    exact ⟨l,h.fdsChange hfair⟩
  | exit =>
    cases hphase : s.phase <;> rw [hphase] at hstep <;> cases hstep <;>
      exact h.leave (by rw [hphase]; exact Phase.noConfusion)
  | spawn fds =>
    cases hphase : s.phase <;> rw [hphase] at hstep <;> cases hstep
    exact ⟨l,h.spawn hphase hfair fds⟩

theorem Agrees.init (fds : Fds) : Agrees (init fds) ⟨[], []⟩ := ⟨rfl,rfl,rfl,rfl,rfl⟩

theorem Agrees.balanced (h : Agrees s l) : Balanced s l := by
  refine ⟨h.accepted,fun hnone => ?_,h.alive⟩
  by_cases hphase : s.phase = .running
  · exact (h.running hphase).2.2
  · by_cases hgone : s.phase = .gone
    · have hstands := h.stands
      rw [hgone] at hstands
      exact hstands.2.2
    · obtain ⟨ps,hsel,-⟩ := h.waiting hphase hgone
      rw [hnone] at hsel
      cases hsel

theorem subscriptions_balanced (fds : Fds) (s : State) (h : Run State.step Fair (init fds) s) :
    ∃ l, Balanced s l := by
  obtain ⟨l,hagrees⟩ := h.invariant (I := fun s => ∃ l, Agrees s l)
    (fun s op s' hs hfair hstep => by
      obtain ⟨l,hl⟩ := hs
      exact hl.step hfair hstep) ⟨_,.init fds⟩
  exact ⟨l,hagrees.balanced⟩

def twoFiles : Fds := fun fd => if fd = 5 then some 1 else if fd = 6 then some 2 else none

def oneLife : List Op :=
  [.checkSuspendOn 5 1#16 false 0, .bqSignal, .bqTry, .checkSuspendOn 5 1#16 false 1,
    .pollIn true [⟨5, 1#16, 0#16⟩, ⟨6, 1#16, 0#16⟩, ⟨5, 4#16, 0#16⟩] (fun _ => 0),
    .pollOut true false [5, 6, 5], .checkSuspendOn 6 1#16 false 0, .exit, .bqTry]

theorem subscriptions_balanced_oneLife :
    ∃ s, Run State.step Fair (init twoFiles) s ∧ s.log.length = 16 ∧ ∃ l, Balanced s l := by
  have hrun : ((exec State.step (init twoFiles) oneLife).any fun s => s.log.length == 16) =
      true := by
    decide +kernel
  have hmeets : Meets State.step Fair (init twoFiles) oneLife := by
    decide +kernel
  obtain ⟨s,hs,hlen⟩ := (Option.any_eq_true _ _).mp hrun
  have hsteps := Run.of_exec hs hmeets
  exact ⟨s,hsteps,beq_iff_eq.mp hlen,subscriptions_balanced twoFiles s hsteps⟩

def repeatedEntry : List Op :=
  [.pollIn true [⟨5, 1#16, 0#16⟩, ⟨6, 1#16, 0#16⟩, ⟨5, 1#16, 0#16⟩] (fun i => if i = 1 then 1 else 0),
    .pollOut true false [5, 6, 5]]

theorem subscription_cancelled_twice :
    ¬∀ fds s, Run State.step (fun _ _ => True) (init fds) s → ∃ l, Balanced s l := by
  intro hall
  have hrun : ((exec State.step (init twoFiles) repeatedEntry).any fun s =>
      (exec ledgerStep ⟨[],[]⟩ s.log).isNone) = true := by
    decide +kernel
  obtain ⟨s,hs,hnone⟩ := (Option.any_eq_true _ _).mp hrun
  obtain ⟨l,hl⟩ := hall twoFiles s (Run.of_exec hs (Meets.of_forall (fun _ _ => trivial) _ _))
  rw [hl.accepted] at hnone
  cases hnone

end ViewOS.Select.Subscription
