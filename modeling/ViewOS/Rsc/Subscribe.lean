import Mathlib.Data.List.Nodup
import ViewOS.Lib.Run
import ViewOS.Rsc.Callbacks

namespace ViewOS.Rsc.Subscribe

open Transition Callbacks

inductive Kind where
  | register
  | deregister
  deriving DecidableEq

-- A call in pthread_cond_wait: what it asked for, the entry it reads then and its request.
structure Wait where
  kind : Kind
  fd : Int
  how : Int
  index : Nat
  req : Nat

inductive Thread where
  | idle
  | waiting (w : Wait)
  | woken (w : Wait)

structure Return where
  wait : Wait
  ack : Ack
  ret : Int

-- pending are the requests sent and not answered, answers the acknowledgements received.
structure State where
  cbs : RegCbs
  mutex : Option Nat
  thread : Nat → Thread
  pending : List Wait
  answers : List (Nat × Ack)
  returns : List Return
  next : Nat

-- write is false for a short write; wake is the thread that the signal wakes.
inductive Op where
  | call (t : Nat) (kind : Kind) (fd how : Int) (write : Bool)
  | receive (ack : Ack) (wake : Option Nat)
  | spurious (t : Nat)
  | resume (t : Nat)

def send (s : State) (t : Nat) (kind : Kind) (fd how : Int) (cbs : RegCbs) (index : Nat) : State :=
  { s with
    cbs := cbs
    thread := Function.update s.thread t (.waiting ⟨kind, fd, how, index, s.next⟩)
    pending := s.pending ++ [⟨kind, fd, how, index, s.next⟩]
    next := s.next + 1 }

-- A short write returns with the mutex locked.
def callRegister (s : State) (t : Nat) (fd how : Int) (write : Bool) : Option State :=
  if s.mutex = none then
    match if 0 < s.cbs.nentry then search s.cbs fd how else none with
    | some _ => some s
    | none =>
      if write then (regCbAdd s.cbs fd how).map fun r => send s t .register fd how r.1 r.2
      else some { s with mutex := some t }
  else none

def callDeregister (s : State) (t : Nat) (fd how : Int) (write : Bool) : Option State :=
  if s.cbs.nentry = 0 then some s
  else if s.mutex = none then
    match search s.cbs fd how with
    | none => some s
    | some i =>
      if write then some (send s t .deregister fd how s.cbs i) else some { s with mutex := some t }
  else none

def Answers : Kind → Ack → Bool
  | .register, .fdReady => true
  | .register, .fdReg => true
  | .deregister, .fdDeregReady => true
  | .deregister, .fdDeregNotReady => true
  | _, _ => false

def setAck (cbs : RegCbs) (i : Nat) (a : Ack) : RegCbs :=
  { cbs with v := cbs.v.modify i fun c => { c with ack := a } }

def signal (thread : Nat → Thread) : Option Nat → Option (Nat → Thread)
  | none => some thread
  | some t =>
    match thread t with
    | .waiting w => some (Function.update thread t (.woken w))
    | _ => none

-- An acknowledgement for which no entry is found is discarded.
def receive (s : State) (a : Ack) (wake : Option Nat) : Option State :=
  match s.mutex, s.pending with
  | none, w :: pending =>
    if Answers w.kind a then
      let s := { s with pending := pending, answers := s.answers ++ [(w.req, a)] }
      match search s.cbs w.fd w.how, wake with
      | none, none => some s
      | none, some _ => none
      | some j, wake => (signal s.thread wake).map fun thread =>
          { s with cbs := setAck s.cbs j a, thread := thread }
    else none
  | _, _ => none

def result (how : Int) : Kind → Ack → Int
  | .register, .fdReady => how
  | .deregister, .fdDeregReady => how
  | _, _ => 0

def resume (s : State) (t : Nat) (w : Wait) : Option State :=
  if s.mutex = none then
    s.cbs.v[w.index]?.map fun c =>
      { s with
        cbs := if w.kind = .deregister ∨ c.ack = .fdReady then regCbDel s.cbs w.index else s.cbs
        thread := Function.update s.thread t .idle
        returns := ⟨w, c.ack, result c.how w.kind c.ack⟩ :: s.returns }
  else none

def step (s : State) : Op → Option State
  | .call t kind fd how write =>
    match s.thread t, kind with
    | .idle, .register => callRegister s t fd how write
    | .idle, .deregister => callDeregister s t fd how write
    | _, _ => none
  | .receive a wake => receive s a wake
  | .spurious t =>
    match s.thread t with
    | .waiting w => some { s with thread := Function.update s.thread t (.woken w) }
    | _ => none
  | .resume t =>
    match s.thread t with
    | .woken w => resume s t w
    | _ => none

def init : State := ⟨initRegCb, none, fun _ => .idle, [], [], [], 0⟩

def Settled (s : State) : Prop := ∀ t w, s.thread t ≠ .woken w

-- A thread is woken only by the acknowledgement of its request stored in the entry it reads, and
-- then it is the next to take the mutex.
def Orderly (s : State) : Op → Prop
  | .call _ _ _ _ write => write = true ∧ Settled s
  | .receive _ wake => Settled s ∧ ∀ t ∈ wake, ∃ w pending, s.thread t = .waiting w ∧
      s.pending = w :: pending ∧ search s.cbs w.fd w.how = some w.index
  | .spurious _ => False
  | .resume _ => True

def Return.Own (answers : List (Nat × Ack)) (r : Return) : Prop :=
  (r.wait.req, r.ack) ∈ answers ∧ Answers r.wait.kind r.ack = true ∧
    r.ret = result r.wait.how r.wait.kind r.ack

structure Inv (s : State) : Prop where
  mutex : s.mutex = none
  woken : ∀ t w, s.thread t = .woken w → ∃ c, s.cbs.v[w.index]? = some c ∧ c.how = w.how ∧
    (w.req, c.ack) ∈ s.answers ∧ Answers w.kind c.ack = true
  one : ∀ t u w w', s.thread t = .woken w → s.thread u = .woken w' → t = u
  returns : ∀ r ∈ s.returns, r.Own s.answers
  reqs : (s.answers.map Prod.fst ++ s.pending.map Wait.req).Nodup
  fresh : ∀ n ∈ s.answers.map Prod.fst ++ s.pending.map Wait.req, n < s.next

section Steps

variable {s u : State} {t i : Nat} {fd how : Int} {write : Bool} {a : Ack} {wake : Option Nat}
  {w : Wait} {o : Op} {kind : Kind} {cbs : RegCbs}

theorem inv_init : Inv init := by
  refine ⟨rfl,fun t w h => ?_,fun t u w w' h => ?_,?_,List.nodup_nil,?_⟩
  · exact Thread.noConfusion h
  · exact Thread.noConfusion h
  · exact fun r hr => absurd hr List.not_mem_nil
  · exact fun n hn => absurd hn List.not_mem_nil

theorem update_settled {thread : Nat → Thread} {x : Thread} (hx : ∀ w, x ≠ .woken w)
    (h : ∀ t' ≠ t, ∀ w, thread t' ≠ .woken w) (t' : Nat) (w : Wait) :
    Function.update thread t x t' ≠ .woken w := by
  rcases eq_or_ne t' t with rfl | hne
  · rw [Function.update_self]
    exact hx w
  · rw [Function.update_of_ne hne]
    exact h t' hne w

theorem update_woken (hs : Settled s) {t' : Nat} {w' : Wait}
    (h : Function.update s.thread t (.woken w) t' = .woken w') : t' = t ∧ w' = w := by
  rcases eq_or_ne t' t with rfl | hne
  · rw [Function.update_self] at h
    exact ⟨rfl,(Thread.woken.inj h).symm⟩
  · rw [Function.update_of_ne hne] at h
    exact absurd h (hs t' w')

theorem send_settled (h : Settled s) : Settled (send s t kind fd how cbs i) :=
  update_settled (fun _ => Thread.noConfusion) (fun t' _ => h t')

theorem Inv.send (h : Inv s) (hs : Settled s) : Inv (send s t kind fd how cbs i) := by
  have hset := @send_settled s t i fd how kind cbs hs
  refine ⟨h.mutex,fun t' w hw => absurd hw (hset t' w),fun t' u w w' hw => absurd hw (hset t' w),
    h.returns,?_,?_⟩
  · have hnew : s.next ∉ s.answers.map Prod.fst ++ s.pending.map Wait.req := fun hmem =>
      absurd (h.fresh _ hmem) (Nat.lt_irrefl _)
    rw [Subscribe.send,List.map_append,← List.append_assoc]
    exact List.nodup_append_comm.mp (List.nodup_cons.mpr ⟨hnew,h.reqs⟩)
  · intro n hn
    rw [Subscribe.send,List.map_append,← List.append_assoc] at hn
    rcases List.mem_append.mp hn with hn | hn
    · exact Nat.lt_succ_of_lt (h.fresh n hn)
    · rw [List.mem_singleton.mp hn]
      exact Nat.lt_succ_self _

theorem Inv.callRegister (h : Inv s) (hs : Settled s)
    (hst : callRegister s t fd how true = some u) : Inv u := by
  rw [Subscribe.callRegister,if_pos h.mutex] at hst
  split at hst
  · obtain rfl := Option.some.inj hst
    exact h
  · rw [if_pos rfl] at hst
    obtain ⟨r,-,rfl⟩ := Option.map_eq_some_iff.mp hst
    exact h.send hs

theorem Inv.callDeregister (h : Inv s) (hs : Settled s)
    (hst : callDeregister s t fd how true = some u) : Inv u := by
  rw [Subscribe.callDeregister,if_pos h.mutex] at hst
  split at hst
  · obtain rfl := Option.some.inj hst
    exact h
  · split at hst
    · obtain rfl := Option.some.inj hst
      exact h
    · rw [if_pos rfl] at hst
      obtain rfl := Option.some.inj hst
      exact h.send hs

theorem Inv.answer {pending : List Wait} {thread : Nat → Thread} (h : Inv s) (hs : Settled s)
    (hp : s.pending = w :: pending)
    (hwoken : ∀ t w', thread t = .woken w' → s.thread t ≠ .woken w' → ∃ c,
      cbs.v[w'.index]? = some c ∧ c.how = w'.how ∧ (w'.req, c.ack) ∈ s.answers ++ [(w.req, a)] ∧
        Answers w'.kind c.ack = true)
    (hone : ∀ t u w w', thread t = .woken w → thread u = .woken w' → t = u) :
    Inv ⟨cbs, none, thread, pending, s.answers ++ [(w.req, a)], s.returns, s.next⟩ := by
  have hlist : (s.answers ++ [(w.req, a)]).map Prod.fst ++ pending.map Wait.req =
      s.answers.map Prod.fst ++ s.pending.map Wait.req := by
    rw [hp]
    simp
  refine ⟨rfl,fun t w' hw => hwoken t w' hw (hs t w'),hone,fun r hr => ?_,?_,?_⟩
  · obtain ⟨hans,hrest⟩ := h.returns r hr
    exact ⟨List.mem_append_left _ hans,hrest⟩
  · rw [hlist]
    exact h.reqs
  · rw [hlist]
    exact h.fresh

theorem search_setAck {fd how : Int} (hi : search cbs fd how = some i) (a : Ack) :
    ∃ c, (setAck cbs i a).v[i]? = some c ∧ c.how = how ∧ c.ack = a := by
  obtain ⟨c,hc,-,hhow⟩ := search_eq_some hi
  refine ⟨{ c with ack := a },?_,hhow,rfl⟩
  rw [setAck,List.getElem?_modify_eq,hc]
  rfl

theorem Inv.receive (h : Inv s) (hok : Orderly s (.receive a wake))
    (hst : receive s a wake = some u) : Inv u := by
  obtain ⟨hs,hwake⟩ := hok
  rw [Subscribe.receive,h.mutex] at hst
  cases hp : s.pending with
  | nil =>
    rw [hp] at hst
    exact absurd hst (by simp)
  | cons w pending =>
    rw [hp] at hst
    dsimp only at hst
    split at hst
    · rename_i hkind
      cases hsearch : search s.cbs w.fd w.how with
      | none =>
        rw [hsearch] at hst
        cases wake with
        | none =>
          obtain rfl := Option.some.inj hst
          exact h.answer hs hp (fun t w' hw => absurd hw (hs t w'))
            (fun t u w' w'' hw => absurd hw (hs t w'))
        | some t => exact absurd hst (by simp)
      | some j =>
        rw [hsearch] at hst
        obtain ⟨thread,hsig,rfl⟩ := Option.map_eq_some_iff.mp hst
        cases wake with
        | none =>
          obtain rfl := Option.some.inj hsig
          exact h.answer hs hp (fun t w' hw hnot => absurd hw hnot)
            (fun t u w' w'' hw => absurd hw (hs t w'))
        | some t =>
          obtain ⟨w₀,pending₀,ht,hp₀,hsearch₀⟩ := hwake t rfl
          obtain ⟨rfl,-⟩ := List.cons.inj (hp.symm.trans hp₀)
          obtain rfl : j = w.index := Option.some.inj (hsearch.symm.trans hsearch₀)
          rw [signal,ht] at hsig
          obtain rfl := Option.some.inj hsig
          refine h.answer hs hp (fun t' w' hw _ => ?_) (fun t' u w' w'' hw hw' =>
            (update_woken hs hw).1.trans (update_woken hs hw').1.symm)
          obtain ⟨-,rfl⟩ := update_woken hs hw
          obtain ⟨c,hc,hhow,rfl⟩ := search_setAck hsearch₀ a
          exact ⟨c,hc,hhow,by simp,hkind⟩
    · exact absurd hst (by simp)

theorem Inv.resume (h : Inv s) (ht : s.thread t = .woken w) (hst : resume s t w = some u) :
    Inv u := by
  rw [Subscribe.resume,if_pos h.mutex] at hst
  obtain ⟨c,hc,rfl⟩ := Option.map_eq_some_iff.mp hst
  obtain ⟨c',hc',hhow,hans,hkind⟩ := h.woken t w ht
  obtain rfl := Option.some.inj (hc.symm.trans hc')
  have hset := @update_settled t s.thread .idle (fun _ => Thread.noConfusion)
    fun t' hne w' hw => hne (h.one t' t w' w hw ht)
  refine ⟨h.mutex,fun t' w' hw => absurd hw (hset t' w'),
    fun t' u w' w'' hw => absurd hw (hset t' w'),fun r hr => ?_,h.reqs,h.fresh⟩
  rcases List.mem_cons.mp hr with rfl | hr
  · exact ⟨hans,hkind,by rw [hhow]⟩
  · exact h.returns r hr

theorem Inv.step (h : Inv s) (hok : Orderly s o) (hst : step s o = some u) : Inv u := by
  cases o with
  | call t kind fd how write =>
    obtain ⟨rfl,hs⟩ := hok
    cases ht : s.thread t with
    | idle =>
      cases kind with
      | register =>
        simp only [Subscribe.step,ht] at hst
        exact h.callRegister hs hst
      | deregister =>
        simp only [Subscribe.step,ht] at hst
        exact h.callDeregister hs hst
    | waiting w => simp [Subscribe.step,ht] at hst
    | woken w => simp [Subscribe.step,ht] at hst
  | receive a wake => exact h.receive hok hst
  | spurious t => exact absurd hok id
  | resume t =>
    cases ht : s.thread t with
    | idle => simp [Subscribe.step,ht] at hst
    | waiting w => simp [Subscribe.step,ht] at hst
    | woken w =>
      simp only [Subscribe.step,ht] at hst
      exact h.resume ht hst

end Steps

theorem requests_own_ack {s : State} (hrun : Run step Orderly init s) :
    s.mutex = none ∧ (∀ r ∈ s.returns, r.Own s.answers) ∧ (s.answers.map Prod.fst).Nodup := by
  have h : Inv s := hrun.invariant (fun _ _ _ h hok hst => h.step hok hst) inv_init
  exact ⟨h.mutex,h.returns,(List.nodup_append.mp h.reqs).1⟩

-- One request: the call, its acknowledgement and the return.
theorem run_request {s s₁ s₂ s₃ : State} (t : Nat) (kind : Kind) (fd how : Int) (a : Ack) {w : Wait}
    {pending : List Wait} (h : Run step Orderly init s ∧ Settled s)
    (hcall : step s (.call t kind fd how true) = some s₁)
    (h₁ : s₁.thread = Function.update s.thread t (.waiting w)) (hp : s₁.pending = w :: pending)
    (hi : search s₁.cbs w.fd w.how = some w.index)
    (hreceive : step s₁ (.receive a (some t)) = some s₂) (hresume : step s₂ (.resume t) = some s₃)
    (h₃ : s₃.thread = Function.update (Function.update s₁.thread t (.woken w)) t .idle) :
    Run step Orderly init s₃ ∧ Settled s₃ := by
  have hs₁ : Settled s₁ := by
    unfold Settled
    rw [h₁]
    exact update_settled (fun _ => Thread.noConfusion) fun t' _ => h.2 t'
  have hwrite : Orderly s (.call t kind fd how true) := ⟨rfl,h.2⟩
  have hwake : Orderly s₁ (.receive a (some t)) := by
    refine ⟨hs₁,fun t' ht' => ?_⟩
    obtain rfl := Option.some.inj ht'
    exact ⟨w,pending,by rw [h₁,Function.update_self],hp,hi⟩
  have hnext : Orderly s₂ (.resume t) := trivial
  refine ⟨((h.1.tail hwrite hcall).tail hwake hreceive).tail hnext hresume,?_⟩
  unfold Settled
  rw [h₃]
  refine update_settled (fun _ => Thread.noConfusion) fun t' hne w' => ?_
  rw [Function.update_of_ne hne]
  exact hs₁ t' w'

theorem requests_own_ack_registered : ∃ s, Run step Orderly init s ∧
    s.returns.map Return.ret = [1, 2, 0] ∧ ∀ r ∈ s.returns, r.Own s.answers := by
  have hinit : Run step Orderly init init ∧ Settled init :=
    ⟨.refl init,fun _ _ => Thread.noConfusion⟩
  have h₁ := run_request 0 .register 5 1 .fdReg hinit rfl rfl rfl rfl rfl rfl rfl
  have h₂ := run_request 1 .register 6 2 .fdReady h₁ rfl rfl rfl rfl rfl rfl rfl
  have h₃ := run_request 0 .deregister 5 1 .fdDeregReady h₂ rfl rfl rfl rfl rfl rfl rfl
  exact ⟨_,h₃.1,rfl,(requests_own_ack h₃.1).2.1⟩

theorem short_write_keeps_mutex : ¬∀ s, Run step (fun _ _ => True) init s → s.mutex = none ∧
    ∀ r ∈ s.returns, r.Own s.answers := by
  intro h
  have hrun : Run step (fun _ _ => True) init _ :=
    @Run.tail _ _ _ _ _ _ _ (.call 0 .register 5 1 false) (.refl init) trivial rfl
  exact absurd (h _ hrun).1 (by simp)

end ViewOS.Rsc.Subscribe
