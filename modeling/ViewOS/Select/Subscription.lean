import ViewOS.Mainpoll.Blockq
import ViewOS.Select.Poll

namespace ViewOS.Select.Subscription

open Poll (Events Pollfd)
open Mainpoll (Pollstatus)
open Transition

structure Key where
  sfd : Nat
  how : Events
  deriving DecidableEq, Repr

abbrev Fds := Int → Option Nat

inductive Event where
  | started (clear : Bool)
  | subscribed (key : Key) (result : Int)
  | cancelled (key : Key)
  | gone
  deriving DecidableEq, Repr

inductive Phase where
  | running
  | suspended
  | selecting
  | polling
  | gone
  deriving DecidableEq, Repr

structure State where
  fds : Fds
  selset : Option (List Poll.Pending)
  phase : Phase
  pollstatus : Pollstatus
  queued : Nat
  signaled : Bool
  aborted : Bool
  log : List Event

inductive Op where
  | checkSuspendOn (fd : Int) (how : Events) (nonblock : Bool) (answer : Int)
  | selectIn (n : Nat) (how : Nat → Events) (answers : Nat → Int)
  | selectOut
  | pollIn (room : Bool) (ufds : List Pollfd) (answers : Nat → Int)
  | pollOut (room failed : Bool) (fds : List Int)
  | bqSignal
  | bqPidwake
  | bqTry
  | fdsChange (fds : Fds)
  | exit
  | spawn (fds : Fds)

structure Ask where
  pending : Poll.Pending
  key : Key
  answer : Int
  deriving DecidableEq, Repr

def ask (fds : Fds) (fd : Int) (how : Events) (answer : Int) : Option Ask :=
  if how = 0#16 then none else (fds fd).map fun sfd => ⟨⟨fd, how⟩, ⟨sfd, how⟩, answer⟩

def selectAsks (fds : Fds) (n : Nat) (how : Nat → Events) (answers : Nat → Int) : List Ask :=
  (List.range n).filterMap fun fd => ask fds (fd : Nat) (how fd) (answers fd)

def pollAsks (fds : Fds) (ufds : List Pollfd) (answers : Nat → Int) : List Ask :=
  (ufds.mapIdx fun i e => ask fds e.fd e.events (answers i)).filterMap id

def subscribeLoop : Bool → List Ask → List Event
  | _, [] => []
  | true, _ :: asks => subscribeLoop true asks
  | false, a :: asks => .subscribed a.key a.answer :: subscribeLoop (0 < a.answer) asks

def cancelKeys (fds : Fds) (ps : List Poll.Pending) : Option (List Key) :=
  ps.mapM fun p => (fds p.fd).map fun sfd => ⟨sfd, p.how⟩

def matched : List Poll.Pending → List Int → List Poll.Pending
  | [], _ => []
  | _ :: _, [] => []
  | p :: ps, fd :: fds => if fd = p.fd then p :: matched ps fds else matched (p :: ps) fds

namespace State

def abort (s : State) : State := { s with aborted := true }

def record (s : State) (evs : List Event) : State := { s with log := s.log ++ evs }

def enter (s : State) : State := s.record [.started s.selset.isNone]

def cancel (s : State) (ps : List Poll.Pending) (next : State → State) : State :=
  match cancelKeys s.fds ps with
  | none => s.abort
  | some keys => next (s.record (keys.map .cancelled))

def cleanupPending (s : State) : State :=
  match s.selset with
  | none => s
  | some ps => s.cancel ps fun s => { s with selset := none, pollstatus := .terminated }

def suspendSignaled (s : State) : State :=
  match s.selset with
  | some (p :: _) => s.cancel [p] fun s => { s with selset := none, phase := .running }
  | _ => s.abort

def wait (s : State) (phase : Phase) (asks : List Ask) : State :=
  if asks.isEmpty then s
  else
    { s with selset := some (asks.map Ask.pending), phase := phase }.record
      (subscribeLoop false asks)

def suspendOn (s : State) (fd : Int) (how : Events) (nonblock : Bool) (answer : Int) : State :=
  if s.selset.isSome then s.abort
  else if s.signaled then { s with signaled := false }
  else
    match s.fds fd with
    | none => s
    | some sfd =>
      if nonblock then s
      else
        let s := s.record [.subscribed ⟨sfd, how⟩ answer]
        if answer = 0 then
          { s with
            selset := some [⟨fd, how⟩], phase := .suspended, pollstatus := .blocked,
            queued := s.queued + 1 }
        else { s with pollstatus := .ready }

def selectDone (s : State) : State :=
  match s.selset with
  | none => { s with phase := .running }
  | some ps => s.cancel ps fun s => { s with selset := none, phase := .running }

def pollDone (s : State) (room failed : Bool) (fds : List Int) : State :=
  match s.selset with
  | none => { s with phase := .running }
  | some ps =>
    if room then
      if failed then { s with phase := .running }.cleanupPending
      else s.cancel (matched ps fds) fun s => { s with selset := none, phase := .running }
    else { s with phase := .running }

def tryEntry (s : State) : State :=
  match s.pollstatus with
  | .wakeMeUp => { s with queued := s.queued - 1 }.suspendSignaled
  | .terminated => { s with queued := s.queued - 1 }
  | _ => s

def leave (s : State) : State :=
  if s.cleanupPending.aborted then s.cleanupPending
  else { s.cleanupPending with phase := .gone }.record [.gone]

def step (s : State) (op : Op) : Option State :=
  if s.aborted then none
  else
    match op, s.phase with
    | .checkSuspendOn fd how nonblock answer, .running =>
      some (s.enter.suspendOn fd how nonblock answer)
    | .selectIn n how answers, .running =>
      some (s.enter.wait .selecting (selectAsks s.fds n how answers))
    | .selectOut, .selecting => some s.selectDone
    | .pollIn room ufds answers, .running =>
      some (if room then s.enter.wait .polling (pollAsks s.fds ufds answers) else s.enter)
    | .pollOut room failed fds, .polling => some (s.pollDone room failed fds)
    | .bqSignal, _ => some { s with pollstatus := .wakeMeUp }
    | .bqPidwake, _ =>
      some (if s.queued = 0 then s else { s with signaled := true, pollstatus := .wakeMeUp })
    | .bqTry, _ => if s.queued = 0 then none else some s.tryEntry
    | .fdsChange fds, _ => some { s with fds := fds }
    | .exit, .gone => none
    | .exit, _ => some s.leave
    | .spawn fds, .gone =>
      some { s with
        fds := fds, selset := none, phase := .running, pollstatus := .ready, signaled := false }
    | _, _ => none

end State

def init (fds : Fds) : State := ⟨fds, none, .running, .ready, 0, false, false, []⟩

end ViewOS.Select.Subscription
