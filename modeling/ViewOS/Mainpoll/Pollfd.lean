import ViewOS.Mainpoll.Blockq

namespace ViewOS.Mainpoll

open Compact Transition

structure Slot (F A : Type) where
  ext : Nat
  fd : Int
  events : Nat
  revents : Nat
  fn : Option F
  arg : A
  persistent : Bool
  deriving DecidableEq, Repr

structure Registration (F A : Type) where
  ext : Nat
  fd : Int
  events : Nat
  fn : F
  arg : A
  persistent : Bool
  deriving DecidableEq, Repr

inductive Phase where
  | idle
  | scanning (i rv : Nat)
  | calling (i rv : Nat)
  deriving DecidableEq, Repr

inductive PollEvent (F A : Type) where
  | added (r : Registration F A)
  | deleted (fd : Int) (arg : A)
  | polled (slots : List (Slot F A))
  | called (ext : Nat)
  | skipped (ext : Nat)
  | returned
  | finished
  deriving DecidableEq, Repr

structure Pollfds (F A : Type) where
  slots : List (Slot F A)
  maxgnfds : Nat
  next : Nat
  phase : Phase
  log : List (PollEvent F A)

inductive PollOp (F A : Type) where
  | add (fd : Int) (events : Nat) (fn : F) (arg : A) (persistent : Bool)
  | del (fd : Int) (arg : A)
  | poll (report : Option (Nat → Nat))
  | step
  | ret

section Table

variable {F A : Type}

def Slot.ready (s : Slot F A) : Bool := s.revents != 0

def Slot.registration? (s : Slot F A) : Option (Registration F A) :=
  s.fn.map fun fn => ⟨s.ext, s.fd, s.events, fn, s.arg, s.persistent⟩

def active (slots : List (Slot F A)) : List (Registration F A) :=
  slots.filterMap Slot.registration?

def mpAdd (t : Pollfds F A) (fd : Int) (events : Nat) (fn : F) (arg : A) (persistent : Bool) :
    Pollfds F A :=
  { t with
    maxgnfds :=
      if t.maxgnfds ≤ t.slots.length then t.maxgnfds + stepSizePollfdTable else t.maxgnfds
    slots := t.slots ++ [⟨t.next, fd, events, 0, some fn, arg, persistent⟩]
    next := t.next + 1
    log := t.log ++ [.added ⟨t.next, fd, events, fn, arg, persistent⟩] }

def Slot.cleared (s : Slot F A) : Slot F A := { s with fn := none }

def Slot.hit [DecidableEq A] (fd : Int) (arg : A) (s : Slot F A) : Bool :=
  s.fd = fd && s.arg = arg

def mpDelSlots [DecidableEq A] (fd : Int) (arg : A) : List (Slot F A) → List (Slot F A)
  | [] => []
  | s :: slots =>
    if s.hit fd arg then s.cleared :: slots else s :: mpDelSlots fd arg slots

def mpDel [DecidableEq A] (t : Pollfds F A) (fd : Int) (arg : A) : Pollfds F A :=
  { t with slots := mpDelSlots fd arg t.slots, log := t.log ++ [.deleted fd arg] }

def mpPack (slots : List (Slot F A)) : List (Slot F A) :=
  squeeze (fun s => s.fn.isSome) slots.length slots 0 0

def reported (report : Nat → Nat) (slots : List (Slot F A)) : List (Slot F A) :=
  slots.mapIdx fun i s => { s with revents := report i }

def mpPpollStart (t : Pollfds F A) : Option (Nat → Nat) → Pollfds F A
  | none =>
    { t with
      slots := mpPack t.slots
      log := t.log ++ [.polled (reported (fun _ => 0) t.slots), .finished] }
  | some report =>
    let slots := reported report t.slots
    { t with
      slots := slots
      phase := .scanning 0 (slots.countP Slot.ready)
      log := t.log ++ [.polled slots] }

def mpPpollStep (t : Pollfds F A) (i : Nat) : Nat → Option (Pollfds F A)
  | 0 => some { t with slots := mpPack t.slots, phase := .idle, log := t.log ++ [.finished] }
  | rv + 1 =>
    t.slots[i]?.map fun s =>
      if s.ready then
        match s.fn with
        | none => { t with phase := .scanning (i + 1) rv, log := t.log ++ [.skipped s.ext] }
        | some _ => { t with phase := .calling i rv, log := t.log ++ [.called s.ext] }
      else { t with phase := .scanning (i + 1) (rv + 1) }

def Slot.fired (s : Slot F A) : Slot F A := if s.persistent then s else s.cleared

def mpPpollReturn (t : Pollfds F A) (i rv : Nat) : Pollfds F A :=
  { t with
    slots := t.slots.modify i Slot.fired
    phase := .scanning (i + 1) rv
    log := t.log ++ [.returned] }

def mpStep [DecidableEq A] (t : Pollfds F A) : PollOp F A → Option (Pollfds F A)
  | .add fd events fn arg persistent => some (mpAdd t fd events fn arg persistent)
  | .del fd arg => some (mpDel t fd arg)
  | .poll report =>
    match t.phase with
    | .idle => some (if t.slots = [] then t else mpPpollStart t report)
    | _ => none
  | .step =>
    match t.phase with
    | .scanning i rv => mpPpollStep t i rv
    | _ => none
  | .ret =>
    match t.phase with
    | .calling i rv => some (mpPpollReturn t i rv)
    | _ => none

def mainpollInit : Pollfds F A := ⟨[], 0, 0, .idle, []⟩

end Table

end ViewOS.Mainpoll
