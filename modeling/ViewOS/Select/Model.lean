import Mathlib.Tactic.Common

namespace ViewOS.Select

inductive Kind where
  | rx
  | wx
  | xx
  deriving DecidableEq

abbrev FdSet := Nat → Bool

-- The three sets of the process, none is a NULL pointer.
abbrev Sets := Kind → Option FdSet

abbrev How := Kind → Bool

def How.any (how : How) : Bool := how .rx || how .wx || how .xx

def bits (n : Int) : Nat := (64 * (n.tdiv 64 + 1)).toNat

def getfdset (set : Option FdSet) (n : Int) : FdSet :=
  fun fd => decide (fd < bits n) && set.elim false (· fd)

def putfdset (set : Option FdSet) (n : Int) (lfds : FdSet) : Option FdSet :=
  set.map fun old fd => if fd < bits n then lfds fd else old fd

structure Pending where
  fd : Nat
  how : How

section Call

variable (n : Int) (sets : Sets) (virt : Nat → Bool) (answer : Nat → How → How)

def wfds (k : Kind) : FdSet := getfdset (sets k) n

def howOf (fd : Nat) : How := fun k => wfds n sets k fd

def pending : List Pending :=
  (List.range n.toNat).filterMap fun fd =>
    if (howOf n sets fd).any && virt fd then some ⟨fd, howOf n sets fd⟩ else none

def waitOn (w : Kind → FdSet) (p : Pending) : Kind → FdSet :=
  fun k fd => if fd = p.fd then decide (k = .rx) else w k fd

-- None: no virtual file, the call is left as it is.
def wrapInSelect : Option (List Pending × Sets) :=
  let ps := pending n sets virt
  if ps.isEmpty then none
  else
    let w := ps.foldl waitOn (wfds n sets)
    some (ps, fun k => putfdset (sets k) n (w k))

def setReady (l : Kind → FdSet) (p : Pending) : Kind → FdSet :=
  fun k fd => if fd = p.fd then answer p.fd p.how k else l k fd

-- The third set is not looked at for the number that is returned.
def counted (l : Kind → FdSet) : Nat :=
  (List.range n.toNat).countP fun fd => l .rx fd || l .wx fd || l .wx fd

def wrapOutSelect (ps : List Pending) (retval : Int) (sets : Sets) : Int × Sets :=
  if 0 ≤ retval then
    let l := ps.foldl (setReady answer) fun k => getfdset (sets k) n
    (counted n l, fun k => putfdset (sets k) n (l k))
  else (retval, sets)

inductive Kernel where
  | failed (errno : Nat)
  | done (report : Kind → FdSet)

def reported (report : Kind → FdSet) : Sets := fun k => (sets k).map fun _ => report k

def sizeOf (k : Kind) : Nat := (List.range n.toNat).countP fun fd => (sets k).elim false (· fd)

def total : Nat := sizeOf n sets .rx + sizeOf n sets .wx + sizeOf n sets .xx

def Kernel.retval (kernel : Kernel) : Int :=
  match kernel with
  | .failed errno => -(errno + 1 : Int)
  | .done report => total n (reported sets report)

def Kernel.leaves (kernel : Kernel) : Sets :=
  match kernel with
  | .failed _ => sets
  | .done report => reported sets report

structure Outcome where
  waited : Sets
  retval : Int
  sets : Sets

-- An fd_set has FD_SETSIZE = 1024 bits. From -128 down the length that is copied is below zero,
-- and the loop of umoven ends only past the set.
def Fits : Prop :=
  bits n ≤ 1024 ∧ (-128 < n ∨ sets .rx = none ∧ sets .wx = none ∧ sets .xx = none)

instance : Decidable (Fits n sets) := inferInstanceAs (Decidable (_ ∧ _))

-- A whole call. None: the copies overrun the sets of the tracer.
def select (kernel : Kernel) : Option Outcome :=
  if ¬ Fits n sets then none
  else match wrapInSelect n sets virt with
    | none => some ⟨sets, kernel.retval n sets, kernel.leaves sets⟩
    | some (ps, waited) =>
      let x := wrapOutSelect n answer ps (kernel.retval n waited) (kernel.leaves waited)
      some ⟨waited, x.1, x.2⟩

end Call

end ViewOS.Select
