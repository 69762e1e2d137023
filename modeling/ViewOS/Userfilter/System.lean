import ViewOS.Lib.Run
import ViewOS.Userfilter.Manip

namespace ViewOS.Userfilter

structure System where
  nat : StackNat
  pbufs : List Pbuf

def emptyRules : NatRules where
  inRules := []
  outRules := []
  inDnat := List.forall_mem_nil _
  outSnat := List.forall_mem_nil _

def natInit : System where
  nat := ⟨Slab.empty, [], [], [], emptyRules, fun _ => true⟩
  pbufs := []

inductive Event where
  | alloc (payload : Payload) (chained : Bool)
  | track (i : Nat) (mem : Memory)
  | perform (i : Nat) (hook : UfHook) (netif : Netif)
  | confirm (i : Nat) (mem : Memory)
  | reset (i : Nat)
  | free (i : Nat)
  | clone (i : Nat)
  | expire (k : Nat)
  | addRule (place : NatTable) (rule : NatRule)
  | delRule (place : NatTable) (pos : Int)

def System.visit (σ : System) (i : Nat) (r : UfVerdict × StackNat × Pbuf) : System where
  nat := r.2.1
  pbufs := σ.pbufs.set i r.2.2

-- One call from outside: a packet buffer is made, visits a hook, is reset, freed or cloned; a
-- pending close timer fires; a rule is added or deleted.
def step (σ : System) : Event → Option System
  | .alloc payload chained => some { σ with pbufs := σ.pbufs ++ [natPbufInit payload chained] }
  | .track i mem => (σ.pbufs[i]?).map fun p => σ.visit i (natTrack mem σ.nat p)
  | .perform i hook netif => (σ.pbufs[i]?).map fun p => σ.visit i (natPerform σ.nat p hook netif)
  | .confirm i mem => (σ.pbufs[i]?).map fun p => σ.visit i (natConfirm mem σ.nat p)
  | .reset i => (σ.pbufs[i]?).map fun p =>
    ⟨(natPbufPut σ.nat p).1, σ.pbufs.set i (natPbufPut σ.nat p).2⟩
  | .free i => (σ.pbufs[i]?).map fun p => ⟨(natPbufPut σ.nat p).1, σ.pbufs.eraseIdx i⟩
  | .clone i => (σ.pbufs[i]?).map fun p =>
    let r := natPbufClone σ.nat (natPbufInit p.payload false) p
    ⟨r.1, σ.pbufs ++ [r.2]⟩
  | .expire k =>
    if k ∈ σ.nat.timers then
      some { σ with nat := closeTimeout { σ.nat with timers := σ.nat.timers.erase k } k }
    else none
  | .addRule place rule =>
    some { σ with nat := { σ.nat with rules := natAddRule σ.nat.rules place rule } }
  | .delRule place pos =>
    some { σ with nat := { σ.nat with rules := natDelRule σ.nat.rules place pos } }

end ViewOS.Userfilter
