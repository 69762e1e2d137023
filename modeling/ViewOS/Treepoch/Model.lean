import Mathlib.Algebra.Group.Nat.Defs
import Mathlib.Tactic.Common

namespace ViewOS.Treepoch

def maxDepth : Nat := 64

structure Node where
  parent : Option Nat
  sub : Bool → Option Nat
  rise : Nat
  nproc : Nat
  nref : Nat
  subheight : Nat
  len : Nat
  bitstr : BitVec 64
  viewid : Nat
  viewname : Option String

def Node.calloc : Node :=
  ⟨none, fun _ => none, 0, 0, 0, 0, 0, 0#64, 0, none⟩

structure State where
  mem : Nat → Node
  next : Nat
  teRoot : Option Nat
  epochNow : Nat
  nextviewid : Nat

structure Timestamp where
  epoch : Nat
  treepoch : Option Nat
  deriving DecidableEq, Repr

def State.empty : State := ⟨fun _ => Node.calloc, 0, none, 2, 0⟩

def State.modify (s : State) (a : Nat) (f : Node → Node) : State :=
  { s with mem := Function.update s.mem a (f (s.mem a)) }

-- The constant 1 is an int: the shift happens in 32 bits (the count is reduced
-- modulo 32, as the processor does) and the result is sign-extended to the word.
def intShl (b : Nat) : BitVec 32 := 1#32 <<< (b % 32)

def wordBit (b : Nat) : BitVec 64 := (intShl (b % 64)).signExtend 64

def getbit (v : BitVec 64) (b : Nat) : Bool := v &&& wordBit b != 0#64

def setbit (v : BitVec 64) (b : Nat) (val : Bool) : BitVec 64 :=
  bif val then v ||| wordBit b else v &&& ~~~wordBit b

-- One word per string: the word loop of the source starts with rv = 0 and so never runs,
-- and a length that is a multiple of the word size leaves an empty mask.
def diffbitstr (a b : BitVec 64) (len : Nat) : Bool :=
  let mask := (intShl (len % 64) - 1#32).signExtend 64
  mask != 0#64 && (a &&& mask) != (b &&& mask)

def newEpoch (s : State) : State × Nat := ({ s with epochNow := s.epochNow + 1 }, s.epochNow)

def getEpoch (s : State) : Nat := s.epochNow

def calloc (s : State) : State × Nat :=
  ({ s with mem := Function.update s.mem s.next Node.calloc, next := s.next + 1 }, s.next)

-- Pointer walks carry fuel; `none` is a NULL dereference or a walk that does not end.
def deUpdateSubstr : Nat → State → Option Nat → Bool → Option State
  | _, s, none, _ => some s
  | 0, _, some _, _ => none
  | fuel + 1, s, some a, v01 => do
      let p ← (s.mem a).parent
      let len := (s.mem p).len
      let s := s.modify a fun n => { n with len := len + 1, bitstr := setbit n.bitstr len v01 }
      let s ← deUpdateSubstr fuel s ((s.mem a).sub false) false
      deUpdateSubstr fuel s ((s.mem a).sub true) true

def deUpdateHeight : Nat → State → Option Nat → Option State
  | _, s, none => some s
  | 0, _, some _ => none
  | fuel + 1, s, some a => do
      let c0 ← (s.mem a).sub false
      let c1 ← (s.mem a).sub true
      let h := max (s.mem c0).subheight (s.mem c1).subheight + 1
      if (s.mem a).subheight ≠ h then
        let s := s.modify a fun n => { n with subheight := h }
        deUpdateHeight fuel s (s.mem a).parent
      else
        some s

def decr (n : Nat) : Nat := if n = 0 then 2 ^ 64 - 1 else n - 1

def linkSurvivor (s : State) (a p other : Nat) : State :=
  let s := s.modify other fun n =>
    { n with parent := (s.mem p).parent, rise := (s.mem p).rise }
  let s := match (s.mem other).parent with
    | none => { s with teRoot := some other }
    | some g =>
      let b := getbit (s.mem p).bitstr ((s.mem p).len - 1)
      s.modify g fun n => { n with sub := Function.update n.sub b (some other) }
  let s := s.modify other fun n =>
    { n with len := (s.mem p).len, bitstr := (s.mem p).bitstr }
  s.modify a fun n => { n with parent := some other, viewname := none }

def sibling (s : State) (a p : Nat) : Option Nat :=
  if (s.mem p).sub false = some a then (s.mem p).sub true else (s.mem p).sub false

def removeLeaf (s : State) (a p : Nat) : Option State := do
  let other ← sibling s a p
  let s := linkSurvivor s a p other
  let fuel := s.next
  let s ← deUpdateSubstr fuel s ((s.mem other).sub false) false
  let s ← deUpdateSubstr fuel s ((s.mem other).sub true) true
  deUpdateHeight fuel s (s.mem other).parent

def teDelproc : Nat → State → Option Nat → Option State
  | _, s, none => some s
  | 0, _, some _ => none
  | fuel + 1, s, some a => do
      let parent := (s.mem a).parent
      let s := s.modify a fun n => { n with nproc := decr n.nproc }
      let s ← match parent with
        | some p => if (s.mem a).nproc = 0 then removeLeaf s a p else some s
        | none => some s
      teDelproc fuel s parent

def teNewproc : Nat → State → Option Nat → Option State
  | _, s, none => some s
  | 0, _, some _ => none
  | fuel + 1, s, some a =>
    let s := s.modify a fun n => { n with nproc := n.nproc + 1 }
    teNewproc fuel s (s.mem a).parent

def forkRoot (s : State) : State × Timestamp :=
  let (s, new) := calloc s
  let (s, e) := newEpoch s
  let s := s.modify new fun n => { n with rise := e, viewid := s.nextviewid }
  ({ s with nextviewid := s.nextviewid + 1, teRoot := some new }, ⟨e, some new⟩)

def linkFork (s : State) (old new par : Nat) : State :=
  let s := s.modify par fun n => { n with rise := (s.mem old).rise }
  let s := s.modify old fun n => { n with rise := (s.mem new).rise }
  let s := s.modify par fun n => { n with nproc := (s.mem old).nproc }
  let s := s.modify old fun n => { n with nproc := decr n.nproc }
  let s := s.modify new fun n => { n with nproc := 1, nref := 0 }
  let s := s.modify par fun n =>
    { n with nref := 2, sub := fun b => some (bif b then new else old), parent := (s.mem old).parent }
  let s := s.modify old fun n => { n with parent := some par }
  let s := s.modify new fun n => { n with parent := some par }
  let s := match (s.mem par).parent with
    | none => { s with teRoot := some par }
    | some g =>
      let b := getbit (s.mem old).bitstr ((s.mem old).len - 1)
      s.modify g fun n => { n with sub := Function.update n.sub b (some par) }
  let s := s.modify par fun n =>
    { n with len := (s.mem old).len, bitstr := (s.mem old).bitstr }
  let s := s.modify new fun n => { n with bitstr := (s.mem old).bitstr, subheight := 0 }
  s.modify par fun n => { n with subheight := (s.mem old).subheight + 1 }

def forkLeaf (s : State) (old : Nat) : Option (State × Timestamp) := do
  let (s, new) := calloc s
  let (s, e) := newEpoch s
  let s := s.modify new fun n => { n with rise := e, viewid := s.nextviewid }
  let s := { s with nextviewid := s.nextviewid + 1 }
  let (s, par) := calloc s
  let s := linkFork s old new par
  let s ← deUpdateSubstr s.next s (some old) false
  let s ← deUpdateSubstr s.next s (some new) true
  let s ← deUpdateHeight s.next s (s.mem par).parent
  some (s, ⟨e, some new⟩)

-- The assertion at the top of the source is the `none` of the first and last cases.
def tstNewfork (s : State) (oldTst : Option Timestamp) : Option (State × Timestamp) :=
  match oldTst with
  | none => if s.teRoot.isNone then some (forkRoot s) else none
  | some tst => do
      let old ← tst.treepoch
      if (s.mem old).nproc = 1 ∨ (s.mem old).subheight + (s.mem old).len ≥ maxDepth then
        some (s, tst)
      else if s.teRoot.isNone then
        some (forkRoot s)
      else
        forkLeaf s old

def tstNewproc (s : State) (parentTst : Timestamp) : Option (State × Timestamp) := do
  let s ← teNewproc s.next s parentTst.treepoch
  some (s, parentTst)

def tstDelproc (s : State) (tst : Timestamp) : Option State :=
  teDelproc s.next s tst.treepoch

def climbDead : Nat → (Nat → Node) → Nat → Option Nat
  | 0, _, _ => none
  | fuel + 1, m, a =>
    match (m a).parent with
    | some p => if (m a).nproc = 0 then climbDead fuel m p else some a
    | none => some a

def climbRise : Nat → (Nat → Node) → Nat → Nat → Option Nat
  | 0, _, _, _ => none
  | fuel + 1, m, e, a =>
    if e < (m a).rise then do
      let p ← (m a).parent
      climbRise fuel m e p
    else some a

-- The service timestamp comes back with the node the two loops have walked it to.
def tstMatchingepoch (s : State) (service : Timestamp) (process : Option Timestamp) :
    Option (Timestamp × Nat) := do
  let a ← service.treepoch
  let a ← climbDead (s.next + 1) s.mem a
  let a ← climbRise (s.next + 1) s.mem service.epoch a
  let service : Timestamp := { service with treepoch := some a }
  match process with
  | none => some (service, service.epoch)
  | some tst =>
    match tst.treepoch with
    | none => some (service, 0)
    | some b =>
      if (s.mem a).len > (s.mem b).len ∨
          diffbitstr (s.mem a).bitstr (s.mem b).bitstr (s.mem a).len then
        some (service, 0)
      else if service.epoch < tst.epoch then
        some (service, service.epoch)
      else
        some (service, 0)

def tstTimestamp (s : State) (process : Timestamp) : State × Timestamp :=
  let (s, e) := newEpoch s
  (s, ⟨e, process.treepoch⟩)

end ViewOS.Treepoch
