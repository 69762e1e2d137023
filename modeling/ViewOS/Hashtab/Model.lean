import ViewOS.Lib.HashChain
import ViewOS.Treepoch.Model

namespace ViewOS.Hashtab
open HashChain Treepoch

abbrev Byte := BitVec 8

inductive CheckType where
  | module | path | socket | chrdevice | blkdevice | sc | binfmt | fsalias
  deriving DecidableEq, Repr

def CheckType.code : CheckType → Nat
  | .module => 0
  | .path => 1
  | .socket => 2
  | .chrdevice => 3
  | .blkdevice => 4
  | .sc => 5
  | .binfmt => 6
  | .fsalias => 7

inductive Confirmfun where
  | negativeMount
  | module (id : Nat)
  deriving DecidableEq, Repr

inductive HashHead where
  | hash (i : Nat)
  | hash0 (type : CheckType)
  deriving DecidableEq, Repr

structure HtElem where
  obj : List Byte
  tst : Timestamp
  type : CheckType
  trailingnumbers : Bool
  invalid : Bool
  privateData : Option Nat
  hashsum : BitVec 64
  confirmfun : Option Confirmfun

def HtElem.objlen (ht : HtElem) : Nat := ht.obj.length

-- The link fields of struct ht_elem are one map each, indexed by the element's address.
structure Table where
  elem : Nat → HtElem
  prev : Nat → Nat
  next : Nat → Nat
  pprevhash : Nat → Ref HashHead Nat
  nexthash : Nat → Option Nat
  hash : HashHead → Option Nat
  htHead : CheckType → Option Nat
  live : List Nat
  epochNow : Nat

def Table.empty : Table :=
  ⟨fun _ => ⟨[], ⟨0, none⟩, .module, false, false, none, 0, none⟩,
    id, id, fun _ => .head (.hash 0), fun _ => none, fun _ => none, fun _ => none, [], 2⟩

def Table.setPrev (t : Table) (a v : Nat) : Table :=
  { t with prev := Function.update t.prev a v }

def Table.setNext (t : Table) (a v : Nat) : Table :=
  { t with next := Function.update t.next a v }

def Table.setPprevhash (t : Table) (a : Nat) (r : Ref HashHead Nat) : Table :=
  { t with pprevhash := Function.update t.pprevhash a r }

def Table.setNexthash (t : Table) (a : Nat) (v : Option Nat) : Table :=
  { t with nexthash := Function.update t.nexthash a v }

def Table.setHash (t : Table) (h : HashHead) (v : Option Nat) : Table :=
  { t with hash := Function.update t.hash h v }

def Table.setHead (t : Table) (type : CheckType) (v : Option Nat) : Table :=
  { t with htHead := Function.update t.htHead type v }

def Table.store (t : Table) (r : Ref HashHead Nat) (v : Option Nat) : Table :=
  match r with
  | .head h => t.setHash h v
  | .link a => t.setNexthash a v

def mnttabHashSize : Nat := 512

def hashadd (prevhash : BitVec 64) (c : Byte) : BitVec 64 :=
  prevhash ^^^ ((prevhash <<< 5) + prevhash.sshiftRight 2 + c.signExtend 64)

def hashmod (hashsum : BitVec 64) : Nat :=
  (hashsum &&& BitVec.ofNat 64 (mnttabHashSize - 1)).toNat

def hashsum (type : CheckType) (obj : List Byte) : BitVec 64 :=
  obj.foldl hashadd (BitVec.ofNat 64 type.code)

def hashhead (type : CheckType) (obj : List Byte) : HashHead :=
  if obj.length = 0 then .hash0 type else .hash (hashmod (hashsum type obj))

def linkType (t : Table) (type : CheckType) (new : Nat) : Table :=
  match t.htHead type with
  | some h =>
    let t := t.setNext new (t.next h)
    let t := t.setPrev new h
    let t := t.setPrev (t.next new) new
    let t := t.setNext (t.prev new) new
    t.setHead type (some new)
  | none =>
    let t := t.setPrev new new
    let t := t.setNext new new
    t.setHead type (some new)

def linkHash (t : Table) (hashhead : HashHead) (new : Nat) : Table :=
  let t := match t.hash hashhead with
    | some b => t.setPprevhash b (.link new)
    | none => t
  let t := t.setNexthash new (t.hash hashhead)
  let t := t.setPprevhash new (.head hashhead)
  t.setHash hashhead (some new)

structure Mount where
  type : CheckType
  obj : List Byte
  trailingnumbers : Bool
  confirmfun : Option Confirmfun
  privateData : Option Nat

def fillElem (t : Table) (new : Nat) (m : Mount) (treepoch : Option Nat) : Table :=
  { t with
    elem := Function.update t.elem new
      { obj := m.obj
        tst := ⟨t.epochNow, treepoch⟩
        type := m.type
        trailingnumbers := m.trailingnumbers
        invalid := false
        privateData := m.privateData
        hashsum := hashsum m.type m.obj
        confirmfun := m.confirmfun }
    live := new :: t.live
    epochNow := t.epochNow + 1 }

def internalHtTabAdd (t : Table) (new : Nat) (m : Mount) (treepoch : Option Nat) : Table :=
  let t := fillElem t new m treepoch
  let t := linkType t m.type new
  linkHash t (hashhead m.type m.obj) new

def unlinkType (t : Table) (ht : Nat) : Table :=
  let type := (t.elem ht).type
  let t := if t.htHead type = some ht then
      if t.next ht = ht then t.setHead type none else t.setHead type (some (t.prev ht))
    else t
  let t := t.setNext (t.prev ht) (t.next ht)
  t.setPrev (t.next ht) (t.prev ht)

def unlinkHash (t : Table) (ht : Nat) : Table :=
  let t := t.store (t.pprevhash ht) (t.nexthash ht)
  match t.nexthash ht with
  | some b => t.setPprevhash b (t.pprevhash ht)
  | none => t

def htTabDelLocked (t : Table) (ht : Nat) : Table :=
  let t := unlinkHash (unlinkType t ht) ht
  { t with live := t.live.erase ht }

def htTabInvalidate (t : Table) (ht : Nat) : Table :=
  { t with elem := Function.update t.elem ht { t.elem ht with invalid := true } }

def htRenew (t : Table) (ht : Nat) (treepoch : Option Nat) : Table :=
  { t with
    elem := Function.update t.elem ht { t.elem ht with tst := ⟨t.epochNow, treepoch⟩ }
    epochNow := t.epochNow + 1 }

-- A NULL dereference while the service timestamp is walked counts as not visible.
def matchingepoch (te : State) (process : Option Timestamp) (service : Timestamp) : Nat :=
  ((tstMatchingepoch te service process).map Prod.snd).getD 0

def scanType (t : Table) (visit : Nat → Bool) (head : Nat) : Nat → Nat → Option (List Nat)
  | 0, _ => none
  | fuel + 1, scanht => do
      let scanht := t.next scanht
      let rest ← if scanht ≠ head then scanType t visit head fuel scanht else some []
      some (if visit scanht then scanht :: rest else rest)

def forallHtTabDo (t : Table) (te : State) (process : Option Timestamp) (type : CheckType) :
    Option (List Nat) :=
  match t.htHead type with
  | none => some []
  | some h =>
    let visit := fun a => !(t.elem a).invalid && 0 < matchingepoch te process (t.elem a).tst
    scanType t visit h (t.live.length + 1) h

inductive Op where
  | add (new : Nat) (m : Mount) (treepoch : Option Nat)
  | del (ht : Nat)
  | invalidate (ht : Nat)
  | renew (ht : Nat) (treepoch : Option Nat)

def Enabled (t : Table) : Op → Prop
  | .add new _ _ => new ∉ t.live
  | .del ht => ht ∈ t.live
  | .invalidate ht => ht ∈ t.live
  | .renew ht _ => ht ∈ t.live

instance (t : Table) : (o : Op) → Decidable (Enabled t o)
  | .add new _ _ => inferInstanceAs (Decidable (new ∉ t.live))
  | .del ht => inferInstanceAs (Decidable (ht ∈ t.live))
  | .invalidate ht => inferInstanceAs (Decidable (ht ∈ t.live))
  | .renew ht _ => inferInstanceAs (Decidable (ht ∈ t.live))

def perform (t : Table) : Op → Table
  | .add new m treepoch => internalHtTabAdd t new m treepoch
  | .del ht => htTabDelLocked t ht
  | .invalidate ht => htTabInvalidate t ht
  | .renew ht treepoch => htRenew t ht treepoch

def step (t : Table) (o : Op) : Option Table :=
  if Enabled t o then some (perform t o) else none

end ViewOS.Hashtab
