import ViewOS.Hashtab.Model

namespace ViewOS.Hashtab
open Treepoch

def slash : Byte := 47

def digit0 : Byte := 48

def digit9 : Byte := 57

def isDigit (c : Byte) : Bool := !BitVec.slt digit9 c && !BitVec.slt c digit0

def digitValue (c : Byte) : BitVec 32 := c.signExtend 32 - digit0.signExtend 32

-- A pointer into a string is the rest of the string: the end of the list is the final NUL.
def deref (objc : List Byte) : Byte := objc.headD 0

def trailnumLoop (nonzero : BitVec 32) : List Byte → BitVec 32
  | [] => nonzero
  | c :: s =>
    if c = 0 then nonzero
    else if isDigit c then trailnumLoop (nonzero ||| digitValue c) s
    else 0

def trailnum : List Byte → BitVec 32
  | [] => 0
  | c :: s => if isDigit c then trailnumLoop (digitValue c) s else 0

def sizeofInt : Nat := 4

def htScanStop (type : CheckType) (objc : List Byte) (len : Nat) (exact : Bool) : Bool :=
  match type with
  | .path => deref objc == 0 || (!exact && (deref objc == slash || trailnum objc != 0))
  | .binfmt => deref objc == 0 || (!exact && deref objc == slash)
  | .socket | .chrdevice | .blkdevice | .sc => len % sizeofInt == 0
  | .fsalias => deref objc == 0
  | .module => if exact then deref objc == 0 else true

def htScanTerminate (type : CheckType) (objc : List Byte) (len objlen : Nat) : Bool :=
  match type with
  | .path | .binfmt | .fsalias | .module => deref objc == 0
  | .socket | .chrdevice | .blkdevice | .sc => len == objlen

structure Carrot where
  elem : Nat
  time : Nat
  deriving DecidableEq, Repr

def htElemHasExceptions (ht : HtElem) : Bool := ht.confirmfun.isSome

def carrotInsert (t : Table) : List Carrot → Nat → Nat → List Carrot
  | [], elem, time => [⟨elem, time⟩]
  | head :: rest, elem, time =>
    if head.time < time then
      if htElemHasExceptions (t.elem elem) then ⟨elem, time⟩ :: head :: rest
      else [⟨elem, time⟩]
    else if htElemHasExceptions (t.elem head.elem) then
      head :: carrotInsert t rest elem time
    else head :: rest

def carrotDelete : List Carrot → Option Nat → List Carrot
  | [], _ => []
  | head :: rest, elem =>
    if some head.elem = elem then rest else head :: carrotDelete rest elem

structure Query where
  te : State
  type : CheckType
  obj : List Byte
  objlen : Nat
  tst : Timestamp
  exact : Bool
  confirm : Nat → Bool

def scanTest (q : Query) (objc : List Byte) (sum : BitVec 64) (len : Nat) (ht : HtElem) : Bool :=
  q.type == ht.type && sum == ht.hashsum && len ≤ ht.objlen && q.obj.take len == ht.obj.take len &&
    (ht.trailingnumbers || trailnum objc == 0) && ht.tst.epoch < q.tst.epoch &&
    0 < matchingepoch q.te (some q.tst) ht.tst && !ht.invalid

def scanElem (t : Table) (q : Query) (a : Nat) (carh : List Carrot) : List Carrot :=
  if (t.elem a).confirmfun = some .negativeMount then carrotDelete carh (t.elem a).privateData
  else carrotInsert t carh a (matchingepoch q.te (some q.tst) (t.elem a).tst)

def scanHash (t : Table) (q : Query) (test : HtElem → Bool) :
    Nat → Option Nat → List Carrot → Option (List Carrot)
  | _, none, carh => some carh
  | 0, some _, _ => none
  | fuel + 1, some a, carh =>
    let carh := if test (t.elem a) then scanElem t q a carh else carh
    scanHash t q test fuel (t.nexthash a) carh

def scanObj (t : Table) (q : Query) :
    Nat → List Byte → Nat → BitVec 64 → List Carrot → Option (List Carrot)
  | 0, _, _, _, _ => none
  | fuel + 1, objc, len, sum, carh =>
    let next := scanObj t q fuel objc.tail (len + 1) (hashadd sum (deref objc))
    if htScanStop q.type objc len q.exact then do
      let ht := if len ≠ 0 then t.hash (.hash (hashmod sum)) else t.hash (.hash0 q.type)
      let carh ← scanHash t q (scanTest q objc sum len) t.live.length ht carh
      if htScanTerminate q.type objc len q.objlen then some carh else next carh
    else next carh

def confirmed (t : Table) (q : Query) (a : Nat) : Bool :=
  (t.elem a).confirmfun.isNone || q.confirm a

def htTabInternalSearch (t : Table) (q : Query) : Option (Option Nat) := do
  let fuel := max q.obj.length q.objlen + 1
  let carh ← scanObj t q fuel q.obj 0 (BitVec.ofNat 64 q.type.code) []
  some ((carh.find? fun c => confirmed t q c.elem).map Carrot.elem)

def pathQuery (te : State) (p : List Byte) (tst : Timestamp) (confirm : Nat → Bool) : Query :=
  ⟨te, .path, p, 0, tst, false, confirm⟩

def htTabPathsearch (t : Table) (te : State) (p : List Byte) (tst : Timestamp)
    (confirm : Nat → Bool) : Option (Option Nat) :=
  htTabInternalSearch t (pathQuery te p tst confirm)

end ViewOS.Hashtab
