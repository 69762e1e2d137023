import Mathlib.Tactic.Common

namespace ViewOS.Ghosthash

abbrev Byte := BitVec 8

abbrev Hash := BitVec 32

def ghSize : Nat := 64

def ghTerminate : Nat := 255

def ghDummy : Nat := 254

def enoent : Int := 2

def enomem : Int := 12

abbrev Cell := Nat × Hash

def dummyHash : Hash := -1

def hashadd (prevhash : Hash) (c : Byte) : Hash :=
  prevhash ^^^ ((prevhash <<< 5) + prevhash.sshiftRight 2 + c.signExtend 32)

def hashsum (sum : Hash) (path : Nat → Byte) : Nat → Hash
  | 0 => sum
  | len + 1 => hashadd (hashsum sum path len) (path len)

def ghostmounts : List Cell := (ghTerminate, 0) :: List.replicate (ghSize - 1) (0, 0)

-- scanlen is a short and tmplen an unsigned short.
def gh2array (scanlen : Int) : List Cell → List (Nat × Hash)
  | [] => []
  | c :: gh =>
    if c.1 = ghTerminate then []
    else
      let scanlen := (scanlen + c.1).bmod 65536
      if c.1 = ghDummy then gh2array scanlen gh
      else ((scanlen % 65536).toNat, c.2) :: gh2array scanlen gh

def needed (prev : Int) : List (Nat × Hash) → Int
  | [] => 0
  | x :: tmp => ((x.1 : Int) - prev).tdiv ghDummy + 1 + needed x.1 tmp

-- None is a write past the end of the table.
def fill (scanlen : Int) : List (Nat × Hash) → List Cell → Option (List Cell)
  | [], gh => some gh
  | _ :: _, [] => none
  | x :: tmp, _ :: gh =>
    if (ghDummy : Int) ≤ x.1 - scanlen then
      (fill ((scanlen + ghDummy).bmod 65536) (x :: tmp) gh).map ((ghDummy, dummyHash) :: ·)
    else
      (fill ((x.1 : Int).bmod 65536) tmp gh).map ((((x.1 - scanlen) % 256).toNat, x.2) :: ·)

def array2gh (tmp : List (Nat × Hash)) (gh : List Cell) : Option (Int × List Cell) := do
  let ngh := needed 0 tmp
  if ghSize < ngh then some (-enomem, gh)
  else do
    let gh ← fill 0 tmp gh
    if ngh < 0 then none
    else if ngh < ghSize then some (ngh, gh.modify ngh.toNat fun c => (ghTerminate, c.2))
    else some (ngh, gh)

def ghosthashAdd (gh : List Cell) (path : Nat → Byte) (len : Int) : Option (Int × List Cell) :=
  let tmp := gh2array 0 gh
  if ghSize ≤ tmp.length then some (-enomem, gh)
  else
    let before := fun x : Nat × Hash => decide ((x.1 : Int) < len)
    let new := ((len % 65536).toNat, hashsum 0 path len.toNat)
    array2gh (tmp.takeWhile before ++ new :: tmp.dropWhile before) gh

def ghosthashDel (gh : List Cell) (path : Nat → Byte) (len : Int) : Option (Int × List Cell) :=
  let hash := hashsum 0 path len.toNat
  let tmp := gh2array 0 gh
  let before := fun x : Nat × Hash => decide ((x.1 : Int) ≤ len ∧ hash ≠ x.2)
  match tmp.dropWhile before with
  | [] => some (-enoent, gh)
  | x :: after =>
    if len = x.1 ∧ hash = x.2 then array2gh (tmp.takeWhile before ++ after) gh
    else some (-enoent, gh)

-- A path in the memory of the kernel: its bytes, the NUL and what comes after it.
structure Path where
  bytes : List Byte
  nonzero : 0 ∉ bytes
  after : Nat → Byte

def Path.strlen (p : Path) : Nat := p.bytes.length

def Path.mem (p : Path) (i : Nat) : Byte := (p.bytes ++ [0]).getD i (p.after (i - (p.strlen + 1)))

-- The value that is returned, the number of bytes that were hashed and the element that matched.
structure Match where
  rv : Int
  hashed : Nat
  hit : Option Cell
  deriving DecidableEq

def matchFrom (path : Nat → Byte) (hashed : Nat) (len : BitVec 16) (scanhash : Hash) :
    List Cell → Match
  | [] => ⟨-enoent, hashed, none⟩
  | c :: gh =>
    if c.1 < ghTerminate ∧ 0 ≤ len.toNat then
      let scanhash := if 0 < c.1 then hashsum scanhash (fun i => path (hashed + i)) c.1 else scanhash
      let len := if 0 < c.1 then len - BitVec.ofNat 16 c.1 else len
      let hashed := if 0 < c.1 then hashed + c.1 else hashed
      if 0 ≤ len.toNat ∧ scanhash = c.2 then ⟨len.toNat, hashed, some c⟩
      else matchFrom path hashed len scanhash gh
    else ⟨-enoent, hashed, none⟩

def ghosthashMatch (gh : List Cell) (path : Path) : Match :=
  matchFrom path.mem 0 (BitVec.ofNat 16 path.strlen) 0 gh

end ViewOS.Ghosthash
