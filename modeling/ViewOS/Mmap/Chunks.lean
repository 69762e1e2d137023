import Mathlib.Algebra.Order.Ring.Nat

namespace ViewOS.Mmap

-- The width of unsigned long, the logarithm of the page size, and whether there is mmap2.
structure Arch where
  bits : Nat
  pageshift : Nat
  mmap2 : Bool
  deriving DecidableEq

def x86_64 : Arch := ⟨64, 12, false⟩

def i386 : Arch := ⟨32, 12, true⟩

def Arch.ulong (A : Arch) : Nat := 2 ^ A.bits

-- 1 << (sizeof (unsigned long) * 4 - 1): the shift is one of int, the result becomes unsigned long.
def Arch.lruBit (A : Arch) : Nat :=
  (((2 : Int) ^ (A.bits / 2 - 1)).bmod (2 ^ 32) % A.ulong).toNat

-- struct mmap_sf_entry. id stands for the address of the element.
structure Entry where
  id : Nat
  path : Option (List Char)
  epoch : Nat
  mtime : Int
  hte : Nat
  prot : Nat
  length : Nat
  pgoffset : Nat
  pgsize : Nat
  counter : Nat
  lastuse : Nat
  deriving DecidableEq

structure SecretFile where
  chunks : List Entry
  next : Nat
  deriving DecidableEq

def SecretFile.empty : SecretFile := ⟨[], 0⟩

structure Request where
  path : List Char
  epoch : Nat
  mtime : Int
  pgsize : Nat
  prot : Nat
  hte : Nat
  length : Nat
  deriving DecidableEq

-- The outer none: strcmp is called with a path that is NULL.
def mmapSfFind (A : Arch) (r : Request) : List Entry → Option (Option Nat × List Entry)
  | [] => some (none, [])
  | scan :: next =>
    let continued := (mmapSfFind A r next).map fun (found, next) => (found, scan :: next)
    if r.epoch = scan.epoch ∧ r.mtime = scan.mtime ∧ r.pgsize ≤ scan.pgsize then
      match scan.path with
      | none => none
      | some path =>
        if r.path = path then
          some (some scan.id, { scan with lastuse := scan.lastuse ||| A.lruBit } :: next)
        else continued
    else continued

def age (scan : Entry) : Entry :=
  if scan.path ≠ none ∧ scan.counter = 0 ∧ scan.lastuse = 0 then
    { scan with path := none, epoch := 0 }
  else
    { scan with lastuse := scan.lastuse >>> 1 }

def joinFree (A : Arch) (scan : Entry) : List Entry → List Entry
  | [] => [scan]
  | victim :: next =>
    if scan.path = none ∧ victim.path = none then
      joinFree A { scan with pgsize := (scan.pgsize + victim.pgsize) % A.ulong } next
    else scan :: joinFree A victim next

def mmapCompact (A : Arch) (chunks : List Entry) : List Entry :=
  match chunks.map age with
  | [] => []
  | scan :: next => joinFree A scan next

-- A new element: what malloc leaves in the other fields is not read before it is set.
def unused (id pgoffset pgsize : Nat) : Entry := ⟨id, none, 0, 0, 0, 0, 0, pgoffset, pgsize, 0, 0⟩

def take (r : Request) (scan : Entry) : Entry :=
  { scan with
    path := some r.path, prot := r.prot, hte := r.hte, length := r.length, epoch := r.epoch,
    mtime := r.mtime, counter := 0, lastuse := 0 }

-- The loop of mmap_sf_allocate: pre are the elements before scan. No result: out of fuel.
def allocate (A : Arch) (r : Request) :
    Nat → Nat → List Entry → Entry → List Entry → Option (SecretFile × Nat)
  | 0, _, _, _, _ => none
  | fuel + 1, next, pre, scan, post =>
    if scan.path = none ∧ r.pgsize ≤ scan.pgsize then
      if r.pgsize < scan.pgsize then
        let new := { unused next ((scan.pgoffset + r.pgsize) % A.ulong) (scan.pgsize - r.pgsize) with
          lastuse := A.lruBit }
        some (⟨pre ++ take r { scan with pgsize := r.pgsize } :: new :: post, next + 1⟩, scan.id)
      else some (⟨pre ++ take r scan :: post, next⟩, scan.id)
    else
      match post with
      | [] =>
        if scan.path = none then allocate A r fuel next pre { scan with pgsize := r.pgsize } []
        else
          let new := unused next ((scan.pgoffset + scan.pgsize) % A.ulong) r.pgsize
          allocate A r fuel (next + 1) (pre ++ [scan]) new []
      | scan' :: post => allocate A r fuel next (pre ++ [scan]) scan' post

def mmapSfAllocate (A : Arch) (fuel : Nat) (s : SecretFile) (r : Request) :
    Option (SecretFile × Nat) :=
  match mmapCompact A s.chunks with
  | [] => allocate A r fuel (s.next + 1) [] (unused s.next 0 r.pgsize) []
  | scan :: next => allocate A r fuel s.next [] scan next

def allocFuel (s : SecretFile) : Nat := s.chunks.length + 2

inductive Op where
  | find (r : Request)
  | allocate (r : Request)
  | count (id counter : Nat)
  deriving DecidableEq

def setCounter (id counter : Nat) (e : Entry) : Entry :=
  if e.id = id then { e with counter := counter } else e

def step (A : Arch) (s : SecretFile) : Op → Option SecretFile
  | .find r => (mmapSfFind A r s.chunks).map fun (_, chunks) => { s with chunks := chunks }
  | .allocate r => (mmapSfAllocate A (allocFuel s) s r).map Prod.fst
  | .count id counter => some { s with chunks := s.chunks.map (setCounter id counter) }

end ViewOS.Mmap
