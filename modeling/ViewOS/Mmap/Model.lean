import ViewOS.Mmap.Chunks

namespace ViewOS.Mmap

-- struct pcb_mmap_entry. Only addresses of pages are mapped, start is the number of the page; len is
-- in bytes.
structure MapEntry where
  start : Nat
  len : Nat
  sf : Nat
  deriving DecidableEq

-- A mapping that was asked for: the pages of the file before it, its length and the file's size.
structure Mapping where
  sf : Nat
  prot : Nat
  offset : Int
  length : Nat
  size : Nat
  deriving DecidableEq

-- What is left to the kernel between the two phases of a call: the page of the secret file is none
-- where the offset in bytes is not one of a page.
inductive Pending where
  | mmap (map : Mapping) (page : Option Nat)
  | munmap (start length : Nat)
  | mremap (start length newLength : Nat)
  deriving DecidableEq

-- vm is the address space, which threads share.
structure Proc where
  umMmap : List MapEntry
  vm : Nat
  pending : Option Pending
  deriving DecidableEq

structure Store where
  hte : Nat
  path : Option (List Char)
  length : Nat
  data : List UInt8
  deriving DecidableEq

-- The kernel's side is in vms: the pages of an address space that map a page of the secret file.
-- written and stores record the calls of add_mmap_secret (first page, bytes) and of
-- store_mmap_secret, maps the mappings of each chunk since it was last without references.
structure State where
  file : SecretFile
  vms : List (List (Nat × Nat))
  procs : List (Option Proc)
  written : List (Nat × Nat)
  stores : List Store
  maps : List Mapping
  deriving DecidableEq

def State.init : State := ⟨.empty, [[]], [some ⟨[], 0, none⟩], [], [], []⟩

def State.proc (s : State) (pid : Nat) : Option Proc := s.procs[pid]?.join

def State.vm (s : State) (vm : Nat) : List (Nat × Nat) := s.vms[vm]?.getD []

def State.put (s : State) (pid : Nat) (q : Proc) : State :=
  { s with procs := s.procs.set pid (some q) }

def State.putVm (s : State) (vm : Nat) (pages : List (Nat × Nat)) : State :=
  { s with vms := s.vms.set vm pages }

def SecretFile.chunk (f : SecretFile) (id : Nat) : Option Entry := f.chunks.find? (·.id = id)

def SecretFile.setCounter (f : SecretFile) (id counter : Nat) : SecretFile :=
  { f with chunks := f.chunks.map (Mmap.setCounter id counter) }

def Arch.pagesize (A : Arch) : Nat := 2 ^ A.pageshift

-- stat is the answer of the file's lstat (mtime and size), loaded the bytes that add_mmap_secret
-- copies, none where it cannot open the file.
structure MmapArgs where
  path : List Char
  nestepoch : Nat
  hte : Nat
  stat : Option (Int × Nat)
  loaded : Option Nat
  prot : Nat
  length : Nat
  offset : Int
  isMmap2 : Bool
  deriving DecidableEq

def MmapArgs.pageOffset (A : Arch) (a : MmapArgs) : Int :=
  if a.isMmap2 then a.offset else a.offset / A.pagesize

def MmapArgs.pgsize (A : Arch) (a : MmapArgs) (size : Nat) : Nat :=
  let pgsize := ((a.pageOffset A + (a.length / A.pagesize : Nat) + 1) % A.ulong).toNat
  if size / A.pagesize + 1 > pgsize then (size / A.pagesize + 1) % A.ulong else pgsize

-- The page that the kernel finds in the last argument. Without mmap2 it is in bytes, and what it is
-- multiplied with is the number of pages of the request.
def kernelPage (A : Arch) (pgoffset : Nat) (offset : Int) (pgsize : Nat) : Option Nat :=
  if A.mmap2 then some ((pgoffset + offset) % A.ulong).toNat
  else
    let bytes := ((pgoffset + offset) * pgsize % A.ulong).toNat
    if bytes % A.pagesize = 0 then some (bytes / A.pagesize) else none

def enter (A : Arch) (s : State) (pid : Nat) (q : Proc) (a : MmapArgs) (r : Request) (size id : Nat) :
    Option State := do
  let e ← s.file.chunk id
  let page := kernelPage A e.pgoffset (a.pageOffset A) r.pgsize
  let map : Mapping := ⟨id, a.prot, a.pageOffset A, a.length, size⟩
  let q := { q with
    umMmap := ⟨0, a.length, id⟩ :: q.umMmap, pending := some (.mmap map page) }
  some { s.put pid q with file := s.file.setCounter id (e.counter + 1) }

def wrapInMmap (A : Arch) (s : State) (pid : Nat) (q : Proc) (a : MmapArgs) : Option State :=
  match a.stat with
  | none => some s
  | some (mtime, size) => do
      let r : Request := ⟨a.path, a.nestepoch, mtime, a.pgsize A size, a.prot, a.hte, a.length⟩
      let (found, chunks) ← mmapSfFind A r s.file.chunks
      let s := { s with file := { s.file with chunks := chunks } }
      match found with
      | some id => enter A s pid q a r size id
      | none =>
        let (file, id) ← mmapSfAllocate A (allocFuel s.file) s.file r
        let e ← file.chunk id
        let s := { s with file := file }
        match a.loaded with
        | none => some s
        | some n => enter A { s with written := s.written ++ [(e.pgoffset, n)] } pid q a r size id

-- The loop of store_mmap_secret: length bytes from where the file is, bufsiz at a time.
def copyOut (bufsiz : Nat) : Nat → List UInt8 → Nat → List UInt8
  | 0, _, _ => []
  | fuel + 1, secret, length =>
    if length = 0 then []
    else
      let buf := secret.take (min length bufsiz)
      if buf = [] then [] else buf ++ copyOut bufsiz fuel (secret.drop buf.length) (length - buf.length)

def bufsiz : Nat := 8192

def storeMmapSecret (A : Arch) (e : Entry) (secret : List UInt8) : Store :=
  ⟨e.hte, e.path, e.length,
    copyOut bufsiz e.length (secret.drop (e.pgoffset * A.pagesize)) e.length⟩

def protWrite : Nat := 2

def Entry.writable (e : Entry) : Bool := e.prot &&& protWrite != 0

def mmapSfDel (A : Arch) (s : State) (sf : Nat) (error : Bool) (secret : List UInt8) : Option State := do
  let e ← s.file.chunk sf
  let s := { s with file := s.file.setCounter sf (e.counter - 1) }
  if !error ∧ e.counter - 1 = 0 ∧ e.writable then
    some { s with stores := s.stores ++ [storeMmapSecret A e secret] }
  else some s

def pcbMmapDeletehead (A : Arch) (s : State) (pid : Nat) (q : Proc) (error : Bool)
    (secret : List UInt8) : Option State :=
  match q.umMmap with
  | [] => some (s.put pid q)
  | this :: next => do
      let s ← mmapSfDel A s this.sf error secret
      some (s.put pid { q with umMmap := next })

-- pre are the elements before the ones that are left to scan.
def sfsearchNMovetohead (start len : Nat) : List MapEntry → List MapEntry → Option (List MapEntry)
  | _, [] => none
  | pre, this :: next =>
    if this.start = start ∧ this.len = len then some (this :: (pre ++ next))
    else sfsearchNMovetohead start len (pre ++ [this]) next

def umMmapRecdelproc : List MapEntry → SecretFile → Option SecretFile
  | [], f => some f
  | head :: next, f => do
      let e ← f.chunk head.sf
      umMmapRecdelproc next (f.setCounter head.sf (e.counter - 1))

-- The kernel: what mmap, munmap and mremap do to an address space.
def pages (A : Arch) (len : Nat) : Nat := (len + A.pagesize - 1) / A.pagesize

def unmapPages (vm : List (Nat × Nat)) (start n : Nat) : List (Nat × Nat) :=
  vm.filter fun m => ¬(start ≤ m.1 ∧ m.1 < start + n)

def mapPages (vm : List (Nat × Nat)) (start n page : Nat) : List (Nat × Nat) :=
  (List.range n).map (fun i => (start + i, page + i)) ++ unmapPages vm start n

def secretAt (vm : List (Nat × Nat)) (page : Nat) : Option Nat :=
  (vm.find? (·.1 = page)).map Prod.snd

-- mremap works on a part of one mapping only.
def oneMapping (vm : List (Nat × Nat)) (start n : Nat) : Bool :=
  (List.range n).all fun i => secretAt vm (start + i) = (secretAt vm start).map (· + i)

def remapPages (vm : List (Nat × Nat)) (start n start' n' : Nat) : List (Nat × Nat) :=
  let rest := unmapPages vm start n
  match secretAt vm start with
  | some page => mapPages rest start' n' page
  | none => unmapPages rest start' n'

-- Where the entry is not found the call is the kernel's alone, rv is its answer.
def wrapInMunmap (A : Arch) (s : State) (pid : Nat) (q : Proc) (start length : Nat) (ok : Bool) :
    Option State :=
  match sfsearchNMovetohead start length [] q.umMmap with
  | some l => some (s.put pid { q with umMmap := l, pending := some (.munmap start length) })
  | none =>
    if ok then some (s.putVm q.vm (unmapPages (s.vm q.vm) start (pages A length))) else some s

def remapped (A : Arch) (s : State) (q : Proc) (start length newLength start' : Nat) : Option State :=
  if oneMapping (s.vm q.vm) start (pages A length) then
    some (s.putVm q.vm
      (remapPages (s.vm q.vm) start (pages A length) start' (pages A newLength)))
  else none

def wrapInMremap (A : Arch) (s : State) (pid : Nat) (q : Proc) (start length newLength : Nat)
    (rv : Option Nat) : Option State :=
  match sfsearchNMovetohead start length [] q.umMmap with
  | some l => some (s.put pid { q with umMmap := l, pending := some (.mremap start length newLength) })
  | none =>
    match rv with
    | some rv => remapped A s q start length newLength rv
    | none => some s

-- rv is the page that the kernel gives, none is -1.
def wrapOutMmap (A : Arch) (s : State) (pid : Nat) (q : Proc) (map : Mapping) (page rv : Option Nat)
    (secret : List UInt8) : Option State :=
  match page, rv with
  | some page, some rv =>
    let l := match q.umMmap with
      | [] => []
      | this :: next => { this with start := rv } :: next
    let vm := mapPages (s.vm q.vm) rv (pages A map.length) page
    some { (s.putVm q.vm vm).put pid { q with umMmap := l, pending := none } with
      maps := s.maps ++ [map] }
  | _, _ => pcbMmapDeletehead A s pid { q with pending := none } true secret

def wrapOutMunmap (A : Arch) (s : State) (pid : Nat) (q : Proc) (start length : Nat)
    (rv : Option Nat) (secret : List UInt8) : Option State :=
  match rv with
  | some _ =>
    let vm := unmapPages (s.vm q.vm) start (pages A length)
    pcbMmapDeletehead A (s.putVm q.vm vm) pid { q with pending := none } false secret
  | none => some (s.put pid { q with pending := none })

def wrapOutMremap (A : Arch) (s : State) (pid : Nat) (q : Proc) (start length newLength : Nat)
    (rv : Option Nat) : Option State :=
  match rv with
  | some rv => do
      let l := match q.umMmap with
        | [] => []
        | this :: next => { this with start := rv, len := newLength } :: next
      let s ← remapped A s q start length newLength rv
      some (s.put pid { q with umMmap := l, pending := none })
  | none => some (s.put pid { q with pending := none })

-- um_mmap_addproc: the child has no entries. Without CLONE_VM it has a copy of the address space.
def clone (s : State) (q : Proc) (cloneVm : Bool) : State :=
  if cloneVm then { s with procs := s.procs ++ [some ⟨[], q.vm, none⟩] }
  else
    { s with vms := s.vms ++ [s.vm q.vm], procs := s.procs ++ [some ⟨[], s.vms.length, none⟩] }

def exit (s : State) (pid : Nat) (q : Proc) : Option State := do
  let file ← umMmapRecdelproc q.umMmap s.file
  some { s with file := file, procs := s.procs.set pid none }

inductive Call where
  | mmap (a : MmapArgs)
  | munmap (start length : Nat) (ok : Bool)
  | mremap (start length newLength : Nat) (rv : Option Nat)
  | out (rv : Option Nat) (secret : List UInt8)
  | clone (cloneVm : Bool)
  | exit
  deriving DecidableEq

structure SysOp where
  pid : Nat
  call : Call
  deriving DecidableEq

def wrapIn (A : Arch) (s : State) (pid : Nat) (q : Proc) : Call → Option State
  | .mmap a => wrapInMmap A s pid q a
  | .munmap start length ok => wrapInMunmap A s pid q start length ok
  | .mremap start length newLength rv => wrapInMremap A s pid q start length newLength rv
  | .clone cloneVm => some (clone s q cloneVm)
  | .exit => exit s pid q
  | .out _ _ => none

def wrapOut (A : Arch) (s : State) (pid : Nat) (q : Proc) (rv : Option Nat) (secret : List UInt8) :
    Pending → Option State
  | .mmap map page => wrapOutMmap A s pid q map page rv secret
  | .munmap start length => wrapOutMunmap A s pid q start length rv secret
  | .mremap start length newLength => wrapOutMremap A s pid q start length newLength rv

def wrap (A : Arch) (s : State) (pid : Nat) (q : Proc) (c : Call) : Option State :=
  match q.pending, c with
  | some pending, .out rv secret => wrapOut A s pid q rv secret pending
  | some _, .exit => exit s pid q
  | some _, _ => none
  | none, c => wrapIn A s pid q c

def State.forget (s : State) : State :=
  { s with maps := s.maps.filter fun m => (s.file.chunk m.sf).any (0 < ·.counter) }

def perform (A : Arch) (s : State) (o : SysOp) : Option State := do
  let q ← s.proc o.pid
  let s ← wrap A s o.pid q o.call
  some s.forget

end ViewOS.Mmap
