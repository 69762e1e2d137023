import Mathlib.Tactic.Common

namespace ViewOS.Lfd

def shrtMax : Int := 32767

def short (n : Int) : Int := n.bmod 65536

def olfdStep : Nat := 8

def umMmapSecret : Nat := 1023

structure LfdTable where
  count : Int
  hte : Option Nat
  sfd : Int
  deriving DecidableEq, Repr

-- The unused cells of lfd_tab hold the index of the next unused one in place of a pointer.
inductive Cell where
  | live (e : LfdTable)
  | free (next : Option Nat)
  deriving DecidableEq, Repr

-- closes records the calls of the modules' close method.
structure Lfds where
  tab : Nat → Cell
  tabmax : Nat
  tabfree : Option Nat
  htCount : Nat → Int
  closes : List (Nat × Int)

def Lfds.empty : Lfds := ⟨fun _ => .free none, 0, none, fun _ => 0, []⟩

-- No entry: the assertion that lfd_tab holds the lfd fails.
def Lfds.entry (t : Lfds) (lfd : Nat) : Option LfdTable :=
  match t.tab lfd with
  | .live e => some e
  | .free _ => none

def Lfds.store (t : Lfds) (lfd : Nat) (c : Cell) : Lfds :=
  { t with tab := Function.update t.tab lfd c }

def htCountAdd (t : Lfds) (hte : Option Nat) (n : Int) : Lfds :=
  match hte with
  | some h => { t with htCount := Function.update t.htCount h (t.htCount h + n) }
  | none => t

def lfdAlloc (t : Lfds) : Option (Lfds × Nat) :=
  match t.tabfree with
  | some rv =>
    match t.tab rv with
    | .free next => some ({ t with tabfree := next }, rv)
    | .live _ => none
  | none => some ({ t with tabmax := t.tabmax + 1 }, t.tabmax)

def lfdFree (t : Lfds) (lfd : Nat) : Lfds :=
  { t.store lfd (.free t.tabfree) with tabfree := some lfd }

def lfdOpen (t : Lfds) (hte : Option Nat) (sfd : Int) : Option (Lfds × Nat) := do
  let (t, lfd) ← lfdAlloc t
  some ((htCountAdd t hte 1).store lfd (.live ⟨1, hte, sfd⟩), lfd)

def moduleClose (t : Lfds) (hte : Option Nat) (sfd : Int) : Lfds :=
  match hte with
  | some h => if 0 ≤ sfd then { t with closes := t.closes ++ [(h, sfd)] } else t
  | none => t

-- An lfd is -1 or an index: none is -1.
def lfdClose (t : Lfds) : Option Nat → Option Lfds
  | none => some t
  | some lfd => do
      let e ← t.entry lfd
      let e := { e with count := short (e.count - 1) }
      let t := t.store lfd (.live e)
      if e.count = 0 then
        some (lfdFree (htCountAdd (moduleClose t e.hte e.sfd) e.hte (-1)) lfd)
      else
        some t

def lfdDup (t : Lfds) : Option Nat → Option Lfds
  | none => some t
  | some lfd => do
      let e ← t.entry lfd
      some (t.store lfd (.live { e with count := short (e.count + 1) }))

def lfdNullsfd (t : Lfds) (lfd : Nat) : Option Lfds := do
  let e ← t.entry lfd
  some (t.store lfd (.live { e with sfd := -1 }))

def lfdGetht (t : Lfds) (lfd : Nat) : Option (Option Nat) := (t.entry lfd).map LfdTable.hte

structure PcbFile where
  count : Int
  lfdlist : List (Option Nat)
  deriving DecidableEq, Repr

-- A descriptor is none when it is negative.
def fd2lfd (p : PcbFile) (fd : Option Nat) : Option Nat := fd.bind fun fd => p.lfdlist[fd]?.join

def grow (p : PcbFile) (fd : Nat) : List (Option Nat) :=
  if p.lfdlist.length ≤ fd then
    let nolfd := (fd + olfdStep) / olfdStep * olfdStep
    p.lfdlist ++ List.replicate (nolfd - p.lfdlist.length) none
  else p.lfdlist

def lfdRegister (p : PcbFile) (fd lfd : Nat) : PcbFile :=
  { p with lfdlist := (grow p fd).set fd (some lfd) }

def lfdDeregisterNClose (t : Lfds) (p : PcbFile) (fd : Nat) : Option (Lfds × PcbFile) :=
  match fd2lfd p (some fd) with
  | none => some (t, p)
  | some lfd => do
      let t ← lfdClose t (some lfd)
      some (t, { p with lfdlist := p.lfdlist.set fd none })

inductive Pending where
  | opening (lfd : Nat)
  | closing (fd : Nat)
  | duping (oldfd lfd : Option Nat)
  | dupfd (lfd : Option Nat)
  deriving DecidableEq, Repr

def Pending.held : Pending → Option Nat
  | .opening lfd => some lfd
  | .closing _ => none
  | .duping _ lfd => lfd
  | .dupfd lfd => lfd

structure Pcb where
  fds : Nat
  pending : Option Pending
  deriving DecidableEq, Repr

def Pcb.held (q : Pcb) : Option Nat := q.pending.bind Pending.held

structure State where
  lfds : Lfds
  files : List (Option PcbFile)
  procs : List (Option Pcb)

def State.init : State := ⟨.empty, [some ⟨1, []⟩], [some ⟨0, none⟩]⟩

def State.proc (s : State) (pid : Nat) : Option Pcb := s.procs[pid]?.join

def State.file (s : State) (fds : Nat) : Option PcbFile := s.files[fds]?.join

def State.put (s : State) (pid : Nat) (q : Pcb) (p : PcbFile) (t : Lfds) : State :=
  ⟨t, s.files.set q.fds (some p), s.procs.set pid (some q)⟩

def umprocAddproc (s : State) (pp : Nat) (cloneFiles : Bool) : Option State := do
  let q ← s.proc pp
  let p ← s.file q.fds
  if cloneFiles then
    some ⟨s.lfds, s.files.set q.fds (some { p with count := p.count + 1 }),
      s.procs ++ [some ⟨q.fds, none⟩]⟩
  else
    let t ← p.lfdlist.foldlM lfdDup s.lfds
    some ⟨t, s.files ++ [some ⟨1, p.lfdlist⟩], s.procs ++ [some ⟨s.files.length, none⟩]⟩

def umprocDelproc (s : State) (pid : Nat) : Option State := do
  let q ← s.proc pid
  let p ← s.file q.fds
  let p := { p with count := p.count - 1 }
  if p.count = 0 then
    let t ← p.lfdlist.foldlM lfdClose s.lfds
    some ⟨t, s.files.set q.fds none, s.procs.set pid none⟩
  else
    some ⟨s.lfds, s.files.set q.fds (some p), s.procs.set pid none⟩

-- The in phases. A call that is left to the kernel or faked changes nothing.
def wrapInOpen (s : State) (pid : Nat) (q : Pcb) (p : PcbFile) (denied : Bool) (hte : Option Nat)
    (sfd : Int) (needsPathRewrite : Bool) : Option State :=
  if denied then some s
  else
    match hte with
    | some h =>
      if sfd < 0 then some s
      else do
        let (t, lfd) ← lfdOpen s.lfds (some h) sfd
        some (s.put pid { q with pending := some (.opening lfd) } p t)
    | none =>
      if needsPathRewrite then do
        let (t, lfd) ← lfdOpen s.lfds none (-1)
        some (s.put pid { q with pending := some (.opening lfd) } p t)
      else some s

-- rv is the answer of the module's close.
def closeService (t : Lfds) (lfd h : Nat) (e : LfdTable) (rv : Int) : Option Lfds :=
  if e.sfd < 0 then some t
  else if e.count ≤ 1 then
    let t := moduleClose t (some h) e.sfd
    if 0 ≤ rv then lfdNullsfd t lfd else some t
  else some t

def wrapInClose (s : State) (pid : Nat) (q : Pcb) (p : PcbFile) (fd : Option Nat) (rv : Int) :
    Option State :=
  if fd = some umMmapSecret then some s
  else
    match fd, fd2lfd p fd with
    | some fd, some lfd => do
        let e ← s.lfds.entry lfd
        let t ← match e.hte with
          | some h => closeService s.lfds lfd h e rv
          | none => some s.lfds
        some (s.put pid { q with pending := some (.closing fd) } p t)
    | _, _ => some s

def wrapInDup (s : State) (pid : Nat) (q : Pcb) (p : PcbFile) (fd oldfd : Option Nat) :
    Option State :=
  if fd = some umMmapSecret ∨ oldfd = some umMmapSecret then some s
  else
    match fd2lfd p fd with
    | some lfd => do
        let e ← s.lfds.entry lfd
        if e.sfd < 0 ∧ e.hte ≠ none then some s
        else
          let t ← lfdDup s.lfds (some lfd)
          some (s.put pid { q with pending := some (.duping oldfd (some lfd)) } p t)
    | none =>
      if fd2lfd p oldfd ≠ none then
        some (s.put pid { q with pending := some (.duping oldfd none) } p s.lfds)
      else some s

-- fcntl(fd, F_DUPFD, ..) is only seen when a module manages the file. A refused one is faked
-- with -1 in place of the lfd, and its out phase runs all the same.
def wrapInFcntl (s : State) (pid : Nat) (q : Pcb) (p : PcbFile) (fd : Option Nat) :
    Option State :=
  if fd = some umMmapSecret then some s
  else
    match fd2lfd p fd with
    | none => some s
    | some lfd => do
        let e ← s.lfds.entry lfd
        if e.hte = none then some s
        else if e.sfd < 0 then some (s.put pid { q with pending := some (.dupfd none) } p s.lfds)
        else
          let t ← lfdDup s.lfds (some lfd)
          some (s.put pid { q with pending := some (.dupfd (some lfd)) } p t)

-- The kernel has given the descriptor and, for a virtual file, addfd has accepted it.
def accepted (t : Lfds) (lfd rv : Option Nat) (addfd : Bool) : Option Bool :=
  match rv, lfd with
  | none, _ => some false
  | some _, none => some true
  | some _, some lfd => do
      let hte ← lfdGetht t lfd
      some (hte = none || addfd)

def closeOld (t : Lfds) (p : PcbFile) : Option Nat → Option (Lfds × PcbFile)
  | none => some (t, p)
  | some oldfd => lfdDeregisterNClose t p oldfd

-- The out phases of open, dup and F_DUPFD: register the descriptor or drop the reference.
def settle (s : State) (pid : Nat) (q : Pcb) (p : PcbFile) (oldfd lfd rv : Option Nat)
    (addfd : Bool) : Option State := do
  let ok ← accepted s.lfds lfd rv addfd
  match rv, ok with
  | some fd, true =>
    let (t, p) ← closeOld s.lfds p oldfd
    let p := match lfd with
      | some lfd => lfdRegister p fd lfd
      | none => p
    some (s.put pid { q with pending := none } p t)
  | _, _ =>
    let t ← lfdClose s.lfds lfd
    some (s.put pid { q with pending := none } p t)

def wrapOutOpen (s : State) (pid : Nat) (q : Pcb) (p : PcbFile) (lfd : Nat) (rv : Option Nat)
    (addfd : Bool) : Option State :=
  settle s pid q p none (some lfd) rv addfd

def wrapOutDup (s : State) (pid : Nat) (q : Pcb) (p : PcbFile) (oldfd lfd rv : Option Nat)
    (addfd : Bool) : Option State :=
  settle s pid q p oldfd lfd rv addfd

-- lfd_getht(-1) reads before lfd_tab.
def wrapOutFcntl (s : State) (pid : Nat) (q : Pcb) (p : PcbFile) (lfd rv : Option Nat)
    (addfd : Bool) : Option State :=
  if lfd = none ∧ rv ≠ none then none else settle s pid q p none lfd rv addfd

def wrapOutClose (s : State) (pid : Nat) (q : Pcb) (p : PcbFile) (fd : Nat) : Option State := do
  let (t, p) ← lfdDeregisterNClose s.lfds p fd
  some (s.put pid { q with pending := none } p t)

inductive Call where
  | openIn (denied : Bool) (hte : Option Nat) (sfd : Int) (needsPathRewrite : Bool)
  | closeIn (fd : Option Nat) (rv : Int)
  | dupIn (fd oldfd : Option Nat)
  | fcntlIn (fd : Option Nat)
  | out (rv : Option Nat) (addfd : Bool)
  deriving DecidableEq, Repr

inductive Op where
  | addproc (pp : Nat) (cloneFiles : Bool)
  | delproc (pid : Nat)
  | call (pid : Nat) (c : Call)
  deriving DecidableEq, Repr

def wrapIn (s : State) (pid : Nat) (q : Pcb) (p : PcbFile) : Call → Option State
  | .openIn denied hte sfd rewrite => wrapInOpen s pid q p denied hte sfd rewrite
  | .closeIn fd rv => wrapInClose s pid q p fd rv
  | .dupIn fd oldfd => wrapInDup s pid q p fd oldfd
  | .fcntlIn fd => wrapInFcntl s pid q p fd
  | .out _ _ => none

def wrapOut (s : State) (pid : Nat) (q : Pcb) (p : PcbFile) (rv : Option Nat) (addfd : Bool) :
    Pending → Option State
  | .opening lfd => wrapOutOpen s pid q p lfd rv addfd
  | .closing fd => wrapOutClose s pid q p fd
  | .duping oldfd lfd => wrapOutDup s pid q p oldfd lfd rv addfd
  | .dupfd lfd => wrapOutFcntl s pid q p lfd rv addfd

def perform (s : State) : Op → Option State
  | .addproc pp cloneFiles => umprocAddproc s pp cloneFiles
  | .delproc pid => umprocDelproc s pid
  | .call pid c => do
      let q ← s.proc pid
      let p ← s.file q.fds
      match c, q.pending with
      | .out rv addfd, some pending => wrapOut s pid q p rv addfd pending
      | c, _ => wrapIn s pid q p c

def Enabled (s : State) : Op → Prop
  | .addproc pp _ => s.proc pp ≠ none
  | .delproc pid => s.proc pid ≠ none
  | .call pid (.out _ _) => ∃ q ∈ s.proc pid, q.pending ≠ none
  | .call pid _ => ∃ q ∈ s.proc pid, q.pending = none

end ViewOS.Lfd
