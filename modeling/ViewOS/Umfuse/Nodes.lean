import Mathlib.Algebra.Order.Ring.Nat

namespace ViewOS.Umfuse.Nodes

abbrev Path := List (List Char)

abbrev Names := Path → Option Nat

-- The operations of the file system fail where accepts is false, whatever the reason is. What was at
-- the new path and below it goes.
def fopsRename (accepts : Bool) (names : Names) (old new : Path) : Option Names :=
  if accepts then
    match names old with
    | none => none
    | some file =>
      if names new = some file then some names
      else if old <+: new then none
      else some fun p =>
        if new <+: p then names (old ++ p.drop new.length)
        else if old <+: p then none
        else names p
  else none

def fopsUnlink (accepts : Bool) (names : Names) (path : Path) : Option Names :=
  if accepts ∧ (names path).isSome then some fun p => if p = path then none else names p else none

structure Fuse where
  mnt : Path
  ptr : Nat
  hardremove : Bool
  hasRename : Bool

structure Node where
  path : Path
  openCount : Int
  deriving DecidableEq

structure Handle where
  node : Nat
  file : Nat
  deriving DecidableEq

-- table has the nodes of the hash table, the one that was put in last first. hidden has the nodes whose
-- file was renamed to a hidden path, unlinked those on whose path close called unlink.
structure State where
  names : Names
  files : Nat
  nodes : List (Option Node)
  table : List Nat
  handles : List (Option Handle)
  hiddencount : Nat
  hidden : List Nat
  unlinked : List Nat

def State.init (names : Names) (files : Nat) : State := ⟨names, files, [], [], [], 0, [], []⟩

def State.node (s : State) (id : Nat) : Option Node := s.nodes[id]?.join

def State.handle (s : State) (fd : Nat) : Option Handle := s.handles[fd]?.join

def nodeSearch (s : State) (path : Path) : Option Nat :=
  s.table.find? fun id => (s.node id).any (·.path = path)

def nodeAdd (s : State) (path : Path) : State × Nat :=
  match nodeSearch s path with
  | some id =>
    ({ s with nodes := s.nodes.modify id (Option.map fun n => { n with openCount := n.openCount + 1 }) },
      id)
  | none =>
    ({ s with nodes := s.nodes ++ [some ⟨path, 1⟩], table := s.nodes.length :: s.table }, s.nodes.length)

def nodeDel (s : State) (id : Nat) (n : Node) : State :=
  if n.openCount - 1 = 0 then { s with nodes := s.nodes.set id none, table := s.table.erase id }
  else { s with nodes := s.nodes.set id (some { n with openCount := n.openCount - 1 }) }

def nodeNewpath (s : State) (id : Nat) (newpath : Path) : State :=
  { s with
    nodes := s.nodes.modify id (Option.map fun n => { n with path := newpath })
    table := id :: s.table.erase id }

def pad10 (n : Nat) : List Char :=
  List.replicate (10 - (Nat.toDigits 10 n).length) '0' ++ Nat.toDigits 10 n

def hiddenMark (fuse : Fuse) : List Char := ['.', 'f', 'u', 's', 'e'] ++ pad10 (fuse.ptr % 2 ^ 32)

def nodeHiddenpath (fuse : Fuse) (hiddencount : Nat) : Path := [hiddenMark fuse ++ pad10 hiddencount]

def nodeHiddenpathcheck (fuse : Fuse) (path : Path) : Bool :=
  path.head?.any (hiddenMark fuse).isPrefixOf

def hide (s : State) (id : Nat) (names : Names) (hiddenpath : Path) : State :=
  nodeNewpath { s with names := names, hidden := id :: s.hidden } id hiddenpath

def umfuseOpen (s : State) (path : Path) (creat accepts : Bool) : State :=
  let opened := fun (s : State) (file : Nat) =>
    let x := nodeAdd s path
    { x.1 with handles := s.handles ++ [some ⟨x.2, file⟩] }
  if accepts then
    match s.names path with
    | some file => opened s file
    | none =>
      if creat then
        opened { s with names := fun p => if p = path then some s.files else s.names p,
                        files := s.files + 1 } s.files
      else s
  else s

def delHandle (s : State) (fd id : Nat) (n : Node) : State :=
  { nodeDel s id n with handles := s.handles.set fd none }

def umfuseClose (fuse : Fuse) (s : State) (fd : Nat) (accepts : Bool) : Option State := do
  let h ← s.handle fd
  let n ← s.node h.node
  let s := if nodeHiddenpathcheck fuse n.path then
      { s with names := (fopsUnlink accepts s.names n.path).getD s.names,
               unlinked := h.node :: s.unlinked }
    else s
  some (delHandle s fd h.node n)

def umfuseUnlink (fuse : Fuse) (s : State) (path : Path) (accepts : Bool) : State :=
  if (s.names path).isNone then s
  else if fuse.hardremove ∨ !fuse.hasRename then
    { s with names := (fopsUnlink accepts s.names path).getD s.names }
  else match nodeSearch s path with
    | none => { s with names := (fopsUnlink accepts s.names path).getD s.names }
    | some id =>
      let hiddenpath := nodeHiddenpath fuse s.hiddencount
      let s := { s with hiddencount := s.hiddencount + 1 }
      match fopsRename accepts s.names path hiddenpath with
      | none => s
      | some names => hide s id names hiddenpath

-- newpath is the whole path, with the one of the mount point.
def umfuseRename (fuse : Fuse) (s : State) (unoldpath unnewpath : Path) (accepts accepts' : Bool) :
    State :=
  let newpath := fuse.mnt ++ unnewpath
  match fopsRename accepts s.names unoldpath unnewpath with
  | none => s
  | some names =>
    let oldnode := nodeSearch s unoldpath
    let newnode := nodeSearch s unnewpath
    let s := { s with names := names }
    let s := match newnode with
      | none => s
      | some id =>
        let hiddenpath := nodeHiddenpath fuse s.hiddencount
        let s := { s with hiddencount := s.hiddencount + 1 }
        match fopsRename accepts' s.names newpath hiddenpath with
        | none => s
        | some names => hide s id names hiddenpath
    match oldnode with
    | none => s
    | some id => nodeNewpath s id newpath

inductive Op where
  | open (path : Path) (creat accepts : Bool)
  | close (fd : Nat) (accepts : Bool)
  | unlink (path : Path) (accepts : Bool)
  | rename (unoldpath unnewpath : Path) (accepts accepts' : Bool)

def step (fuse : Fuse) (s : State) : Op → Option State
  | .open path creat accepts => some (umfuseOpen s path creat accepts)
  | .close fd accepts => umfuseClose fuse s fd accepts
  | .unlink path accepts => some (umfuseUnlink fuse s path accepts)
  | .rename unoldpath unnewpath accepts accepts' =>
    some (umfuseRename fuse s unoldpath unnewpath accepts accepts')

end ViewOS.Umfuse.Nodes
