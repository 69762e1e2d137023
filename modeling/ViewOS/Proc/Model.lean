import ViewOS.Lfd.Model
import ViewOS.Misc.Ids
import ViewOS.Treepoch.System

namespace ViewOS.Proc
open Misc (Ids)

structure PcbFs where
  count : Int
  cwd : List Char
  root : List Char
  mask : Nat
  deriving DecidableEq

-- A list of supplementary groups is shared but never written to: setgroups makes a new one.
structure Pcb where
  pp : Option Nat
  fdfs : Nat
  uid : Ids
  gid : Ids
  hte : Option Nat
  grouplist : List UInt32
  deriving DecidableEq

structure Flags where
  parent : Bool
  fs : Bool
  files : Bool
  deriving DecidableEq

-- The treepoch and the timestamps, the file tables and lfd_tab, the pcb_fs and the other fields of
-- the process descriptors.
structure World where
  views : Treepoch.Sys
  lfd : Lfd.State
  fs : List (Option PcbFs)
  pcbs : List (Option Pcb)

def World.pcb (w : World) (pid : Nat) : Option Pcb := w.pcbs[pid]?.join

def World.pcbFs (w : World) (fdfs : Nat) : Option PcbFs := w.fs[fdfs]?.join

def pcbPlusRoot (cwd : List Char) (mask : Nat) (uid gid : Ids) (grouplist : List UInt32) :
    Option World := do
  let views ← Treepoch.step .empty (.pcbPlusRoot 0)
  let pc : Pcb := ⟨some 0, 0, { uid with fs := uid.e }, { gid with fs := gid.e }, none, grouplist⟩
  some ⟨views, .init, [some ⟨1, cwd, ['/'], mask⟩], [some pc]⟩

-- pc->pp, which CLONE_PARENT rewrites before anything is copied.
def parentOf (pp : Nat) (invoker : Pcb) (flags : Flags) : Option Nat :=
  if flags.parent then invoker.pp else some pp

def pcbPlus (w : World) (pp : Nat) (flags : Flags) : Option (World × Nat) := do
  let invoker ← w.pcb pp
  let pp ← parentOf pp invoker flags
  let p ← w.pcb pp
  let fs ← w.pcbFs p.fdfs
  let (heap, fdfs) :=
    if flags.fs then (w.fs.set p.fdfs (some { fs with count := fs.count + 1 }), p.fdfs)
    else (w.fs ++ [some { fs with count := 1 }], w.fs.length)
  let pc : Pcb := ⟨some pp, fdfs, { p.uid with fs := p.uid.e }, { p.gid with fs := p.gid.e }, p.hte,
    p.grouplist⟩
  let views ← Treepoch.step w.views (.pcbPlus pp w.pcbs.length)
  some (⟨views, w.lfd, heap, w.pcbs ++ [some pc]⟩, pp)

def pcbConstructor (w : World) (pp : Nat) (flags : Flags) : Option World := do
  let (w, pp) ← pcbPlus w pp flags
  let lfd ← Lfd.umprocAddproc w.lfd pp flags.files
  some { w with lfd := lfd }

def cutPp (delpc : Nat) (pc : Pcb) : Pcb := if pc.pp = some delpc then { pc with pp := none } else pc

def pcbMinus (w : World) (pid : Nat) : Option World := do
  let pc ← w.pcb pid
  let fs ← w.pcbFs pc.fdfs
  let fs := { fs with count := fs.count - 1 }
  let views ← Treepoch.step w.views (.pcbMinus pid)
  some ⟨views, w.lfd, w.fs.set pc.fdfs (if fs.count = 0 then none else some fs),
    w.pcbs.set pid none⟩

def droppcb (w : World) (pid : Nat) : Option World := do
  let w := { w with pcbs := w.pcbs.map (Option.map (cutPp pid)) }
  let lfd ← Lfd.umprocDelproc w.lfd pid
  pcbMinus { w with lfd := lfd } pid

def setFs (w : World) (pid : Nat) (cwd root : List Char) (mask : Nat) : Option World := do
  let pc ← w.pcb pid
  let fs ← w.pcbFs pc.fdfs
  some { w with fs := w.fs.set pc.fdfs (some ⟨fs.count, cwd, root, mask⟩) }

def setIds (w : World) (pid : Nat) (uid gid : Ids) (grouplist : List UInt32) : Option World := do
  let pc ← w.pcb pid
  some { w with
    pcbs := w.pcbs.set pid (some { pc with uid := uid, gid := gid, grouplist := grouplist }) }

inductive Op where
  | clone (pid : Nat) (flags : Flags)
  | exit (pid : Nat)
  | setFs (pid : Nat) (cwd root : List Char) (mask : Nat)
  | setIds (pid : Nat) (uid gid : Ids) (grouplist : List UInt32)
  | views (op : Treepoch.Op)
  | call (pid : Nat) (c : Lfd.Call)
  deriving DecidableEq

def keepsProcs : Treepoch.Op → Bool
  | .pcbPlusRoot _ => false
  | .pcbPlus _ _ => false
  | .pcbMinus _ => false
  | _ => true

def step (w : World) : Op → Option World
  | .clone pid flags => pcbConstructor w pid flags
  | .exit pid => droppcb w pid
  | .setFs pid cwd root mask => setFs w pid cwd root mask
  | .setIds pid uid gid grouplist => setIds w pid uid gid grouplist
  | .views op => do
      let views ← if keepsProcs op then Treepoch.step w.views op else none
      some { w with views := views }
  | .call pid c => do
      let lfd ← Lfd.perform w.lfd (.call pid c)
      some { w with lfd := lfd }

end ViewOS.Proc
