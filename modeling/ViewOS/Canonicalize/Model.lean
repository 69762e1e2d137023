import Mathlib.Tactic.Common

namespace ViewOS.Canonicalize

abbrev Path := List Char

def pathMax : Nat := 4096

def maxSymlinks : Nat := 20

inductive Errno where
  | enoent | einval | enametoolong | eloop | enotdir | eacces
  | other (n : Nat)
  deriving DecidableEq, Repr

inductive Mode where
  | zero | dir | link | other
  deriving DecidableEq, Repr

inductive Call where
  | lstat (path : Path) (isdotdot : Bool)
  | access (path : Path)
  | readlink (path : Path)
  deriving DecidableEq, Repr

def Call.path : Call → Path
  | .lstat path _ => path
  | .access path => path
  | .readlink path => path

-- um_x_lstat64, um_x_access and um_x_readlink: what they answer may change from call to call,
-- so an answer depends on the calls made before it.
structure Env where
  lstat : List Call → Path → Except Errno Mode
  access : List Call → Path → Mode → Except Errno Unit
  readlink : List Call → Path → Except Errno Path

-- The strings of the source are what their pointers still have before them: start is the text
-- not yet resolved, resolved the text up to dest.
structure Canonstruct where
  start : Path
  resolved : Path
  numLinks : Nat
  statbuf : Mode
  calls : List Call

structure Config where
  env : Env
  rootlen : Nat
  dontfollowlink : Bool

inductive Ret where
  | ok | dotdot | root
  | err (e : Errno)
  deriving DecidableEq, Repr

inductive Action where
  | again (cdata : Canonstruct)
  | ret (r : Ret) (cdata : Canonstruct)
  | enter (newdest : Path) (cdata : Canonstruct)

def component (s : Path) : Path := (s.dropWhile (· = '/')).takeWhile (· ≠ '/')

def remainder (s : Path) : Path := (s.dropWhile (· = '/')).dropWhile (· ≠ '/')

def addComponent (dest comp : Path) : Path :=
  if dest.getLast? ≠ some '/' then dest ++ '/' :: comp else dest ++ comp

def lstatDir (cfg : Config) (dest : Path) (isdotdot : Bool) (c : Canonstruct) : Canonstruct :=
  let res := cfg.env.lstat c.calls dest
  let c := { c with calls := c.calls ++ [Call.lstat dest isdotdot] }
  match res with
  | .ok mode => { c with statbuf := mode }
  | .error _ => c

def followLink (cfg : Config) (dest rest : Path) (c : Canonstruct) : Action :=
  if dest.length ≤ cfg.rootlen then
    .ret (.err .enoent) c
  else
    let c := { c with numLinks := c.numLinks + 1 }
    if maxSymlinks < c.numLinks then
      .ret (.err .eloop) c
    else
      let res := cfg.env.readlink c.calls c.resolved
      let c := { c with calls := c.calls ++ [Call.readlink c.resolved] }
      match res with
      | .error e => .ret (.err e) c
      | .ok target =>
        let buf := target.take (pathMax - 1)
        if pathMax ≤ buf.length + rest.length then
          .ret (.err .enametoolong) c
        else
          let c := { c with start := buf ++ rest }
          if buf.head? = some '/' then .ret .root c else .again c

def checkDir (cfg : Config) (rest : Path) (c : Canonstruct) : Action :=
  let enter := fun c : Canonstruct => Action.enter c.resolved { c with start := rest }
  if rest ≠ [] then
    if c.statbuf ≠ .dir then
      .ret (.err .enotdir) c
    else
      let res := cfg.env.access c.calls c.resolved c.statbuf
      let c := { c with calls := c.calls ++ [Call.access c.resolved] }
      match res with
      | .error e => .ret (.err e) c
      | .ok _ => enter c
  else enter c

def visit (cfg : Config) (dest comp rest : Path) (c : Canonstruct) : Action :=
  let c := { c with resolved := addComponent dest comp }
  let res := cfg.env.lstat c.calls c.resolved
  let c := { c with calls := c.calls ++ [Call.lstat c.resolved false] }
  match res with
  | .error e =>
    let c := { c with statbuf := .zero }
    if e ≠ .enoent ∨ rest ≠ [] then .ret (.err .enoent) c else .ret .ok c
  | .ok mode =>
    let c := { c with statbuf := mode }
    if mode = .link ∧ (rest ≠ [] ∨ !cfg.dontfollowlink) then followLink cfg dest rest c
    else checkDir cfg rest c

-- One pass of the loop (***), up to the recursive call.
def iterate (cfg : Config) (dest : Path) (recoutput : Ret) (c : Canonstruct) : Action :=
  let c := { c with resolved := dest }
  let comp := component c.start
  let rest := remainder c.start
  if comp = ['.'] then
    .again { c with start := rest }
  else if comp = ['.', '.'] then
    if cfg.rootlen < dest.length then .ret .dotdot { c with start := rest }
    else .again { c with start := rest }
  else
    let c := if recoutput ≠ .ok then lstatDir cfg dest (recoutput = .dotdot) c else c
    if comp = [] then .ret .ok c
    else if pathMax < dest.length + comp.length then .ret (.err .enametoolong) c
    else visit cfg dest comp rest c

def recRealpath (cfg : Config) : Nat → Path → Ret → Canonstruct → Option (Ret × Canonstruct)
  | 0, _, _, _ => none
  | fuel + 1, dest, recoutput, c =>
    match iterate cfg dest recoutput c with
    | .again c => recRealpath cfg fuel dest recoutput c
    | .ret r c => some (r, c)
    | .enter newdest c =>
      match recRealpath cfg fuel newdest .root c with
      | none => none
      | some (.ok, c) => some (.ok, c)
      | some (.dotdot, c) => recRealpath cfg fuel dest .dotdot c
      | some (.root, c) =>
        if cfg.rootlen < dest.length then some (.root, c)
        else recRealpath cfg fuel dest .root c
      | some (.err e, c) => some (.err e, c)

def cancelTrailingSlash (path : Path) : Path :=
  if 1 < path.length ∧ path.getLast? = some '/' then path.dropLast else path

def addSlash (path : Path) : Path := if path.getLast? ≠ some '/' then path ++ ['/'] else path

structure Outcome where
  result : Except Errno Path
  statbuf : Mode
  calls : List Call

def startRealpath (env : Env) (dontfollowlink : Bool) (rootlen : Nat) (ebuf : Path) :
    Option Outcome :=
  let ebuf := cancelTrailingSlash ebuf
  let cfg : Config := ⟨env, rootlen, dontfollowlink⟩
  let fuel := maxSymlinks * pathMax + ebuf.length + 1
  match recRealpath cfg fuel ['/'] .root ⟨ebuf.drop 1, ['/'], 0, .zero, []⟩ with
  | none => none
  | some (.err e, c) => some ⟨.error e, c.statbuf, c.calls⟩
  | some (_, c) => some ⟨.ok c.resolved, c.statbuf, c.calls⟩

-- stale is what the stack buffer holds before cwd is copied over its first bytes: the comparison
-- with root reads rootlen + 1 bytes of it whatever the length of cwd.
def relativeRootlen (root cwd stale : Path) : Nat :=
  let ebuf := addSlash cwd ++ stale.drop (addSlash cwd).length
  if ebuf.take root.length = root ∧
      (root.getLast? = some '/' ∨ (ebuf.drop root.length).head? = some '/') then
    (addSlash root).length
  else 1

def umRealpath (env : Env) (root : Path) (name cwd : Option Path) (stale : Path)
    (dontfollowlink : Bool) : Option Outcome :=
  let fail := fun e : Errno => some ⟨.error e, .zero, []⟩
  match name with
  | none => fail .einval
  | some [] => fail .enoent
  | some name =>
    if name.head? = some '/' then
      let ebuf := addSlash root
      if pathMax ≤ ebuf.length + name.length then fail .enametoolong
      else startRealpath env dontfollowlink ebuf.length (ebuf ++ name.drop 1)
    else
      match cwd with
      | none => fail .einval
      | some cwd =>
        let ebuf := addSlash cwd
        if pathMax ≤ ebuf.length + name.length then fail .enametoolong
        else startRealpath env dontfollowlink (relativeRootlen root cwd stale) (ebuf ++ name)

end ViewOS.Canonicalize
