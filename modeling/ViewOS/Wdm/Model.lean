import ViewOS.Canonicalize.Iterate

namespace ViewOS.Wdm
open Canonicalize

structure PcbFs where
  cwd : Path
  root : Path
  deriving DecidableEq, Repr

-- The relative names of um_abspath(AT_FDCWD, ..); no name is a string that the process memory
-- does not hold.
def umAbspath (env : Env) (fdfs : PcbFs) (name : Option Path) (stale : Path)
    (dontfollowlink : Bool) : Option Outcome :=
  umRealpath env fdfs.root name (some fdfs.cwd) stale dontfollowlink

def wrapInChdir (env : Env) (path : Path) (pathstat : Mode) (calls : List Call) :
    Except Errno Unit :=
  if pathstat ≠ .dir then
    .error (if pathstat = .zero then .enoent else .enotdir)
  else
    match env.access calls path pathstat with
    | .error _ => .error .eacces
    | .ok _ => .ok ()

-- kernel is what the kernel answers to the chdir that runs between the two phases.
def wrapOutChdir (fdfs : PcbFs) (path : Path) (behavior kernel : Except Errno Unit) :
    PcbFs × Except Errno Unit :=
  match behavior with
  | .error e => (fdfs, .error e)
  | .ok _ =>
    match kernel with
    | .error e => (fdfs, .error e)
    | .ok _ => ({ fdfs with cwd := path }, .ok ())

def wrapInChroot (fdfs : PcbFs) (path : Path) : PcbFs :=
  if fdfs.root ≠ path then { fdfs with root := path } else fdfs

def wrapOutChroot (fdfs : PcbFs) (path : Path) : PcbFs × Except Errno Unit :=
  ({ fdfs with root := path }, .ok ())

def chdir (env : Env) (fdfs : PcbFs) (name : Option Path) (stale : Path)
    (kernel : Except Errno Unit) : Option (PcbFs × Except Errno Unit) := do
  let out ← umAbspath env fdfs name stale false
  match out.result with
  | .error e => some (fdfs, .error e)
  | .ok path => some (wrapOutChdir fdfs path (wrapInChdir env path out.statbuf out.calls) kernel)

def chroot (env : Env) (fdfs : PcbFs) (name : Option Path) (stale : Path) :
    Option (PcbFs × Except Errno Unit) := do
  let out ← umAbspath env fdfs name stale false
  match out.result with
  | .error e => some (fdfs, .error e)
  | .ok path => some (wrapOutChroot (wrapInChroot fdfs path) path)

inductive Op where
  | chdir (env : Env) (name : Option Path) (stale : Path) (kernel : Except Errno Unit)
  | chroot (env : Env) (name : Option Path) (stale : Path)

def Op.env : Op → Env
  | .chdir env _ _ _ => env
  | .chroot env _ _ => env

def Op.name : Op → Option Path
  | .chdir _ name _ _ => name
  | .chroot _ name _ => name

def Op.stale : Op → Path
  | .chdir _ _ stale _ => stale
  | .chroot _ _ stale => stale

def perform (fdfs : PcbFs) : Op → Option (PcbFs × Except Errno Unit)
  | .chdir env name stale kernel => chdir env fdfs name stale kernel
  | .chroot env name stale => chroot env fdfs name stale

def step (fdfs : PcbFs) (o : Op) : Option PcbFs := (perform fdfs o).map Prod.fst

theorem wrapOutChdir_effect (fdfs : PcbFs) (path : Path) (behavior kernel : Except Errno Unit) :
    wrapOutChdir fdfs path behavior kernel = ({ fdfs with cwd := path }, .ok ()) ∨
      ∃ e, wrapOutChdir fdfs path behavior kernel = (fdfs, .error e) := by
  unfold wrapOutChdir
  cases behavior with
  | error e => exact Or.inr ⟨e,rfl⟩
  | ok _ =>
    cases kernel with
    | error e => exact Or.inr ⟨e,rfl⟩
    | ok _ => exact Or.inl rfl

theorem wrapOutChroot_wrapInChroot (fdfs : PcbFs) (path : Path) :
    wrapOutChroot (wrapInChroot fdfs path) path = ({ fdfs with root := path }, .ok ()) := by
  unfold wrapInChroot wrapOutChroot
  split_ifs <;> rfl

-- What a call can do: fail and change nothing, or move one of the two directories to the path
-- that um_abspath resolves for its name.
theorem perform_effect {fdfs fdfs' : PcbFs} {o : Op} {r : Except Errno Unit}
    (h : perform fdfs o = some (fdfs', r)) :
    (fdfs' = fdfs ∧ ∃ e, r = .error e) ∨
      r = .ok () ∧ ∃ out path, umAbspath o.env fdfs o.name o.stale false = some out ∧
        out.result = .ok path ∧
        (fdfs' = { fdfs with cwd := path } ∨ fdfs' = { fdfs with root := path }) := by
  cases o with
  | chdir env name stale kernel =>
    obtain ⟨out,hout,h⟩ := Option.bind_eq_some_iff.mp h
    cases hres : out.result with
    | error e =>
      simp only [hres,Option.some.injEq,Prod.mk.injEq] at h
      exact Or.inl ⟨h.1.symm,e,h.2.symm⟩
    | ok path =>
      simp only [hres,Option.some.injEq] at h
      rcases wrapOutChdir_effect fdfs path (wrapInChdir env path out.statbuf out.calls) kernel
        with he | ⟨e,he⟩
      · obtain ⟨h1,h2⟩ := Prod.ext_iff.mp (h.symm.trans he)
        exact Or.inr ⟨h2,out,path,hout,hres,Or.inl h1⟩
      · obtain ⟨h1,h2⟩ := Prod.ext_iff.mp (h.symm.trans he)
        exact Or.inl ⟨h1,e,h2⟩
  | chroot env name stale =>
    obtain ⟨out,hout,h⟩ := Option.bind_eq_some_iff.mp h
    cases hres : out.result with
    | error e =>
      simp only [hres,Option.some.injEq,Prod.mk.injEq] at h
      exact Or.inl ⟨h.1.symm,e,h.2.symm⟩
    | ok path =>
      simp only [hres,Option.some.injEq,wrapOutChroot_wrapInChroot,Prod.mk.injEq] at h
      exact Or.inr ⟨h.2.symm,out,path,hout,hres,Or.inr h.1.symm⟩

theorem step_effect {fdfs fdfs' : PcbFs} {o : Op} (h : step fdfs o = some fdfs') :
    fdfs' = fdfs ∨ ∃ out path, umAbspath o.env fdfs o.name o.stale false = some out ∧
      out.result = .ok path ∧
      (fdfs' = { fdfs with cwd := path } ∨ fdfs' = { fdfs with root := path }) := by
  obtain ⟨⟨t,r⟩,hp,rfl⟩ := Option.map_eq_some_iff.mp h
  rcases perform_effect hp with ⟨h,_⟩ | ⟨_,h⟩
  · exact Or.inl h
  · exact Or.inr h

theorem umAbspath_total (env : Env) (fdfs : PcbFs) (name : Option Path) (stale : Path)
    (dontfollowlink : Bool) : ∃ out, umAbspath env fdfs name stale dontfollowlink = some out :=
  umRealpath_total ..

end ViewOS.Wdm
