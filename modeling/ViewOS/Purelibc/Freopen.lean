import Mathlib.Data.List.Basic

namespace ViewOS.Purelibc

def getFd (t : List (Option Nat)) (i : Nat) : Option Nat := t[i]?.join

def setFd (t : List (Option Nat)) (i : Nat) (x : Option Nat) : List (Option Nat) :=
  (t ++ List.replicate (i + 1 - t.length) none).set i x

def lowestFree (t : List (Option Nat)) : Nat := t.findIdx Option.isNone

-- Open file descriptions are numbered; the next one is new.
structure Process where
  fds : List (Option Nat)
  next : Nat
  below : ∀ i n, getFd fds i = some n → n < next

inductive Which where
  | stdin
  | stdout
  | stderr
  | other
  deriving DecidableEq

def Which.fileno : Which → Option Nat
  | .stdin => some 0
  | .stdout => some 1
  | .stderr => some 2
  | .other => none

structure Stream where
  which : Which
  fd : Nat

structure Calls where
  opens : List Char → Nat → Bool
  dups : Bool
  cookie : List Char → Bool

-- O_WRONLY is 1, O_RDWR 2, O_CREAT 64, O_TRUNC 512, O_APPEND 1024.
def parseModeChar (flags : Nat) : Char → Nat
  | 'r' => 0
  | 'w' => 1 + 64 + 512
  | 'a' => 1 + 64 + 1024
  | '+' => flags / 2 * 2 ||| 2
  | _ => flags

def pureParseMode (modes : List Char) : Nat := modes.foldl parseModeChar 0

def pureFdopen (c : Calls) (fd : Nat) (modes : List Char) : Option Nat :=
  if c.cookie modes then some fd else none

def pureFreopen (p : Process) (c : Calls) (filename modes : List Char) :
    Option Stream → Option Nat × List (Option Nat)
  | none => (none, p.fds)
  | some stream =>
    if c.opens filename (pureParseMode modes) then
      let fdtmp := lowestFree p.fds
      let closed := setFd (setFd p.fds fdtmp (some p.next)) stream.fd none
      match stream.which.fileno with
      | none => (pureFdopen c fdtmp modes, setFd closed fdtmp none)
      | some k =>
        if c.dups then
          (pureFdopen c k modes, setFd (setFd closed k (getFd closed fdtmp)) fdtmp none)
        else (none, setFd closed fdtmp none)
    else (none, p.fds)

structure Reopened (p : Process) (old fd : Nat) (t : List (Option Nat)) : Prop where
  refers : getFd t fd = some p.next
  temporary : ∀ i, i ≠ fd → getFd p.fds i = none → getFd t i = none
  frame : ∀ i, i ≠ old → getFd p.fds i ≠ none → getFd t i = getFd p.fds i

theorem getFd_setFd (t : List (Option Nat)) (i j : Nat) (x : Option Nat) :
    getFd (setFd t i x) j = if j = i then x else getFd t j := by
  have hlen : i < (t ++ List.replicate (i + 1 - t.length) none).length := by
    simp only [List.length_append,List.length_replicate]
    omega
  rcases eq_or_ne j i with rfl | hne
  · simp [getFd,setFd,List.getElem?_set_self hlen]
  · rw [if_neg hne,getFd,setFd,List.getElem?_set_ne hne.symm,getFd]
    rcases Nat.lt_or_ge j t.length with hlt | hge
    · rw [List.getElem?_append_left hlt]
    · rw [List.getElem?_append_right hge,List.getElem?_eq_none hge,List.getElem?_replicate]
      split
      · rfl
      · rfl

theorem getFd_lowestFree (t : List (Option Nat)) : getFd t (lowestFree t) = none := by
  induction t with
  | nil => rfl
  | cons x t ih =>
    cases x with
    | none => rfl
    | some n =>
      have hsucc : lowestFree (some n :: t) = lowestFree t + 1 := by
        simp [lowestFree,List.findIdx_cons]
      rw [hsucc]
      exact ih

section Freopen

variable {p : Process} {c : Calls} {filename modes : List Char} {stream : Stream} {r k : Nat}

theorem fdopen_eq_some (h : pureFdopen c k modes = some r) : r = k := by
  simp only [pureFdopen] at h
  split at h
  · exact (Option.some.inj h).symm
  · exact absurd h (by simp)

theorem not_reopened_of_closed {t : List (Option Nat)} {old : Nat} (h : getFd t r = none) :
    ¬Reopened p old r t := fun hr => absurd (h.symm.trans hr.refers) (by simp)

theorem reopened_dup {t : List (Option Nat)}
    (ht : ∀ i, getFd t i = if i = lowestFree p.fds then none else if i = k then some p.next else
      if i = stream.fd then none else getFd p.fds i) :
    Reopened p stream.fd k t ↔
      lowestFree p.fds ≠ k ∧ (stream.fd = k ∨ getFd p.fds k = none) := by
  have hfree := getFd_lowestFree p.fds
  constructor
  · intro h
    refine ⟨?_,or_iff_not_imp_left.mpr fun hne => ?_⟩
    · intro heq
      have hk := h.refers
      rw [ht,if_pos heq.symm] at hk
      exact absurd hk (by simp)
    · -- A descriptor k that was open and not the stream's now refers to the new file.
      apply Classical.byContradiction
      intro hkopen
      have hframe := h.frame k (Ne.symm hne) hkopen
      exact absurd (p.below k p.next (hframe.symm.trans h.refers)) (Nat.lt_irrefl _)
  · rintro ⟨hne,hk⟩
    refine ⟨by rw [ht,if_neg (Ne.symm hne),if_pos rfl],fun i hi hclosed => ?_,
      fun i hi hiopen => ?_⟩
    · rw [ht,if_neg hi]
      split
      · rfl
      · split
        · rfl
        · exact hclosed
    · have htmp : i ≠ lowestFree p.fds := fun heq => hiopen (heq ▸ hfree)
      have hik : i ≠ k := by
        rintro rfl
        rcases hk with heq | hnone
        · exact hi heq.symm
        · exact hiopen hnone
      rw [ht,if_neg htmp,if_neg hik,if_neg hi]

theorem freopen_other (hwhich : stream.which.fileno = none)
    (h : (pureFreopen p c filename modes (some stream)).1 = some r) :
    getFd (pureFreopen p c filename modes (some stream)).2 r = none := by
  simp only [pureFreopen,hwhich] at h ⊢
  split at h
  · obtain rfl := fdopen_eq_some h
    rw [if_pos (by assumption),getFd_setFd,if_pos rfl]
  · exact absurd h (by simp)

theorem freopen_standard (hwhich : stream.which.fileno = some k)
    (hopen : getFd p.fds stream.fd ≠ none)
    (h : (pureFreopen p c filename modes (some stream)).1 = some r) :
    r = k ∧ ∀ i, getFd (pureFreopen p c filename modes (some stream)).2 i =
      if i = lowestFree p.fds then none else if i = k then some p.next else
        if i = stream.fd then none else getFd p.fds i := by
  have hne : lowestFree p.fds ≠ stream.fd := fun heq => hopen (heq ▸ getFd_lowestFree p.fds)
  simp only [pureFreopen,hwhich] at h ⊢
  split at h
  · split at h
    · refine ⟨fdopen_eq_some h,fun i => ?_⟩
      rw [if_pos (by assumption),if_pos (by assumption)]
      simp only [getFd_setFd,if_neg hne,if_true]
      split
      · rfl
      · rfl
    · exact absurd h (by simp)
  · exact absurd h (by simp)

end Freopen

theorem freopen_reopens (p : Process) (c : Calls) (filename modes : List Char) (stream : Stream)
    (hopen : getFd p.fds stream.fd ≠ none) :
    (∀ r, (pureFreopen p c filename modes (some stream)).1 = some r →
      Reopened p stream.fd r (pureFreopen p c filename modes (some stream)).2) ↔
    (pureFreopen p c filename modes (some stream)).1 = none ∨
      ∃ k, stream.which.fileno = some k ∧ lowestFree p.fds ≠ k ∧
        (stream.fd = k ∨ getFd p.fds k = none) := by
  cases hr : (pureFreopen p c filename modes (some stream)).1 with
  | none => simp
  | some r =>
    cases hwhich : stream.which.fileno with
    | none =>
      have hclosed : ¬Reopened p stream.fd r _ := not_reopened_of_closed (freopen_other hwhich hr)
      simpa using hclosed
    | some k =>
      obtain ⟨rfl,ht⟩ := freopen_standard hwhich hopen hr
      simpa using reopened_dup ht

theorem terminal_below (i n : Nat) (h : getFd [some 0, some 1, some 2, some 3] i = some n) :
    n < 4 := by
  have hmem : some n ∈ [some 0, some 1, some 2, some 3] :=
    List.mem_of_getElem? (Option.join_eq_some_iff.mp h)
  simp at hmem
  omega

def terminal : Process := ⟨[some 0, some 1, some 2, some 3], 4, terminal_below⟩

def willing : Calls := ⟨fun _ _ => true, true, fun _ => true⟩

theorem freopen_reopens_stdout :
    getFd (pureFreopen terminal willing ['f'] ['w'] (some ⟨.stdout, 1⟩)).2 1 = some 4 :=
  ((freopen_reopens terminal willing ['f'] ['w'] ⟨.stdout, 1⟩ (by decide)).mpr
    (Or.inr ⟨1,rfl,by decide,Or.inl rfl⟩) 1 rfl).refers

theorem freopen_closes_ordinary :
    ¬∀ (p : Process) (c : Calls) (filename modes : List Char) (stream : Stream),
      getFd p.fds stream.fd ≠ none →
        ∀ r, (pureFreopen p c filename modes (some stream)).1 = some r →
          Reopened p stream.fd r (pureFreopen p c filename modes (some stream)).2 := by
  intro h
  have hrefers := (h terminal willing ['f'] ['r'] ⟨.other, 3⟩ (by decide) 4 rfl).refers
  exact absurd hrefers (by decide)

end ViewOS.Purelibc
