import Mathlib.Algebra.Order.Ring.Nat
import Mathlib.Data.List.Sort
import ViewOS.Lib.Run

namespace ViewOS.Lwip.Timeouts

open Transition

variable {A : Type}

-- time counts from the timeout before it in the list; task is the handler with its argument.
structure SysTimeout (A : Type) where
  time : BitVec 32
  task : A

-- The test before the loop is the one the loop makes at every element.
def sysTimeout (msecs : BitVec 32) (task : A) : List (SysTimeout A) → List (SysTimeout A)
  | [] => [⟨msecs, task⟩]
  | t :: l =>
    if msecs < t.time then ⟨msecs, task⟩ :: ⟨t.time - msecs, t.task⟩ :: l
    else t :: sysTimeout (msecs - t.time) task l

def addBack (time : BitVec 32) : List (SysTimeout A) → List (SysTimeout A)
  | [] => []
  | t :: l => ⟨t.time + time, t.task⟩ :: l

def sysUntimeout [DecidableEq A] (task : A) : List (SysTimeout A) → List (SysTimeout A)
  | [] => []
  | t :: l => if t.task = task then addBack t.time l else t :: sysUntimeout task l

structure State (A : Type) where
  now : Nat
  timeouts : List (SysTimeout A)
  called : List (Nat × A)

-- A wait ends with a message after some time, or with the first timeout, maybe late. A task that is
-- due is not kept waiting for a message.
inductive Op (A : Type) where
  | timeout (msecs : BitVec 32) (task : A)
  | untimeout (task : A)
  | message (time : BitVec 32)
  | expire (late : Nat)

def step [DecidableEq A] (s : State A) : Op A → Option (State A)
  | .timeout msecs task => some { s with timeouts := sysTimeout msecs task s.timeouts }
  | .untimeout task => some { s with timeouts := sysUntimeout task s.timeouts }
  | .message time =>
    match s.timeouts with
    | [] => some { s with now := s.now + time.toNat }
    | t :: l =>
      if 0 < t.time then
        some { s with
          now := s.now + time.toNat
          timeouts := ⟨if time ≤ t.time then t.time - time else 0, t.task⟩ :: l }
      else none
  | .expire late =>
    match s.timeouts with
    | [] => none
    | t :: l =>
      let now := s.now + t.time.toNat + late
      some ⟨now, l, s.called ++ [(now, t.task)]⟩

-- What the list is for: deadlines, the earliest first, and of two equal ones the older. A wait that
-- lasts beyond the first of them moves the others too.
structure Agenda (A : Type) where
  now : Nat
  pending : List (Nat × A)
  called : List (Nat × A)

def delayed (n : Nat) (l : List (Nat × A)) : List (Nat × A) := l.map fun x => (x.1 + n, x.2)

def Agenda.step [DecidableEq A] (g : Agenda A) : Op A → Option (Agenda A)
  | .timeout msecs task => some { g with
      pending := g.pending.orderedInsert (fun x y => x.1 < y.1) (g.now + msecs.toNat, task) }
  | .untimeout task => some { g with pending := g.pending.eraseP (·.2 = task) }
  | .message time =>
    match g.pending with
    | [] => some { g with now := g.now + time.toNat }
    | x :: l =>
      if g.now < x.1 then
        some { g with
          now := g.now + time.toNat
          pending := delayed (g.now + time.toNat - x.1) (x :: l) }
      else none
  | .expire late =>
    match g.pending with
    | [] => none
    | x :: l => some ⟨x.1 + late, delayed late l, g.called ++ [(x.1 + late, x.2)]⟩

def due : Nat → List (SysTimeout A) → List (Nat × A)
  | _, [] => []
  | now, t :: l => (now + t.time.toNat, t.task) :: due (now + t.time.toNat) l

def agenda (s : State A) : Agenda A := ⟨s.now, due s.now s.timeouts, s.called⟩

def total : List (SysTimeout A) → Nat
  | [] => 0
  | t :: l => t.time.toNat + total l

section Lists

variable {now : Nat} {msecs time : BitVec 32} {task : A} {t : SysTimeout A}
  {l : List (SysTimeout A)}

theorem due_sysTimeout : due now (sysTimeout msecs task l) =
    (due now l).orderedInsert (fun x y => x.1 < y.1) (now + msecs.toNat, task) := by
  induction l generalizing now msecs with
  | nil => rfl
  | cons t l ih =>
    rw [sysTimeout,due,List.orderedInsert]
    split
    · rename_i hlt
      have hlt' : msecs.toNat < t.time.toNat := hlt
      have hsub := BitVec.toNat_sub_of_le (BitVec.le_of_lt hlt)
      have hsum : now + msecs.toNat + (t.time.toNat - msecs.toNat) = now + t.time.toNat := by omega
      rw [if_pos (by omega),due,due,hsub,hsum]
    · rename_i hge
      have hle : t.time.toNat ≤ msecs.toNat := Nat.not_lt.mp hge
      have hsum : now + t.time.toNat + (msecs.toNat - t.time.toNat) = now + msecs.toNat := by omega
      rw [if_neg (by omega),due,ih,BitVec.toNat_sub_of_le hle,hsum]

theorem total_sysTimeout : total (sysTimeout msecs task l) = max (total l) msecs.toNat := by
  induction l generalizing msecs with
  | nil => simp [sysTimeout,total]
  | cons t l ih =>
    rw [sysTimeout]
    split
    · rename_i hlt
      have hlt' : msecs.toNat < t.time.toNat := hlt
      simp only [total,BitVec.toNat_sub_of_le (BitVec.le_of_lt hlt)]
      omega
    · rename_i hge
      have hle : t.time.toNat ≤ msecs.toNat := Nat.not_lt.mp hge
      rw [total,total,ih,BitVec.toNat_sub_of_le hle]
      omega

theorem addBack_spec (h : time.toNat + total l < 2 ^ 32) :
    due now (addBack time l) = due (now + time.toNat) l ∧
      total (addBack time l) ≤ time.toNat + total l := by
  cases l with
  | nil => exact ⟨rfl,Nat.zero_le _⟩
  | cons t l =>
    rw [total] at h
    have hadd : (t.time + time).toNat = time.toNat + t.time.toNat := by
      rw [BitVec.toNat_add_of_lt (by omega),Nat.add_comm]
    rw [addBack,due,due,total,total,hadd]
    exact ⟨by rw [Nat.add_assoc],by omega⟩

theorem sysUntimeout_spec [DecidableEq A] (h : total l < 2 ^ 32) :
    due now (sysUntimeout task l) = (due now l).eraseP (·.2 = task) ∧
      total (sysUntimeout task l) ≤ total l := by
  induction l generalizing now with
  | nil => exact ⟨rfl,Nat.le_refl _⟩
  | cons t l ih =>
    rw [total] at h
    rw [sysUntimeout,due,total]
    split
    · rename_i heq
      rw [List.eraseP_cons_of_pos (by simpa using heq)]
      exact addBack_spec h
    · rename_i hne
      obtain ⟨hdue,htotal⟩ := @ih (now + t.time.toNat) (by omega)
      rw [List.eraseP_cons_of_neg (by simpa using hne),due,hdue,total]
      exact ⟨rfl,by omega⟩

theorem due_add (n : Nat) : due (now + n) l = delayed n (due now l) := by
  induction l generalizing now with
  | nil => rfl
  | cons t l ih =>
    have hsum : now + n + t.time.toNat = now + t.time.toNat + n := Nat.add_right_comm _ _ _
    rw [due,due,hsum,ih]
    rfl

theorem rest_toNat : (if time ≤ t.time then t.time - time else 0).toNat =
    t.time.toNat - time.toNat := by
  split
  · rename_i hle
    exact BitVec.toNat_sub_of_le hle
  · rename_i hgt
    exact (Nat.sub_eq_zero_of_le (Nat.le_of_not_le hgt)).symm

theorem due_message :
    due (now + time.toNat) (⟨if time ≤ t.time then t.time - time else 0, t.task⟩ :: l) =
      delayed (now + time.toNat - (now + t.time.toNat)) (due now (t :: l)) := by
  have hsum : now + time.toNat + (t.time.toNat - time.toNat) =
      now + t.time.toNat + (now + time.toNat - (now + t.time.toNat)) := by omega
  rw [due,rest_toNat,hsum,due_add]
  rfl

end Lists

section Agenda

variable [DecidableEq A] {s t : State A} {o : Op A}

theorem step_agenda (hb : total s.timeouts < 2 ^ 32) :
    (agenda s).step o = (step s o).map agenda := by
  obtain ⟨now,timeouts,called⟩ := s
  cases o with
  | timeout msecs task => exact congrArg (some <| Agenda.mk now · called) due_sysTimeout.symm
  | untimeout task => exact congrArg (some <| Agenda.mk now · called) (sysUntimeout_spec hb).1.symm
  | message time =>
    cases timeouts with
    | nil => rfl
    | cons x l =>
      have hdue : now < now + x.time.toNat ↔ 0 < x.time := Nat.lt_add_right_iff_pos
      simp only [agenda,Agenda.step,step,due,hdue]
      split
      · exact congrArg (some <| Agenda.mk (now + time.toNat) · called) due_message.symm
      · rfl
  | expire late =>
    cases timeouts with
    | nil => rfl
    | cons x l => exact congrArg (some <| Agenda.mk _ · _) (due_add late).symm

theorem step_total (hb : total s.timeouts < 2 ^ 32) (hst : step s o = some t) :
    total t.timeouts < 2 ^ 32 := by
  obtain ⟨now,timeouts,called⟩ := s
  cases o with
  | timeout msecs task =>
    obtain rfl := Option.some.inj hst
    exact total_sysTimeout.trans_lt (Nat.max_lt.mpr ⟨hb,msecs.isLt⟩)
  | untimeout task =>
    obtain rfl := Option.some.inj hst
    exact Nat.lt_of_le_of_lt (@sysUntimeout_spec _ now _ _ _ hb).2 hb
  | message time =>
    cases timeouts with
    | nil =>
      obtain rfl := Option.some.inj hst
      exact hb
    | cons x l =>
      obtain ⟨-,hst⟩ := Option.ite_none_right_eq_some.mp hst
      obtain rfl := Option.some.inj hst
      rw [total] at hb ⊢
      rw [rest_toNat]
      omega
  | expire late =>
    cases timeouts with
    | nil => cases hst
    | cons x l =>
      obtain rfl := Option.some.inj hst
      exact Nat.lt_of_le_of_lt (Nat.le_add_left _ _) hb

theorem exec_agenda {ops : List (Op A)} (hb : total s.timeouts < 2 ^ 32) :
    exec Agenda.step (agenda s) ops = (exec step s ops).map agenda := by
  induction ops generalizing s with
  | nil => rfl
  | cons o ops ih =>
    rw [exec,exec,step_agenda hb]
    cases hst : step s o with
    | none => rfl
    | some t => exact ih (step_total hb hst)

theorem timeouts_are_agenda (ops : List (Op A)) :
    exec Agenda.step ⟨0, [], []⟩ ops = (exec step ⟨0, [], []⟩ ops).map agenda := by
  have hb : total (⟨0, [], []⟩ : State A).timeouts < 2 ^ 32 := Nat.two_pow_pos 32
  exact exec_agenda hb

end Agenda

section SemWait

def tasks (l : List (SysTimeout A)) : List A := l.map (·.task)

-- cb is sswt_handler with the caller's sswt_cb, whose timeflag tells whether it was called; ops is
-- what happens until sys_sem_wait returns, what other handlers do included.
def sysSemWaitTimeout [DecidableEq A] (s : State A) (timeout : BitVec 32) (cb : A)
    (ops : List (Op A)) : Option (State A) :=
  let set := if 0 < timeout then sysTimeout timeout cb s.timeouts else s.timeouts
  (exec step ⟨s.now, set, []⟩ ops).map fun t =>
    ⟨t.now, if cb ∈ t.called.map Prod.snd then t.timeouts else sysUntimeout cb t.timeouts,
      s.called ++ t.called⟩

theorem tasks_sysTimeout {msecs : BitVec 32} {a : A} {l : List (SysTimeout A)} :
    (tasks (sysTimeout msecs a l)).Perm (a :: tasks l) := by
  induction l generalizing msecs with
  | nil => exact .refl _
  | cons t l ih =>
    rw [sysTimeout]
    split
    · exact .refl _
    · exact (ih.cons t.task).trans (.swap _ _ _)

variable [DecidableEq A] {s t : State A} {o : Op A} {a cb : A}

theorem tasks_sysUntimeout {l : List (SysTimeout A)} :
    tasks (sysUntimeout a l) = (tasks l).erase a := by
  induction l with
  | nil => rfl
  | cons t l ih =>
    rw [sysUntimeout]
    split
    · rename_i heq
      have hback : tasks (addBack t.time l) = tasks l := by cases l <;> rfl
      exact hback.trans (heq ▸ (List.erase_cons_head t.task (tasks l)).symm)
    · rename_i hne
      exact (congrArg (t.task :: ·) ih).trans (List.erase_cons_tail (by simpa using hne)).symm

def seen (s : State A) (cb : A) : Nat :=
  (tasks s.timeouts).count cb + (s.called.map Prod.snd).count cb

theorem step_seen (ho : ∀ msecs, o ≠ .timeout msecs cb) (hst : step s o = some t) :
    seen t cb ≤ seen s cb := by
  obtain ⟨now,timeouts,called⟩ := s
  cases o with
  | timeout msecs task =>
    obtain rfl := Option.some.inj hst
    have hne : task ≠ cb := fun heq => ho msecs (heq ▸ rfl)
    rw [seen,tasks_sysTimeout.count_eq,List.count_cons_of_ne hne]
    exact Nat.le_refl _
  | untimeout task =>
    obtain rfl := Option.some.inj hst
    rw [seen,tasks_sysUntimeout]
    exact Nat.add_le_add_right (List.erase_sublist.count_le cb) _
  | message time =>
    cases timeouts with
    | nil =>
      obtain rfl := Option.some.inj hst
      exact Nat.le_refl _
    | cons x l =>
      obtain ⟨-,hst⟩ := Option.ite_none_right_eq_some.mp hst
      obtain rfl := Option.some.inj hst
      exact Nat.le_refl _
  | expire late =>
    cases timeouts with
    | nil => cases hst
    | cons x l =>
      obtain rfl := Option.some.inj hst
      simp only [seen,tasks,List.map_cons,List.map_append,List.map_nil,List.count_append,
        List.count_cons,List.count_nil]
      omega

theorem semWait_leaves_no_timeout {timeout : BitVec 32} {ops : List (Op A)}
    (hfresh : cb ∉ tasks s.timeouts) (hops : ∀ o ∈ ops, ∀ msecs, o ≠ .timeout msecs cb)
    (h : sysSemWaitTimeout s timeout cb ops = some t) : cb ∉ tasks t.timeouts := by
  obtain ⟨u,hu,rfl⟩ := Option.map_eq_some_iff.mp h
  have hzero := List.count_eq_zero.mpr hfresh
  have honce : seen u cb ≤ 1 := by
    refine exec_invariant (I := fun s => seen s cb ≤ 1)
      (fun _ _ ho _ hs hst => (step_seen ho hst).trans hs) hops hu ?_
    rw [seen]
    split
    · rw [tasks_sysTimeout.count_eq,List.count_cons_self,hzero]
      exact Nat.le_refl 1
    · rw [hzero]
      exact Nat.zero_le 1
  rw [seen] at honce
  dsimp only
  split
  · rename_i hcalled
    have hpos := List.count_pos_iff.mpr hcalled
    exact List.count_eq_zero.mp (by omega)
  · rw [tasks_sysUntimeout,← List.count_eq_zero,List.count_erase_self]
    omega

theorem semWait_leaves_no_timeout_message :
    ∃ t : State Nat, t.now = 3 ∧ t.called = [] ∧ 7 ∉ tasks t.timeouts := by
  have h : sysSemWaitTimeout (⟨0, [], []⟩ : State Nat) 5 7 [.message 3] = some _ := rfl
  exact ⟨_,rfl,rfl,semWait_leaves_no_timeout (by decide) (by simp) h⟩

end SemWait

end ViewOS.Lwip.Timeouts
