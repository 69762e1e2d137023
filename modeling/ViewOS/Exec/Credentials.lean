import ViewOS.Misc.Ids

namespace ViewOS.Exec.Credentials

open Misc (Ids Pcb)

def erestartsys : Int := 512
def enoent : Int := 2
def eacces : Int := 13

inductive Behavior where
  | std
  | callonxit
  | fake
  deriving DecidableEq, Repr

-- The service that manages the executable: its MS_NOEXEC flag, what its execve answers (retval and
-- errno) if it defines one, and the copy that is made when the real execve is wanted.
structure Managed where
  noexec : Bool
  execve : Option (Int × Int)
  filecopy : Int
  deriving DecidableEq, Repr

structure Execve where
  secure : Bool
  -- The errno of a failed um_xx_access.
  access : Option Int
  nosuid : Bool
  setuid : Bool
  setgid : Bool
  owner : UInt32
  group : UInt32
  -- The path is that of mount or umount.
  mounts : Bool
  -- A script or an executable that a binfmt service takes: is its interpreter a full path?
  binfmt : Option Bool
  argvReadable : Bool
  hte : Option Managed
  needsPathRewrite : Bool
  kernel : Bool
  deriving DecidableEq, Repr

def setExec (bit : Bool) (owner : UInt32) (p : Ids) : Ids :=
  bif bit then { p with s := p.e, e := owner, fs := owner }
  else if p.r = p.e then { p with s := p.r } else p

def Execve.manages (x : Execve) : Bool := !x.secure || !x.nosuid

def Execve.hides (x : Execve) : Bool := !x.secure && x.mounts

def Execve.setids (x : Execve) (pc : Pcb) : Pcb :=
  let pc :=
    bif x.manages then
      { pc with uid := setExec x.setuid x.owner pc.uid, gid := setExec x.setgid x.group pc.gid }
    else pc
  bif x.hides then { pc with uid := { pc.uid with r := 0, s := 0 } } else pc

def Managed.run (x : Execve) (m : Managed) (pc : Pcb) : Behavior × Pcb :=
  let pc :=
    if x.secure ∧ m.noexec then { pc with retval := -1, erno := eacces }
    else
      match m.execve with
      | none => { pc with retval := erestartsys }
      | some (retval, errno) =>
        { pc with retval := retval, erno := if retval < 0 then errno else pc.erno }
  if pc.retval = erestartsys then
    if 0 ≤ m.filecopy then (.callonxit, { pc with retval := m.filecopy })
    else (.fake, { pc with retval := -1, erno := -m.filecopy })
  else (.fake, pc)

def wrapInExecve (x : Execve) (pc : Pcb) : Behavior × Pcb :=
  match x.access with
  | some errno => (.fake, { pc with retval := -1, erno := errno })
  | none =>
    let pc := x.setids pc
    match x.binfmt, x.hte with
    | some false, _ => (.fake, { pc with retval := -1, erno := enoent })
    | some true, _ =>
      bif x.argvReadable then (.callonxit, { pc with retval := 0 }) else (.std, pc)
    | none, some m => m.run x pc
    | none, none => (bif x.needsPathRewrite then .callonxit else .std, pc)

def restore (p : Ids) : Ids := { p with e := p.s, fs := p.s }

def wrapOutExecve (pc : Pcb) : Pcb :=
  if pc.retval < 0 then { pc with uid := restore pc.uid, gid := restore pc.gid } else pc

def execve (x : Execve) (pc : Pcb) : Pcb × Bool :=
  match wrapInExecve x pc with
  | (.fake, pc') => (wrapOutExecve pc', pc'.retval < 0)
  | (.callonxit, pc') => bif x.kernel then (pc', false) else (wrapOutExecve pc', true)
  | (.std, pc') => (pc', !x.kernel)

def Neutral (x : Execve) (pc : Pcb) : Prop :=
  (execve x pc).1.uid = pc.uid ∧ (execve x pc).1.gid = pc.gid

def Managed.refuses (x : Execve) (m : Managed) : Bool :=
  (x.secure && m.noexec) ||
    match m.execve with
    | none => m.filecopy < 0
    | some (retval, _) => bif retval == erestartsys then m.filecopy < 0 else retval < 0

def Execve.restores (x : Execve) (retval : Int) : Bool :=
  match x.binfmt, x.hte with
  | some absolute, _ => !absolute
  | none, some m => m.refuses x
  | none, none => x.needsPathRewrite && retval < 0

def Settled (p : Ids) : Prop := p.e = p.s ∧ p.fs = p.s

def Kept (bit : Bool) (owner : UInt32) (p : Ids) : Prop :=
  bif bit then p.s = p.e ∧ p.e = owner ∧ p.fs = owner else p.r = p.e → p.s = p.r

structure Execve.Spares (x : Execve) (pc : Pcb) : Prop where
  denied : x.access.isSome → Settled pc.uid ∧ Settled pc.gid
  restored : x.access = none → x.restores pc.retval = true →
    Settled pc.uid ∧ Settled pc.gid ∧ (x.hides → pc.uid.r = 0 ∧ pc.uid.s = 0)
  kept : x.access = none → x.restores pc.retval = false →
    (x.manages → Kept x.setgid x.group pc.gid) ∧
      if x.hides then pc.uid.r = 0 ∧ pc.uid.s = 0 ∧
        (x.setuid → pc.uid.e = x.owner ∧ pc.uid.fs = x.owner)
      else x.manages → Kept x.setuid x.owner pc.uid

section

variable {x : Execve} {pc : Pcb} {p : Ids} {bit : Bool} {owner : UInt32}

theorem restore_eq_iff : restore p = p ↔ Settled p := by
  obtain ⟨r,e,s,fs⟩ := p
  simp only [restore,Settled,Ids.mk.injEq,true_and]
  exact ⟨fun h => ⟨h.1.symm,h.2.symm⟩,fun h => ⟨h.1.symm,h.2.symm⟩⟩

theorem setExec_eq_iff : setExec bit owner p = p ↔ Kept bit owner p := by
  obtain ⟨r,e,s,fs⟩ := p
  cases bit with
  | true =>
    simp only [setExec,Kept,cond_true,Ids.mk.injEq,true_and]
    exact ⟨fun h => ⟨h.2.1.symm,h.1.symm,h.2.2.symm⟩,
      fun h => ⟨h.2.1.symm,h.1.symm,h.2.2.symm⟩⟩
  | false =>
    simp only [setExec,Kept,cond_false]
    split_ifs with h
    · simp only [Ids.mk.injEq,true_and,and_true]
      exact ⟨fun hs _ => hs.symm,fun hs => (hs h).symm⟩
    · exact iff_of_true rfl fun h' => absurd h' h

theorem restore_setExec_eq_iff : restore (setExec bit owner p) = p ↔ Settled p := by
  obtain ⟨r,e,s,fs⟩ := p
  cases bit with
  | true =>
    simp only [setExec,restore,Settled,cond_true,Ids.mk.injEq,true_and]
    constructor
    · rintro ⟨rfl,rfl⟩
      exact ⟨rfl,rfl⟩
    · rintro ⟨rfl,rfl⟩
      exact ⟨rfl,rfl⟩
  | false =>
    simp only [setExec,cond_false]
    split_ifs with h
    · have hre : r = e := h
      subst hre
      simp only [restore,Settled,Ids.mk.injEq,true_and]
      constructor
      · rintro ⟨rfl,rfl⟩
        exact ⟨rfl,rfl⟩
      · rintro ⟨rfl,rfl⟩
        exact ⟨rfl,rfl⟩
    · exact restore_eq_iff

theorem setids_gid : (x.setids pc).gid =
    bif x.manages then setExec x.setgid x.group pc.gid else pc.gid := by
  unfold Execve.setids
  cases x.manages <;> cases x.hides <;> rfl

theorem manages_of_hides (h : x.hides = true) : x.manages = true := by
  rw [Execve.hides,Bool.and_eq_true] at h
  rw [Execve.manages,h.1,Bool.true_or]

theorem setids_uid : (x.setids pc).uid =
    bif x.hides then { setExec x.setuid x.owner pc.uid with r := 0, s := 0 }
    else bif x.manages then setExec x.setuid x.owner pc.uid else pc.uid := by
  cases hh : x.hides with
  | true => simp only [Execve.setids,hh,manages_of_hides hh,cond_true]
  | false => cases hm : x.manages <;> simp only [Execve.setids,hh,hm,cond_true,cond_false]

theorem restored_gid_iff : restore (x.setids pc).gid = pc.gid ↔ Settled pc.gid := by
  rw [setids_gid]
  cases x.manages
  · exact restore_eq_iff
  · exact restore_setExec_eq_iff

theorem kept_gid_iff :
    (x.setids pc).gid = pc.gid ↔ (x.manages → Kept x.setgid x.group pc.gid) := by
  rw [setids_gid]
  cases x.manages
  · exact iff_of_true rfl fun h => Bool.noConfusion h
  · exact setExec_eq_iff.trans ⟨fun h _ => h,fun h => h rfl⟩

theorem restored_uid_iff : restore (x.setids pc).uid = pc.uid ↔
    Settled pc.uid ∧ (x.hides → pc.uid.r = 0 ∧ pc.uid.s = 0) := by
  rw [setids_uid]
  cases x.hides with
  | true =>
    rw [cond_true,forall_prop_of_true rfl]
    constructor
    · intro h
      rw [← h]
      exact ⟨⟨rfl,rfl⟩,rfl,rfl⟩
    · rintro ⟨hset,hr,hs⟩
      have he := hset.1.trans hs
      have hfs := hset.2.trans hs
      rcases hp : pc.uid with ⟨r,e,s,fs⟩
      rw [hp] at hr hs he hfs
      cases hr
      cases hs
      cases he
      cases hfs
      cases x.setuid <;> rfl
  | false =>
    rw [cond_false,and_iff_left fun h => Bool.noConfusion h]
    cases x.manages
    · exact restore_eq_iff
    · exact restore_setExec_eq_iff

theorem kept_uid_iff : (x.setids pc).uid = pc.uid ↔
    if x.hides then pc.uid.r = 0 ∧ pc.uid.s = 0 ∧
      (x.setuid → pc.uid.e = x.owner ∧ pc.uid.fs = x.owner)
    else x.manages → Kept x.setuid x.owner pc.uid := by
  rw [setids_uid]
  cases x.hides with
  | true =>
    rw [cond_true,if_pos rfl]
    rcases pc.uid with ⟨r,e,s,fs⟩
    cases x.setuid with
    | true =>
      simp only [setExec,cond_true,Ids.mk.injEq,forall_const]
      exact ⟨fun h => ⟨h.1.symm,h.2.2.1.symm,h.2.1.symm,h.2.2.2.symm⟩,
        fun h => ⟨h.1.symm,h.2.2.1.symm,h.2.1.symm,h.2.2.2.symm⟩⟩
    | false =>
      have hkept : ({ setExec false x.owner ⟨r,e,s,fs⟩ with r := 0, s := 0 } : Ids) =
          ⟨0,e,0,fs⟩ := by
        unfold setExec
        rw [cond_false]
        split_ifs <;> rfl
      rw [hkept]
      simp only [Ids.mk.injEq,true_and,and_true,Bool.false_eq_true,false_implies]
      exact ⟨fun h => ⟨h.1.symm,h.2.symm⟩,fun h => ⟨h.1.symm,h.2.symm⟩⟩
  | false =>
    rw [cond_false,if_neg Bool.false_ne_true]
    cases x.manages
    · exact iff_of_true rfl fun h => Bool.noConfusion h
    · exact setExec_eq_iff.trans ⟨fun h _ => h,fun h => h rfl⟩

structure Leaves (x : Execve) (pc pc' : Pcb) : Prop where
  restored : x.restores pc.retval = true →
    pc'.uid = restore (x.setids pc).uid ∧ pc'.gid = restore (x.setids pc).gid
  kept : x.restores pc.retval = false →
    pc'.uid = (x.setids pc).uid ∧ pc'.gid = (x.setids pc).gid

theorem wrapOut_of_neg (h : pc.retval < 0) :
    (wrapOutExecve pc).uid = restore pc.uid ∧ (wrapOutExecve pc).gid = restore pc.gid := by
  rw [wrapOutExecve,if_pos h]
  exact ⟨rfl,rfl⟩

theorem wrapOut_of_nonneg (h : 0 ≤ pc.retval) : wrapOutExecve pc = pc :=
  if_neg (Int.not_lt.mpr h)

theorem setids_retval : (x.setids pc).retval = pc.retval := by
  unfold Execve.setids
  cases x.manages <;> cases x.hides <;> rfl

theorem Leaves.of_neg {pc' : Pcb} (hr : x.restores pc.retval = true) (h : pc'.retval < 0)
    (hu : pc'.uid = (x.setids pc).uid) (hg : pc'.gid = (x.setids pc).gid) :
    Leaves x pc (wrapOutExecve pc') := by
  refine ⟨fun _ => ?_,fun hk => absurd (hr.symm.trans hk) (by decide)⟩
  rw [← hu,← hg]
  exact wrapOut_of_neg h

theorem Leaves.of_kept {pc' : Pcb} (hr : x.restores pc.retval = false)
    (hu : pc'.uid = (x.setids pc).uid) (hg : pc'.gid = (x.setids pc).gid) : Leaves x pc pc' :=
  ⟨fun hk => absurd (hr.symm.trans hk) (by decide),fun _ => ⟨hu,hg⟩⟩

def Execve.exit (x : Execve) : Behavior × Pcb → Pcb × Bool
  | (.fake, pc) => (wrapOutExecve pc, decide (pc.retval < 0))
  | (.callonxit, pc) => bif x.kernel then (pc, false) else (wrapOutExecve pc, true)
  | (.std, pc) => (pc, !x.kernel)

theorem execve_eq : execve x pc = x.exit (wrapInExecve x pc) := by
  rw [execve]
  rcases wrapInExecve x pc with ⟨_ | _ | _,pc'⟩ <;> rfl

theorem kernel_of_failed {pc' : Pcb} (hf : (x.exit (.callonxit, pc')).2 = true) :
    x.kernel = false := by
  cases hk : x.kernel with
  | false => rfl
  | true =>
    rw [Execve.exit,hk] at hf
    cases hf

theorem Leaves.copied (m : Managed) (pc' : Pcb) (hu : pc'.uid = (x.setids pc).uid)
    (hg : pc'.gid = (x.setids pc).gid) (hr : x.restores pc.retval = decide (m.filecopy < 0))
    {b : Behavior × Pcb} (hb : b = if 0 ≤ m.filecopy then
      (.callonxit, { pc' with retval := m.filecopy })
      else (.fake, { pc' with retval := -1, erno := -m.filecopy }))
    (hf : (x.exit b).2 = true) : Leaves x pc (x.exit b).1 := by
  by_cases hc : 0 ≤ m.filecopy
  · rw [if_pos hc] at hb
    subst hb
    rw [Execve.exit,kernel_of_failed hf,cond_false,wrapOut_of_nonneg hc]
    exact Leaves.of_kept (hr.trans (decide_eq_false (Int.not_lt.mpr hc))) hu hg
  · rw [if_neg hc] at hb
    subst hb
    show Leaves x pc (wrapOutExecve { pc' with retval := -1, erno := -m.filecopy })
    refine Leaves.of_neg (hr.trans (decide_eq_true (Int.not_le.mp hc))) ?_ hu hg
    exact (by decide : (-1 : Int) < 0)

theorem Leaves.managed {m : Managed} (ha : x.access = none) (hb : x.binfmt = none)
    (hh : x.hte = some m) (hf : (execve x pc).2 = true) : Leaves x pc (execve x pc).1 := by
  have hin : wrapInExecve x pc = m.run x (x.setids pc) := by simp only [wrapInExecve,ha,hb,hh]
  have hrest : x.restores pc.retval = m.refuses x := by simp only [Execve.restores,hb,hh]
  rw [execve_eq,hin] at hf ⊢
  by_cases hno : x.secure ∧ m.noexec
  · have hrun : m.run x (x.setids pc) =
        (.fake, { x.setids pc with retval := -1, erno := eacces }) := by
      rw [Managed.run,if_pos hno]
      rfl
    rw [hrun]
    show Leaves x pc (wrapOutExecve { x.setids pc with retval := -1, erno := eacces })
    refine Leaves.of_neg ?_ (by decide : (-1 : Int) < 0) rfl rfl
    rw [hrest,Managed.refuses,hno.1,hno.2]
    rfl
  · have hclear : (x.secure && m.noexec) = false := by
      rw [← Bool.not_eq_true,Bool.and_eq_true]
      exact hno
    cases hx : m.execve with
    | none =>
      refine Leaves.copied m { x.setids pc with retval := erestartsys } rfl rfl ?_ ?_ hf
      · rw [hrest,Managed.refuses,hclear,hx]
        rfl
      · simp only [Managed.run,if_neg hno,hx,if_true]
    | some answer =>
      obtain ⟨retval,errno⟩ := answer
      by_cases hret : retval = erestartsys
      · refine Leaves.copied m { x.setids pc with
            retval := retval, erno := if retval < 0 then errno else (x.setids pc).erno }
          rfl rfl ?_ ?_ hf
        · simp only [hrest,Managed.refuses,hclear,hx,hret,beq_self_eq_true,cond_true,
            Bool.false_or]
        · simp only [Managed.run,if_neg hno,hx,if_pos hret]
      · have hrun : m.run x (x.setids pc) = (.fake, { x.setids pc with
            retval := retval, erno := if retval < 0 then errno else (x.setids pc).erno }) := by
          simp only [Managed.run,if_neg hno,hx,if_neg hret]
        rw [hrun] at hf ⊢
        have hneg : retval < 0 := of_decide_eq_true hf
        refine Leaves.of_neg ?_ hneg rfl rfl
        simp only [hrest,Managed.refuses,hclear,hx,beq_false_of_ne hret,cond_false,
          Bool.false_or,hneg,decide_true]

theorem leaves_of_failed (ha : x.access = none) (hf : (execve x pc).2 = true) :
    Leaves x pc (execve x pc).1 := by
  cases hb : x.binfmt with
  | some absolute =>
    have hrest : x.restores pc.retval = !absolute := by simp only [Execve.restores,hb]
    cases absolute with
    | false =>
      simp only [execve,wrapInExecve,ha,hb]
      exact Leaves.of_neg hrest (by decide : (-1 : Int) < 0) rfl rfl
    | true =>
      cases hv : x.argvReadable with
      | true =>
        have hin : wrapInExecve x pc = (.callonxit, { x.setids pc with retval := 0 }) := by
          simp only [wrapInExecve,ha,hb,hv,cond_true]
        rw [execve_eq,hin] at hf ⊢
        rw [Execve.exit,kernel_of_failed hf]
        exact Leaves.of_kept hrest rfl rfl
      | false =>
        simp only [execve,wrapInExecve,ha,hb,hv,cond_false]
        exact Leaves.of_kept hrest rfl rfl
  | none =>
    cases hh : x.hte with
    | some m => exact Leaves.managed ha hb hh hf
    | none =>
      have hrest : x.restores pc.retval = (x.needsPathRewrite && decide (pc.retval < 0)) := by
        simp only [Execve.restores,hb,hh]
      cases hn : x.needsPathRewrite with
      | false =>
        rw [hn] at hrest
        simp only [execve,wrapInExecve,ha,hb,hh,hn,cond_false]
        exact Leaves.of_kept hrest rfl rfl
      | true =>
        rw [hn,Bool.true_and] at hrest
        have hin : wrapInExecve x pc = (.callonxit, x.setids pc) := by
          simp only [wrapInExecve,ha,hb,hh,hn,cond_true]
        rw [execve_eq,hin] at hf ⊢
        rw [Execve.exit,kernel_of_failed hf,cond_false]
        by_cases hneg : (x.setids pc).retval < 0
        · rw [setids_retval] at hneg
          exact Leaves.of_neg (hrest.trans (decide_eq_true hneg))
            (by rw [setids_retval]; exact hneg) rfl rfl
        · rw [wrapOut_of_nonneg (Int.not_lt.mp hneg)]
          rw [setids_retval] at hneg
          exact Leaves.of_kept (hrest.trans (decide_eq_false hneg)) rfl rfl

end

theorem failed_execve_iff (x : Execve) (pc : Pcb) (hf : (execve x pc).2 = true) :
    Neutral x pc ↔ x.Spares pc := by
  cases ha : x.access with
  | some errno =>
    have hleft : Neutral x pc ↔ Settled pc.uid ∧ Settled pc.gid := by
      simp only [Neutral,execve,wrapInExecve,ha]
      rw [← restore_eq_iff,← restore_eq_iff]
      rfl
    rw [hleft]
    refine ⟨fun h => ⟨fun _ => h,?_,?_⟩,fun h => h.denied (by rw [ha]; rfl)⟩
    · intro hn
      cases ha.symm.trans hn
    · intro hn
      cases ha.symm.trans hn
  | none =>
    have hl := leaves_of_failed ha hf
    have hden : x.access.isSome → Settled pc.uid ∧ Settled pc.gid := by
      rw [ha]
      exact fun h => Bool.noConfusion h
    cases hr : x.restores pc.retval with
    | true =>
      obtain ⟨hu,hg⟩ := hl.restored hr
      rw [Neutral,hu,hg,restored_uid_iff,restored_gid_iff]
      constructor
      · rintro ⟨⟨h1,h2⟩,h3⟩
        exact ⟨hden,fun _ _ => ⟨h1,h3,h2⟩,fun _ h => absurd (hr.symm.trans h) (by decide)⟩
      · intro h
        obtain ⟨h1,h3,h2⟩ := h.restored ha hr
        exact ⟨⟨h1,h2⟩,h3⟩
    | false =>
      obtain ⟨hu,hg⟩ := hl.kept hr
      rw [Neutral,hu,hg,kept_uid_iff,kept_gid_iff]
      constructor
      · rintro ⟨h1,h2⟩
        exact ⟨hden,fun _ h => absurd (hr.symm.trans h) (by decide),fun _ _ => ⟨h2,h1⟩⟩
      · intro h
        exact (h.kept ha hr).symm

def shellPcb : Pcb := ⟨⟨1000, 1000, 1000, 1000⟩, ⟨100, 100, 100, 100⟩, 0, 0⟩

def suidRoot : Execve :=
  ⟨true, none, false, true, false, 0, 0, false, none, true, none, true, false⟩

def relativeScript : Execve := { suidRoot with binfmt := some false }

theorem relative_script_neutral : Neutral relativeScript shellPcb := by
  refine (failed_execve_iff relativeScript shellPcb (by decide)).mpr ?_
  refine ⟨fun h => Bool.noConfusion h,fun _ _ => ⟨⟨rfl,rfl⟩,⟨rfl,rfl⟩,?_⟩,?_⟩
  · exact fun h => Bool.noConfusion h
  · exact fun _ h => Bool.noConfusion h

theorem failed_execve_keeps_root :
    (execve suidRoot shellPcb).2 = true ∧ ¬Neutral suidRoot shellPcb := by
  refine ⟨by decide,fun h => ?_⟩
  exact absurd h.1 (by decide)

end ViewOS.Exec.Credentials
