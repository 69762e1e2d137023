import Mathlib.Tactic.Common

namespace ViewOS.Misc

inductive AccessErrno where
  | enoent
  | erofs
  | eacces
  deriving DecidableEq, Repr

structure FileStat where
  mode : BitVec 32
  uid : UInt32
  gid : UInt32
  deriving DecidableEq, Repr

structure Credentials where
  ruid : UInt32
  rgid : UInt32
  fsuid : UInt32
  fsgid : UInt32
  grouplist : List UInt32
  deriving DecidableEq, Repr

structure Host where
  uid : UInt32
  gid : UInt32
  deriving DecidableEq, Repr

def wOk : BitVec 32 := 2#32
def xOk : BitVec 32 := 1#32
def msRdonly : BitVec 32 := 1#32
def anyExec : BitVec 32 := 0o111#32

def inSupgrplist (gid : UInt32) (pc : Credentials) : Bool := pc.grouplist.any (· == gid)

-- The mount flags of the file's service, and none where no service manages it.
def mountflags (hte : Option (BitVec 32)) : BitVec 32 := hte.getD 0

def userOf (host : Host) (hte : Option (BitVec 32)) (pc : Credentials) (realUid : Bool) : UInt32 :=
  if hte = none then host.uid else bif realUid then pc.ruid else pc.fsuid

def groupOf (host : Host) (hte : Option (BitVec 32)) (pc : Credentials) (realUid : Bool) : UInt32 :=
  if hte = none then host.gid else bif realUid then pc.rgid else pc.fsgid

inductive Class where
  | owner
  | group
  | other
  deriving DecidableEq, Repr

def Class.bits (mode : BitVec 32) : Class → BitVec 32
  | .owner => (mode &&& 0o700#32) >>> 6
  | .group => (mode &&& 0o070#32) >>> 3
  | .other => mode &&& 0o007#32

def Class.allows (c : Class) (st : FileStat) (mode : BitVec 32) : Bool :=
  c.bits st.mode &&& mode == mode

def writesReadOnly (hte : Option (BitVec 32)) (mode : BitVec 32) : Bool :=
  mode &&& wOk != 0 && mountflags hte &&& msRdonly != 0

def umStat2access (secure : Bool) (host : Host) (hte : Option (BitVec 32)) (mode : BitVec 32)
    (pc : Credentials) (st : FileStat) (realUid : Bool) : Except AccessErrno Unit :=
  if st.mode = 0 then .error .enoent
  else if writesReadOnly hte mode then .error .erofs
  else
    let uid := userOf host hte pc realUid
    let gid := groupOf host hte pc realUid
    if uid = 0 ∨ secure = false then
      if mode &&& xOk ≠ 0 ∧ st.mode &&& anyExec = 0 then .error .eacces else .ok ()
    else if uid = st.uid ∧ Class.owner.allows st mode then .ok ()
    else if (gid = st.gid ∨ inSupgrplist st.gid pc) ∧ Class.group.allows st mode then .ok ()
    else if Class.other.allows st mode then .ok ()
    else .error .eacces

section Rule

variable (flags mode : BitVec 32) (pc : Credentials) (st : FileStat) (realUid : Bool)

def Credentials.uid : UInt32 := bif realUid then pc.ruid else pc.fsuid

def Credentials.gid : UInt32 := bif realUid then pc.rgid else pc.fsgid

def Credentials.In (c : Class) : Prop :=
  match c with
  | .owner => pc.uid realUid = st.uid
  | .group => pc.gid realUid = st.gid ∨ st.gid ∈ pc.grouplist
  | .other => True

inductive Decides : Class → Prop
  | owner : pc.In st realUid .owner → Decides .owner
  | group : ¬pc.In st realUid .owner → pc.In st realUid .group → Decides .group
  | other : ¬pc.In st realUid .owner → ¬pc.In st realUid .group → Decides .other

def Granted : Prop :=
  writesReadOnly (some flags) mode = false ∧ ∀ c, Decides pc st realUid c → c.allows st mode

structure Exclusive : Prop where
  present : st.mode = 0 → mode ≠ 0
  later : writesReadOnly (some flags) mode = false →
    ∀ c c', Decides pc st realUid c → pc.In st realUid c' → c'.allows st mode → c.allows st mode

end Rule

section

variable {host : Host} {flags mode : BitVec 32} {pc : Credentials} {st : FileStat}
  {realUid : Bool}

theorem exists_decides (pc : Credentials) (st : FileStat) (realUid : Bool) :
    ∃ c, Decides pc st realUid c ∧ pc.In st realUid c := by
  by_cases ho : pc.In st realUid .owner
  · exact ⟨.owner,.owner ho,ho⟩
  · by_cases hg : pc.In st realUid .group
    · exact ⟨.group,.group ho hg,hg⟩
    · exact ⟨.other,.other ho hg,trivial⟩

theorem Decides.unique {c c' : Class} (h : Decides pc st realUid c)
    (h' : Decides pc st realUid c') : c = c' := by
  cases h with
  | owner ho =>
    cases h' with
    | owner _ => rfl
    | group hn _ => exact absurd ho hn
    | other hn _ => exact absurd ho hn
  | group hn hg =>
    cases h' with
    | owner ho => exact absurd ho hn
    | group _ _ => rfl
    | other _ hn' => exact absurd hg hn'
  | other hn hn' =>
    cases h' with
    | owner ho => exact absurd ho hn
    | group _ hg => exact absurd hg hn'
    | other _ _ => rfl

theorem mem_supgrplist (gid : UInt32) (pc : Credentials) :
    inSupgrplist gid pc = true ↔ gid ∈ pc.grouplist := by
  simp [inSupgrplist]

theorem access_ok_iff (hroot : pc.uid realUid ≠ 0) (hex : st.mode ≠ 0)
    (hro : writesReadOnly (some flags) mode = false) :
    umStat2access true host (some flags) mode pc st realUid = .ok () ↔
      ∃ c, pc.In st realUid c ∧ c.allows st mode := by
  have huid : userOf host (some flags) pc realUid = pc.uid realUid := rfl
  have hgid : groupOf host (some flags) pc realUid = pc.gid realUid := rfl
  have hnot : ¬(pc.uid realUid = 0 ∨ true = false) := by simpa using hroot
  rw [umStat2access,if_neg hex,if_neg (by rw [hro]; decide),huid,hgid,if_neg hnot]
  constructor
  · intro h
    split_ifs at h with ho hg ht
    · exact ⟨.owner,ho⟩
    · exact ⟨.group,hg.1.imp_right (mem_supgrplist _ _).mp,hg.2⟩
    · exact ⟨.other,trivial,ht⟩
  · rintro ⟨c,hin,hc⟩
    split_ifs with ho hg ht
    · rfl
    · rfl
    · rfl
    · cases c with
      | owner => exact absurd ⟨hin,hc⟩ ho
      | group => exact absurd ⟨hin.imp_right (mem_supgrplist _ _).mpr,hc⟩ hg
      | other => exact absurd hc ht

theorem allows_of_zero {c : Class} (h : st.mode = 0) : c.allows st mode = true ↔ mode = 0 := by
  have hbits : c.bits 0 = 0 := by cases c <;> rfl
  rw [Class.allows,h,hbits,beq_iff_eq]
  constructor
  · intro hm
    rw [← hm]
    exact BitVec.zero_and
  · intro hm
    rw [hm]
    rfl

end

theorem access_posix_iff (host : Host) (flags mode : BitVec 32) (pc : Credentials) (st : FileStat)
    (realUid : Bool) (hroot : pc.uid realUid ≠ 0) :
    (umStat2access true host (some flags) mode pc st realUid = .ok () ↔
      Granted flags mode pc st realUid) ↔ Exclusive flags mode pc st realUid := by
  obtain ⟨d,hd,hin⟩ := exists_decides pc st realUid
  have hgranted : Granted flags mode pc st realUid ↔
      writesReadOnly (some flags) mode = false ∧ d.allows st mode :=
    and_congr_right fun _ => ⟨fun h => h d hd,fun h c hc => hc.unique hd ▸ h⟩
  rw [hgranted]
  by_cases hex : st.mode = 0
  · have hno : umStat2access true host (some flags) mode pc st realUid ≠ .ok () := by
      rw [umStat2access,if_pos hex]
      intro h
      cases h
    rw [iff_false_left hno,allows_of_zero hex]
    constructor
    · intro h
      refine ⟨fun _ hm => h ⟨by rw [writesReadOnly,hm]; rfl,hm⟩,fun _ c c' _ _ hc' => ?_⟩
      rw [allows_of_zero hex] at hc' ⊢
      exact hc'
    · exact fun h hand => h.present hex hand.2
  · cases hro : writesReadOnly (some flags) mode with
    | true =>
      have hno : umStat2access true host (some flags) mode pc st realUid ≠ .ok () := by
        rw [umStat2access,if_neg hex,if_pos hro]
        intro h
        cases h
      refine iff_of_true (iff_of_false hno fun h => Bool.noConfusion h.1) ⟨fun h => absurd h hex,?_⟩
      intro hro'
      rw [hro] at hro'
      cases hro'
    | false =>
      rw [access_ok_iff hroot hex hro,and_iff_right rfl]
      constructor
      · refine fun h => ⟨fun h' => absurd h' hex,fun _ c c' hc hin' hc' => ?_⟩
        rw [hc.unique hd]
        exact h.mp ⟨c',hin',hc'⟩
      · refine fun h => ⟨?_,fun hc => ⟨d,hin,hc⟩⟩
        rintro ⟨c',hin',hc'⟩
        exact h.later hro d c' hd hin' hc'

def ownerPc : Credentials := ⟨1000, 100, 1000, 100, [7, 8]⟩

theorem access_posix_private :
    umStat2access true ⟨0, 0⟩ (some 0) 4#32 ownerPc ⟨0o100640#32, 5, 8⟩ false = .ok () ↔
      Granted 0 4#32 ownerPc ⟨0o100640#32, 5, 8⟩ false := by
  refine (access_posix_iff ⟨0,0⟩ 0 4#32 ownerPc ⟨0o100640#32,5,8⟩ false (by decide)).mpr ?_
  refine ⟨fun h => absurd h (by decide),fun _ c c' hc _ _ => ?_⟩
  cases hc with
  | owner _ => decide
  | group _ _ => decide
  | other _ hg => exact absurd (.inr (by decide)) hg

theorem denied_owner_admitted :
    umStat2access true ⟨0, 0⟩ (some 0) 4#32 ownerPc ⟨0o100004#32, 1000, 9⟩ false = .ok () ∧
      ¬Granted 0 4#32 ownerPc ⟨0o100004#32, 1000, 9⟩ false := by
  refine ⟨by decide,fun h => ?_⟩
  exact absurd (h.2 .owner (.owner rfl)) (by decide)

end ViewOS.Misc
