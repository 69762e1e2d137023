import Mathlib.Tactic.Common

namespace ViewOS.Misc

def noId : UInt32 := 0xffffffff

def eperm : Int := 1

def id16to32 (id : UInt32) : UInt32 := if id = 0xffff then noId else id

def widen (wide : Bool) (id : UInt32) : UInt32 := bif wide then id else id16to32 id

-- The real, effective, saved and file system id: of the user or of the group.
structure Ids where
  r : UInt32
  e : UInt32
  s : UInt32
  fs : UInt32
  deriving DecidableEq, Repr

structure Pcb where
  uid : Ids
  gid : Ids
  retval : Int
  erno : Int
  deriving DecidableEq, Repr

inductive Capability where
  | setuid
  | setgid
  deriving DecidableEq, Repr

def capcheck (_ : Capability) (pc : Pcb) : Int := if pc.uid.e = 0 then 0 else -1

def refused (p : Ids) (r e s fs : UInt32) : Bool :=
  (r != noId && r != p.r && r != p.s) || (e != noId && e != p.r && e != p.e && e != p.s) ||
    (s != noId && s != p.s) || (fs != noId && fs != p.fs)

def checksecureuid (pc : Pcb) (ruid euid suid fsuid : UInt32) : Int :=
  if capcheck .setuid pc ≠ 0 then
    if refused pc.uid ruid euid suid fsuid then -1 else 0
  else 0

-- The test of the capability is the other way round.
def checksecuregid (pc : Pcb) (rgid egid sgid fsgid : UInt32) : Int :=
  if capcheck .setgid pc ≠ 0 then 0
  else
    if refused pc.gid rgid egid sgid fsgid then -1 else 0

-- What the six wrappers do after their arguments are read: service is the answer (value and errno)
-- of the module that manages the call, if there is one.
def answer (secure : Bool) (rv : Int) (service : Option (Int × Int)) (pc pc' : Pcb) : Pcb :=
  if secure ∧ rv ≠ 0 then { pc with retval := -1, erno := eperm }
  else
    match service with
    | some (retval, errno) =>
      { pc with retval := retval, erno := if retval < 0 then errno else pc.erno }
    | none => { pc' with retval := 0, erno := 0 }

inductive Sc where
  | setid
  | setfsid
  deriving DecidableEq, Repr

def Ids.setid (p : Ids) (id : UInt32) : Sc → Ids
  | .setid => if p.e = 0 then { p with r := id, e := id, fs := id } else { p with e := id, fs := id }
  | .setfsid => { p with fs := id }

def Ids.setreid (p : Ids) (id1 id2 : UInt32) : Ids :=
  let p := if id1 ≠ noId then { p with r := id1 } else p
  if id2 ≠ noId then { p with e := id2, fs := id2 } else p

-- A saved id is given, but the effective one is stored.
def Ids.setresid (p : Ids) (id1 id2 id3 : UInt32) : Ids :=
  let p := p.setreid id1 id2
  if id3 ≠ noId then { p with s := id2 } else p

def wrapInSetuid (secure : Bool) (sc : Sc) (wide : Bool) (arg : UInt32)
    (service : Option (Int × Int)) (pc : Pcb) : Pcb :=
  let uid := widen wide arg
  let rv := match sc with
    | .setid => checksecureuid pc uid noId noId noId
    | .setfsid => checksecureuid pc noId noId noId uid
  answer secure rv service pc { pc with uid := pc.uid.setid uid sc }

def wrapInSetgid (secure : Bool) (sc : Sc) (wide : Bool) (arg : UInt32)
    (service : Option (Int × Int)) (pc : Pcb) : Pcb :=
  let gid := widen wide arg
  let rv := match sc with
    | .setid => checksecuregid pc gid noId noId noId
    | .setfsid => checksecuregid pc noId noId noId gid
  answer secure rv service pc { pc with gid := pc.gid.setid gid sc }

def wrapInSetreuid (secure wide : Bool) (arg1 arg2 : UInt32) (service : Option (Int × Int))
    (pc : Pcb) : Pcb :=
  let uid1 := widen wide arg1
  let uid2 := widen wide arg2
  answer secure (checksecureuid pc uid1 uid2 noId noId) service pc
    { pc with uid := pc.uid.setreid uid1 uid2 }

def wrapInSetregid (secure wide : Bool) (arg1 arg2 : UInt32) (service : Option (Int × Int))
    (pc : Pcb) : Pcb :=
  let gid1 := widen wide arg1
  let gid2 := widen wide arg2
  answer secure (checksecuregid pc gid1 gid2 noId noId) service pc
    { pc with gid := pc.gid.setreid gid1 gid2 }

def wrapInSetresuid (secure wide : Bool) (arg1 arg2 arg3 : UInt32)
    (service : Option (Int × Int)) (pc : Pcb) : Pcb :=
  let uid1 := widen wide arg1
  let uid2 := widen wide arg2
  let uid3 := widen wide arg3
  answer secure (checksecureuid pc uid1 uid2 uid3 noId) service pc
    { pc with uid := pc.uid.setresid uid1 uid2 uid3 }

def wrapInSetresgid (secure wide : Bool) (arg1 arg2 arg3 : UInt32)
    (service : Option (Int × Int)) (pc : Pcb) : Pcb :=
  let gid1 := widen wide arg1
  let gid2 := widen wide arg2
  let gid3 := widen wide arg3
  answer secure (checksecuregid pc gid1 gid2 gid3 noId) service pc
    { pc with gid := pc.gid.setresid gid1 gid2 gid3 }

inductive Call where
  | setuid (wide : Bool) (uid : UInt32)
  | setfsuid (wide : Bool) (uid : UInt32)
  | setreuid (wide : Bool) (uid1 uid2 : UInt32)
  | setresuid (wide : Bool) (uid1 uid2 uid3 : UInt32)
  | setgid (wide : Bool) (gid : UInt32)
  | setfsgid (wide : Bool) (gid : UInt32)
  | setregid (wide : Bool) (gid1 gid2 : UInt32)
  | setresgid (wide : Bool) (gid1 gid2 gid3 : UInt32)
  deriving DecidableEq, Repr

def perform (secure : Bool) (service : Option (Int × Int)) (pc : Pcb) : Call → Pcb
  | .setuid wide uid => wrapInSetuid secure .setid wide uid service pc
  | .setfsuid wide uid => wrapInSetuid secure .setfsid wide uid service pc
  | .setreuid wide uid1 uid2 => wrapInSetreuid secure wide uid1 uid2 service pc
  | .setresuid wide uid1 uid2 uid3 => wrapInSetresuid secure wide uid1 uid2 uid3 service pc
  | .setgid wide gid => wrapInSetgid secure .setid wide gid service pc
  | .setfsgid wide gid => wrapInSetgid secure .setfsid wide gid service pc
  | .setregid wide gid1 gid2 => wrapInSetregid secure wide gid1 gid2 service pc
  | .setresgid wide gid1 gid2 gid3 => wrapInSetresgid secure wide gid1 gid2 gid3 service pc

def securely (pc : Pcb) (c : Call) : Pcb := perform true none pc c

end ViewOS.Misc
