import ViewOS.Misc.Ids

namespace ViewOS.Misc

def id32to16 (id : UInt32) : UInt16 := if id = noId then 0xffff else id.toUInt16

def narrowed (wide : Bool) (id : UInt32) : UInt32 := bif wide then id else (id32to16 id).toUInt32

structure Reading where
  r : UInt32
  e : UInt32
  s : UInt32
  deriving DecidableEq, Repr

def Reading.narrowed (wide : Bool) (v : Reading) : Reading :=
  ⟨Misc.narrowed wide v.r, Misc.narrowed wide v.e, Misc.narrowed wide v.s⟩

def getres (wide : Bool) (p : Ids) (service : Option (Int × Int × Reading)) (pc : Pcb) :
    Pcb × Option Reading :=
  match service with
  | some (retval, errno, v) =>
    if 0 ≤ retval then ({ pc with retval := retval }, some (v.narrowed wide))
    else ({ pc with retval := retval, erno := errno }, none)
  | none => ({ pc with retval := 0, erno := 0 }, some (Reading.narrowed wide ⟨p.r, p.e, p.s⟩))

def wrapInGetresuid (wide : Bool) (service : Option (Int × Int × Reading)) (pc : Pcb) :
    Pcb × Option Reading :=
  getres wide pc.uid service pc

def wrapInGetresgid (wide : Bool) (service : Option (Int × Int × Reading)) (pc : Pcb) :
    Pcb × Option Reading :=
  getres wide pc.gid service pc

-- A setreuid or setregid (two arguments), or a setresuid or setresgid (three).
structure Request where
  group : Bool
  wide : Bool
  arg1 : UInt32
  arg2 : UInt32
  arg3 : Option UInt32

namespace Request

def call (q : Request) : Call :=
  match q.group, q.arg3 with
  | false, none => .setreuid q.wide q.arg1 q.arg2
  | false, some arg3 => .setresuid q.wide q.arg1 q.arg2 arg3
  | true, none => .setregid q.wide q.arg1 q.arg2
  | true, some arg3 => .setresgid q.wide q.arg1 q.arg2 arg3

def ids (q : Request) (pc : Pcb) : Ids := bif q.group then pc.gid else pc.uid

def get (q : Request) (wide : Bool) (pc : Pcb) : Option Reading :=
  bif q.group then (wrapInGetresgid wide none pc).2 else (wrapInGetresuid wide none pc).2

def stored (q : Request) (p : Ids) : Ids :=
  match q.arg3 with
  | none => p.setreid (widen q.wide q.arg1) (widen q.wide q.arg2)
  | some arg3 => p.setresid (widen q.wide q.arg1) (widen q.wide q.arg2) (widen q.wide arg3)

end Request

def Returned (wide : Bool) (arg value before : UInt32) : Prop :=
  if widen wide arg = noId then value = before else value = arg

structure SetGet (secure wide : Bool) (pc : Pcb) (q : Request) : Prop where
  reading : ∃ before after, q.get wide pc = some before ∧
    q.get wide (perform secure none pc q.call) = some after ∧
    Returned q.wide q.arg1 after.r before.r ∧ Returned q.wide q.arg2 after.e before.e ∧
    ∀ arg3 ∈ q.arg3, Returned q.wide arg3 after.s before.s
  fs : widen q.wide q.arg2 ≠ noId →
    (q.ids (perform secure none pc q.call)).fs = (q.ids (perform secure none pc q.call)).e

def Fits (wide : Bool) (id : UInt32) : Prop := wide = true ∨ id < 0x10000

structure Request.Plain (wide : Bool) (q : Request) : Prop where
  real : widen q.wide q.arg1 = noId ∨ Fits wide q.arg1
  effective : widen q.wide q.arg2 = noId ∨ Fits wide q.arg2
  saved : ∀ arg3 ∈ q.arg3,
    widen q.wide arg3 = noId ∨ narrowed wide (widen q.wide q.arg2) = arg3

section

variable {secure wide : Bool} {pc : Pcb} {q : Request} {p : Ids}

theorem widen_of_ne {id : UInt32} (h : widen wide id ≠ noId) : widen wide id = id := by
  cases wide with
  | true => rfl
  | false =>
    have hid : id16to32 id ≠ noId := h
    show id16to32 id = id
    unfold id16to32 at hid ⊢
    split_ifs at hid ⊢
    · exact absurd rfl hid
    · rfl

theorem widen_noId (wide : Bool) : widen wide noId = noId := by
  cases wide <;> decide

theorem narrowed_eq_self {id : UInt32} (h : id ≠ noId) : narrowed wide id = id ↔ Fits wide id := by
  cases wide with
  | true => exact iff_of_true rfl (.inl rfl)
  | false =>
    have hid : narrowed false id = id.toUInt16.toUInt32 := by
      rw [narrowed,cond_false,id32to16,if_neg h]
    rw [hid,Fits,or_iff_right Bool.false_ne_true,← UInt32.toNat_inj,UInt32.lt_iff_toNat_lt]
    have hmod : id.toUInt16.toUInt32.toNat = id.toNat % 65536 := by simp
    have hbound : (0x10000 : UInt32).toNat = 65536 := rfl
    rw [hmod,hbound]
    omega

theorem returned_iff {arg value before : UInt32} {new old : UInt32}
    (hnew : widen q.wide arg = noId → new = old) (hv : value = narrowed wide new)
    (hb : before = narrowed wide old) :
    Returned q.wide arg value before ↔ widen q.wide arg = noId ∨ narrowed wide new = arg := by
  unfold Returned
  split_ifs with h
  · exact iff_of_true (by rw [hv,hb,hnew h]) (.inl h)
  · rw [hv,or_iff_right h]

theorem answer_accepted {rv : Int} {pc' : Pcb}
    (h : (answer secure rv none pc pc').retval = 0) :
    answer secure rv none pc pc' = { pc' with retval := 0, erno := 0 } := by
  unfold answer at h ⊢
  split_ifs at h ⊢
  · exact absurd (show (-1 : Int) = 0 from h) (by decide)
  · rfl

theorem Request.ids_perform (h : (perform secure none pc q.call).retval = 0) :
    q.ids (perform secure none pc q.call) = q.stored (q.ids pc) := by
  obtain ⟨group,qwide,arg1,arg2,arg3⟩ := q
  cases group <;> cases arg3 <;> exact congrArg _ (answer_accepted h)

theorem Request.get_eq (q : Request) (wide : Bool) (pc : Pcb) :
    q.get wide pc = some (Reading.narrowed wide ⟨(q.ids pc).r, (q.ids pc).e, (q.ids pc).s⟩) := by
  unfold Request.get Request.ids
  cases q.group <;> rfl

theorem setreid_eq (id1 id2 : UInt32) :
    p.setreid id1 id2 = { p with
      r := if id1 = noId then p.r else id1
      e := if id2 = noId then p.e else id2
      fs := if id2 = noId then p.fs else id2 } := by
  unfold Ids.setreid
  by_cases h1 : id1 = noId <;> by_cases h2 : id2 = noId <;> simp [h1,h2]

theorem Request.stored_eq (q : Request) (p : Ids) :
    q.stored p = { p.setreid (widen q.wide q.arg1) (widen q.wide q.arg2) with
      s := q.arg3.elim p.s fun arg3 =>
        if widen q.wide arg3 = noId then p.s else widen q.wide q.arg2 } := by
  unfold Request.stored Ids.setresid
  cases q.arg3 with
  | none => rw [setreid_eq]; rfl
  | some arg3 =>
    rw [setreid_eq]
    by_cases h : widen q.wide arg3 = noId <;> simp [h]

theorem Request.stored_r (q : Request) (p : Ids) :
    (q.stored p).r = if widen q.wide q.arg1 = noId then p.r else widen q.wide q.arg1 := by
  rw [stored_eq,setreid_eq]

theorem Request.stored_e (q : Request) (p : Ids) :
    (q.stored p).e = if widen q.wide q.arg2 = noId then p.e else widen q.wide q.arg2 := by
  rw [stored_eq,setreid_eq]

theorem returned_given {arg new old : UInt32}
    (hnew : new = if widen q.wide arg = noId then old else widen q.wide arg) :
    Returned q.wide arg (narrowed wide new) (narrowed wide old) ↔
      widen q.wide arg = noId ∨ Fits wide arg := by
  rw [returned_iff (fun h => by rw [hnew,if_pos h]) rfl rfl]
  refine or_congr_right' fun h => ?_
  rw [hnew,if_neg h,widen_of_ne h]
  refine narrowed_eq_self fun e => h ?_
  rw [e,widen_noId]

theorem returned_saved {arg3 old : UInt32} (h3 : q.arg3 = some arg3) (hold : old = p.s) :
    Returned q.wide arg3 (narrowed wide (q.stored p).s) (narrowed wide old) ↔
      widen q.wide arg3 = noId ∨ narrowed wide (widen q.wide q.arg2) = arg3 := by
  have hs : (q.stored p).s = if widen q.wide arg3 = noId then p.s else widen q.wide q.arg2 := by
    rw [Request.stored_eq,h3]
    rfl
  rw [hs,returned_iff (fun h => by rw [if_pos h,hold]) rfl rfl]
  exact or_congr_right' fun h => by rw [if_neg h]

end

theorem set_get_iff (secure wide : Bool) (pc : Pcb) (q : Request)
    (haccepted : (perform secure none pc q.call).retval = 0) :
    SetGet secure wide pc q ↔ q.Plain wide := by
  have hids := Request.ids_perform haccepted
  constructor
  · rintro ⟨⟨before,after,hbefore,hafter,hr,he,hs⟩,-⟩
    rw [Request.get_eq] at hbefore hafter
    rw [hids] at hafter
    cases hbefore
    cases hafter
    exact ⟨(returned_given (q.stored_r _)).mp hr,(returned_given (q.stored_e _)).mp he,
      fun arg3 h3 => (returned_saved h3 rfl).mp (hs arg3 h3)⟩
  · intro h
    refine ⟨⟨_,_,q.get_eq wide pc,q.get_eq wide _,?_⟩,fun h2 => ?_⟩
    · rw [hids]
      exact ⟨(returned_given (q.stored_r _)).mpr h.real,
        (returned_given (q.stored_e _)).mpr h.effective,
        fun arg3 h3 => (returned_saved h3 rfl).mpr (h.saved arg3 h3)⟩
    · rw [hids,q.stored_eq,setreid_eq]
      simp only [if_neg h2]

def workerPcb : Pcb := ⟨⟨1000, 1001, 1002, 1001⟩, ⟨100, 101, 102, 101⟩, 0, 0⟩

theorem set_get_worker : SetGet true false workerPcb ⟨false, true, 1002, 1000, none⟩ := by
  refine (set_get_iff true false workerPcb ⟨false,true,1002,1000,none⟩ (by decide)).mpr ?_
  refine ⟨.inr (.inr (by decide)),.inr (.inr (by decide)),?_⟩
  intro arg3 h
  cases h

theorem saved_id_replaced :
    (perform true none workerPcb (.setresuid true 1000 1001 1002)).retval = 0 ∧
      ¬SetGet true true workerPcb ⟨false, true, 1000, 1001, some 1002⟩ := by
  refine ⟨by decide,fun h => ?_⟩
  obtain ⟨before,after,-,hafter,-,-,hs⟩ := h.reading
  have hkept := hs 1002 rfl
  have hread : some after = some ⟨1000,1001,1001⟩ := hafter.symm.trans (by decide)
  rw [Option.some.inj hread,Returned,if_neg (by decide)] at hkept
  exact absurd (show (1001 : UInt32) = 1002 from hkept) (by decide)

end ViewOS.Misc
