import ViewOS.Misc.Ids
import ViewOS.Lib.Run

namespace ViewOS.Misc
open Transition

structure Ids.Within (P : UInt32 → Prop) (p : Ids) : Prop where
  r : P p.r
  e : P p.e
  s : P p.s
  fs : P p.fs

def Ids.Held (p : Ids) (id : UInt32) : Prop := id = p.r ∨ id = p.e ∨ id = p.s

def Proper (p : Ids) (id : UInt32) : Prop := id = noId ∨ p.Held id

def Call.ProperUids : Call → Prop
  | .setuid wide uid => widen wide uid ≠ noId
  | .setfsuid wide uid => widen wide uid ≠ noId
  | .setresuid wide _ uid2 uid3 => widen wide uid2 ≠ noId ∨ widen wide uid3 = noId
  | _ => True

def Call.ProperGids (p : Ids) : Call → Prop
  | .setgid wide gid => p.Held (widen wide gid)
  | .setfsgid wide gid => p.Held (widen wide gid)
  | .setregid wide gid1 gid2 => Proper p (widen wide gid1) ∧ Proper p (widen wide gid2)
  | .setresgid wide gid1 gid2 gid3 =>
    Proper p (widen wide gid1) ∧ Proper p (widen wide gid2) ∧
      (widen wide gid2 ≠ noId ∨ widen wide gid3 = noId)
  | _ => True

def Call.onUids : Call → Prop
  | .setuid _ _ | .setfsuid _ _ | .setreuid _ _ _ | .setresuid _ _ _ _ => True
  | _ => False

section Within

variable {P : UInt32 → Prop} {p : Ids}

theorem Ids.Within.held (h : p.Within P) {id : UInt32} (hid : p.Held id) : P id := by
  rcases hid with rfl | rfl | rfl
  · exact h.r
  · exact h.e
  · exact h.s

theorem Ids.Within.proper (h : p.Within P) {id : UInt32} (hid : Proper p id) : id = noId ∨ P id :=
  hid.imp_right h.held

theorem Ids.Within.setid (h : p.Within P) {id : UInt32} (hid : P id) (sc : Sc) :
    (p.setid id sc).Within P := by
  cases sc with
  | setid =>
    unfold Ids.setid
    dsimp only
    split_ifs
    · exact ⟨hid,hid,h.s,hid⟩
    · exact ⟨h.r,hid,h.s,hid⟩
  | setfsid => exact ⟨h.r,h.e,h.s,hid⟩

theorem Ids.Within.setreid (h : p.Within P) {id1 id2 : UInt32} (h1 : id1 = noId ∨ P id1)
    (h2 : id2 = noId ∨ P id2) : (p.setreid id1 id2).Within P := by
  have hr : (if id1 ≠ noId then { p with r := id1 } else p).Within P := by
    split_ifs with hne
    · exact ⟨h1.resolve_left hne,h.e,h.s,h.fs⟩
    · exact h
  unfold Ids.setreid
  generalize (if id1 ≠ noId then { p with r := id1 } else p) = q at hr
  by_cases hne : id2 = noId
  · simpa [hne] using hr
  · have h2' := h2.resolve_left hne
    simpa [hne] using (⟨hr.r,h2',hr.s,h2'⟩ : Ids.Within P { q with e := id2, fs := id2 })

theorem Ids.Within.setresid (h : p.Within P) {id1 id2 id3 : UInt32} (h1 : id1 = noId ∨ P id1)
    (h2 : id2 = noId ∨ P id2) (h3 : P id2 ∨ id3 = noId) : (p.setresid id1 id2 id3).Within P := by
  have hre := h.setreid h1 h2
  unfold Ids.setresid
  dsimp only
  split_ifs with hne
  · exact ⟨hre.r,hre.e,h3.resolve_right hne,hre.fs⟩
  · exact hre

theorem Ids.Within.admitted (h : p.Within P) {r e s fs : UInt32}
    (hcheck : refused p r e s fs = false) :
    (r = noId ∨ P r) ∧ (e = noId ∨ P e) ∧ (fs = noId ∨ P fs) := by
  simp only [refused,Bool.or_eq_false_iff,Bool.and_eq_false_iff,bne_eq_false_iff_eq,or_assoc]
    at hcheck
  obtain ⟨⟨⟨hr,he⟩,_⟩,hfs⟩ := hcheck
  refine ⟨hr.imp_right ?_,he.imp_right ?_,hfs.imp_right ?_⟩
  · rintro (rfl | rfl)
    exacts [h.r,h.s]
  · rintro (rfl | rfl | rfl)
    exacts [h.r,h.e,h.s]
  · rintro rfl
    exact h.fs

end Within

theorem checksecureuid_of_lacks {pc : Pcb} (hlack : pc.uid.e ≠ 0) (r e s fs : UInt32) :
    checksecureuid pc r e s fs = if refused pc.uid r e s fs then -1 else 0 := by
  simp [checksecureuid,capcheck,hlack]

theorem answer_uid (rv : Int) (pc pc' : Pcb) :
    (answer true rv none pc pc').uid = if rv = 0 then pc'.uid else pc.uid := by
  unfold answer
  split_ifs <;> simp_all

theorem answer_gid (rv : Int) (pc pc' : Pcb) :
    (answer true rv none pc pc').gid = if rv = 0 then pc'.gid else pc.gid := by
  unfold answer
  split_ifs <;> simp_all

theorem checked_uids {P : UInt32 → Prop} {pc : Pcb} (hlack : pc.uid.e ≠ 0) (h : pc.uid.Within P)
    {r e s fs : UInt32} {p' : Ids}
    (hnew : (r = noId ∨ P r) ∧ (e = noId ∨ P e) ∧ (fs = noId ∨ P fs) → p'.Within P) :
    (answer true (checksecureuid pc r e s fs) none pc { pc with uid := p' }).uid.Within P := by
  rw [answer_uid,checksecureuid_of_lacks hlack]
  cases hcheck : refused pc.uid r e s fs with
  | true => simpa using h
  | false => simpa using hnew (h.admitted hcheck)

theorem securely_uids {P : UInt32 → Prop} {pc : Pcb} {c : Call} (hlack : pc.uid.e ≠ 0)
    (h : pc.uid.Within P) (hc : P noId ∨ c.ProperUids) : (securely pc c).uid.Within P := by
  have hset : ∀ {id : UInt32}, P noId ∨ id ≠ noId → id = noId ∨ P id → P id := by
    rintro id (hno | hne) (rfl | hid)
    · exact hno
    · exact hid
    · exact absurd rfl hne
    · exact hid
  cases c with
  | setuid wide uid => exact checked_uids hlack h fun hn => h.setid (hset hc hn.1) .setid
  | setfsuid wide uid => exact checked_uids hlack h fun hn => h.setid (hset hc hn.2.2) .setfsid
  | setreuid wide uid1 uid2 => exact checked_uids hlack h fun hn => h.setreid hn.1 hn.2.1
  | setresuid wide uid1 uid2 uid3 =>
    refine checked_uids hlack h fun hn => h.setresid hn.1 hn.2.1 ?_
    rcases hc with hno | hne | hnone
    · exact Or.inl (hset (Or.inl hno) hn.2.1)
    · exact Or.inl (hset (Or.inr hne) hn.2.1)
    · exact Or.inr hnone
  | setgid wide gid => simpa [securely,perform,wrapInSetgid,answer_uid] using h
  | setfsgid wide gid => simpa [securely,perform,wrapInSetgid,answer_uid] using h
  | setregid wide gid1 gid2 => simpa [securely,perform,wrapInSetregid,answer_uid] using h
  | setresgid wide gid1 gid2 gid3 => simpa [securely,perform,wrapInSetresgid,answer_uid] using h

theorem checked_gids {P : UInt32 → Prop} {pc : Pcb} (h : pc.gid.Within P) (rv : Int) {p' : Ids}
    (hnew : p'.Within P) : (answer true rv none pc { pc with gid := p' }).gid.Within P := by
  rw [answer_gid]
  split_ifs
  · exact hnew
  · exact h

theorem securely_gids {P : UInt32 → Prop} {pc : Pcb} {c : Call} (h : pc.gid.Within P)
    (hc : c.ProperGids pc.gid) : (securely pc c).gid.Within P := by
  cases c with
  | setuid wide uid => simpa [securely,perform,wrapInSetuid,answer_gid] using h
  | setfsuid wide uid => simpa [securely,perform,wrapInSetuid,answer_gid] using h
  | setreuid wide uid1 uid2 => simpa [securely,perform,wrapInSetreuid,answer_gid] using h
  | setresuid wide uid1 uid2 uid3 => simpa [securely,perform,wrapInSetresuid,answer_gid] using h
  | setgid wide gid => exact checked_gids h _ (h.setid (h.held hc) .setid)
  | setfsgid wide gid => exact checked_gids h _ (h.setid (h.held hc) .setfsid)
  | setregid wide gid1 gid2 => exact checked_gids h _ (h.setreid (h.proper hc.1) (h.proper hc.2))
  | setresgid wide gid1 gid2 gid3 =>
    refine checked_gids h _ (h.setresid (h.proper hc.1) (h.proper hc.2.1) ?_)
    exact hc.2.2.imp_left fun hne => (h.proper hc.2.1).resolve_left hne

def Contained (pc0 pc : Pcb) : Prop := pc.uid.Within pc0.uid.Held ∧ pc.gid.Within pc0.gid.Held

def Lacks (pc : Pcb) : Prop := capcheck .setuid pc ≠ 0 ∧ capcheck .setgid pc ≠ 0

def ProperCall (pc : Pcb) (c : Call) : Prop := c.ProperUids ∧ c.ProperGids pc.gid

theorem Lacks.euid {pc : Pcb} (h : Lacks pc) : pc.uid.e ≠ 0 := by
  intro he
  exact h.1 (by simp [capcheck,he])

theorem ids_contained (pc0 pc : Pcb) (hu : pc0.uid.Held pc0.uid.fs) (hg : pc0.gid.Held pc0.gid.fs)
    (h : Run (fun pc c => some (securely pc c)) (fun pc c => Lacks pc ∧ ProperCall pc c) pc0 pc) :
    Contained pc0 pc := by
  refine h.invariant (fun pc c pc' hin hok hstep => ?_)
    ⟨⟨Or.inl rfl,Or.inr (Or.inl rfl),Or.inr (Or.inr rfl),hu⟩,
      ⟨Or.inl rfl,Or.inr (Or.inl rfl),Or.inr (Or.inr rfl),hg⟩⟩
  obtain rfl := Option.some.inj hstep
  exact ⟨securely_uids hok.1.euid hin.1 (Or.inr hok.2.1),securely_gids hin.2 hok.2.2⟩

instance (p : Ids) (id : UInt32) : Decidable (p.Held id) :=
  inferInstanceAs (Decidable (_ ∨ _ ∨ _))

instance (p : Ids) (id : UInt32) : Decidable (Proper p id) := inferInstanceAs (Decidable (_ ∨ _))

instance (P : UInt32 → Prop) [DecidablePred P] (p : Ids) : Decidable (p.Within P) :=
  decidable_of_iff (P p.r ∧ P p.e ∧ P p.s ∧ P p.fs)
    ⟨fun ⟨hr, he, hs, hfs⟩ => ⟨hr, he, hs, hfs⟩, fun h => ⟨h.r, h.e, h.s, h.fs⟩⟩

instance (pc0 pc : Pcb) : Decidable (Contained pc0 pc) :=
  have : DecidablePred pc0.uid.Held := fun _ => inferInstance
  have : DecidablePred pc0.gid.Held := fun _ => inferInstance
  inferInstanceAs (Decidable (_ ∧ _))

instance : (c : Call) → Decidable c.ProperUids
  | .setuid _ _ => inferInstanceAs (Decidable (_ ≠ _))
  | .setfsuid _ _ => inferInstanceAs (Decidable (_ ≠ _))
  | .setresuid _ _ _ _ => inferInstanceAs (Decidable (_ ∨ _))
  | .setreuid _ _ _ => inferInstanceAs (Decidable True)
  | .setgid _ _ => inferInstanceAs (Decidable True)
  | .setfsgid _ _ => inferInstanceAs (Decidable True)
  | .setregid _ _ _ => inferInstanceAs (Decidable True)
  | .setresgid _ _ _ _ => inferInstanceAs (Decidable True)

instance (p : Ids) : (c : Call) → Decidable (c.ProperGids p)
  | .setgid _ _ => inferInstanceAs (Decidable (p.Held _))
  | .setfsgid _ _ => inferInstanceAs (Decidable (p.Held _))
  | .setregid _ _ _ => inferInstanceAs (Decidable (_ ∧ _))
  | .setresgid _ _ _ _ => inferInstanceAs (Decidable (_ ∧ _ ∧ _))
  | .setuid _ _ => inferInstanceAs (Decidable True)
  | .setfsuid _ _ => inferInstanceAs (Decidable True)
  | .setreuid _ _ _ => inferInstanceAs (Decidable True)
  | .setresuid _ _ _ _ => inferInstanceAs (Decidable True)

instance (pc : Pcb) (c : Call) : Decidable (Lacks pc ∧ ProperCall pc c) :=
  inferInstanceAs (Decidable ((_ ∧ _) ∧ _ ∧ _))

def userPcb : Pcb := ⟨⟨1000, 1001, 1002, 1001⟩, ⟨100, 101, 102, 101⟩, 0, 0⟩

def idChanges : List Call :=
  [.setreuid true 1002 1000, .setuid false 1002, .setgid true 102, .setresgid true 102 100 noId,
    .setresuid true noId 1000 1002, .setuid true 0, .setfsgid true 102]

theorem idChanges_contained :
    ∃ pc, exec (fun pc c => some (securely pc c)) userPcb idChanges = some pc ∧
      Contained userPcb pc := by
  have hok : Meets (fun pc c => some (securely pc c)) (fun pc c => Lacks pc ∧ ProperCall pc c)
      userPcb idChanges := by decide +kernel
  have hsome : (exec (fun pc c => some (securely pc c)) userPcb idChanges).isSome := by
    decide +kernel
  obtain ⟨pc,hpc⟩ := Option.isSome_iff_exists.mp hsome
  exact ⟨pc,hpc,ids_contained userPcb pc (by decide) (by decide) (Run.of_exec hpc hok)⟩

theorem foreign_ids_taken :
    Lacks userPcb ∧ ¬ Contained userPcb (securely userPcb (.setgid true 5)) ∧
      ¬ Contained userPcb (securely userPcb (.setuid true noId)) ∧
      ¬ Contained userPcb (securely userPcb (.setfsuid true noId)) ∧
      ¬ Contained userPcb (securely userPcb (.setresuid true noId noId 1002)) := by
  refine ⟨⟨?_,?_⟩,?_,?_,?_,?_⟩ <;> decide +kernel

section Drop

theorem noId_ne_zero : noId ≠ 0 := by decide

theorem drop_ids {pc : Pcb} (he : pc.uid.e = 0) (wide : Bool) (u : UInt32) :
    securely pc (.setuid wide u) =
      { pc with uid := ⟨widen wide u,widen wide u,pc.uid.s,widen wide u⟩, retval := 0, erno := 0 } := by
  simp [securely,perform,wrapInSetuid,answer,checksecureuid,capcheck,Ids.setid,he]

theorem securely_no_root {pc : Pcb} (h : pc.uid.Within (· ≠ 0)) (calls : List Call) :
    (calls.foldl securely pc).uid.Within (· ≠ 0) := by
  induction calls generalizing pc with
  | nil => exact h
  | cons c calls ih => exact ih (securely_uids h.e h (Or.inl noId_ne_zero))

theorem saved_root_regained {pc : Pcb} (he : pc.uid.e ≠ 0) (hs : pc.uid.s = 0) :
    (securely pc (.setuid true 0)).uid.e = 0 := by
  have hcheck : checksecureuid pc 0 noId noId noId = 0 := by
    rw [checksecureuid_of_lacks he]
    simp [refused,hs]
  simp [securely,perform,wrapInSetuid,widen,answer,hcheck,Ids.setid,he]

theorem setuid_drop_final_iff (pc : Pcb) (wide : Bool) (u : UInt32) (he : pc.uid.e = 0)
    (hu : widen wide u ≠ 0) :
    (securely pc (.setuid wide u)).retval = 0 ∧
      ((∀ calls : List Call, (∀ c ∈ calls, c.onUids) →
          (calls.foldl securely (securely pc (.setuid wide u))).uid.Within (· ≠ 0)) ↔
        pc.uid.s ≠ 0) := by
  have hdrop := drop_ids he wide u
  refine ⟨by rw [hdrop],fun hall hs => ?_,fun hs calls _ => ?_⟩
  · have hback := hall [.setuid true 0] (by simp [Call.onUids])
    refine hback.e (saved_root_regained ?_ ?_)
    · rw [hdrop]
      exact hu
    · rw [hdrop]
      exact hs
  · refine securely_no_root ?_ calls
    rw [hdrop]
    exact ⟨hu,hu,hs,hu⟩

def savedPcb : Pcb := ⟨⟨0, 0, 7, 0⟩, ⟨0, 0, 0, 0⟩, 0, 0⟩

theorem setuid_drop_final :
    (securely savedPcb (.setuid true 1000)).retval = 0 ∧
      ∀ calls : List Call, (∀ c ∈ calls, c.onUids) →
        (calls.foldl securely (securely savedPcb (.setuid true 1000))).uid.Within (· ≠ 0) := by
  obtain ⟨hret,hall⟩ := setuid_drop_final_iff savedPcb true 1000 rfl (by decide)
  exact ⟨hret,hall.mpr (by decide)⟩

def rootPcb : Pcb := ⟨⟨0, 0, 0, 0⟩, ⟨0, 0, 0, 0⟩, 0, 0⟩

theorem root_regained :
    (securely rootPcb (.setuid true 1000)).retval = 0 ∧
      (securely (securely rootPcb (.setuid true 1000)) (.setuid true 0)).uid = ⟨1000, 0, 0, 0⟩ := by
  decide

end Drop

end ViewOS.Misc
