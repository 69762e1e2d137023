import Mathlib.Data.List.Nodup
import ViewOS.Lib.Run
import ViewOS.Umbinfmt.Model

namespace ViewOS.Umbinfmt
open Transition

structure Book where
  made : Nat
  regs : List (Nat × UInt8)
  deriving DecidableEq

def Book.empty : Book := ⟨0, []⟩

inductive Event where
  | register
  | mark (id : Nat) (v : UInt8)
  | remove (id : Nat)
  | clear
  deriving DecidableEq

def Book.apply (b : Book) : Event → Book
  | .register => ⟨b.made + 1, (b.made, 1) :: b.regs⟩
  | .mark id v => { b with regs := b.regs.map fun x => if x.1 = id then (id, v) else x }
  | .remove id => { b with regs := b.regs.filter fun x => x.1 ≠ id }
  | .clear => { b with regs := [] }

def writeEvent (pos : Nat) (buf : List UInt8) : File → Option Event
  | .register => if pos = 0 ∧ (parse buf).isSome then some .register else none
  | .reg id => (mark buf).map (.mark id)
  | _ => none

def closeEvent (s : State) : File → Option Event
  | .status => if s.enabled = 0xff then some .clear else none
  | .reg id => if (s.reg id).any (·.enabled = 0xff) then some (.remove id) else none
  | _ => none

def event (s : State) : Op → Option Event
  | .write fd buf => (s.fd fd).bind fun ft => writeEvent ft.pos buf ft.file
  | .close fd _ => (s.fd fd).bind fun ft => closeEvent s ft.file
  | _ => none

def Book.after (b : Book) (e : Option Event) : Book := (e.map b.apply).getD b

def State.view (s : State) : List (Nat × UInt8) :=
  s.head.filterMap fun id => (s.reg id).map fun r => (id, r.enabled)

def WriteOk (s : State) (buf : List UInt8) : File → Prop
  | .reg id => (s.reg id).isSome
  | .root => mark buf = none
  | _ => True

def CloseOk (s : State) : File → Prop
  | .reg id => ∃ r ∈ s.reg id, r.enabled = 0xff → s.head.head? = some id
  | .root => s.root ≠ 0xff
  | _ => True

def Orderly (s : State) : Op → Prop
  | .write fd buf => ∀ ft ∈ s.fd fd, WriteOk s buf ft.file
  | .close fd _ => ∀ ft ∈ s.fd fd, CloseOk s ft.file
  | _ => True

instance (s : State) (buf : List UInt8) : DecidablePred (WriteOk s buf)
  | .reg _ => inferInstanceAs (Decidable (_ = true))
  | .root => inferInstanceAs (Decidable (_ = none))
  | .register => inferInstanceAs (Decidable True)
  | .status => inferInstanceAs (Decidable True)

instance (s : State) : DecidablePred (CloseOk s)
  | .reg id => inferInstanceAs (Decidable (∃ r ∈ s.reg id, _))
  | .root => inferInstanceAs (Decidable (_ ≠ _))
  | .register => inferInstanceAs (Decidable True)
  | .status => inferInstanceAs (Decidable True)

instance (s : State) : DecidablePred (Orderly s)
  | .open _ _ => inferInstanceAs (Decidable True)
  | .lseek _ _ => inferInstanceAs (Decidable True)
  | .write fd buf => inferInstanceAs (Decidable (∀ ft ∈ s.fd fd, WriteOk s buf ft.file))
  | .close fd _ => inferInstanceAs (Decidable (∀ ft ∈ s.fd fd, CloseOk s ft.file))

section Records

variable {s : State} {id : Nat}

theorem reg_lt {r : Umregister} (h : s.reg id = some r) : id < s.regs.length := by
  by_contra hlt
  rw [State.reg,List.getElem?_eq_none (Nat.le_of_not_lt hlt)] at h
  cases h

theorem reg_append (new : Option Umregister) (id : Nat) :
    (s.regs ++ [new])[id]?.join = if id = s.regs.length then new else s.reg id := by
  unfold State.reg
  split_ifs with h
  · rw [h,List.getElem?_concat_length]
    rfl
  · rcases Nat.lt_or_gt_of_ne h with hlt | hgt
    · rw [List.getElem?_append_left hlt]
    · rw [List.getElem?_eq_none (by simp; omega),List.getElem?_eq_none (by omega)]

theorem reg_set (i id : Nat) : (s.regs.set i none)[id]?.join = if id = i then none else s.reg id := by
  unfold State.reg
  rw [List.getElem?_set]
  split_ifs <;> first | rfl | omega

theorem reg_setEnabled (i id : Nat) (v : UInt8) : (setEnabled s i v).reg id =
    (s.reg id).map fun r => if id = i then { r with enabled := v } else r := by
  unfold State.reg setEnabled
  dsimp only
  rw [List.getElem?_modify]
  by_cases h : i = id
  · rcases s.regs[id]? with _ | _ | _ <;> simp [h]
  · rcases s.regs[id]? with _ | _ | _ <;> simp [h,Ne.symm h]

theorem parse_enabled {buf : List UInt8} {new : Umregister} (h : parse buf = some new) :
    new.enabled = 1 := by
  unfold parse at h
  split at h
  · cases h
  · split at h
    · split_ifs at h
      split at h
      · split_ifs at h
        obtain rfl := Option.some.inj h
        rfl
      · cases h
    · cases h

end Records

structure Inv (s : State) (b : Book) : Prop where
  made : b.made = s.regs.length
  head : s.head = b.regs.map Prod.fst
  nodup : s.head.Nodup
  recorded : ∀ y ∈ b.regs, ∃ r, s.reg y.1 = some r ∧ r.enabled = y.2
  live : ∀ id r, s.reg id = some r → id ∈ s.head

section Steps

variable {s s' : State} {b : Book} {id fd : Nat}

theorem Inv.congr (h : Inv s b) (hregs : s'.regs = s.regs) (hhead : s'.head = s.head) :
    Inv s' b := by
  have hreg : s'.reg = s.reg := by funext id; simp only [State.reg,hregs]
  obtain ⟨h1,h2,h3,h4,h5⟩ := h
  exact ⟨h1.trans (congrArg _ hregs.symm),hhead.trans h2,hhead ▸ h3,by rwa [hreg],
    by rwa [hreg,hhead]⟩

theorem Inv.view (h : Inv s b) : s.view = b.regs := by
  unfold State.view
  rw [h.head,List.filterMap_map]
  refine (List.filterMap_congr fun y hy => ?_).trans List.filterMap_some
  obtain ⟨r,hr,hen⟩ := h.recorded y hy
  rw [Function.comp_apply,hr,Option.map_some,hen]

theorem Inv.register (h : Inv s b) {buf : List UInt8} {new : Umregister}
    (hnew : parse buf = some new) : Inv (ubmRegister s buf) (b.apply .register) := by
  have hreg : ∀ id, (ubmRegister s buf).reg id = if id = s.regs.length then some new else s.reg id := by
    intro id
    simp only [ubmRegister,hnew]
    exact reg_append (some new) id
  have hhead : (ubmRegister s buf).head = s.regs.length :: s.head := by simp only [ubmRegister,hnew]
  have hlt : ∀ id ∈ s.head, id ≠ s.regs.length := by
    intro id hid
    rw [h.head] at hid
    obtain ⟨y,hy,rfl⟩ := List.mem_map.mp hid
    obtain ⟨r,hr,-⟩ := h.recorded y hy
    exact Nat.ne_of_lt (reg_lt hr)
  refine ⟨?_,?_,?_,?_,?_⟩
  · simp only [ubmRegister,hnew,Book.apply,h.made,List.length_append,List.length_singleton]
  · rw [hhead,Book.apply,List.map_cons,h.made,h.head]
  · rw [hhead]
    exact List.nodup_cons.mpr ⟨fun hmem => hlt _ hmem rfl,h.nodup⟩
  · intro y hy
    rcases List.mem_cons.mp hy with rfl | hy
    · exact ⟨new,by rw [hreg,h.made,if_pos rfl],parse_enabled hnew⟩
    · have hmem : y.1 ∈ s.head := by rw [h.head]; exact List.mem_map_of_mem hy
      rw [hreg,if_neg (hlt _ hmem)]
      exact h.recorded y hy
  · intro id r hr
    rw [hreg] at hr
    rw [hhead]
    split_ifs at hr with hid
    · exact hid ▸ List.mem_cons_self
    · exact List.mem_cons_of_mem _ (h.live id r hr)

theorem Inv.mark (h : Inv s b) (id : Nat) (v : UInt8) :
    Inv (setEnabled s id v) (b.apply (.mark id v)) := by
  refine ⟨?_,?_,h.nodup,?_,?_⟩
  · simp only [Book.apply,setEnabled,List.length_modify]
    exact h.made
  · simp only [Book.apply,List.map_map]
    refine h.head.trans (List.map_congr_left fun x _ => ?_)
    simp only [Function.comp_apply]
    split_ifs with hx
    · exact hx
    · rfl
  · intro y hy
    obtain ⟨x,hx,rfl⟩ := List.mem_map.mp hy
    obtain ⟨r,hr,hen⟩ := h.recorded x hx
    by_cases hid : x.1 = id
    · rw [if_pos hid,reg_setEnabled,← hid,hr]
      exact ⟨{ r with enabled := v },by simp,rfl⟩
    · rw [if_neg hid,reg_setEnabled,hr]
      exact ⟨r,by simp [hid],hen⟩
  · intro i r hr
    rw [reg_setEnabled] at hr
    obtain ⟨r',hr',-⟩ := Option.map_eq_some_iff.mp hr
    exact h.live i r' hr'

theorem Inv.remove (h : Inv s b) (hfirst : s.head.head? = some id) :
    Inv (removeReg s id) (b.apply (.remove id)) := by
  obtain ⟨rest,hrest⟩ : ∃ rest, s.head = id :: rest := by
    cases hs : s.head with
    | nil => rw [hs] at hfirst; cases hfirst
    | cons i rest =>
      rw [hs] at hfirst
      exact ⟨rest,by rw [Option.some.inj hfirst]⟩
  have hhead : (removeReg s id).head = rest := by simp [removeReg,hrest,deleteReg]
  have hreg : ∀ i, (removeReg s id).reg i = if i = id then none else s.reg i := by
    intro i
    simp only [removeReg,hrest,deleteReg,if_true]
    exact reg_set id i
  have hnodup := h.nodup
  rw [hrest,List.nodup_cons] at hnodup
  refine ⟨?_,?_,?_,?_,?_⟩
  · simp [removeReg,hrest,deleteReg,Book.apply,h.made]
  · rw [hhead,Book.apply]
    have hmap := h.head
    rw [hrest] at hmap
    cases hb : b.regs with
    | nil => rw [hb] at hmap; cases hmap
    | cons y bs =>
      rw [hb,List.map_cons,List.cons.injEq] at hmap
      have hself : (bs.filter fun x => x.1 ≠ id) = bs := by
        refine List.filter_eq_self.mpr fun z hz => decide_eq_true fun hid => hnodup.1 ?_
        rw [hmap.2,← hid]
        exact List.mem_map_of_mem hz
      rw [List.filter_cons_of_neg (by simp [hmap.1]),hself,hmap.2]
  · rw [hhead]
    exact hnodup.2
  · intro y hy
    obtain ⟨hy,hne⟩ := List.mem_filter.mp hy
    rw [hreg,if_neg (by simpa using hne)]
    exact h.recorded y hy
  · intro i r hr
    rw [hreg] at hr
    split_ifs at hr with hi
    have hmem := h.live i r hr
    rw [hhead]
    rw [hrest] at hmem
    exact (List.mem_cons.mp hmem).resolve_left hi

theorem Inv.clear (h : Inv s b) : Inv (deleteAllreg s) (b.apply .clear) := by
  have hset : ∀ (ids : List Nat) (regs : List (Option Umregister)),
      (ids.foldl (fun regs id => regs.set id none) regs).length = regs.length ∧
        ∀ i, (ids.foldl (fun regs id => regs.set id none) regs)[i]?.join =
          if i ∈ ids then none else regs[i]?.join := by
    intro ids
    induction ids with
    | nil => intro regs; simp
    | cons id ids ih =>
      intro regs
      rw [List.foldl_cons]
      refine ⟨(ih _).1.trans List.length_set,fun i => ?_⟩
      have hone : (regs.set id none)[i]?.join = if i = id then none else regs[i]?.join :=
        reg_set (s := { s with regs := regs }) id i
      rw [(ih _).2 i,hone]
      by_cases hi : i = id <;> by_cases hm : i ∈ ids <;> simp [hi,hm]
  refine ⟨h.made.trans (hset _ _).1.symm,rfl,List.nodup_nil,nofun,fun i r hr => ?_⟩
  have hr' : (if i ∈ s.head then none else s.reg i) = some r := ((hset s.head s.regs).2 i).symm.trans hr
  split_ifs at hr' with hi
  exact absurd (h.live i r hr') hi

theorem Inv.writeFile (h : Inv s b) (pos : Nat) (buf : List UInt8) (file : File) :
    Inv (writeFile s pos buf file) (b.after (writeEvent pos buf file)) := by
  cases file with
  | root => exact h.congr rfl rfl
  | status => exact h.congr rfl rfl
  | register =>
    unfold Umbinfmt.writeFile writeEvent
    by_cases hpos : pos = 0
    · rw [if_pos hpos]
      cases hp : parse buf with
      | none =>
        have hsame : ubmRegister s buf = s := by simp only [ubmRegister,hp]
        rw [hsame,if_neg (by simp)]
        exact h
      | some new =>
        rw [if_pos ⟨hpos,rfl⟩]
        exact h.register hp
    · rw [if_neg hpos,if_neg fun hand => hpos hand.1]
      exact h
  | reg id =>
    unfold Umbinfmt.writeFile writeEvent
    cases Umbinfmt.mark buf with
    | none => exact h
    | some v => exact h.mark id v

theorem Inv.closeFile (h : Inv s b) (stale : UInt8) {file : File} (hfile : CloseOk s file) :
    Inv (closeFile s stale file) (b.after (closeEvent s file)) := by
  cases file with
  | root =>
    rw [Umbinfmt.closeFile,if_neg hfile]
    exact h
  | register => exact h
  | status =>
    rw [Umbinfmt.closeFile,closeEvent]
    split_ifs
    · exact h.clear
    · exact h
  | reg id =>
    obtain ⟨r,hr,hfirst⟩ := hfile
    rw [Option.mem_def] at hr
    simp only [Umbinfmt.closeFile,closeEvent,enabledOf,hr,Option.map_some,Option.getD_some,
      Option.any_some]
    by_cases hmark : r.enabled = 0xff
    · rw [if_pos hmark,if_pos (decide_eq_true hmark)]
      exact h.remove (hfirst hmark)
    · rw [if_neg hmark,if_neg (by simpa using hmark)]
      exact h

theorem Inv.step (h : Inv s b) {o : Op} (ho : Orderly s o) (hs : step s o = some s') :
    Inv s' (b.after (event s o)) := by
  cases o with
  | «open» path flags =>
    obtain rfl := Option.some.inj hs
    unfold umbinfmtOpen
    split
    · exact h
    · split_ifs
      · exact h
      · exact h.congr rfl rfl
  | lseek fd pos =>
    obtain ⟨ft,hft,hs⟩ := Option.bind_eq_some_iff.mp hs
    obtain rfl := Option.some.inj hs
    exact h.congr rfl rfl
  | write fd buf =>
    obtain ⟨ft,hft,hs⟩ := Option.bind_eq_some_iff.mp hs
    obtain rfl := Option.some.inj hs
    have hev : event s (.write fd buf) = writeEvent ft.pos buf ft.file := by
      rw [event,hft,Option.bind_some]
    rw [hev]
    exact (h.writeFile ft.pos buf ft.file).congr rfl rfl
  | close fd stale =>
    obtain ⟨ft,hft,hs⟩ := Option.bind_eq_some_iff.mp hs
    obtain rfl := Option.some.inj hs
    have hev : event s (.close fd stale) = closeEvent { s with inuse := s.inuse - 1 } ft.file := by
      rw [event,hft,Option.bind_some]
      rfl
    have h0 : Inv { s with inuse := s.inuse - 1 } b := h.congr rfl rfl
    rw [hev]
    exact (h0.closeFile stale (ho ft hft)).congr rfl rfl

end Steps

def text (name : Char) : List UInt8 :=
  bytes [':', name, ':', 'M', ':', ':', 'b', ':', ':', 'c', ':']

end ViewOS.Umbinfmt
