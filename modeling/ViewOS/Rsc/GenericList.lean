import Mathlib.Data.List.Nodup
import Mathlib.Data.List.Perm.Subperm
import ViewOS.Lib.Run

namespace ViewOS.Rsc.GenericList

open Transition

variable {E : Type}

-- size is the length of v, NULL is none.
structure GList (E : Type) where
  v : List (Option E)
  nentry : Int

def initList (n : Nat) : GList E := ⟨List.replicate n none, 0⟩

-- fill is what realloc leaves in the memory it adds.
def enlarge (l : GList E) (fill : Nat → Option E) : List (Option E) :=
  l.v ++ (List.range' l.v.length l.v.length).map fill

def put (v : List (Option E)) (n : Int) (i : Nat) (e : E) : Option (GList E × Nat) :=
  if i < v.length then some (⟨v.set i (some e), n + 1⟩, i) else none

-- With the index written; none where that is at or beyond size or size overflows.
def listAdd (l : GList E) (e : E) (fill : Nat → Option E) : Option (GList E × Nat) :=
  if l.v.length ≤ l.nentry then
    if 2 * l.v.length < 2147483648 then put (enlarge l fill) l.nentry l.nentry.toNat e
    else none
  else if l.nentry = 0 then put l.v l.nentry 0 e
  else put l.v l.nentry (l.v.findIdx (·.isNone)) e

def listDel (l : GList E) (i : Nat) : GList E × Option E :=
  if i < l.v.length then (⟨l.v.set i none, l.nentry - 1⟩, l.v[i]?.join) else (l, none)

def searchLoop (compare : E → Bool) : List (Option E) → Nat → List E × Option Nat
  | [], _ => ([], none)
  | none :: v, i => searchLoop compare v (i + 1)
  | some e :: v, i =>
    if compare e then ([e], some i)
    else (e :: (searchLoop compare v (i + 1)).1, (searchLoop compare v (i + 1)).2)

def listSearch (l : GList E) (compare : E → Bool) : List E × Option Nat :=
  if l.nentry = 0 then ([], none) else searchLoop compare l.v 0

structure Live (E : Type) where
  id : Nat
  slot : Nat
  elem : E

structure State (E : Type) where
  list : GList E
  live : List (Live E)
  next : Nat

def init (n : Nat) : State E := ⟨initList n, [], 0⟩

inductive Op (E : Type) where
  | add (e : E) (fill : Nat → Option E)
  | del (i : Nat)

def step (s : State E) : Op E → Option (State E)
  | .add e fill => (listAdd s.list e fill).map fun r =>
      ⟨r.1, ⟨s.next, r.2, e⟩ :: s.live, s.next + 1⟩
  | .del i => some ⟨(listDel s.list i).1, s.live.filter (·.slot ≠ i), s.next⟩

def Occupied (s : State E) : Op E → Prop
  | .add _ _ => True
  | .del i => ∃ e, s.list.v[i]? = some (some e)

-- The slot at the old size is written at once, so what realloc left there does not matter.
def Clean (s : State E) : Op E → Prop
  | .add _ fill => s.list.v.length ≤ s.list.nentry → 0 < s.list.v.length ∧
      2 * s.list.v.length < 2147483648 ∧
      ∀ i, s.list.v.length < i → i < 2 * s.list.v.length → fill i = none
  | .del i => ∃ e, s.list.v[i]? = some (some e)

structure Good (s : State E) : Prop where
  occupied : ∀ i e, s.list.v[i]? = some (some e) ↔ ∃ id, ⟨id, i, e⟩ ∈ s.live
  slots : (s.live.map (·.slot)).Nodup
  ids : (s.live.map (·.id)).Nodup
  old : ∀ x ∈ s.live, x.id < s.next
  nentry : s.list.nentry = s.live.length

section Slots

variable {s t : State E} {o : Op E} {v : List (Option E)} {i n : Nat} {e : E}

theorem Good.slot_lt (h : Good s) {x : Live E} (hx : x ∈ s.live) : x.slot < s.list.v.length :=
  (List.getElem?_eq_some_iff.mp ((h.occupied x.slot x.elem).mpr ⟨x.id,hx⟩)).1

theorem Good.length_le (h : Good s) : s.live.length ≤ s.list.v.length := by
  have hsub : s.live.map (·.slot) ⊆ List.range s.list.v.length := by
    intro i hi
    obtain ⟨x,hx,rfl⟩ := List.mem_map.mp hi
    exact List.mem_range.mpr (h.slot_lt hx)
  simpa using (List.subperm_of_subset h.slots hsub).length_le

theorem Good.vacant (h : Good s) (hlt : s.list.nentry < s.list.v.length) :
    ∃ x ∈ s.list.v, x.isNone = true := by
  by_contra hnone
  have hsub : List.range s.list.v.length ⊆ s.live.map (·.slot) := by
    intro i hi
    have hi := List.mem_range.mp hi
    cases hx : s.list.v[i] with
    | none => exact absurd ⟨none,hx ▸ List.getElem_mem hi,rfl⟩ hnone
    | some e =>
      obtain ⟨id,hid⟩ := (h.occupied i e).mp (List.getElem?_eq_some_iff.mpr ⟨hi,hx⟩)
      exact List.mem_map.mpr ⟨_,hid,rfl⟩
  have hle := (List.subperm_of_subset List.nodup_range hsub).length_le
  have hn := h.nentry
  rw [List.length_range,List.length_map] at hle
  omega

theorem Good.put {v : List (Option E)} (h : Good s) (hi : i < v.length)
    (hkeep : ∀ j, j ≠ i → ∀ e, v[j]? = some (some e) ↔ s.list.v[j]? = some (some e))
    (hfree : ∀ e, s.list.v[i]? ≠ some (some e)) (e : E) :
    Good ⟨⟨v.set i (some e), s.list.nentry + 1⟩, ⟨s.next, i, e⟩ :: s.live, s.next + 1⟩ := by
  have hnew : ∀ x ∈ s.live, x.slot ≠ i := fun x hx heq =>
    hfree x.elem ((h.occupied i x.elem).mpr ⟨x.id,heq ▸ hx⟩)
  refine ⟨fun j e' => ?_,?_,?_,?_,?_⟩
  · rcases eq_or_ne j i with rfl | hj
    · simp only [List.getElem?_set_self hi,Option.some.injEq,List.mem_cons,Live.mk.injEq]
      constructor
      · rintro rfl
        exact ⟨s.next,.inl ⟨rfl,trivial,rfl⟩⟩
      · rintro ⟨id,⟨-,-,heq⟩ | hid⟩
        · exact heq.symm
        · exact absurd rfl (hnew _ hid)
    · simp only [List.getElem?_set_ne (Ne.symm hj),hkeep j hj e',h.occupied j e',List.mem_cons,
        Live.mk.injEq,hj,false_and,and_false,false_or]
  · refine List.nodup_cons.mpr ⟨fun hmem => ?_,h.slots⟩
    obtain ⟨x,hx,heq⟩ := List.mem_map.mp hmem
    exact hnew x hx heq
  · refine List.nodup_cons.mpr ⟨fun hmem => ?_,h.ids⟩
    obtain ⟨x,hx,heq⟩ := List.mem_map.mp hmem
    exact absurd (h.old x hx) (by simp only [heq]; omega)
  · intro x hx
    rcases List.mem_cons.mp hx with rfl | hx
    · exact Nat.lt_succ_self _
    · exact Nat.lt_succ_of_lt (h.old x hx)
  · rw [List.length_cons,h.nentry]
    rfl

theorem enlarge_keep (h : Good s) (hfull : s.list.v.length ≤ s.list.nentry) {fill : Nat → Option E}
    (hfill : ∀ i, s.list.v.length < i → i < 2 * s.list.v.length → fill i = none) {j : Nat}
    (hj : j ≠ s.list.nentry.toNat) (e : E) :
    (enlarge s.list fill)[j]? = some (some e) ↔ s.list.v[j]? = some (some e) := by
  have hle := h.length_le
  have hn := h.nentry
  rw [enlarge]
  rcases Nat.lt_or_ge j s.list.v.length with hlt | hge
  · rw [List.getElem?_append_left hlt]
  · rw [List.getElem?_append_right hge,List.getElem?_eq_none hge,List.getElem?_map]
    simp only [reduceCtorEq,iff_false]
    intro hx
    obtain ⟨k,hk,hfk⟩ := Option.map_eq_some_iff.mp hx
    obtain ⟨hlt,rfl⟩ := List.getElem?_eq_some_iff.mp hk
    rw [List.getElem_range',hfill _ (by omega) (by rw [List.length_range'] at hlt; omega)] at hfk
    cases hfk

theorem Good.free_slot (h : Good s) (hlt : s.list.nentry < s.list.v.length) (e : E) :
    ∃ i, i < s.list.v.length ∧ (∀ e, s.list.v[i]? ≠ some (some e)) ∧
      (if s.list.nentry = 0 then GenericList.put s.list.v s.list.nentry 0 e
        else GenericList.put s.list.v s.list.nentry (s.list.v.findIdx (·.isNone)) e) =
        GenericList.put s.list.v s.list.nentry i e := by
  have hn := h.nentry
  by_cases hzero : s.list.nentry = 0
  · refine ⟨0,by omega,fun e he => ?_,by rw [if_pos hzero]⟩
    obtain ⟨id,hid⟩ := (h.occupied 0 e).mp he
    have hlen := List.length_pos_of_mem hid
    omega
  · have hfind := List.findIdx_lt_length_of_exists (h.vacant hlt)
    refine ⟨_,hfind,fun e he => ?_,by rw [if_neg hzero]⟩
    have hget := List.findIdx_getElem (p := fun x : Option E => x.isNone) (w := hfind)
    rw [(List.getElem?_eq_some_iff.mp he).2] at hget
    cases hget

theorem Good.add (h : Good s) {fill : Nat → Option E} (hok : Clean s (.add e fill)) :
    ∃ t, step s (.add e fill) = some t ∧ Good t := by
  have hle := h.length_le
  have hn := h.nentry
  rw [step,listAdd]
  by_cases hfull : s.list.v.length ≤ s.list.nentry
  · obtain ⟨hsize,hmax,hfill⟩ := hok hfull
    have hlt : s.list.nentry.toNat < (enlarge s.list fill).length := by
      rw [enlarge,List.length_append,List.length_map,List.length_range']
      omega
    rw [if_pos hfull,if_pos hmax,GenericList.put,if_pos hlt]
    refine ⟨_,rfl,h.put hlt (fun j hj => enlarge_keep h hfull hfill hj) (fun e he => ?_) e⟩
    have hin := (List.getElem?_eq_some_iff.mp he).1
    omega
  · rw [if_neg hfull]
    obtain ⟨i,hi,hfree,hput⟩ := h.free_slot (by omega) e
    rw [hput,GenericList.put,if_pos hi]
    exact ⟨_,rfl,h.put hi (fun _ _ _ => Iff.rfl) hfree e⟩

theorem Good.del (h : Good s) (hi : s.list.v[i]? = some (some e)) :
    ∃ t, step s (.del i) = some t ∧ Good t := by
  have hlt := (List.getElem?_eq_some_iff.mp hi).1
  obtain ⟨id,hid⟩ := (h.occupied i e).mp hi
  rw [step,listDel,if_pos hlt]
  have hmap : (s.live.filter (·.slot ≠ i)).map (·.slot) = (s.live.map (·.slot)).erase i := by
    rw [h.slots.erase_eq_filter,List.filter_map]
    refine congrArg _ (List.filter_congr fun x _ => ?_)
    rcases eq_or_ne x.slot i with hx | hx
    · simp [hx]
    · simp [hx]
  refine ⟨_,rfl,fun j e' => ?_,?_,?_,?_,?_⟩
  · rcases eq_or_ne j i with rfl | hj
    · simp [List.getElem?_set_self hlt]
    · simp [List.getElem?_set_ne (Ne.symm hj),h.occupied j e',hj]
  · rw [hmap]
    exact h.slots.erase i
  · exact h.ids.sublist (List.filter_sublist.map _)
  · intro x hx
    exact h.old x (List.mem_of_mem_filter hx)
  · have hlen := congrArg List.length hmap
    rw [List.length_map,List.length_erase_of_mem (List.mem_map.mpr ⟨_,hid,rfl⟩),
      List.length_map] at hlen
    have hpos := List.length_pos_of_mem hid
    rw [h.nentry,hlen]
    dsimp only
    omega

theorem Good.step (h : Good s) (hok : Clean s o) : ∃ t, step s o = some t ∧ Good t := by
  cases o with
  | add e fill => exact h.add hok
  | del i =>
    obtain ⟨e,he⟩ := hok
    exact h.del he

theorem good_init (n : Nat) : Good (init n : State E) := by
  refine ⟨fun i e => ?_,List.nodup_nil,List.nodup_nil,by simp [init],rfl⟩
  simp [init,initList,List.getElem?_replicate]

theorem searchLoop_spec (compare : E → Bool) (v : List (Option E)) (k : Nat) :
    (∀ e ∈ (searchLoop compare v k).1, some e ∈ v) ∧
      (∀ i ∈ (searchLoop compare v k).2,
        ∃ j e, i = k + j ∧ v[j]? = some (some e) ∧ compare e = true) ∧
      ((searchLoop compare v k).2 = none → ∀ e, some e ∈ v → compare e = false) := by
  induction v generalizing k with
  | nil => simp [searchLoop]
  | cons x v ih =>
    obtain ⟨hcalls,hfound,hnone⟩ := ih (k + 1)
    cases x with
    | none =>
      refine ⟨fun e he => List.mem_cons_of_mem _ (hcalls e he),fun i hi => ?_,fun hr e he => ?_⟩
      · obtain ⟨j,e,rfl,hj,hc⟩ := hfound i hi
        exact ⟨j + 1,e,by omega,hj,hc⟩
      · exact hnone hr e (by simpa using he)
    | some e =>
      rw [searchLoop]
      split_ifs with hc
      · exact ⟨by simp,fun i hi => ⟨0,e,(Option.some.inj hi).symm,rfl,hc⟩,by simp⟩
      · refine ⟨fun e' he => ?_,fun i hi => ?_,fun hr e' he => ?_⟩
        · rcases List.mem_cons.mp he with rfl | he
          · exact List.mem_cons_self
          · exact List.mem_cons_of_mem _ (hcalls e' he)
        · obtain ⟨j,e',rfl,hj,hc⟩ := hfound i hi
          exact ⟨j + 1,e',by omega,hj,hc⟩
        · rcases List.mem_cons.mp he with heq | he
          · obtain rfl := Option.some.inj heq
            exact Bool.eq_false_iff.mpr hc
          · exact hnone hr e' he

theorem Good.mem_live (h : Good s) (he : some e ∈ s.list.v) : ∃ x ∈ s.live, x.elem = e := by
  obtain ⟨i,hi⟩ := List.mem_iff_getElem?.mp he
  obtain ⟨id,hid⟩ := (h.occupied i e).mp hi
  exact ⟨_,hid,rfl⟩

structure Searches (s : State E) (compare : E → Bool) : Prop where
  calls : ∀ e ∈ (listSearch s.list compare).1, ∃ x ∈ s.live, x.elem = e
  found : ∀ i ∈ (listSearch s.list compare).2, ∃ x ∈ s.live, x.slot = i ∧ compare x.elem = true
  missed : (listSearch s.list compare).2 = none → ∀ x ∈ s.live, compare x.elem = false

theorem Good.searches (h : Good s) (compare : E → Bool) : Searches s compare := by
  obtain ⟨hcalls,hfound,hnone⟩ := searchLoop_spec compare s.list.v 0
  have hn := h.nentry
  by_cases hzero : s.list.nentry = 0
  · have hlive : s.live = [] := List.length_eq_zero_iff.mp (by omega)
    constructor <;> simp [listSearch,hzero,hlive]
  · have hsearch : listSearch s.list compare = searchLoop compare s.list.v 0 := if_neg hzero
    refine ⟨fun e he => ?_,fun i hi => ?_,fun hr x hx => ?_⟩
    · rw [hsearch] at he
      exact h.mem_live (hcalls e he)
    · rw [hsearch] at hi
      obtain ⟨j,e,rfl,hj,hc⟩ := hfound i hi
      obtain ⟨id,hid⟩ := (h.occupied j e).mp hj
      exact ⟨_,hid,by simp,hc⟩
    · rw [hsearch] at hr
      exact hnone hr x.elem (List.mem_of_getElem? ((h.occupied x.slot x.elem).mpr ⟨x.id,hx⟩))

theorem step_live (hs : GenericList.step s o = some t) :
    s.next ≤ t.next ∧ ∀ x ∈ t.live, x ∈ s.live ∨ s.next ≤ x.id := by
  cases o with
  | add e fill =>
    obtain ⟨r,-,rfl⟩ := Option.map_eq_some_iff.mp hs
    refine ⟨Nat.le_succ _,fun x hx => ?_⟩
    rcases List.mem_cons.mp hx with rfl | hx
    · exact .inr (Nat.le_refl _)
    · exact .inl hx
  | del i =>
    obtain rfl := Option.some.inj hs
    exact ⟨Nat.le_refl _,fun x hx => .inl (List.mem_of_mem_filter hx)⟩

theorem run_live {ok : State E → Op E → Prop} (hrun : Run GenericList.step ok s t) :
    s.next ≤ t.next ∧ ∀ x ∈ t.live, x ∈ s.live ∨ s.next ≤ x.id := by
  induction hrun with
  | refl => exact ⟨Nat.le_refl _,fun x hx => .inl hx⟩
  | tail _ _ hstep ih =>
    obtain ⟨hnext,hlive⟩ := step_live hstep
    refine ⟨Nat.le_trans ih.1 hnext,fun x hx => ?_⟩
    rcases hlive x hx with hx | hx
    · exact ih.2 x hx
    · exact .inr (Nat.le_trans ih.1 hx)

theorem Good.stable (h : Good s) {ok : State E → Op E → Prop} (hrun : Run GenericList.step ok s t)
    {x y : Live E} (hx : x ∈ s.live) (hy : y ∈ t.live) (hid : y.id = x.id) : y = x := by
  rcases (run_live hrun).2 y hy with hy | hy
  · exact List.inj_on_of_nodup_map h.ids hy hx hid
  · have hlt := h.old x hx
    omega

theorem list_slots_kept {n : Nat} {s : State E} (hrun : Run GenericList.step Clean (init n) s) :
    Good s ∧ (∀ compare, Searches s compare) ∧
      (∀ o, Clean s o → ∃ t, GenericList.step s o = some t) ∧
      ∀ t, Run GenericList.step Clean s t →
        ∀ x ∈ s.live, ∀ y ∈ t.live, y.id = x.id → y.slot = x.slot := by
  have h : Good s := hrun.invariant
    (fun t o u ht ho hu => by
      obtain ⟨u',hu',hgood⟩ := ht.step ho
      rwa [Option.some.inj (hu.symm.trans hu')]) (good_init n)
  refine ⟨h,h.searches,fun o ho => ?_,fun t ht x hx y hy hid => ?_⟩
  · obtain ⟨t,ht,-⟩ := h.step ho
    exact ⟨t,ht⟩
  · rw [h.stable ht hx hy hid]

end Slots

def threeAdds (fill : Nat → Option Nat) : List (Op Nat) :=
  [.add 10 fill, .add 11 fill, .add 12 fill]

theorem list_slots_kept_grown :
    ∃ s, exec GenericList.step (init 2) (threeAdds fun _ => none) = some s ∧
      s.live.map (·.slot) = [2, 1, 0] ∧ Good s ∧ ∀ compare, Searches s compare := by
  refine ⟨_,rfl,rfl,?_⟩
  have hclean : Meets GenericList.step Clean (init 2) (threeAdds fun _ => none) := by
    refine ⟨fun _ => ⟨by decide,by decide,fun _ _ _ => rfl⟩,fun t ht => ?_⟩
    obtain rfl := Option.some.inj ht
    refine ⟨fun _ => ⟨by decide,by decide,fun _ _ _ => rfl⟩,fun t ht => ?_⟩
    obtain rfl := Option.some.inj ht
    exact ⟨fun _ => ⟨by decide,by decide,fun _ _ _ => rfl⟩,fun t _ => trivial⟩
  have h := list_slots_kept (Run.of_exec rfl hclean)
  exact ⟨h.1,h.2.1⟩

theorem realloc_garbage_occupied :
    ¬∀ (n : Nat) (s : State Nat), Run GenericList.step Occupied (init n) s →
      Good s ∧ ∀ o, Occupied s o → ∃ t, GenericList.step s o = some t := by
  intro hall
  have hmeets : Meets GenericList.step Occupied (init 2) (threeAdds fun _ => some 99) :=
    ⟨trivial,fun _ _ => ⟨trivial,fun _ _ => ⟨trivial,fun _ _ => trivial⟩⟩⟩
  obtain ⟨t,ht⟩ := (hall 2 _ (Run.of_exec rfl hmeets)).2 (.add 13 fun _ => none) trivial
  cases ht

end ViewOS.Rsc.GenericList
