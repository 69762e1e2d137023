import ViewOS.Lib.RefCount

namespace Shared
open RefCount

variable {α β : Type*} {count : α → Int} {ref : β → Nat}

-- objs are counted objects, ref gives the object that a user refers to. A freed object and a user
-- that is gone are none.
def counts (count : α → Int) (objs : List (Option α)) (a : Nat) : Option Int :=
  objs[a]?.join.map count

def users (ref : β → Nat) (us : List (Option β)) : Multiset Nat :=
  (us.map fun u => u.elim 0 fun u => {ref u}).sum

def Counted (count : α → Int) (ref : β → Nat) (objs : List (Option α)) (us : List (Option β)) : Prop :=
  counts count objs = tally (users ref us)

theorem counts_set {objs : List (Option α)} {a : Nat} (h : a < objs.length) (o : Option α) :
    counts count (objs.set a o) = Function.update (counts count objs) a (o.map count) := by
  funext b
  rcases eq_or_ne b a with rfl | hb
  · simp [counts,h]
  · simp [counts,hb,List.getElem?_set_ne hb.symm]

theorem counts_append (objs : List (Option α)) (o : Option α) :
    counts count (objs ++ [o]) = Function.update (counts count objs) objs.length (o.map count) := by
  funext b
  rcases eq_or_ne b objs.length with rfl | hb
  · simp [counts]
  · rcases lt_or_gt_of_ne hb with hlt | hgt
    · simp [counts,hb,List.getElem?_append_left hlt]
    · simp [counts,hb,List.getElem?_eq_none (show objs.length ≤ b by omega),
        List.getElem?_eq_none (show (objs ++ [o]).length ≤ b by simp; omega)]

theorem counts_of_get (count : α → Int) {objs : List (Option α)} {a : Nat} {p : α} (h : objs[a]? = some (some p)) :
    counts count objs a = some (count p) := by
  simp [counts,h]

theorem lt_of_get {objs : List (Option α)} {a : Nat} {o : Option α} (h : objs[a]? = some o) :
    a < objs.length :=
  (List.getElem?_eq_some_iff.mp h).1

theorem users_append (us : List (Option β)) (u : β) :
    users ref (us ++ [some u]) = {ref u} + users ref us := by
  simp [users,add_comm]

theorem join_append (xs : List (Option α)) (x : Option α) (i : Nat) :
    ((xs ++ [x])[i]?).join = if i = xs.length then x else xs[i]?.join := by
  rcases lt_trichotomy i xs.length with h | rfl | h
  · simp [List.getElem?_append_left h,h.ne]
  · simp
  · simp [List.getElem?_eq_none (show (xs ++ [x]).length ≤ i by simp; omega),
      List.getElem?_eq_none h.le,h.ne']

theorem join_set {xs : List (Option α)} {i : Nat} (h : i < xs.length) (x : Option α) (j : Nat) :
    ((xs.set i x)[j]?).join = if j = i then x else xs[j]?.join := by
  rcases eq_or_ne j i with rfl | hj
  · simp [h]
  · simp [hj,List.getElem?_set_ne hj.symm]

section Counted

variable {objs : List (Option α)} {us : List (Option β)} {i : Nat} {u : β} {p : α}

theorem users_split (ref : β → Nat) (hu : us[i]? = some (some u)) :
    ∃ r, users ref us = {ref u} + r ∧ ∀ w, users ref (us.set i w) = (w.elim 0 fun w => {ref w}) + r :=
  sum_map_split _ hu

theorem mem_users (hu : us[i]? = some (some u)) : ref u ∈ users ref us := by
  obtain ⟨r,hr,_⟩ := users_split ref hu
  simp [hr]

theorem Counted.object (h : Counted count ref objs us) (hu : us[i]? = some (some u)) :
    ∃ p, objs[ref u]? = some (some p) := by
  have hc : counts count objs (ref u) = some ((users ref us).count (ref u) : Int) := by
    rw [h,tally_of_mem (mem_users hu)]
  obtain ⟨p,hp,_⟩ := Option.map_eq_some_iff.mp hc
  exact ⟨p,Option.join_eq_some_iff.mp hp⟩

theorem Counted.count_eq (h : Counted count ref objs us) (hu : us[i]? = some (some u))
    (hp : objs[ref u]? = some (some p)) : count p = (users ref us).count (ref u) := by
  have hc := counts_of_get count hp
  rw [h,tally_of_mem (mem_users hu)] at hc
  exact (Option.some.inj hc).symm

theorem Counted.write (h : Counted count ref objs us) {a : Nat} (hp : objs[a]? = some (some p)) {b : α}
    (hcount : count b = count p) : Counted count ref (objs.set a (some b)) us := by
  rw [Counted,← h,counts_set (lt_of_get hp),Option.map_some,hcount,← counts_of_get count hp,
    Function.update_eq_self]

theorem Counted.update (h : Counted count ref objs us) (hu : us[i]? = some (some u)) {v : β}
    (href : ref v = ref u) : Counted count ref objs (us.set i (some v)) := by
  obtain ⟨r,hr,hr'⟩ := users_split ref hu
  have hsame : users ref (us.set i (some v)) = users ref us := by
    rw [hr',hr,Option.elim_some,href]
  rw [Counted,hsame]
  exact h

theorem Counted.map (h : Counted count ref objs us) {f : β → β} (hf : ∀ u, ref (f u) = ref u) :
    Counted count ref objs (us.map (Option.map f)) := by
  have hsame : users ref (us.map (Option.map f)) = users ref us := by
    unfold users
    rw [List.map_map]
    refine congrArg List.sum (List.map_congr_left fun u _ => ?_)
    cases u with
    | none => rfl
    | some u => simp [hf u]
  rw [Counted,hsame]
  exact h

theorem exists_of_mem_users {a : Nat} (h : a ∈ users ref us) :
    ∃ (i : Nat) (u : β), us[i]? = some (some u) ∧ ref u = a := by
  induction us with
  | nil => cases h
  | cons w us ih =>
    rw [users,List.map_cons,List.sum_cons,Multiset.mem_add] at h
    rcases h with h | h
    · cases w with
      | none => cases h
      | some u => exact ⟨0,u,rfl,(Multiset.mem_singleton.mp h).symm⟩
    · obtain ⟨i,u,hu,href⟩ := ih h
      exact ⟨i + 1,u,hu,href⟩

theorem Counted.user (h : Counted count ref objs us) {a : Nat} (hp : objs[a]? = some (some p)) :
    ∃ (i : Nat) (u : β), us[i]? = some (some u) ∧ ref u = a := by
  apply exists_of_mem_users
  by_contra hnone
  have hc := counts_of_get count hp
  rw [h,tally_eq_none.mpr hnone] at hc
  cases hc

theorem Counted.share (h : Counted count ref objs us) (hu : us[i]? = some (some u))
    (hp : objs[ref u]? = some (some p)) {v : β} (href : ref v = ref u) {b : α}
    (hcount : count b = count p + 1) :
    Counted count ref (objs.set (ref u) (some b)) (us ++ [some v]) := by
  rw [Counted,users_append,href,tally_retain,← h,counts_set (lt_of_get hp),Option.map_some,
    hcount,h.count_eq hu hp]

theorem Counted.add (h : Counted count ref objs us) {v : β} (href : ref v = objs.length) {b : α}
    (hcount : count b = 1) : Counted count ref (objs ++ [some b]) (us ++ [some v]) := by
  have hnew : counts count objs objs.length = none := by simp [counts]
  rw [h,tally_eq_none,← Multiset.count_eq_zero] at hnew
  rw [Counted,users_append,href,tally_retain,← h,counts_append,hnew,Option.map_some,hcount]
  rfl

theorem Counted.idle (h : Counted count ref objs us) : Counted count ref objs (us ++ [none]) := by
  have hsame : users ref (us ++ [none]) = users ref us := by simp [users]
  rw [Counted,hsame]
  exact h

theorem Counted.assign (h : Counted count ref objs us) (hu : us[i]? = some none) {v : β}
    (href : ref v = objs.length) {b : α} (hcount : count b = 1) :
    Counted count ref (objs ++ [some b]) (us.set i (some v)) := by
  obtain ⟨r,hr,hr'⟩ := sum_map_split (fun w : Option β => w.elim (0 : Multiset Nat) fun w => {ref w}) hu
  have hold : users ref us = r := hr.trans (zero_add r)
  have hset : users ref (us.set i (some v)) = {ref v} + r := hr' (some v)
  have hnew : counts count objs objs.length = none := by simp [counts]
  rw [h,hold,tally_eq_none,← Multiset.count_eq_zero] at hnew
  rw [Counted,hset,href,tally_retain,← hold,← h,counts_append,hold,hnew,Option.map_some,hcount]
  rfl

theorem Counted.sole (h : Counted count ref objs us) (hu : us[i]? = some (some u))
    (hp : objs[ref u]? = some (some p)) (hone : count p ≤ 1) {j : Nat} {v : β}
    (hv : us[j]? = some (some v)) (href : ref v = ref u) : j = i := by
  obtain ⟨r,hr,hr'⟩ := users_split ref hu
  have hcount := h.count_eq hu hp
  rw [hr,Multiset.count_add,Multiset.count_singleton_self] at hcount
  by_contra hne
  have hmem : ref v ∈ users ref (us.set i none) :=
    mem_users ((List.getElem?_set_ne (Ne.symm hne)).trans hv)
  rw [hr',Option.elim_none,zero_add,href,← Multiset.count_pos] at hmem
  omega

theorem count_users (ref : β → Nat) (us : List (Option β)) (a : Nat) :
    (users ref us).count a = us.countP fun u => u.any fun u => ref u = a := by
  induction us with
  | nil => rfl
  | cons u us ih =>
    have hcons : users ref (u :: us) = u.elim 0 (fun u => {ref u}) + users ref us := by simp [users]
    rw [hcons,Multiset.count_add,ih,List.countP_cons,add_comm]
    congr 1
    cases u with
    | none => rfl
    | some u => simp [Multiset.count_singleton,eq_comm]

theorem Counted.drop (h : Counted count ref objs us) (hu : us[i]? = some (some u))
    (hp : objs[ref u]? = some (some p)) {o : Option α}
    (ho : o.map count = if count p - 1 = 0 then none else some (count p - 1)) :
    Counted count ref (objs.set (ref u) o) (us.set i none) := by
  obtain ⟨r,hr,hr'⟩ := users_split ref hu
  have hold := h.count_eq hu hp
  rw [hr,Multiset.count_add,Multiset.count_singleton_self] at hold
  have hpc : count p - 1 = (r.count (ref u) : Int) := by omega
  have hnew : users ref (us.set i none) = r := by rw [hr',Option.elim_none,zero_add]
  rw [Counted,hnew,counts_set (lt_of_get hp),h,hr,ho,hpc,tally_release r (ref u)]
  congr 1
  simp [tally]

end Counted

end Shared
