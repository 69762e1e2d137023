import Mathlib.Data.List.Nodup

namespace TailRing

variable {α : Type*}

-- The elements that are met after a are those of l.
def Path (next : α → Option α) : α → List α → Prop
  | _, [] => True
  | a, b :: l => next a = some b ∧ Path next b l

structure IsRing (next : α → Option α) (tail : Option α) (els : List α) : Prop where
  nodup : els.Nodup
  tail : tail = els.getLast?
  path : ∀ t ∈ els.getLast?, Path next t els

variable {next next' : α → Option α} {a c t el : α} {l m els : List α}

theorem path_append : Path next a (l ++ m) ↔ Path next a l ∧ Path next (l.getLastD a) m := by
  induction l generalizing a with
  | nil => simp [Path]
  | cons b l ih => simp only [List.cons_append,Path,ih,List.getLastD_cons,and_assoc]

theorem Path.restart (h : Path next a l) (hc : l ≠ [] → next' c = next a)
    (hsame : ∀ x ∈ l.dropLast, next' x = next x) : Path next' c l := by
  induction l generalizing a c with
  | nil => trivial
  | cons b l ih =>
    refine ⟨(hc (List.cons_ne_nil b l)).trans h.1,?_⟩
    cases l with
    | nil => trivial
    | cons d l =>
      rw [List.dropLast_cons_cons,List.forall_mem_cons] at hsame
      exact ih h.2 (fun _ => hsame.1) hsame.2

theorem not_mem_dropLast (h : (l ++ [t]).Nodup) : t ∉ l := by
  rw [List.nodup_append] at h
  exact fun hmem => h.2.2 t hmem t (List.mem_singleton.mpr rfl) rfl

theorem IsRing.next_tail (hr : IsRing next (some t) els) : next t = els.head? := by
  have hlast : els.getLast? = some t := hr.tail.symm
  have hpath := hr.path t hlast
  cases els with
  | nil => cases hlast
  | cons b l => exact hpath.1

theorem IsRing.exists_tail {tail : Option α} (hr : IsRing next tail els) (hel : el ∈ els) :
    ∃ t, tail = some t :=
  ⟨els.getLast (List.ne_nil_of_mem hel),hr.tail.trans (List.getLast?_eq_some_getLast _)⟩

theorem IsRing.alone (hr : IsRing next (some t) (l ++ el :: m)) (hself : el = l.getLastD t) :
    l = [] ∧ m = [] := by
  have hlast : (l ++ el :: m).getLast? = some t := hr.tail.symm
  have hout : el ∉ l ∧ el ∉ m := by
    simpa using (List.nodup_cons.mp (List.nodup_middle.mp hr.nodup)).1
  rcases List.eq_nil_or_concat' l with rfl | ⟨l,p,rfl⟩
  · refine ⟨rfl,?_⟩
    rcases List.eq_nil_or_concat' m with rfl | ⟨m,u,rfl⟩
    · rfl
    · rw [List.nil_append,← List.cons_append,List.getLast?_concat] at hlast
      obtain rfl : el = u := hself.trans (Option.some.inj hlast).symm
      exact absurd (by simp) hout.2
  · rw [List.getLastD_concat] at hself
    exact absurd (by simp [hself]) hout.1

theorem isRing_nil : IsRing next none [] := ⟨List.nodup_nil,rfl,nofun⟩

variable [DecidableEq α]

theorem Path.reroute {p : α} (h : Path next a (l ++ [c])) (hp : p ∉ l) :
    Path (Function.update next p (next a)) p (l ++ [c]) := by
  refine h.restart (fun _ => Function.update_self ..) fun x hx => ?_
  rw [List.dropLast_concat] at hx
  exact Function.update_of_ne (ne_of_mem_of_not_mem hx hp) _ _

theorem Path.frame {p : α} {v : Option α} (h : Path next a (l ++ [c])) (ha : a ≠ p) (hp : p ∉ l) :
    Path (Function.update next p v) a (l ++ [c]) := by
  refine h.restart (fun _ => Function.update_of_ne ha ..) fun x hx => ?_
  rw [List.dropLast_concat] at hx
  exact Function.update_of_ne (ne_of_mem_of_not_mem hx hp) _ _

theorem isRing_singleton : IsRing (Function.update next el (some el)) (some el) [el] where
  nodup := List.nodup_singleton el
  tail := rfl
  path := by
    intro t ht
    obtain rfl : el = t := by simpa using ht
    exact ⟨Function.update_self ..,trivial⟩

theorem IsRing.append (hr : IsRing next (some t) els) (hel : el ∉ els) :
    IsRing (Function.update (Function.update next el (next t)) t (some el)) (some el) (els ++ [el]) where
  nodup := List.nodup_append.mpr ⟨hr.nodup,List.nodup_singleton _,fun x hx y hy => by
    rintro rfl
    exact hel (List.mem_singleton.mp hy ▸ hx)⟩
  tail := by simp
  path := by
    intro u hu
    obtain rfl : el = u := by simpa using hu
    obtain ⟨l,rfl⟩ := List.getLast?_eq_some_iff.mp hr.tail.symm
    have hpath := hr.path t (by simp)
    have hne : el ≠ t := fun h => hel (by simp [h])
    rw [path_append]
    constructor
    · refine hpath.restart (fun _ => ?_) fun x hx => ?_
      · simp [hne]
      · rw [List.dropLast_concat] at hx
        have hxt : x ≠ t := fun h => not_mem_dropLast hr.nodup (h ▸ hx)
        have hxe : x ≠ el := fun h => hel (by simp [← h,hx])
        simp [hxt,hxe]
    · simp [Path]

theorem IsRing.remove (hr : IsRing next (some t) (l ++ el :: m)) (hother : el ≠ l.getLastD t) :
    IsRing (Function.update next (l.getLastD t) (next el))
      (some (if t = el then l.getLastD t else t)) (l ++ m) := by
  have hn := hr.nodup
  have hnew : (l ++ m).Nodup := hn.sublist ((List.sublist_cons_self el m).append_left l)
  have hout : el ∉ l ∧ el ∉ m := by
    simpa using (List.nodup_cons.mp (List.nodup_middle.mp hn)).1
  have hlast : (l ++ el :: m).getLast? = some t := hr.tail.symm
  obtain ⟨hl,hprev,hm⟩ := path_append.mp (hr.path t hlast)
  rcases List.eq_nil_or_concat' m with rfl | ⟨m,u,rfl⟩
  · obtain rfl : el = t := by simpa using hlast
    rcases List.eq_nil_or_concat' l with rfl | ⟨l,p,rfl⟩
    · exact absurd rfl hother
    · rw [List.append_nil] at hnew ⊢
      rw [List.getLastD_concat,if_pos rfl]
      refine ⟨hnew,by simp,fun u hu => ?_⟩
      obtain rfl : p = u := by simpa using hu
      exact hl.reroute (not_mem_dropLast hnew)
  · obtain rfl : u = t := by
      rw [← List.cons_append,← List.append_assoc,List.getLast?_concat] at hlast
      exact Option.some.inj hlast
    have hue : u ≠ el := fun h => hout.2 (by simp [h])
    have htail : some u = (l ++ (m ++ [u])).getLast? := by
      rw [← List.append_assoc,List.getLast?_concat]
    rw [if_neg hue]
    refine ⟨hnew,htail,fun v hv => ?_⟩
    obtain rfl : u = v := Option.some.inj (htail.trans hv)
    rcases List.eq_nil_or_concat' l with rfl | ⟨l,p,rfl⟩
    · exact hm.reroute (not_mem_dropLast hnew)
    · obtain ⟨hlp,-,hdisj⟩ := List.nodup_append.mp hnew
      have hpm : ∀ x ∈ m ++ [u], p ≠ x := fun x hx => hdisj p (by simp) x hx
      rw [List.getLastD_concat]
      refine path_append.mpr ⟨hl.frame (hpm u (by simp)).symm (not_mem_dropLast hlp),?_⟩
      rw [List.getLastD_concat]
      exact hm.reroute fun h => hpm p (by simp [h]) rfl

end TailRing
