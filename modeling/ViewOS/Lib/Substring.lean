import Mathlib.Data.List.Infix

namespace Substring

variable {α : Type*} {sep : α} {w s t r : List α} {i : Nat}

theorem isPrefix_append_sep_iff (hsep : sep ∉ w) : w <+: t ++ sep :: r ↔ w <+: t := by
  induction t generalizing w with
  | nil =>
    cases w with
    | nil => simp
    | cons b w =>
      rw [List.nil_append,List.cons_prefix_cons]
      simp only [List.mem_cons,not_or] at hsep
      simp [Ne.symm hsep.1]
  | cons a t ih =>
    cases w with
    | nil => simp
    | cons b w =>
      rw [List.cons_append,List.cons_prefix_cons,List.cons_prefix_cons,
        ih fun h => hsep (List.mem_cons_of_mem _ h)]

variable [DecidableEq α]

def strstr (w : List α) : List α → Option Nat
  | [] => if w = [] then some 0 else none
  | a :: s => if w <+: a :: s then some 0 else (strstr w s).map (· + 1)

def delimited (sep : α) (w s : List α) (i : Nat) : Bool :=
  (i == 0 || s[i - 1]? == some sep) &&
    (s[i + w.length]? == none || s[i + w.length]? == some sep)

def firstDelimited (sep : α) (w s : List α) : Bool :=
  (strstr w s).any (delimited sep w s)

theorem strstr_append_sep (hne : w ≠ []) (hsep : sep ∉ w) :
    strstr w (t ++ sep :: r) =
      (strstr w t).or ((strstr w r).map (· + (t.length + 1))) := by
  induction t with
  | nil =>
    have hno : ¬w <+: [] ++ sep :: r := by
      rw [isPrefix_append_sep_iff hsep,List.prefix_nil]
      exact hne
    rw [List.nil_append] at hno
    simp only [List.nil_append,strstr,if_neg hno,if_neg hne,Option.none_or,List.length_nil,
      Nat.zero_add]
  | cons a t ih =>
    have hhead : w <+: a :: (t ++ sep :: r) ↔ w <+: a :: t := isPrefix_append_sep_iff (t := a :: t) hsep
    rw [List.cons_append,strstr,strstr]
    by_cases h : w <+: a :: t
    · rw [if_pos (hhead.mpr h),if_pos h,Option.some_or]
    · rw [if_neg (mt hhead.mp h),if_neg h,ih,Option.map_or,Option.map_map]
      rfl

theorem strstr_eq_none_iff (hne : w ≠ []) : strstr w s = none ↔ ¬w <:+: s := by
  induction s with
  | nil => simp [strstr,hne]
  | cons a s ih =>
    rw [strstr,List.infix_cons_iff,not_or,← ih]
    by_cases h : w <+: a :: s
    · simp [h]
    · simp [h]

theorem isInfix_of_strstr (hne : w ≠ []) (h : strstr w s = some i) : w <:+: s := by
  by_contra hno
  rw [(strstr_eq_none_iff hne).mpr hno] at h
  cases h

theorem isPrefix_drop_of_strstr (h : strstr w s = some i) : w <+: s.drop i := by
  induction s generalizing i with
  | nil =>
    rw [strstr] at h
    split_ifs at h with hw
    simp [hw]
  | cons a s ih =>
    rw [strstr] at h
    split_ifs at h with hw
    · obtain rfl : 0 = i := by simpa using h
      exact hw
    · obtain ⟨j,hj,rfl⟩ := Option.map_eq_some_iff.mp h
      exact ih hj

theorem add_length_le_of_strstr (hne : w ≠ []) (h : strstr w s = some i) :
    i + w.length ≤ s.length := by
  have hle := (isPrefix_drop_of_strstr h).length_le
  have hpos := List.length_pos_iff.mpr hne
  rw [List.length_drop] at hle
  omega

theorem delimited_inside_iff (hne : w ≠ []) (hsep : sep ∉ t) (h : strstr w t = some i)
    (hend : r[0]? = none ∨ r[0]? = some sep) : delimited sep w (t ++ r) i = true ↔ t = w := by
  have hle := add_length_le_of_strstr hne h
  have hpos := List.length_pos_iff.mpr hne
  have hfree : ∀ k, t[k]? ≠ some sep := fun k hk => hsep (List.mem_of_getElem? hk)
  have hright : (t ++ r)[i + w.length]? = none ∨ (t ++ r)[i + w.length]? = some sep ↔
      i + w.length = t.length := by
    constructor
    · intro hor
      by_contra hlt
      rw [List.getElem?_append_left (by omega)] at hor
      rcases hor with hnone | hsome
      · exact absurd (List.getElem?_eq_none_iff.mp hnone) (by omega)
      · exact hfree _ hsome
    · intro heq
      rwa [List.getElem?_append_right (by omega),heq,Nat.sub_self]
  have hleft : i = 0 ∨ (t ++ r)[i - 1]? = some sep ↔ i = 0 := by
    rw [List.getElem?_append_left (by omega)]
    exact or_iff_left (hfree _)
  have hspec : delimited sep w (t ++ r) i = true ↔ i = 0 ∧ i + w.length = t.length := by
    rw [← hright,← hleft]
    simp only [delimited,Bool.and_eq_true,Bool.or_eq_true,beq_iff_eq]
  rw [hspec]
  constructor
  · rintro ⟨rfl,hlen⟩
    exact ((isPrefix_drop_of_strstr h).eq_of_length (by simpa using hlen)).symm
  · rintro rfl
    omega

theorem delimited_after (i : Nat) :
    delimited sep w (t ++ sep :: r) (i + (t.length + 1)) = delimited sep w r i := by
  have hright : (t ++ sep :: r)[i + (t.length + 1) + w.length]? = r[i + w.length]? := by
    rw [List.getElem?_append_right (by omega),
      show i + (t.length + 1) + w.length - t.length = (i + w.length) + 1 by omega,
      List.getElem?_cons_succ]
  have hleft : (t ++ sep :: r)[i + (t.length + 1) - 1]? = (sep :: r)[i]? := by
    rw [List.getElem?_append_right (by omega)]
    congr 1
    omega
  rw [delimited,delimited,hright,hleft]
  have hpos : (i + (t.length + 1) == 0) = false := beq_eq_false_iff_ne.mpr (by omega)
  cases i with
  | zero => simp
  | succ i => simp [hpos]

theorem splitOn_append_sep (h : sep ∉ t) : (t ++ sep :: r).splitOn sep = t :: r.splitOn sep := by
  have hfree : ∀ x ∈ t, (x == sep) = false := by
    intro x hx
    exact beq_eq_false_iff_ne.mpr (ne_of_mem_of_not_mem hx h)
  exact List.splitOnP_append_cons_of_forall_mem hfree sep (beq_self_eq_true _) r

theorem firstDelimited_iff (hne : w ≠ []) (hsep : sep ∉ w) (s : List α) :
    firstDelimited sep w s = true ↔ (s.splitOn sep).find? (fun t => w <:+: t) = some w := by
  induction hn : s.length using Nat.strong_induction_on generalizing s with
  | _ n ih =>
    by_cases hs : sep ∈ s
    · obtain ⟨t,r,rfl,ht⟩ := List.eq_append_cons_of_mem hs
      rw [splitOn_append_sep ht,firstDelimited,strstr_append_sep hne hsep]
      cases hfind : strstr w t with
      | some i =>
        have hin := isInfix_of_strstr hne hfind
        rw [Option.some_or,Option.any_some,delimited_inside_iff hne ht hfind (.inr rfl),
          List.find?_cons_of_pos (by simpa using hin),Option.some.injEq]
      | none =>
        have hno := (strstr_eq_none_iff hne).mp hfind
        rw [List.find?_cons_of_neg (by simpa using hno),← ih r.length (by
          rw [← hn,List.length_append,List.length_cons]; omega) r rfl,Option.none_or,
          Option.any_map,firstDelimited]
        simp only [delimited_after]
    · rw [List.splitOn_eq_singleton hs,firstDelimited]
      cases hfind : strstr w s with
      | some i =>
        have hin := isInfix_of_strstr hne hfind
        have hiff := delimited_inside_iff (r := []) hne hs hfind (.inl rfl)
        rw [List.append_nil] at hiff
        rw [Option.any_some,hiff,List.find?_cons_of_pos (by simpa using hin),
          Option.some.injEq]
      | none =>
        have hno := (strstr_eq_none_iff hne).mp hfind
        rw [List.find?_cons_of_neg (by simpa using hno)]
        simp

end Substring
