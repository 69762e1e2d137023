import Mathlib.Data.List.Chain
import Mathlib.Data.List.Nodup

namespace RingList

variable {α : Type*}

def Link (next prev : α → α) (a b : α) : Prop := next a = b ∧ prev b = a

def IsRing (next prev : α → α) (l : List α) : Prop :=
  l.IsChain (Link next prev) ∧ ∀ z ∈ l.getLast?, ∀ a ∈ l.head?, Link next prev z a

theorem isChain_congr {R S : α → α → Prop} {l : List α} (hn : l.Nodup)
    (h : ∀ x ∈ l, ∀ y ∈ l, l.getLast? ≠ some x → l.head? ≠ some y → R x y → S x y)
    (hl : l.IsChain R) : l.IsChain S := by
  induction l with
  | nil => exact .nil
  | cons a l ih =>
    cases l with
    | nil => exact .singleton a
    | cons b l =>
      obtain ⟨hab,hl⟩ := List.isChain_cons_cons.mp hl
      obtain ⟨ha,hn⟩ := List.nodup_cons.mp hn
      refine List.isChain_cons_cons.mpr ⟨h a (by simp) b (by simp) ?_ ?_ hab,ih hn ?_ hl⟩
      · rw [List.getLast?_cons_cons]
        exact fun e => ha (List.mem_of_getLast? e)
      · intro e
        exact ha (by simpa using Or.inl (Option.some.inj e))
      · intro x hx y hy hxl hyh
        refine h x (List.mem_cons_of_mem _ hx) y (List.mem_cons_of_mem _ hy) ?_ ?_
        · rwa [List.getLast?_cons_cons]
        · intro e
          exact ha (Option.some.inj e ▸ hy)

theorem IsRing.neighbours_last {next prev : α → α} {l : List α} {x : α}
    (h : IsRing next prev (l ++ [x])) :
    (∀ z ∈ l.getLast?, prev x = z) ∧ ∀ a ∈ l.head?, next x = a := by
  obtain ⟨_,_,hlx⟩ := List.isChain_append.mp h.1
  refine ⟨fun z hz => (hlx z hz x rfl).2,fun a ha => (h.2 x (by simp) a ?_).1⟩
  cases l with
  | nil => simp at ha
  | cons b l => simpa using ha

theorem IsRing.rotate {next prev : α → α} {l r : List α} (h : IsRing next prev (l ++ r)) :
    IsRing next prev (r ++ l) := by
  cases l with
  | nil => simpa using h
  | cons a l =>
    cases r with
    | nil => simpa using h
    | cons b r =>
      obtain ⟨hl,hr,hlr⟩ := List.isChain_append.mp h.1
      have hlast : ∀ (c : α) (s t : List α), (s ++ c :: t).getLast? = (c :: t).getLast? :=
        fun c s t => List.getLast?_append_of_ne_nil s (List.cons_ne_nil c t)
      refine ⟨List.isChain_append.mpr ⟨hr,hl,fun z hz y hy => ?_⟩,fun z hz y hy => ?_⟩
      · exact h.2 z (by rwa [hlast]) y hy
      · exact hlr z (by rwa [hlast] at hz) y hy

theorem IsRing.congr {next prev next' prev' : α → α} {l : List α} (h : IsRing next prev l)
    (hl : ∀ x ∈ l, next' x = next x ∧ prev' x = prev x) : IsRing next' prev' l := by
  have hlink : ∀ x ∈ l, ∀ y ∈ l, Link next prev x y → Link next' prev' x y := fun x hx y hy e =>
    ⟨(hl x hx).1.trans e.1,(hl y hy).2.trans e.2⟩
  refine ⟨?_,fun z hz a ha =>
    hlink z (List.mem_of_getLast? hz) a (List.mem_of_head? ha) (h.2 z hz a ha)⟩
  exact h.1.imp_of_mem_imp fun x y hx hy => hlink x hx y hy

section Update

variable [DecidableEq α] {next prev : α → α}

theorem isRing_singleton (a : α) :
    IsRing (Function.update next a a) (Function.update prev a a) [a] := by
  refine ⟨.singleton a,?_⟩
  simp [Link]

theorem IsRing.append {l : List α} {z new : α} (h : IsRing next prev l) (hn : l.Nodup)
    (hz : l.getLast? = some z) (hnew : new ∉ l) :
    IsRing (Function.update (Function.update next new (next z)) z new)
      (Function.update (Function.update prev new z) (next z) new) (l ++ [new]) := by
  obtain ⟨a,t,rfl⟩ : ∃ a t, l = a :: t := by
    cases l with
    | nil => simp at hz
    | cons a t => exact ⟨a,t,rfl⟩
  obtain ⟨hza,haz⟩ := h.2 z hz a rfl
  have hzl : z ∈ a :: t := List.mem_of_getLast? hz
  have hnz : new ≠ z := fun e => hnew (e ▸ hzl)
  have hna : new ≠ a := fun e => hnew (by simp [e])
  rw [hza]
  constructor
  · refine List.isChain_append.mpr ⟨isChain_congr hn ?_ h.1,.singleton new,?_⟩
    · rintro x hx y hy hxz hya ⟨e1,e2⟩
      have hx1 : x ≠ z := fun e => hxz (e ▸ hz)
      have hx2 : x ≠ new := fun e => hnew (e ▸ hx)
      have hy1 : y ≠ a := fun e => hya (by simp [e])
      have hy2 : y ≠ new := fun e => hnew (e ▸ hy)
      simp [Link,hx1,hx2,hy1,hy2,e1,e2]
    · intro x hx y hy
      obtain rfl : z = x := by simpa [hz] using hx
      obtain rfl : new = y := by simpa using hy
      simp [Link,hna]
  · intro x hx y hy
    obtain rfl : new = x := by simpa only [List.getLast?_concat,Option.mem_some_iff] using hx
    obtain rfl : a = y := by simpa using hy
    simp [Link,hnz]

theorem IsRing.remove_head {t : List α} {x : α} (h : IsRing next prev (x :: t)) (hn : t.Nodup) :
    IsRing (Function.update next (prev x) (next x)) (Function.update prev (next x) (prev x)) t := by
  cases t with
  | nil => exact ⟨.nil,by simp⟩
  | cons a t =>
    obtain ⟨⟨hxa,_⟩,ht⟩ := List.isChain_cons_cons.mp h.1
    obtain ⟨z,hz⟩ : ∃ z, (a :: t).getLast? = some z :=
      ⟨_,List.getLast?_eq_some_getLast (List.cons_ne_nil a t)⟩
    have hzx : prev x = z := (h.2 z (by rwa [List.getLast?_cons_cons]) x rfl).2
    rw [hxa,hzx]
    refine ⟨isChain_congr hn ?_ ht,?_⟩
    · rintro y _ w _ hy hw ⟨e1,e2⟩
      have hyz : y ≠ z := fun e => hy (e ▸ hz)
      have hwa : w ≠ a := fun e => hw (by simp [e])
      exact ⟨by rw [Function.update_of_ne hyz,e1],by rw [Function.update_of_ne hwa,e2]⟩
    · intro y hy w hw
      obtain rfl : z = y := by simpa [hz] using hy
      obtain rfl : a = w := by simpa using hw
      simp [Link]

theorem IsRing.remove {l r : List α} {x : α} (h : IsRing next prev (l ++ x :: r))
    (hn : (l ++ x :: r).Nodup) :
    IsRing (Function.update next (prev x) (next x)) (Function.update prev (next x) (prev x))
      (l ++ r) := by
  have hrot : IsRing next prev (x :: (r ++ l)) := h.rotate
  have hnrot : (x :: (r ++ l)).Nodup := List.perm_append_comm.nodup_iff.mp hn
  exact (hrot.remove_head (List.nodup_cons.mp hnrot).2).rotate

def around (next : α → α) (stop : α) : Nat → α → Option (List α)
  | 0, _ => none
  | n + 1, x =>
    if next x = stop then some [stop] else (around next stop n (next x)).map (next x :: ·)

theorem around_of_isChain {x z : α} {l : List α} {n : Nat}
    (h : (x :: l).IsChain (Link next prev)) (hl : l.Nodup) (hz : l.getLast? = some z)
    (hn : l.length ≤ n) : around next z n x = some l := by
  induction l generalizing x n with
  | nil => simp at hz
  | cons y l ih =>
    obtain ⟨n,rfl⟩ : ∃ m, n = m + 1 := ⟨n - 1,by simp only [List.length_cons] at hn; omega⟩
    obtain ⟨hxy,h⟩ := List.isChain_cons_cons.mp h
    simp only [around,hxy.1]
    cases l with
    | nil =>
      obtain rfl : y = z := by simpa using hz
      simp
    | cons w l =>
      rw [List.getLast?_cons_cons] at hz
      obtain ⟨hy,hl⟩ := List.nodup_cons.mp hl
      have hyz : y ≠ z := fun e => hy (e ▸ List.mem_of_getLast? hz)
      rw [if_neg hyz,ih h hl hz (by simpa using hn)]
      rfl

theorem IsRing.around {l : List α} {z : α} {n : Nat} (h : IsRing next prev l) (hn : l.Nodup)
    (hz : l.getLast? = some z) (hl : l.length ≤ n) : around next z n z = some l := by
  have hchain : (z :: l).IsChain (Link next prev) := List.isChain_cons.mpr ⟨h.2 z hz,h.1⟩
  exact around_of_isChain hchain hn hz hl

end Update

theorem IsRing.inverse {next prev : α → α} {l : List α} (h : IsRing next prev l) {x : α}
    (hx : x ∈ l) : next x ∈ l ∧ prev x ∈ l ∧ prev (next x) = x ∧ next (prev x) = x := by
  obtain ⟨u,v,rfl⟩ := List.append_of_mem hx
  obtain ⟨_,hxv,hux⟩ := List.isChain_append.mp h.1
  have hnext : ∃ a ∈ u ++ x :: v, Link next prev x a := by
    cases v with
    | nil =>
      obtain ⟨a,ha⟩ : ∃ a, (u ++ [x]).head? = some a := by cases u <;> simp
      exact ⟨a,List.mem_of_head? ha,h.2 x (by simp) a ha⟩
    | cons b v => exact ⟨b,by simp,(List.isChain_cons.mp hxv).1 b rfl⟩
  have hprev : ∃ z ∈ u ++ x :: v, Link next prev z x := by
    rcases hu : u.getLast? with _ | z
    · obtain rfl := List.getLast?_eq_none_iff.mp hu
      obtain ⟨z,hz⟩ : ∃ z, (x :: v).getLast? = some z :=
        ⟨_,List.getLast?_eq_some_getLast (List.cons_ne_nil x v)⟩
      exact ⟨z,List.mem_of_getLast? hz,h.2 z hz x rfl⟩
    · exact ⟨z,List.mem_append_left _ (List.mem_of_getLast? hu),hux z hu x rfl⟩
  obtain ⟨a,ha,rfl,hax⟩ := hnext
  obtain ⟨z,hz,hzx,rfl⟩ := hprev
  exact ⟨ha,hz,hax,hzx⟩

end RingList
