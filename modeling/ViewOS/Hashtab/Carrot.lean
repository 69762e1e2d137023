import ViewOS.Hashtab.Search
import ViewOS.Hashtab.Table

namespace ViewOS.Hashtab
open HashChain

def newer (accept : Nat → Bool) (best : Option Carrot) (c : Carrot) : Option Carrot :=
  if accept c.elem && best.all fun b => b.time < c.time then some c else best

structure Best (S : Nat → Prop) (accept : Nat → Bool) (time : Nat → Nat) (best : Option Carrot) :
    Prop where
  none : best = none → ∀ a, S a → accept a = false
  some : ∀ c ∈ best, S c.elem ∧ accept c.elem ∧ c.time = time c.elem
  greatest : ∀ c ∈ best, ∀ a, S a → accept a → time a ≤ c.time

section Carrots

variable {t : Table} {accept : Nat → Bool} {time : Nat → Nat} {S : Nat → Prop}

theorem Best.newer {best : Option Carrot} (h : Best S accept time best) (a : Nat) :
    Best (fun x => S x ∨ x = a) accept time (newer accept best ⟨a, time a⟩) := by
  unfold Hashtab.newer
  split_ifs with hn
  · simp only [Bool.and_eq_true] at hn
    refine ⟨by simp,?_,?_⟩
    · rintro c ⟨⟩
      exact ⟨Or.inr rfl,hn.1,rfl⟩
    · rintro c ⟨⟩ x (hx | rfl) hax
      · cases best with
        | none => simp [h.none rfl x hx] at hax
        | some b =>
          have hb := h.greatest b rfl x hx hax
          have hlt : b.time < time a := by simpa using hn.2
          exact hb.trans hlt.le
      · exact le_rfl
  · refine ⟨?_,fun c hc => ⟨Or.inl (h.some c hc).1,(h.some c hc).2⟩,?_⟩
    · rintro rfl x (hx | rfl)
      · exact h.none rfl x hx
      · simpa using hn
    · rintro c hc x (hx | rfl) hax
      · exact h.greatest c hc x hx hax
      · obtain rfl : best = Option.some c := hc
        simpa [hax] using hn

theorem carrotInsert_bound {l : List Carrot} {b : Nat} (hl : ∀ c ∈ l, c.time ≤ b) {a n : Nat}
    (hn : n ≤ b) : ∀ c ∈ carrotInsert t l a n, c.time ≤ b := by
  induction l with
  | nil => simpa [carrotInsert] using hn
  | cons head rest ih =>
    obtain ⟨hh,hr⟩ := List.forall_mem_cons.mp hl
    simp only [carrotInsert]
    split_ifs
    · exact List.forall_mem_cons.mpr ⟨hn,hl⟩
    · simpa using hn
    · exact List.forall_mem_cons.mpr ⟨hh,ih hr⟩
    · exact hl

def Newest (l : List Carrot) : Prop := l.Pairwise fun c d => d.time ≤ c.time

theorem carrotInsert_newest {l : List Carrot} (hl : Newest l) (a n : Nat) :
    Newest (carrotInsert t l a n) := by
  induction l with
  | nil => simp [carrotInsert,Newest]
  | cons head rest ih =>
    obtain ⟨hh,hr⟩ := List.pairwise_cons.mp hl
    simp only [carrotInsert]
    split_ifs with h1 h2 h3
    · refine List.pairwise_cons.mpr ⟨fun c hc => ?_,hl⟩
      rcases List.mem_cons.mp hc with rfl | hc
      · exact h1.le
      · exact (hh c hc).trans h1.le
    · simp [Newest]
    · exact List.pairwise_cons.mpr ⟨carrotInsert_bound hh (Nat.le_of_not_lt h1),ih hr⟩
    · exact hl

theorem find_carrotInsert (hacc : ∀ a, (t.elem a).confirmfun = none → accept a) {l : List Carrot}
    (hl : Newest l) (a n : Nat) :
    (carrotInsert t l a n).find? (fun c => accept c.elem) =
      newer accept (l.find? fun c => accept c.elem) ⟨a, n⟩ := by
  have hfree : ∀ b, htElemHasExceptions (t.elem b) = false → accept b = true := fun b hb =>
    hacc b (by simpa [htElemHasExceptions] using hb)
  have hall : ∀ {l : List Carrot} {m : Nat}, (∀ c ∈ l, c.time < m) →
      (l.find? fun c => accept c.elem).all (fun b => b.time < m) = true := by
    intro l m hm
    simp only [Option.all_eq_true,decide_eq_true_eq]
    exact fun c hc => hm c (List.mem_of_find?_eq_some hc)
  induction l with
  | nil => cases ha : accept a <;> simp [carrotInsert,newer,ha]
  | cons head rest ih =>
    obtain ⟨hh,hr⟩ := List.pairwise_cons.mp hl
    simp only [carrotInsert]
    split_ifs with h1 h2 h3
    · have hlt := hall (l := head :: rest) (m := n) (List.forall_mem_cons.mpr
        ⟨h1,fun c hc => (hh c hc).trans_lt h1⟩)
      rw [List.find?_cons,newer,hlt]
      cases accept a <;> simp
    · have hlt := hall (l := head :: rest) (m := n) (List.forall_mem_cons.mpr
        ⟨h1,fun c hc => (hh c hc).trans_lt h1⟩)
      have ha := hfree a (by simpa using h2)
      simp [newer,hlt,ha]
    · rw [List.find?_cons,List.find?_cons,ih hr]
      cases hacch : accept head.elem
      · rfl
      · simp [newer,h1]
    · have ha := hfree head.elem (by simpa using h3)
      simp [newer,ha,h1]

structure CarrotInv (S : Nat → Prop) (accept : Nat → Bool) (time : Nat → Nat) (l : List Carrot) :
    Prop where
  newest : Newest l
  best : Best S accept time (l.find? fun c => accept c.elem)

theorem carrotInv_nil (accept : Nat → Bool) : CarrotInv (fun _ => False) accept time [] :=
  ⟨.nil,⟨fun _ _ h => h.elim,by simp,by simp⟩⟩

theorem CarrotInv.insert (hacc : ∀ a, (t.elem a).confirmfun = none → accept a) {l : List Carrot}
    (h : CarrotInv S accept time l) (a : Nat) :
    CarrotInv (fun x => S x ∨ x = a) accept time (carrotInsert t l a (time a)) :=
  ⟨carrotInsert_newest h.newest a _,by
    rw [find_carrotInsert hacc h.newest]
    exact h.best.newer a⟩

theorem CarrotInv.congr {S' : Nat → Prop} {l : List Carrot} (h : CarrotInv S accept time l)
    (hS : ∀ a, S' a ↔ S a) : CarrotInv S' accept time l := by
  obtain rfl : S' = S := funext fun a => propext (hS a)
  exact h

end Carrots

end ViewOS.Hashtab
