import Mathlib.Data.List.Sort

namespace FirstMatch

variable {α : Type*} {before : α → α → Prop} [DecidableRel before] {rank : α → Nat} {a : α} {l : List α}

def Ranked (rank : α → Nat) (l : List α) : Prop := l.Pairwise fun a b => rank b ≤ rank a

theorem Ranked.orderedInsert (h : Ranked rank l) (hb : ∀ b ∈ l, before a b ↔ rank b < rank a) :
    Ranked rank (l.orderedInsert before a) := by
  induction l with
  | nil => exact List.pairwise_singleton _ _
  | cons b l ih =>
    obtain ⟨hall,hl⟩ := List.pairwise_cons.mp h
    rw [List.orderedInsert_cons]
    split_ifs with hab
    · have hlt := (hb b List.mem_cons_self).mp hab
      refine List.pairwise_cons.mpr ⟨fun c hc => ?_,h⟩
      rcases List.mem_cons.mp hc with rfl | hc
      · exact hlt.le
      · exact (hall c hc).trans hlt.le
    · have hle : rank a ≤ rank b := not_lt.mp fun hlt => hab ((hb b List.mem_cons_self).mpr hlt)
      refine List.pairwise_cons.mpr ⟨fun c hc => ?_,ih hl fun c hc => hb c (List.mem_cons_of_mem _ hc)⟩
      rcases (List.mem_orderedInsert _).mp hc with rfl | hc
      · exact hle
      · exact hall c hc

theorem Ranked.find?_le {p : α → Bool} (h : Ranked rank l) (ha : l.find? p = some a) {b : α}
    (hb : b ∈ l) (hp : p b = true) : rank b ≤ rank a := by
  induction l with
  | nil => cases hb
  | cons c l ih =>
    obtain ⟨hall,hl⟩ := List.pairwise_cons.mp h
    rw [List.find?_cons] at ha
    cases hc : p c with
    | true =>
      obtain rfl : c = a := by simpa [hc] using ha
      rcases List.mem_cons.mp hb with rfl | hb
      · exact le_rfl
      · exact hall b hb
    | false =>
      rw [hc] at ha
      rcases List.mem_cons.mp hb with rfl | hb
      · rw [hc] at hp
        cases hp
      · exact ih hl ha hb

end FirstMatch
