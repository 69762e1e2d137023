import Mathlib.Tactic.Common

namespace Trace

variable {S T O R : Type*}

def outputs (step : S → O → R × S) : S → List O → List R
  | _, [] => []
  | s, o :: os => (step s o).1 :: outputs step (step s o).2 os

def Along (step : S → O → R × S) (ok : S → O → Prop) : S → List O → Prop
  | _, [] => True
  | s, o :: os => ok s o ∧ Along step ok (step s o).2 os

instance decidableAlong {step : S → O → R × S} {ok : S → O → Prop} [∀ s o, Decidable (ok s o)] :
    (os : List O) → (s : S) → Decidable (Along step ok s os)
  | [], _ => inferInstanceAs (Decidable True)
  | o :: os, s =>
    have : Decidable (Along step ok (step s o).2 os) := decidableAlong os (step s o).2
    inferInstanceAs (Decidable (_ ∧ _))

variable {step : S → O → R × S} {ok : S → O → Prop} {spec : T → O → R × T} {r : S → T → Prop}

theorem outputs_eq_iff
    (sound : ∀ s t o, r s t → ok s o → (step s o).1 = (spec t o).1 ∧ r (step s o).2 (spec t o).2)
    (exact' : ∀ s t o, r s t → (step s o).1 = (spec t o).1 → ok s o)
    {s : S} {t : T} (h : r s t) (os : List O) :
    outputs step s os = outputs spec t os ↔ Along step ok s os := by
  induction os generalizing s t with
  | nil => exact ⟨fun _ => trivial,fun _ => rfl⟩
  | cons o os ih =>
    simp only [outputs,Along,List.cons.injEq]
    constructor
    · rintro ⟨hfirst,hrest⟩
      have hok := exact' s t o h hfirst
      exact ⟨hok,(ih (sound s t o h hok).2).mp hrest⟩
    · rintro ⟨hok,hrest⟩
      obtain ⟨hfirst,hrel⟩ := sound s t o h hok
      exact ⟨hfirst,(ih hrel).mpr hrest⟩

end Trace
