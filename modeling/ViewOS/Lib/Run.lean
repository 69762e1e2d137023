import Mathlib.Tactic.Common

namespace Transition

variable {S O : Type*}

inductive Run (step : S → O → Option S) (ok : S → O → Prop) : S → S → Prop where
  | refl (s : S) : Run step ok s s
  | tail {s t u : S} {o : O} : Run step ok s t → ok t o → step t o = some u → Run step ok s u

def exec (step : S → O → Option S) : S → List O → Option S
  | s, [] => some s
  | s, o :: os => (step s o).bind fun t => exec step t os

variable {step : S → O → Option S} {ok ok' : S → O → Prop} {s t u : S}

theorem Run.invariant {I : S → Prop} (h : Run step ok s t)
    (hstep : ∀ t o u, I t → ok t o → step t o = some u → I u) (hs : I s) : I t := by
  induction h with
  | refl => exact hs
  | tail _ ho hu ih => exact hstep _ _ _ ih ho hu

theorem Run.mono (h : Run step ok s t) (hok : ∀ s o, ok s o → ok' s o) : Run step ok' s t := by
  induction h with
  | refl => exact .refl _
  | tail _ ho hu ih => exact ih.tail (hok _ _ ho) hu

theorem Run.trans (h : Run step ok s t) (h' : Run step ok t u) : Run step ok s u := by
  induction h' with
  | refl => exact h
  | tail _ ho hu ih => exact ih.tail ho hu

theorem Run.cases_head (h : Run step ok s t) :
    s = t ∨ ∃ o u, ok s o ∧ step s o = some u ∧ Run step ok u t := by
  induction h with
  | refl => exact .inl rfl
  | tail _ ho hu ih =>
    rcases ih with rfl | ⟨o,v,hv,hstep,hrun⟩
    · exact .inr ⟨_,_,ho,hu,.refl _⟩
    · exact .inr ⟨o,v,hv,hstep,hrun.tail ho hu⟩

def Meets (step : S → O → Option S) (ok : S → O → Prop) : S → List O → Prop
  | _, [] => True
  | s, o :: os => ok s o ∧ ∀ t ∈ step s o, Meets step ok t os

instance decidableMeets [∀ s o, Decidable (ok s o)] :
    (os : List O) → (s : S) → Decidable (Meets step ok s os)
  | [], _ => inferInstanceAs (Decidable True)
  | _ :: os, _ =>
    have : DecidablePred fun t => Meets step ok t os := fun t => decidableMeets os t
    inferInstanceAs (Decidable (_ ∧ _))

theorem Meets.of_forall (h : ∀ s o, ok s o) (os : List O) (s : S) : Meets step ok s os := by
  induction os generalizing s with
  | nil => trivial
  | cons o os ih => exact ⟨h s o,fun t _ => ih t⟩

theorem Run.of_exec {os : List O} (h : exec step s os = some t) (hok : Meets step ok s os) :
    Run step ok s t := by
  induction os generalizing s with
  | nil =>
    obtain rfl : s = t := by simpa [exec] using h
    exact .refl s
  | cons o os ih =>
    obtain ⟨u,hu,ht⟩ := Option.bind_eq_some_iff.mp h
    exact ((Run.refl s).tail hok.1 hu).trans (ih ht (hok.2 u hu))

theorem Run.of_any {os : List O} {p : S → Bool} (h : (exec step s os).any p = true) :
    ∃ t, Run step (fun _ _ => True) s t ∧ p t = true := by
  obtain ⟨t,ht,hp⟩ := (Option.any_eq_true _ _).mp h
  exact ⟨t,.of_exec ht (Meets.of_forall (fun _ _ => trivial) os s),hp⟩

theorem exec_append (s : S) (os os' : List O) :
    exec step s (os ++ os') = (exec step s os).bind fun t => exec step t os' := by
  induction os generalizing s with
  | nil => rfl
  | cons o os ih =>
    rw [List.cons_append,exec,exec,Option.bind_assoc]
    exact Option.bind_congr fun t _ => ih t

theorem exec_map {I : Type*} (f : I → O) (s : S) (xs : List I) :
    exec step s (xs.map f) = xs.foldlM (fun s x => step s (f x)) s := by
  induction xs generalizing s with
  | nil => rfl
  | cons x xs ih =>
    rw [List.map_cons,exec,List.foldlM_cons]
    exact congrArg _ (funext ih)

theorem exec_isSome_iff (hok : ∀ s o, (step s o).isSome = true ↔ ok s o) {os : List O} :
    (exec step s os).isSome = true ↔ Meets step ok s os := by
  induction os generalizing s with
  | nil => simp [exec,Meets]
  | cons o os ih =>
    rw [exec,Meets,← hok]
    cases step s o with
    | none => simp
    | some t => simpa using ih

theorem exec_invariant {I : S → Prop} {P : O → Prop}
    (hstep : ∀ s o, P o → ∀ t, I s → step s o = some t → I t) {os : List O} (hP : ∀ o ∈ os, P o)
    (h : exec step s os = some t) (hs : I s) : I t := by
  induction os generalizing s with
  | nil =>
    obtain rfl : s = t := by simpa [exec] using h
    exact hs
  | cons o os ih =>
    obtain ⟨u,hu,ht⟩ := Option.bind_eq_some_iff.mp h
    exact ih (fun o ho => hP o (List.mem_cons_of_mem _ ho)) ht
      (hstep s o (hP o List.mem_cons_self) u hs hu)

section Feed

variable {I R : Type*} {act : S → I → Option (S × R)}

def feed (act : S → I → Option (S × R)) : S → List I → Option (S × List R)
  | s, [] => some (s, [])
  | s, i :: is => (act s i).bind fun r => (feed act r.1 is).map fun rs => (rs.1, r.2 :: rs.2)

theorem feed_concat {is : List I} {i : I} :
    feed act s (is ++ [i]) = (feed act s is).bind fun r =>
      (act r.1 i).map fun r' => (r'.1, r.2 ++ [r'.2]) := by
  induction is generalizing s with
  | nil => cases h : act s i <;> simp [feed,h]
  | cons j is ih =>
    rw [List.cons_append,feed,feed]
    cases act s j with
    | none => rfl
    | some r =>
      simp only [Option.bind_some,ih]
      cases feed act r.1 is with
      | none => rfl
      | some rs =>
        simp only [Option.bind_some,Option.map_some,Option.map_map]
        rfl

end Feed

end Transition
