import ViewOS.Lib.Run
import ViewOS.Treepoch.Procs
import Mathlib.Data.Finset.Card

namespace ViewOS.Treepoch
open AddrTree

structure Sys where
  te : State
  live : Finset Nat
  tst : Nat → Timestamp
  svc : Nat → Option Timestamp

def Sys.empty : Sys := ⟨State.empty, ∅, fun _ => ⟨0, none⟩, fun _ => none⟩

inductive Op where
  | pcbPlusRoot (p : Nat)
  | pcbPlus (pp p : Nat)
  | pcbNewfork (p : Nat)
  | pcbMinus (p : Nat)
  | syscall (p : Nat)
  | addService (p k : Nat)
  | matching (p k : Nat)
  deriving DecidableEq, Repr

def Enabled (σ : Sys) : Op → Prop
  | .pcbPlusRoot p => σ.te.teRoot = none ∧ p ∉ σ.live
  | .pcbPlus pp p => pp ∈ σ.live ∧ p ∉ σ.live
  | .pcbNewfork p => p ∈ σ.live
  | .pcbMinus p => p ∈ σ.live
  | .syscall p => p ∈ σ.live
  | .addService p _ => p ∈ σ.live
  | .matching p k => p ∈ σ.live ∧ σ.svc k ≠ none

instance (σ : Sys) : (op : Op) → Decidable (Enabled σ op)
  | .pcbPlusRoot p => inferInstanceAs (Decidable (σ.te.teRoot = none ∧ p ∉ σ.live))
  | .pcbPlus pp p => inferInstanceAs (Decidable (pp ∈ σ.live ∧ p ∉ σ.live))
  | .pcbNewfork p => inferInstanceAs (Decidable (p ∈ σ.live))
  | .pcbMinus p => inferInstanceAs (Decidable (p ∈ σ.live))
  | .syscall p => inferInstanceAs (Decidable (p ∈ σ.live))
  | .addService p _ => inferInstanceAs (Decidable (p ∈ σ.live))
  | .matching p k => inferInstanceAs (Decidable (p ∈ σ.live ∧ σ.svc k ≠ none))

def perform (σ : Sys) : Op → Option Sys
  | .pcbPlusRoot p => do
      let (te, tst) ← tstNewfork σ.te none
      let (te, tst) ← tstNewproc te tst
      some { σ with te := te, live := insert p σ.live, tst := Function.update σ.tst p tst }
  | .pcbPlus pp p => do
      let (te, tst) ← tstNewproc σ.te (σ.tst pp)
      some { σ with te := te, live := insert p σ.live, tst := Function.update σ.tst p tst }
  | .pcbNewfork p => do
      let (te, tst) ← tstNewfork σ.te (some (σ.tst p))
      some { σ with te := te, tst := Function.update σ.tst p tst }
  | .pcbMinus p => do
      let te ← tstDelproc σ.te (σ.tst p)
      some { σ with te := te, live := σ.live.erase p }
  | .syscall p =>
    some { σ with tst := Function.update σ.tst p { σ.tst p with epoch := getEpoch σ.te } }
  | .addService p k =>
    let (te, tst) := tstTimestamp σ.te (σ.tst p)
    some { σ with te := te, svc := Function.update σ.svc k (some tst) }
  | .matching p k => do
      let service ← σ.svc k
      let (service, _) ← tstMatchingepoch σ.te service (some (σ.tst p))
      some { σ with svc := Function.update σ.svc k (some service) }

def step (σ : Sys) (op : Op) : Option Sys := if Enabled σ op then perform σ op else none

def occupancy (σ : Sys) (a : Nat) : Nat :=
  (σ.live.filter fun p => (σ.tst p).treepoch = some a).card

structure Inv (σ : Sys) (T : ATree) : Prop where
  rep : Rep σ.te T
  counts : T.Forall (Counts σ.te.mem (occupancy σ)) none []
  atLeaf : ∀ p ∈ σ.live, ∃ a ∈ T.leaves, (σ.tst p).treepoch = some a
  occupied : σ.live.Nonempty → ∀ a ∈ T.leaves, 0 < occupancy σ a
  height : T.height ≤ maxDepth

section Occupancy

variable {σ τ : Sys} {p a b : Nat}

theorem occupancy_congr (hl : τ.live = σ.live)
    (ht : ∀ p ∈ σ.live, (τ.tst p).treepoch = (σ.tst p).treepoch) : occupancy τ = occupancy σ := by
  funext a
  unfold occupancy
  rw [hl]
  exact congrArg Finset.card (Finset.filter_congr fun p hp => by rw [ht p hp])

theorem occupancy_insert (hl : τ.live = insert p σ.live) (hp : p ∉ σ.live)
    (ht : ∀ q ∈ σ.live, (τ.tst q).treepoch = (σ.tst q).treepoch)
    (ha : (τ.tst p).treepoch = some a) :
    occupancy τ a = occupancy σ a + 1 ∧ ∀ b, b ≠ a → occupancy τ b = occupancy σ b := by
  have hold : ∀ b, (σ.live.filter fun q => (τ.tst q).treepoch = some b) =
      σ.live.filter fun q => (σ.tst q).treepoch = some b := fun b =>
    Finset.filter_congr fun q hq => by rw [ht q hq]
  refine ⟨?_,fun b hb => ?_⟩
  · rw [occupancy,hl,Finset.filter_insert,if_pos ha,hold,Finset.card_insert_of_notMem]
    · rfl
    · simp [hp]
  · rw [occupancy,hl,Finset.filter_insert,if_neg (by rw [ha]; simpa using hb.symm),hold]
    rfl

theorem occupancy_erase (hl : τ.live = σ.live.erase p) (hp : p ∈ σ.live)
    (ht : ∀ q ∈ τ.live, (τ.tst q).treepoch = (σ.tst q).treepoch)
    (ha : (σ.tst p).treepoch = some a) :
    occupancy τ a + 1 = occupancy σ a ∧ ∀ b, b ≠ a → occupancy τ b = occupancy σ b := by
  have hin : σ.live = insert p τ.live := by rw [hl,Finset.insert_erase hp]
  have hnot : p ∉ τ.live := by simp [hl]
  obtain ⟨h1,h2⟩ := occupancy_insert hin hnot (fun q hq => (ht q hq).symm) ha
  exact ⟨h1.symm,fun b hb => (h2 b hb).symm⟩

theorem occupancy_move (hl : τ.live = σ.live) (hp : p ∈ σ.live)
    (ht : ∀ q ∈ σ.live, q ≠ p → (τ.tst q).treepoch = (σ.tst q).treepoch)
    (ha : (σ.tst p).treepoch = some a) (hb : (τ.tst p).treepoch = some b) (hab : b ≠ a) :
    occupancy τ a + 1 = occupancy σ a ∧ occupancy τ b = occupancy σ b + 1 ∧
      ∀ c, c ≠ a → c ≠ b → occupancy τ c = occupancy σ c := by
  let ρ : Sys := { σ with live := σ.live.erase p }
  obtain ⟨h1,h2⟩ := occupancy_erase (τ := ρ) rfl hp (fun _ _ => rfl) ha
  obtain ⟨h3,h4⟩ := occupancy_insert (σ := ρ) (p := p)
    (by rw [hl]; exact (Finset.insert_erase hp).symm) (by simp [ρ])
    (fun q hq => ht q (Finset.mem_of_mem_erase hq) (Finset.ne_of_mem_erase hq)) hb
  refine ⟨by rw [h4 a hab.symm,h1],by rw [h3,h2 b hab],fun c hca hcb => ?_⟩
  rw [h4 c hcb,h2 c hca]

theorem occupancy_eq_one (hp : p ∈ σ.live) (ha : (σ.tst p).treepoch = some a)
    (h1 : occupancy σ a = 1) : ∀ q ∈ σ.live, (σ.tst q).treepoch = some a → q = p := by
  intro q hq hqa
  obtain ⟨x,hx⟩ := Finset.card_eq_one.mp h1
  have e1 : p ∈ σ.live.filter fun q => (σ.tst q).treepoch = some a := by simp [hp,ha]
  have e2 : q ∈ σ.live.filter fun q => (σ.tst q).treepoch = some a := by simp [hq,hqa]
  rw [hx,Finset.mem_singleton] at e1 e2
  exact e2.trans e1.symm

theorem occupancy_pos (hp : p ∈ σ.live) (ha : (σ.tst p).treepoch = some a) : 0 < occupancy σ a :=
  Finset.card_pos.mpr ⟨p,by simp [hp,ha]⟩

end Occupancy

end ViewOS.Treepoch
