import Mathlib.Logic.Function.Iterate
import ViewOS.Lib.Run

namespace ViewOS.Lwip.Lifetime

open Transition

inductive Flag where
  | none
  | tentative
  | preferred
  | deprecated
  | invalid
  deriving DecidableEq

def Flag.valid : Flag → Bool
  | .preferred | .deprecated => true
  | _ => false

def infiniteLifetime : BitVec 32 := 0xffffffff

def dupAddrDetectTransmits : Nat := 1

structure Addr where
  assigned : Bool
  flag : Flag
  dadCounter : Nat
  prefered : BitVec 32
  valid : BitVec 32
  deriving DecidableEq

-- The addresses of an interface and of its tentative list, by the element that holds them.
abbrev Lists := Nat → Option Addr

def less (time lifetime : BitVec 32) : BitVec 32 :=
  if lifetime ≠ infiniteLifetime then lifetime - time else lifetime

def newFlag (flag : Flag) (prefered valid : BitVec 32) : Flag :=
  if flag.valid then
    let flag := if prefered = 0 then .deprecated else flag
    if valid = 0 then .invalid else flag
  else flag

-- What addr_update_lifetime does to one element; none is a freed one.
def addrUpdateLifetime (time : BitVec 32) (a : Addr) : Option Addr :=
  if a.flag = .none then some a
  else
    let prefered := less time a.prefered
    let valid := less time a.valid
    let flag := newFlag a.flag prefered valid
    if flag ≠ .invalid then some { a with flag := flag, prefered := prefered, valid := valid } else none

def ipAutoconfTimer (n : Lists) : Lists := fun i => (n i).bind (addrUpdateLifetime 1)

-- The new address goes to the tentative list and start_dad_on_addr sends the first probe.
def handleRa (n : Lists) (i : Nat) (prefered valid : BitVec 32) : Lists :=
  Function.update n i (some ⟨false, .tentative, 1, prefered, valid⟩)

def dadTimeout (a : Addr) : Addr :=
  if a.flag = .tentative then
    if a.dadCounter < dupAddrDetectTransmits then { a with dadCounter := a.dadCounter + 1 }
    else { a with flag := .preferred, assigned := true }
  else a

-- A neighbour advertisement for a tentative address removes it.
def handleNa (a : Addr) : Option Addr := if a.flag = .tentative then none else some a

inductive Event where
  | tick
  | dad (i : Nat)
  | na (i : Nat)

def step (n : Lists) : Event → Option Lists
  | .tick => some (ipAutoconfTimer n)
  | .dad i => some (Function.update n i ((n i).map dadTimeout))
  | .na i => some (Function.update n i ((n i).bind handleNa))

def ticks : List Event → Nat
  | [] => 0
  | .tick :: es => ticks es + 1
  | _ :: es => ticks es

-- No tick finds an address whose detection has not ended in the last second of its preferred time.
def DadInTime (n : Lists) : Event → Prop
  | .tick => ∀ i, ∀ a ∈ n i, a.flag = .tentative → 1 < a.prefered.toNat
  | _ => True

def Aged (p v : Nat) (t : Nat) (a : Addr) : Prop :=
  t < v ∧ a.valid.toNat = v - t ∧
    ((a.flag = .tentative ∨ a.flag = .preferred) ∧ t < p ∧ a.prefered.toNat = p - t ∨
      a.flag = .deprecated ∧ p ≤ t)

variable {p v t : Nat} {a b : Addr} {n n' : Lists} {i : Nat}

theorem less_toNat {x : BitVec 32} (hpos : 0 < x.toNat) (hfin : x.toNat < 4294967295) :
    (less 1 x).toNat = x.toNat - 1 := by
  have hne : x ≠ infiniteLifetime := by
    rintro rfl
    exact absurd hfin (by decide)
  have hone : (1 : BitVec 32).toNat = 1 := rfl
  rw [less,if_pos hne,BitVec.toNat_sub,hone]
  omega

theorem toNat_eq_zero {x : BitVec 32} : x = 0 ↔ x.toNat = 0 := by
  rw [← BitVec.toNat_inj]
  rfl

theorem newFlag_of_valid {flag : Flag} {x y : BitVec 32} (hflag : flag.valid = true)
    (h : newFlag flag x y ≠ .invalid) :
    y ≠ 0 ∧ newFlag flag x y = if x = 0 then .deprecated else flag := by
  rw [newFlag,if_pos hflag] at h ⊢
  by_cases hy : y = 0
  · exact absurd (if_pos hy) h
  · exact ⟨hy,if_neg hy⟩

theorem aged_tick (hpv : p ≤ v) (hv : v < 4294967295) (h : Aged p v t a)
    (hdad : a.flag = .tentative → 1 < a.prefered.toNat) :
    ∀ b ∈ addrUpdateLifetime 1 a, Aged p v (t + 1) b := by
  intro b hb
  obtain ⟨htv,hval,hcases⟩ := h
  have hvalid := less_toNat (x := a.valid) (by omega) (by omega)
  have hnone : a.flag ≠ .none := by
    rcases hcases with ⟨h | h,-⟩ | ⟨h,-⟩ <;> rw [h] <;> decide
  rw [addrUpdateLifetime,if_neg hnone] at hb
  dsimp only at hb
  by_cases hinv : newFlag a.flag (less 1 a.prefered) (less 1 a.valid) = .invalid
  · rw [if_neg (not_not.mpr hinv)] at hb
    cases hb
  rw [if_pos hinv] at hb
  obtain rfl := Option.some.inj hb
  rcases hcases with ⟨hflag | hflag,htp,hpref⟩ | ⟨hflag,hpt⟩
  · have hlast := hdad hflag
    have hpnew := less_toNat (x := a.prefered) (by omega) (by omega)
    exact ⟨by omega,by dsimp only; omega,
      Or.inl ⟨Or.inl (by rw [hflag]; rfl),by omega,by dsimp only; omega⟩⟩
  · rw [hflag] at hinv
    obtain ⟨hne,hnew⟩ := newFlag_of_valid rfl hinv
    have hpnew := less_toNat (x := a.prefered) (by omega) (by omega)
    rw [Ne,toNat_eq_zero] at hne
    rw [hflag,hnew]
    refine ⟨by omega,by dsimp only; omega,?_⟩
    by_cases hz : less 1 a.prefered = 0
    · rw [if_pos hz]
      rw [toNat_eq_zero] at hz
      exact Or.inr ⟨rfl,by omega⟩
    · rw [if_neg hz]
      rw [toNat_eq_zero] at hz
      exact Or.inl ⟨Or.inr rfl,by omega,by dsimp only; omega⟩
  · rw [hflag] at hinv
    obtain ⟨hne,hnew⟩ := newFlag_of_valid rfl hinv
    rw [Ne,toNat_eq_zero] at hne
    rw [hflag,hnew,ite_self]
    exact ⟨by omega,by dsimp only; omega,Or.inr ⟨rfl,by omega⟩⟩

theorem aged_dad (h : Aged p v t a) : Aged p v t (dadTimeout a) := by
  obtain ⟨htv,hval,hcases⟩ := h
  rw [dadTimeout]
  split_ifs with htent hmore
  · exact ⟨htv,hval,hcases⟩
  · rcases hcases with ⟨-,htp,hpref⟩ | ⟨hflag,-⟩
    · exact ⟨htv,hval,Or.inl ⟨Or.inr rfl,htp,hpref⟩⟩
    · cases htent.symm.trans hflag
  · exact ⟨htv,hval,hcases⟩

theorem aged_na (h : Aged p v t a) : ∀ b ∈ handleNa a, Aged p v t b := by
  intro b hb
  rw [handleNa] at hb
  split_ifs at hb
  · cases hb
  · obtain rfl := Option.some.inj hb
    exact h

def tickOf : Event → Nat
  | .tick => 1
  | _ => 0

theorem step_aged {e : Event} (hpv : p ≤ v) (hv : v < 4294967295) (h : ∀ a ∈ n i, Aged p v t a)
    (hok : DadInTime n e) (hstep : step n e = some n') : ∀ b ∈ n' i, Aged p v (t + tickOf e) b := by
  intro b hb
  cases e with
  | tick =>
    obtain rfl := Option.some.inj hstep
    obtain ⟨a,ha,hab⟩ := Option.bind_eq_some_iff.mp hb
    exact aged_tick hpv hv (h a ha) (hok i a ha) b hab
  | dad j =>
    obtain rfl := Option.some.inj hstep
    rcases eq_or_ne i j with rfl | hne
    · rw [Function.update_self] at hb
      obtain ⟨a,ha,rfl⟩ := Option.map_eq_some_iff.mp hb
      exact aged_dad (h a ha)
    · rw [Function.update_of_ne hne] at hb
      exact h b hb
  | na j =>
    obtain rfl := Option.some.inj hstep
    rcases eq_or_ne i j with rfl | hne
    · rw [Function.update_self] at hb
      obtain ⟨a,ha,hab⟩ := Option.bind_eq_some_iff.mp hb
      exact aged_na (h a ha) b hab
    · rw [Function.update_of_ne hne] at hb
      exact h b hb

theorem ticks_cons (e : Event) (es : List Event) : ticks (e :: es) = tickOf e + ticks es := by
  cases e <;> simp [ticks,tickOf,Nat.add_comm]

theorem run_aged {es : List Event} (hpv : p ≤ v) (hv : v < 4294967295) (h : ∀ a ∈ n i, Aged p v t a)
    (hok : Meets step DadInTime n es) (hrun : exec step n es = some n') :
    ∀ a ∈ n' i, Aged p v (t + ticks es) a := by
  induction es generalizing n t with
  | nil =>
    obtain rfl := Option.some.inj hrun
    exact h
  | cons e es ih =>
    obtain ⟨m,hm,hrun⟩ := Option.bind_eq_some_iff.mp hrun
    rw [ticks_cons,← Nat.add_assoc]
    exact ih (step_aged hpv hv h hok.1 hm) (hok.2 m hm) hrun

def Durable (a : Addr) : Prop := a.flag = .none ∨ a.valid = infiniteLifetime ∧ a.flag ≠ .invalid

theorem durable_tick (h : Durable a) : ∃ b, addrUpdateLifetime 1 a = some b ∧ Durable b := by
  by_cases hflag : a.flag = .none
  · exact ⟨a,if_pos hflag,h⟩
  · obtain ⟨hinf,hinv⟩ := h.resolve_left hflag
    have hval : less 1 a.valid = infiniteLifetime := by
      rw [hinf]
      decide
    have hnew : newFlag a.flag (less 1 a.prefered) infiniteLifetime ≠ .invalid := by
      rw [newFlag,if_neg (show infiniteLifetime ≠ 0 by decide)]
      split_ifs
      · decide
      · exact hinv
      · exact hinv
    rw [addrUpdateLifetime,if_neg hflag,hval]
    exact ⟨_,if_pos hnew,Or.inr ⟨rfl,hnew⟩⟩

theorem ticks_keep_durable (k : Nat) (h : ∃ a, n i = some a ∧ Durable a) :
    ∃ a, ipAutoconfTimer^[k] n i = some a ∧ Durable a := by
  induction k generalizing n with
  | zero => exact h
  | succ k ih =>
    obtain ⟨a,ha,hdur⟩ := h
    obtain ⟨b,hb,hdur'⟩ := durable_tick hdur
    exact ih ⟨b,by rw [ipAutoconfTimer,ha]; exact hb,hdur'⟩

theorem address_expires {prefered valid : BitVec 32} (hle : prefered ≤ valid)
    (hfin : valid ≠ infiniteLifetime) (hpos : prefered ≠ 0) (n : Lists) (i : Nat) {es : List Event}
    {n' : Lists} (hrun : exec step (handleRa n i prefered valid) es = some n')
    (hok : Meets step DadInTime (handleRa n i prefered valid) es) :
    (prefered.toNat + 1 ≤ ticks es → ∀ a ∈ n' i, a.flag ≠ .preferred) ∧
      (valid.toNat + 1 ≤ ticks es → n' i = none) ∧
      ∀ (m : Lists) (j k : Nat), (∃ a, m j = some a ∧ Durable a) →
        ∃ a, ipAutoconfTimer^[k] m j = some a ∧ Durable a := by
  have hpv : prefered.toNat ≤ valid.toNat := hle
  have hv : valid.toNat < 4294967295 := by
    have hlt := valid.isLt
    have hne : valid.toNat ≠ 4294967295 := fun h => hfin (BitVec.toNat_inj.mp h)
    omega
  have hp : 0 < prefered.toNat := by
    rw [Ne,toNat_eq_zero] at hpos
    omega
  have hstart : ∀ a ∈ handleRa n i prefered valid i, Aged prefered.toNat valid.toNat 0 a := by
    intro a ha
    rw [handleRa,Function.update_self] at ha
    obtain rfl := Option.some.inj ha
    exact ⟨by omega,rfl,Or.inl ⟨Or.inl rfl,hp,rfl⟩⟩
  have haged := run_aged hpv hv hstart hok hrun
  rw [Nat.zero_add] at haged
  refine ⟨fun ht a ha hflag => ?_,fun ht => ?_,fun m j k => ticks_keep_durable k⟩
  · rcases (haged a ha).2.2 with ⟨-,hlt,-⟩ | ⟨hdep,-⟩
    · omega
    · cases hflag.symm.trans hdep
  · cases hn : n' i with
    | none => rfl
    | some a =>
      have := (haged a hn).1
      omega

def noAddresses : Lists := fun _ => none

theorem one_second_address : ∃ n', exec step (handleRa noAddresses 0 1 1) [.dad 0, .tick, .tick] = some n' ∧
    n' 0 = none := by
  have hok : Meets step DadInTime (handleRa noAddresses 0 1 1) [.dad 0, .tick, .tick] := by
    refine ⟨trivial,?_⟩
    rintro _ ⟨rfl⟩
    refine ⟨fun i a ha htent => ?_,?_⟩
    · rcases eq_or_ne i 0 with rfl | hne
      · obtain rfl : (⟨true, .preferred, 1, 1, 1⟩ : Addr) = a := Option.some.inj ha
        cases htent
      · simp [handleRa,noAddresses,hne] at ha
    · rintro _ ⟨rfl⟩
      refine ⟨fun i a ha _ => ?_,fun _ _ => trivial⟩
      rcases eq_or_ne i 0 with rfl | hne
      · cases ha
      · simp [ipAutoconfTimer,handleRa,noAddresses,hne] at ha
  exact ⟨_,rfl,(address_expires (by decide) (by decide) (by decide) noAddresses 0 rfl hok).2.1
    (by decide)⟩

theorem zero_lifetime_kept : ¬ ∀ (prefered valid : BitVec 32), prefered ≤ valid →
    valid ≠ infiniteLifetime → ∀ (n : Lists) (i : Nat) (es : List Event) (n' : Lists),
      exec step (handleRa n i prefered valid) es = some n' →
      (prefered.toNat + 1 ≤ ticks es → ∀ a ∈ n' i, a.flag ≠ .preferred) ∧
        (valid.toNat + 1 ≤ ticks es → n' i = none) := by
  intro h
  have hgone := (h 0 0 (by decide) (by decide) noAddresses 0 [.dad 0, .tick] _ rfl).2 (by decide)
  exact absurd hgone (by decide)

end ViewOS.Lwip.Lifetime
