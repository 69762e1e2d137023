import ViewOS.Treepoch.Visibility

namespace ViewOS.Treepoch
open AddrTree Transition

structure ServiceInv (k : Nat) (σ : Sys) (T : ATree) : Prop where
  paths : PathInv 31 σ T
  tracked : ∀ service, σ.svc k = some service → ∃ L, Tracked σ T service L

def Settled (k : Nat) (σ : Sys) : Prop :=
  (σ.te.teRoot = none ∧ σ.live = ∅ ∧ σ.svc k = none) ∨ ∃ T, ServiceInv k σ T

def Op.spares (P k : Nat) : Op → Bool
  | .pcbNewfork p => p ≠ P
  | .pcbMinus p => p ≠ P
  | .addService _ k' => k' ≠ k
  | _ => true

section Steps

variable {σ σ' : Sys} {T T' : ATree} {op : Op} {k : Nat}

theorem tracked_new {p : Nat} (h : Inv σ T) (hp : p ∈ σ.live) (svc : Nat → Option Timestamp) :
    ∃ ℓ, (σ.tst p).treepoch = some ℓ ∧
      Tracked { σ with te := { σ.te with epochNow := σ.te.epochNow + 1 }, svc := svc } T
        ⟨σ.te.epochNow,(σ.tst p).treepoch⟩ ℓ := by
  obtain ⟨ℓ,hℓ,hpℓ⟩ := h.atLeaf p hp
  refine ⟨ℓ,hpℓ,⟨ℓ,hpℓ,Lands.self (T.leaves_subset_addrs ℓ hℓ)⟩,?_,Nat.lt_succ_self _⟩
  exact Nat.le_of_lt (h.rep.young _ T.addr_mem_addrs)

theorem ServiceInv.effect (h : ServiceInv k σ T) (he : Effect σ T op σ' T')
    (hk : keepsService k σ op = true) : ServiceInv k σ' T' := by
  have hp' := h.paths.effect (by decide) he (keepsPaths_of_keepsService hk)
  refine ⟨hp',fun service hs => ?_⟩
  by_cases hop : ∃ p, op = .addService p k
  · obtain ⟨p,rfl⟩ := hop
    cases he with
    | addService hp =>
      obtain ⟨ℓ,-,ht⟩ := tracked_new h.paths.inv hp _
      obtain rfl : _ = service := by simpa using hs
      exact ⟨ℓ,ht⟩
  · simp only [not_exists] at hop
    cases hold : σ.svc k with
    | none =>
      exfalso
      cases he with
      | @addService p k' _ hp =>
        have hkk : k ≠ k' := fun e => hop p (by rw [e])
        simp [hkk,hold] at hs
      | @matching p k' _ s s' r hp hs' hm =>
        have hkk : k ≠ k' := fun e => by simp [← e,hold] at hs'
        simp [hkk,hold] at hs
      | _ => simp [hold] at hs
    | some old =>
      obtain ⟨L,ht⟩ := h.tracked old hold
      obtain ⟨s',L',hs',hf⟩ := he.follows h.paths hk hop hold ht
      obtain rfl : s' = service := by simpa [hs'] using hs
      exact ⟨L',hf.tracked⟩

theorem settled_of_run (h : Run step (fun σ op => keepsService k σ op = true) Sys.empty σ) :
    Settled k σ := by
  refine h.invariant (I := Settled k) ?_ (Or.inl ⟨rfl,rfl,rfl⟩)
  rintro σ op σ' (⟨hroot,hlive,hsvc⟩ | ⟨T,h⟩) hk hs
  · obtain ⟨p,-,e,h'⟩ := step_root hroot hlive hs
    refine Or.inr ⟨_,pathInv_root h',fun service hs => ?_⟩
    simp [e,hsvc] at hs
  · obtain ⟨T',he⟩ := effect_of_step h.paths.inv hs
    exact Or.inr ⟨T',h.effect he hk⟩

theorem Effect.spared {P : Nat} (he : Effect σ T op σ' T') (hsp : op.spares P k = true)
    (hP : P ∈ σ.live) :
    P ∈ σ'.live ∧ (σ'.tst P).treepoch = (σ.tst P).treepoch ∧ origin op P = P := by
  cases he with
  | @enter pp p a C hpp hp ha =>
    have hne : P ≠ p := fun e => hp (e ▸ hP)
    exact ⟨Finset.mem_insert_of_mem hP,by simp [hne],by simp [origin,hne]⟩
  | noFork => exact ⟨hP,rfl,rfl⟩
  | @split p a C te hp ha h1 hlen he =>
    have hne : p ≠ P := by simpa [Op.spares] using hsp
    exact ⟨hP,by simp [hne.symm],rfl⟩
  | @leave p a C hp ha h2 =>
    have hne : p ≠ P := by simpa [Op.spares] using hsp
    exact ⟨Finset.mem_erase.mpr ⟨hne.symm,hP⟩,rfl,rfl⟩
  | @collapse p a f C te hp ha h1 he =>
    have hne : p ≠ P := by simpa [Op.spares] using hsp
    exact ⟨Finset.mem_erase.mpr ⟨hne.symm,hP⟩,rfl,rfl⟩
  | @syscall p _ hp =>
    refine ⟨hP,?_,rfl⟩
    by_cases hpp : P = p
    · subst hpp
      simp
    · simp [hpp]
  | addService => exact ⟨hP,rfl,rfl⟩
  | matching => exact ⟨hP,rfl,rfl⟩

end Steps

structure Watched (P k e : Nat) (ℓ : Option Nat) (σ : Sys) (T : ATree) : Prop where
  paths : PathInv 31 σ T
  alive : P ∈ σ.live
  place : (σ.tst P).treepoch = ℓ
  seen : ∃ service L, σ.svc k = some service ∧ service.epoch = e ∧ Tracked σ T service L ∧
    SeenBy σ T e L P

theorem Watched.effect {P k e : Nat} {ℓ : Option Nat} {σ σ' : Sys} {T T' : ATree} {op : Op}
    (h : Watched P k e ℓ σ T) (he : Effect σ T op σ' T') (hk : keepsService k σ op = true)
    (hsp : op.spares P k = true) : Watched P k e ℓ σ' T' := by
  obtain ⟨service,L,hs,rfl,ht,hsee⟩ := h.seen
  obtain ⟨halive,hplace,horigin⟩ := he.spared hsp h.alive
  have hop : ∀ p, op ≠ .addService p k := by
    rintro p rfl
    simp [Op.spares] at hsp
  obtain ⟨service',L',hs',hf⟩ := he.follows h.paths hk hop hs ht
  refine ⟨h.paths.effect (by decide) he (keepsPaths_of_keepsService hk),halive,
    hplace.trans h.place,service',L',hs',hf.epoch,hf.tracked,?_⟩
  exact hf.forth P halive (horigin.symm ▸ hsee)

def matched (σ : Sys) (p k e : Nat) : Option Nat := do
  let service ← σ.svc k
  let (_, r) ← tstMatchingepoch σ.te service (some ⟨e, (σ.tst p).treepoch⟩)
  some r

theorem matched_spec {σ : Sys} {T : ATree} {p k e L : Nat} {service : Timestamp}
    (h : PathInv 31 σ T) (hp : p ∈ σ.live) (hs : σ.svc k = some service)
    (ht : Tracked σ T service L) :
    ∃ r, matched σ p k e = some r ∧
      (SeenBy σ T service.epoch L p ∧ service.epoch < e → r = service.epoch) ∧
      (¬ (SeenBy σ T service.epoch L p ∧ service.epoch < e) → r = 0) := by
  obtain ⟨ℓ,hℓ,hpℓ⟩ := h.inv.atLeaf p hp
  obtain ⟨A,-,-,hval⟩ := tstMatchingepoch_spec h ⟨p,hp⟩ ht
  obtain ⟨r,e1,hpos,hzero⟩ := hval e ℓ hℓ
  have hiff : SeenBy σ T service.epoch L p ↔ Sees σ.te.mem T L service.epoch ℓ := by
    simp [SeenBy,hpℓ]
  rw [hiff]
  exact ⟨r,by simp [matched,hs,hpℓ,e1],hpos,hzero⟩

theorem visible_persists {σ σ' : Sys} {P k e e' r : Nat}
    (h : Run step (fun σ op => keepsService k σ op = true) Sys.empty σ) (hP : P ∈ σ.live)
    (hsee : matched σ P k e = some r) (hr : 0 < r)
    (h' : Run step (fun σ op => keepsService k σ op = true ∧ op.spares P k = true) σ σ')
    (he : e ≤ e') : P ∈ σ'.live ∧ matched σ' P k e' = some r := by
  rcases settled_of_run h with ⟨-,hlive,-⟩ | ⟨T,hp,htr⟩
  · simp [hlive] at hP
  · obtain ⟨service,hs,-⟩ := Option.bind_eq_some_iff.mp hsee
    obtain ⟨L,ht⟩ := htr service hs
    obtain ⟨r',e1,hpos,hzero⟩ := matched_spec (e := e) hp hP hs ht
    obtain rfl : r' = r := by simpa [e1] using hsee
    have hvis : SeenBy σ T service.epoch L P ∧ service.epoch < e := by
      by_contra hno
      have := hzero hno
      omega
    obtain rfl := hpos hvis
    have hw : Watched P k service.epoch (σ.tst P).treepoch σ T :=
      ⟨hp,hP,rfl,service,L,hs,rfl,ht,hvis.1⟩
    obtain ⟨T',hw'⟩ : ∃ T', Watched P k service.epoch (σ.tst P).treepoch σ' T' := by
      refine h'.invariant
        (I := fun τ => ∃ T, Watched P k service.epoch (σ.tst P).treepoch τ T) ?_ ⟨T,hw⟩
      rintro τ op τ' ⟨T,hw⟩ ⟨hk,hsp⟩ hstep
      obtain ⟨T',heff⟩ := effect_of_step hw.paths.inv hstep
      exact ⟨T',hw.effect heff hk hsp⟩
    obtain ⟨service',L',hs',hep,ht',hsee'⟩ := hw'.seen
    obtain ⟨r'',e2,hpos',-⟩ := matched_spec (e := e') hw'.paths hw'.alive hs' ht'
    refine ⟨hw'.alive,?_⟩
    rw [e2,hpos' ⟨hep.symm ▸ hsee',by omega⟩,hep]

def forkedService : List Op :=
  [.pcbPlusRoot 1, .pcbPlus 1 2, .pcbNewfork 2, .addService 2 0, .syscall 2, .pcbPlus 2 3,
    .pcbNewfork 3]

theorem forkedService_persists : ∃ σ σ', matched σ 2 0 5 = some 4 ∧ σ'.live = {1, 2} ∧
    matched σ' 2 0 6 = some 4 := by
  have h : (exec step Sys.empty forkedService).any fun σ =>
      decide (2 ∈ σ.live) && matched σ 2 0 5 == some 4 &&
      decide (Meets step (fun σ op => keepsService 0 σ op = true ∧ op.spares 2 0 = true) σ
        [.pcbMinus 3,.matching 2 0]) &&
      (exec step σ [.pcbMinus 3,.matching 2 0]).any fun σ' => decide (σ'.live = {1, 2}) := by
    decide
  obtain ⟨σ,hσ,h⟩ := (Option.any_eq_true _ _).mp h
  simp only [Bool.and_eq_true,beq_iff_eq,decide_eq_true_eq] at h
  obtain ⟨⟨⟨hP,hsee⟩,hmeets⟩,h⟩ := h
  obtain ⟨σ',hσ',hlive⟩ := (Option.any_eq_true _ _).mp h
  exact ⟨σ,σ',hsee,by simpa using hlive,(visible_persists (Run.of_exec hσ (by decide)) hP hsee
    (by decide) (Run.of_exec hσ' hmeets) (by decide)).2⟩

theorem service_hidden : ∃ σ σ', Run step (fun _ _ => True) Sys.empty σ ∧ 2 ∈ σ.live ∧
    matched σ 2 0 5 = some 4 ∧ Run step (fun _ op => op.spares 2 0 = true) σ σ' ∧
    matched σ' 2 0 5 = some 0 := by
  have h : (exec step Sys.empty forkedService).any fun σ =>
      decide (2 ∈ σ.live) && matched σ 2 0 5 == some 4 &&
      decide (Meets step (fun _ op => op.spares 2 0 = true) σ
        [.matching 2 0,.pcbMinus 3,.pcbMinus 1]) &&
      (exec step σ [.matching 2 0,.pcbMinus 3,.pcbMinus 1]).any fun σ' =>
        matched σ' 2 0 5 == some 0 := by
    decide
  obtain ⟨σ,hσ,h⟩ := (Option.any_eq_true _ _).mp h
  simp only [Bool.and_eq_true,beq_iff_eq,decide_eq_true_eq] at h
  obtain ⟨⟨⟨hP,hsee⟩,hmeets⟩,h⟩ := h
  obtain ⟨σ',hσ',hnot⟩ := (Option.any_eq_true _ _).mp h
  exact ⟨σ,σ',Run.of_exec hσ (by decide),hP,hsee,Run.of_exec hσ' hmeets,by simpa using hnot⟩

end ViewOS.Treepoch
