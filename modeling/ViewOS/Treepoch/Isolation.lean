import ViewOS.Treepoch.Persistence

namespace ViewOS.Treepoch
open AddrTree Transition

structure Traced where
  sys : Sys
  side : Nat → Option Bool
  maker : Option Bool

def makerAfter (k : Nat) (τ : Traced) : Op → Option Bool
  | .addService p k' => if k' = k then τ.side p else τ.maker
  | _ => τ.maker

def stepTraced (k : Nat) (τ : Traced) (op : Op) : Option Traced :=
  (step τ.sys op).map fun σ => ⟨σ, fun q => τ.side (origin op q), makerAfter k τ op⟩

def branches (σ : Sys) (F p : Nat) : Option Bool :=
  if p = F then some true
  else if p ∈ σ.live ∧ (σ.tst p).treepoch = (σ.tst F).treepoch then some false
  else none

structure Apart (k : Nat) (τ : Traced) (T : ATree) : Prop where
  service : ServiceInv k τ.sys T
  places : ∀ p ∈ τ.sys.live, ∀ q ∈ τ.sys.live, τ.side p = some true → τ.side q = some false →
    (τ.sys.tst p).treepoch ≠ (τ.sys.tst q).treepoch
  made : τ.maker ≠ none → τ.sys.svc k ≠ none
  unseen : ∀ d, τ.maker = some d → ∀ service L, τ.sys.svc k = some service →
    Tracked τ.sys T service L → ∀ p ∈ τ.sys.live, τ.side p = some (!d) →
      ¬ SeenBy τ.sys T service.epoch L p

section Steps

variable {σ σ' : Sys} {T T' : ATree} {op : Op}

theorem Tracked.unique {service : Timestamp} {L L' : Nat} (h : Inv σ T) (hlive : σ.live.Nonempty)
    (ht : Tracked σ T service L) (ht' : Tracked σ T service L') : L = L' := by
  obtain ⟨a,ha,-⟩ := ht.lands
  have e := (ht.climbDead h hlive ha).symm.trans (ht'.climbDead h hlive ha)
  simpa using e

theorem Effect.origin_live (he : Effect σ T op σ' T') {p : Nat} (hp : p ∈ σ'.live) :
    origin op p ∈ σ.live := by
  cases he with
  | @enter pp p' a C hpp hp' ha =>
    by_cases e : p = p'
    · simpa [origin,e] using hpp
    · simpa [origin,e] using Finset.mem_of_mem_insert_of_ne hp e
  | leave => exact Finset.mem_of_mem_erase hp
  | collapse => exact Finset.mem_of_mem_erase hp
  | _ => exact hp

theorem Effect.places (h : Inv σ T) (he : Effect σ T op σ' T') {p q : Nat} (hp : p ∈ σ'.live)
    (hq : q ∈ σ'.live)
    (hne : (σ.tst (origin op p)).treepoch ≠ (σ.tst (origin op q)).treepoch) :
    (σ'.tst p).treepoch ≠ (σ'.tst q).treepoch := by
  cases he with
  | @enter pp x a C hpp hx ha =>
    have e : ∀ y, (Function.update σ.tst x (σ.tst pp) y).treepoch =
        (σ.tst (origin (.pcbPlus pp x) y)).treepoch := by
      intro y
      by_cases hy : y = x
      · subst hy
        simp [origin]
      · simp [origin,hy]
    rw [e,e]
    exact hne
  | @split x a C te hx ha h1 hlen he =>
    have hfresh : ∀ y ∈ σ.live, (σ.tst y).treepoch ≠ some σ.te.next := by
      intro y hy
      obtain ⟨b,hb,hyb⟩ := h.atLeaf y hy
      have := h.rep.bound b (ATree.leaves_subset_addrs _ b hb)
      rw [hyb]
      simp only [ne_eq,Option.some.injEq]
      omega
    by_cases hpx : p = x
    · by_cases hqx : q = x
      · exact absurd (by rw [hpx,hqx]) hne
      · subst hpx
        simpa [hqx] using (hfresh q hq).symm
    · by_cases hqx : q = x
      · subst hqx
        simpa [hpx] using hfresh p hp
      · simpa [hpx,hqx,origin] using hne
  | @syscall x _ hx =>
    have e : ∀ y, (Function.update σ.tst x
        { σ.tst x with epoch := σ.te.epochNow } y).treepoch = (σ.tst y).treepoch := by
      intro y
      by_cases hy : y = x
      · subst hy
        simp
      · simp [hy]
    rw [e,e]
    exact hne
  | noFork => exact hne
  | leave => exact hne
  | collapse => exact hne
  | addService => exact hne
  | matching => exact hne

theorem unseen_new {p q ℓ : Nat} (h : Inv σ T) (hp : p ∈ σ.live) (hℓ : (σ.tst p).treepoch = some ℓ)
    (hne : (σ.tst p).treepoch ≠ (σ.tst q).treepoch) : ¬ SeenBy σ T σ.te.epochNow ℓ q := by
  rintro ⟨c,hc,hsee⟩
  obtain ⟨b,hb,hpb⟩ := h.atLeaf p hp
  obtain rfl : b = ℓ := by simpa [hpb] using hℓ
  obtain ⟨C,rfl⟩ := Ctx.exists_plug_leaf hb
  have hcb : c ≠ b := fun e => hne (by rw [hpb,hc,e])
  have hlt : σ.te.epochNow < (σ.te.mem b).rise :=
    (Ctx.forall_plug.mp hsee).2 (by simp [ATree.addrs]) (by simpa [ATree.leaves] using hcb)
  have := h.rep.young b (ATree.leaves_subset_addrs _ b hb)
  omega

end Steps

theorem Apart.places_of {k : Nat} {τ : Traced} {T : ATree} (h : Apart k τ T) {p q : Nat} {d : Bool}
    (hp : p ∈ τ.sys.live) (hq : q ∈ τ.sys.live) (hpd : τ.side p = some d)
    (hqd : τ.side q = some (!d)) : (τ.sys.tst p).treepoch ≠ (τ.sys.tst q).treepoch := by
  cases d with
  | false => exact (h.places q hq p hp hqd hpd).symm
  | true => exact h.places p hp q hq hpd hqd

theorem Apart.add {k p : Nat} {τ : Traced} {T : ATree} (h : Apart k τ T) (hp : p ∈ τ.sys.live)
    (hs' : ServiceInv k { τ.sys with
        te := { τ.sys.te with epochNow := τ.sys.te.epochNow + 1 },
        svc := Function.update τ.sys.svc k
          (some ⟨τ.sys.te.epochNow,(τ.sys.tst p).treepoch⟩) } T) :
    Apart k
      { sys := { τ.sys with
          te := { τ.sys.te with epochNow := τ.sys.te.epochNow + 1 },
          svc := Function.update τ.sys.svc k
            (some ⟨τ.sys.te.epochNow,(τ.sys.tst p).treepoch⟩) }
        side := τ.side
        maker := τ.side p } T := by
  refine ⟨hs',h.places,by simp,?_⟩
  intro d hd service L hs ht q hq hqd
  obtain rfl : _ = service := by simpa using hs
  have hi := h.service.paths.inv
  obtain ⟨ℓ,hℓ,hnew⟩ := tracked_new hi hp (Function.update τ.sys.svc k
    (some ⟨τ.sys.te.epochNow,(τ.sys.tst p).treepoch⟩))
  obtain rfl := ht.unique hs'.paths.inv ⟨q,hq⟩ hnew
  exact unseen_new hi hp hℓ (h.places_of hp hq hd hqd)

theorem Apart.effect {k : Nat} {τ τ' : Traced} {T : ATree} {op : Op} (h : Apart k τ T)
    (hk : keepsApart k τ.sys op = true) (hs : stepTraced k τ op = some τ') :
    ∃ T', Apart k τ' T' := by
  obtain ⟨σ',hstep,rfl⟩ := Option.map_eq_some_iff.mp hs
  obtain ⟨T',he⟩ := effect_of_step h.service.paths.inv hstep
  have hks := keepsService_of_keepsApart hk
  have hs' := h.service.effect he hks
  by_cases hop : ∃ p, op = .addService p k
  · obtain ⟨p,rfl⟩ := hop
    cases he with
    | addService hp =>
      refine ⟨T,?_⟩
      simpa [origin,makerAfter] using h.add hp hs'
  · simp only [not_exists] at hop
    have hmaker : makerAfter k τ op = τ.maker := by
      cases op with
      | addService p k' =>
        have hkk : k' ≠ k := fun e => hop p (by rw [e])
        simp [makerAfter,hkk]
      | _ => rfl
    have hfollow : ∀ service, τ.sys.svc k = some service → ∀ L, Tracked τ.sys T service L →
        ∃ service' L', σ'.svc k = some service' ∧
          Follows τ.sys σ' T T' op service service' k L L' := fun service hsv L ht =>
      he.follows h.service.paths hks hop hsv ht
    refine ⟨T',hs',?_,?_,?_⟩
    · intro p hp q hq hpd hqd
      exact he.places h.service.paths.inv hp hq
        (h.places _ (he.origin_live hp) _ (he.origin_live hq) hpd hqd)
    · intro hne
      obtain ⟨service,hsv⟩ := Option.ne_none_iff_exists'.mp (h.made (by rwa [← hmaker]))
      obtain ⟨L,ht⟩ := h.service.tracked service hsv
      obtain ⟨service',L',hs',-⟩ := hfollow service hsv L ht
      simp [hs']
    · intro d hd service' L' hsv' ht' p hp hpd hsee
      have hd' : τ.maker = some d := by rwa [← hmaker]
      obtain ⟨service,hsv⟩ := Option.ne_none_iff_exists'.mp (h.made (by simp [hd']))
      obtain ⟨L,ht⟩ := h.service.tracked service hsv
      obtain ⟨service'',L'',hsv'',hf⟩ := hfollow service hsv L ht
      obtain rfl : service'' = service' := by simpa [hsv''] using hsv'
      obtain rfl := ht'.unique hs'.paths.inv ⟨p,hp⟩ hf.tracked
      rw [hf.epoch] at hsee
      exact h.unseen d hd' service L hsv ht _ (he.origin_live hp) hpd (hf.back hk p hp hsee)

theorem branches_isolated {σ₀ σ₁ : Sys} {F k : Nat} {τ : Traced} {d : Bool} {p e : Nat}
    (h₀ : Run step (fun σ op => keepsApart k σ op = true) Sys.empty σ₀)
    (hk : keepsApart k σ₀ (.pcbNewfork F) = true) (hF : step σ₀ (.pcbNewfork F) = some σ₁)
    (hfork : (σ₁.tst F).treepoch ≠ (σ₀.tst F).treepoch)
    (h : Run (stepTraced k) (fun τ op => keepsApart k τ.sys op = true)
      ⟨σ₁, branches σ₀ F, none⟩ τ)
    (hd : τ.maker = some d) (hp : p ∈ τ.sys.live) (hside : τ.side p = some (!d)) :
    matched τ.sys p k e = some 0 := by
  have hlive : F ∈ σ₀.live := enabled_of_step hF
  have hrun : Run step (fun σ op => keepsService k σ op = true) Sys.empty σ₀ :=
    h₀.mono fun _ _ => keepsService_of_keepsApart
  rcases settled_of_run hrun with ⟨-,hno,-⟩ | ⟨T,hs⟩
  · simp [hno] at hlive
  · obtain ⟨T₁,he⟩ := effect_of_step hs.paths.inv hF
    have hs₁ := hs.effect he (keepsService_of_keepsApart hk)
    have hstart : Apart k ⟨σ₁,branches σ₀ F,none⟩ T₁ := by
      refine ⟨hs₁,?_,by simp,by simp⟩
      intro x hx y hy hxs hys
      obtain rfl : x = F := by
        by_contra hne
        simp [branches,hne] at hxs
      have hyF : y ≠ x := by
        rintro rfl
        simp [branches] at hys
      obtain ⟨hy₀,hyt⟩ : y ∈ σ₀.live ∧ (σ₀.tst y).treepoch = (σ₀.tst x).treepoch := by
        by_contra hne
        simp [branches,hyF,hne] at hys
      have hkeep : (σ₁.tst y).treepoch = (σ₀.tst y).treepoch := by
        cases he with
        | noFork => rfl
        | split => simp [hyF]
      rw [hkeep,hyt]
      exact hfork
    obtain ⟨T₂,ha⟩ : ∃ T, Apart k τ T := by
      refine h.invariant (I := fun τ => ∃ T, Apart k τ T) ?_ ⟨T₁,hstart⟩
      rintro τ op τ' ⟨T,ha⟩ hk hstep
      exact ha.effect hk hstep
    obtain ⟨service,hsv⟩ := Option.ne_none_iff_exists'.mp (ha.made (by simp [hd]))
    obtain ⟨L,ht⟩ := ha.service.tracked service hsv
    obtain ⟨r,er,-,hzero⟩ := matched_spec (e := e) ha.service.paths hp hsv ht
    rw [er,hzero fun hx => ha.unseen d hd service L hsv ht p hp hside hx.1]

def twoProcs : List Op := [.pcbPlusRoot 1, .pcbPlus 1 2]

theorem twoProcs_isolated : ∃ τ : Traced, τ.maker = some true ∧ τ.side 1 = some false ∧
    matched τ.sys 1 0 9 = some 0 := by
  have h : (exec step Sys.empty twoProcs).any fun σ₀ =>
      keepsApart 0 σ₀ (.pcbNewfork 2) && (step σ₀ (.pcbNewfork 2)).any fun σ₁ =>
        decide ((σ₁.tst 2).treepoch ≠ (σ₀.tst 2).treepoch) &&
        decide (Meets (stepTraced 0) (fun τ op => keepsApart 0 τ.sys op = true)
          ⟨σ₁,branches σ₀ 2,none⟩ [.addService 2 0,.syscall 1,.matching 1 0]) &&
        (exec (stepTraced 0) ⟨σ₁,branches σ₀ 2,none⟩
          [.addService 2 0,.syscall 1,.matching 1 0]).any fun τ =>
            decide (τ.maker = some true) && decide (1 ∈ τ.sys.live) &&
              decide (τ.side 1 = some false) := by
    decide
  obtain ⟨σ₀,h₀,h⟩ := (Option.any_eq_true _ _).mp h
  obtain ⟨hk,h⟩ := Bool.and_eq_true_iff.mp h
  obtain ⟨σ₁,h₁,h⟩ := (Option.any_eq_true _ _).mp h
  simp only [Bool.and_eq_true,decide_eq_true_eq] at h
  obtain ⟨⟨hfork,hmeets⟩,h⟩ := h
  obtain ⟨τ,hτ,h⟩ := (Option.any_eq_true _ _).mp h
  simp only [Bool.and_eq_true,decide_eq_true_eq] at h
  obtain ⟨⟨hd,hp⟩,hside⟩ := h
  exact ⟨τ,hd,hside,branches_isolated (Run.of_exec h₀ (by decide)) hk h₁ hfork
    (Run.of_exec hτ hmeets) hd hp hside⟩

theorem dead_branch_seen : ∃ σ₀ σ₁ τ, Run step (fun _ _ => True) Sys.empty σ₀ ∧
    step σ₀ (.pcbNewfork 2) = some σ₁ ∧ (σ₁.tst 2).treepoch ≠ (σ₀.tst 2).treepoch ∧
    Run (stepTraced 0) (fun _ _ => True) ⟨σ₁, branches σ₀ 2, none⟩ τ ∧
    τ.maker = some true ∧ 1 ∈ τ.sys.live ∧ τ.side 1 = some false ∧
    matched τ.sys 1 0 (τ.sys.tst 1).epoch = some 4 := by
  have h : (exec step Sys.empty twoProcs).any fun σ₀ =>
      (step σ₀ (.pcbNewfork 2)).any fun σ₁ =>
        decide ((σ₁.tst 2).treepoch ≠ (σ₀.tst 2).treepoch) &&
        (exec (stepTraced 0) ⟨σ₁,branches σ₀ 2,none⟩
          [.addService 2 0,.pcbMinus 2,.syscall 1]).any fun τ =>
            decide (τ.maker = some true) && decide (1 ∈ τ.sys.live) &&
              decide (τ.side 1 = some false) &&
              decide (matched τ.sys 1 0 (τ.sys.tst 1).epoch = some 4) := by
    decide
  obtain ⟨σ₀,h₀,h⟩ := (Option.any_eq_true _ _).mp h
  obtain ⟨σ₁,h₁,h⟩ := (Option.any_eq_true _ _).mp h
  simp only [Bool.and_eq_true,decide_eq_true_eq] at h
  obtain ⟨hfork,h⟩ := h
  obtain ⟨τ,hτ,h⟩ := (Option.any_eq_true _ _).mp h
  simp only [Bool.and_eq_true,decide_eq_true_eq] at h
  obtain ⟨⟨⟨hd,hp⟩,hside⟩,hm⟩ := h
  exact ⟨σ₀,σ₁,τ,Run.of_exec h₀ (by decide),h₁,hfork,
    Run.of_exec hτ ⟨trivial,fun _ _ => ⟨trivial,fun _ _ => ⟨trivial,fun _ _ => trivial⟩⟩⟩,
    hd,hp,hside,hm⟩

end ViewOS.Treepoch
