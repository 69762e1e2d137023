import ViewOS.Treepoch.Landing

namespace ViewOS.Treepoch
open AddrTree Transition

def landing (σ : Sys) (k : Nat) : Option Nat := do
  let service ← σ.svc k
  let a ← service.treepoch
  climbDead (σ.te.next + 1) σ.te.mem a

def keepsService (k : Nat) (σ : Sys) (op : Op) : Bool :=
  keepsPaths 31 σ op &&
    match op with
    | .pcbMinus p =>
      match dying σ p with
      | some (_, par) => landing σ k ≠ some par
      | none => true
    | _ => true

def keepsApart (k : Nat) (σ : Sys) (op : Op) : Bool :=
  keepsService k σ op &&
    match op with
    | .pcbMinus p =>
      match dying σ p, σ.svc k with
      | some (a, _), some service => landing σ k ≠ some a || service.epoch < (σ.te.mem a).rise
      | _, _ => true
    | _ => true

def origin : Op → Nat → Nat
  | .pcbPlus pp p, q => if q = p then pp else q
  | _, q => q

def SeenBy (σ : Sys) (T : ATree) (e L p : Nat) : Prop :=
  ∃ ℓ, (σ.tst p).treepoch = some ℓ ∧ Sees σ.te.mem T L e ℓ

theorem keepsPaths_of_keepsService {k : Nat} {σ : Sys} {op : Op} (h : keepsService k σ op = true) :
    keepsPaths 31 σ op = true :=
  (Bool.and_eq_true_iff.mp h).1

theorem keepsService_of_keepsApart {k : Nat} {σ : Sys} {op : Op} (h : keepsApart k σ op = true) :
    keepsService k σ op = true :=
  (Bool.and_eq_true_iff.mp h).1

theorem Tracked.landing {σ : Sys} {T : ATree} {k L : Nat} {service : Timestamp} (h : Inv σ T)
    (hlive : σ.live.Nonempty) (hs : σ.svc k = some service) (ht : Tracked σ T service L) :
    Treepoch.landing σ k = some L := by
  obtain ⟨a,ha,-⟩ := ht.lands
  simp [Treepoch.landing,hs,ha,ht.climbDead h hlive ha]

theorem Tracked.keep {σ σ' : Sys} {T T' : ATree} {service : Timestamp} {L : Nat}
    (ht : Tracked σ T service L) (hL : L ∈ T'.addrs) (hnext : σ.te.next ≤ σ'.te.next)
    (hnow : σ.te.epochNow ≤ σ'.te.epochNow)
    (hm : ∀ x < σ.te.next, x ∉ T.addrs → σ'.te.mem x = σ.te.mem x ∧ x ∉ T'.addrs)
    (hroot : (σ'.te.mem T'.addr).rise = (σ.te.mem T.addr).rise) : Tracked σ' T' service L := by
  obtain ⟨a,ha,hl⟩ := ht.lands
  exact ⟨⟨a,ha,hl.keep hnext hL hm⟩,hroot ▸ ht.rooted,Nat.lt_of_lt_of_le ht.past hnow⟩

theorem Tracked.tally {σ : Sys} {T : ATree} {service : Timestamp} {L : Nat} {f : Nat → Nat}
    {l : List Nat} {live : Finset Nat} {tst : Nat → Timestamp} (ht : Tracked σ T service L)
    (hl : l ⊆ T.addrs) :
    Tracked { σ with te := { σ.te with mem := tally f l σ.te.mem }, live := live, tst := tst }
      T service L := by
  obtain ⟨a,-,hlands⟩ := ht.lands
  refine ht.keep hlands.inTree (Nat.le_refl _) (Nat.le_refl _) (fun x _ hx => ⟨?_,hx⟩) (by simp)
  exact tally_of_notMem _ _ _ _ fun h => hx (hl h)

section Addresses

variable {s s' : State} {C : List Frame} {f : Frame} {a x : Nat}

theorem mem_forkTree : x ∈ (Ctx.plug C (forkTree s a)).addrs ↔
    x ∈ (Ctx.plug C (.leaf a)).addrs ∨ x = s.next ∨ x = s.next + 1 := by
  simp only [Ctx.mem_plug_addrs,forkTree,ATree.addrs,List.mem_cons,List.mem_append,
    List.not_mem_nil,or_false]
  tauto

theorem mem_plug_collapse : x ∈ (Ctx.plug (f :: C) (.leaf a)).addrs ↔
    x = a ∨ x = f.addr ∨ x ∈ (Ctx.plug C f.sib).addrs := by
  simp only [Ctx.mem_plug_addrs,Ctx.addrs,ATree.addrs,List.cons_append,List.mem_cons,
    List.mem_append,List.not_mem_nil,or_false]

theorem ForkEffect.rest (he : ForkEffect s s' C a) (hx : x < s.next)
    (hxT : x ∉ (Ctx.plug C (.leaf a)).addrs) :
    s'.mem x = s.mem x ∧ x ∉ (Ctx.plug C (forkTree s a)).addrs := by
  refine ⟨?_,fun hm => ?_⟩
  · simp only [Ctx.mem_plug_addrs,ATree.addrs,List.mem_singleton,not_or] at hxT
    exact he.outside x hx hxT.1 fun hm => hxT.2 (Ctx.spine_subset_addrs C _ hm)
  · rcases mem_forkTree.mp hm with hm | hm | hm
    · exact hxT hm
    · omega
    · omega

theorem Collapse.rest (he : Collapse s s' f C a) (hx : x ∉ (Ctx.plug (f :: C) (.leaf a)).addrs) :
    s'.mem x = s.mem x ∧ x ∉ (Ctx.plug C f.sib).addrs :=
  ⟨he.outside x hx,fun hm => hx (mem_plug_collapse.mpr (Or.inr (Or.inr hm)))⟩

end Addresses

section RootRise

variable {s s' : State} {C : List Frame} {a : Nat}

theorem ForkEffect.root_rise (he : ForkEffect s s' C a) :
    (s'.mem (Ctx.plug C (forkTree s a)).addr).rise = (s.mem (Ctx.plug C (.leaf a)).addr).rise := by
  cases C with
  | nil => exact he.rise_par
  | cons f C =>
    rw [Ctx.plug_cons_addr f C _ (.leaf a)]
    refine he.rise_ctx _ (Ctx.root_mem_addrs f C _)

theorem Collapse.root_rise {f : Frame} (h : Rep s (Ctx.plug (f :: C) (.leaf a)))
    (he : Collapse s s' f C a) :
    (s'.mem (Ctx.plug C f.sib).addr).rise = (s.mem (Ctx.plug (f :: C) (.leaf a)).addr).rise := by
  cases C with
  | nil =>
    have e : (Ctx.plug [f] (.leaf a)).addr = f.addr := Frame.fill_addr f _
    rw [e]
    exact he.rise_survivor
  | cons g C =>
    have e : (Ctx.plug (f :: g :: C) (.leaf a)).addr = (Ctx.plug (g :: C) f.sib).addr :=
      Ctx.plug_cons_addr g C _ _
    rw [e]
    exact he.rise_ctx h _ (Ctx.root_mem_addrs g C _)

end RootRise

structure Follows (σ σ' : Sys) (T T' : ATree) (op : Op) (service service' : Timestamp)
    (k L L' : Nat) : Prop where
  epoch : service'.epoch = service.epoch
  tracked : Tracked σ' T' service' L'
  forth : ∀ p ∈ σ'.live, SeenBy σ T service.epoch L (origin op p) →
    SeenBy σ' T' service.epoch L' p
  back : keepsApart k σ op = true → ∀ p ∈ σ'.live, SeenBy σ' T' service.epoch L' p →
    SeenBy σ T service.epoch L (origin op p)

section Follow

variable {σ σ' : Sys} {T T' : ATree} {op : Op} {service : Timestamp} {k L : Nat}

theorem Follows.of_iff (ht : Tracked σ' T' service L)
    (h : ∀ p ∈ σ'.live, SeenBy σ' T' service.epoch L p ↔ SeenBy σ T service.epoch L (origin op p)) :
    Follows σ σ' T T' op service service k L L :=
  ⟨rfl,ht,fun p hp => (h p hp).mpr,fun _ p hp => (h p hp).mp⟩

theorem seenBy_congr {p q : Nat} (ht : (σ'.tst p).treepoch = (σ.tst q).treepoch)
    (hr : ∀ b, (σ'.te.mem b).rise = (σ.te.mem b).rise) {e : Nat} :
    SeenBy σ' T e L p ↔ SeenBy σ T e L q := by
  unfold SeenBy
  rw [ht]
  simp only [sees_congr hr]

theorem spine_subset_plug {C : List Frame} {a : Nat} :
    a :: Ctx.spine C ⊆ (Ctx.plug C (.leaf a)).addrs := by
  intro b hb
  rcases List.mem_cons.mp hb with rfl | hb
  · exact Ctx.mem_plug_addrs.mpr (Or.inl (by simp [ATree.addrs]))
  · exact Ctx.mem_plug_addrs.mpr (Or.inr (Ctx.spine_subset_addrs C _ hb))

theorem follows_split {p a : Nat} {C : List Frame} {te : State}
    (h : Inv σ (Ctx.plug C (.leaf a))) (hp : p ∈ σ.live)
    (ha : σ.tst p = ⟨(σ.tst p).epoch, some a⟩) (he : ForkEffect σ.te te C a)
    (ht : Tracked σ (Ctx.plug C (.leaf a)) service L) :
    Follows σ { σ with te := te,
                       tst := Function.update σ.tst p ⟨σ.te.epochNow,some σ.te.next⟩ }
      (Ctx.plug C (.leaf a)) (Ctx.plug C (forkTree σ.te a)) (.pcbNewfork p) service service k L L := by
  obtain ⟨b,hb,hl⟩ := ht.lands
  have hta : (σ.tst p).treepoch = some a := by rw [ha]
  refine Follows.of_iff (ht.keep (mem_forkTree.mpr (Or.inl hl.inTree)) ?_ ?_
    (fun x hx hxT => he.rest hx hxT) he.root_rise) ?_
  · exact Nat.le_trans (Nat.le_add_right _ 2) (Nat.le_of_eq he.next.symm)
  · exact Nat.le_trans (Nat.le_add_right _ 1) (Nat.le_of_eq he.epochNow.symm)
  · intro q hq
    obtain ⟨c,hc,hqc⟩ := h.atLeaf q hq
    by_cases hqp : q = p
    · subst hqp
      obtain rfl : c = a := by simpa [hta] using hqc.symm
      have := sees_fork h.rep he hl.inTree ht.past hc (Or.inr ⟨rfl,rfl⟩)
      simpa [SeenBy,origin,hqc] using this
    · have := sees_fork h.rep he hl.inTree ht.past hc (Or.inl rfl)
      simpa [SeenBy,origin,hqc,hqp] using this

theorem follows_collapse {p a : Nat} {f : Frame} {C : List Frame} {te : State}
    (h : Inv σ (Ctx.plug (f :: C) (.leaf a))) (hp : p ∈ σ.live)
    (ha : σ.tst p = ⟨(σ.tst p).epoch, some a⟩) (h1 : occupancy σ a = 1)
    (he : Collapse σ.te te f C a) (hk : keepsService k σ (.pcbMinus p) = true)
    (hs : σ.svc k = some service) (ht : Tracked σ (Ctx.plug (f :: C) (.leaf a)) service L) :
    ∃ L', Follows σ { σ with te := te, live := σ.live.erase p }
      (Ctx.plug (f :: C) (.leaf a)) (Ctx.plug C f.sib) (.pcbMinus p) service service k L L' := by
  have hland := ht.landing h ⟨p,hp⟩ hs
  have hdying := dying_eq h ha h1
  obtain ⟨k1,k2,k3,k4,k5,-,-,-⟩ := h.rep.removal_nodup
  have hLf : L ≠ f.addr := by
    have := (Bool.and_eq_true_iff.mp hk).2
    simpa [hdying,hland] using this
  obtain ⟨b,hb,hl⟩ := ht.lands
  have hrest : ∀ x < σ.te.next, x ∉ (Ctx.plug (f :: C) (.leaf a)).addrs →
      te.mem x = σ.te.mem x ∧ x ∉ (Ctx.plug C f.sib).addrs := fun x _ hx => he.rest hx
  have hta : (σ.tst p).treepoch = some a := by rw [ha]
  have hleaf : ∀ q ∈ σ.live.erase p, ∃ c, (σ.tst q).treepoch = some c ∧ c ≠ a := by
    intro q hq
    obtain ⟨hqp,hq⟩ := Finset.mem_erase.mp hq
    obtain ⟨c,-,hqc⟩ := h.atLeaf q hq
    refine ⟨c,hqc,?_⟩
    rintro rfl
    exact hqp (occupancy_eq_one hp hta h1 q hq hqc)
  by_cases hLa : L = a
  · -- the service falls with its leaf onto the survivor
    subst hLa
    have hsib : f.sib.addr ∈ (Ctx.plug C f.sib).addrs :=
      Ctx.mem_plug_addrs.mpr (Or.inl f.sib.addr_mem_addrs)
    have hLT : L ∉ (Ctx.plug C f.sib).addrs := fun hm =>
      (Ctx.mem_plug_addrs.mp hm).elim k1 k3
    have hLb : L < te.next := he.next.symm ▸ h.rep.bound L hl.inTree
    refine ⟨f.sib.addr,rfl,⟨⟨b,hb,?_⟩,?_,?_⟩,?_,?_⟩
    · exact hl.fall (Nat.le_of_eq he.next.symm) hsib he.leaf_parent he.leaf_nproc hLb hLT hrest
    · exact (he.root_rise h.rep).symm ▸ ht.rooted
    · exact Nat.lt_of_lt_of_eq ht.past he.epochNow.symm
    · intro q hq
      obtain ⟨c,hqc,hca⟩ := hleaf q hq
      rintro ⟨ℓ,hℓ,hsee⟩
      obtain rfl : c = ℓ := by simpa [origin,hqc] using hℓ
      exact ⟨c,hqc,((sees_collapse_leaf h.rep he hca).mp hsee).1⟩
    · intro hap q hq
      obtain ⟨c,hqc,hca⟩ := hleaf q hq
      have hlt : service.epoch < (σ.te.mem L).rise := by
        have := (Bool.and_eq_true_iff.mp hap).2
        simpa [hdying,hland,hs] using this
      rintro ⟨ℓ,hℓ,hsee⟩
      obtain rfl : c = ℓ := by simpa [hqc] using hℓ
      exact ⟨c,hqc,(sees_collapse_leaf h.rep he hca).mpr ⟨hsee,hlt⟩⟩
  · have hL' : L ∈ (Ctx.plug C f.sib).addrs := by
      rcases mem_plug_collapse.mp hl.inTree with h | h | h
      · exact absurd h hLa
      · exact absurd h hLf
      · exact h
    refine ⟨L,Follows.of_iff (ht.keep hL' (Nat.le_of_eq he.next.symm)
      (Nat.le_of_eq he.epochNow.symm) hrest (he.root_rise h.rep)) ?_⟩
    intro q hq
    obtain ⟨c,hqc,hca⟩ := hleaf q hq
    have := sees_collapse (e := service.epoch) h.rep he hLa hLf hca
    simpa [SeenBy,origin,hqc] using this

theorem Effect.follows (h : PathInv 31 σ T) (he : Effect σ T op σ' T')
    (hk : keepsService k σ op = true) (hop : ∀ p, op ≠ .addService p k)
    (hs : σ.svc k = some service) (ht : Tracked σ T service L) :
    ∃ service' L', σ'.svc k = some service' ∧ Follows σ σ' T T' op service service' k L L' := by
  cases he with
  | @enter pp p a C hpp hp ha =>
    refine ⟨service,L,hs,Follows.of_iff (ht.tally spine_subset_plug) fun q hq => ?_⟩
    refine seenBy_congr ?_ (by simp)
    by_cases hqp : q = p
    · subst hqp
      simp [origin]
    · simp [origin,hqp]
  | noFork hp => exact ⟨service,L,hs,Follows.of_iff ht fun _ _ => Iff.rfl⟩
  | split hp ha h1 hlen he => exact ⟨service,L,hs,follows_split h.inv hp ha he ht⟩
  | leave hp ha h2 =>
    refine ⟨service,L,hs,Follows.of_iff (ht.tally spine_subset_plug) fun q _ => ?_⟩
    refine seenBy_congr ?_ ?_
    · rfl
    · simp
  | collapse hp ha h1 he =>
    obtain ⟨L',hf⟩ := follows_collapse h.inv hp ha h1 he hk hs ht
    exact ⟨service,L',hs,hf⟩
  | @syscall p _ hp =>
    refine ⟨service,L,hs,Follows.of_iff ⟨ht.lands,ht.rooted,ht.past⟩ fun q _ => ?_⟩
    refine seenBy_congr ?_ ?_
    · by_cases hqp : q = p
      · subst hqp
        simp [origin]
      · simp [origin,hqp]
    · exact fun _ => rfl
  | @addService p k' _ hp =>
    have hkk : k ≠ k' := fun e => hop p (by rw [e])
    obtain ⟨b,hb,hl⟩ := ht.lands
    refine ⟨service,L,by simpa [hkk] using hs,Follows.of_iff ?_ fun q _ => ?_⟩
    · exact ht.keep hl.inTree (Nat.le_refl _) (Nat.le_succ _) (fun _ _ hx => ⟨rfl,hx⟩) rfl
    · refine seenBy_congr ?_ ?_
      · rfl
      · exact fun _ => rfl
  | @matching p k' _ s s' r hp hs' hm =>
    by_cases hkk : k = k'
    · subst hkk
      obtain rfl : service = s := by simpa [hs] using hs'
      obtain ⟨A,hA,hsee,hval⟩ := tstMatchingepoch_spec h ⟨p,hp⟩ ht
      obtain ⟨ℓ,hℓ,hpℓ⟩ := h.inv.atLeaf p hp
      obtain ⟨r',e,-⟩ := hval (σ.tst p).epoch ℓ hℓ
      rw [← hpℓ] at e
      obtain ⟨rfl,-⟩ : ⟨service.epoch,some A⟩ = s' ∧ r' = r := by
        simpa using e.symm.trans hm
      refine ⟨⟨service.epoch,some A⟩,A,by simp,rfl,⟨hA.lands,hA.rooted,hA.past⟩,?_,?_⟩
      · rintro q - ⟨ℓ,hqℓ,hq⟩
        exact ⟨ℓ,hqℓ,(hsee ℓ).mpr hq⟩
      · rintro - q - ⟨ℓ,hqℓ,hq⟩
        exact ⟨ℓ,hqℓ,(hsee ℓ).mp hq⟩
    · exact ⟨service,L,by simpa [hkk] using hs,Follows.of_iff
        ⟨ht.lands,ht.rooted,ht.past⟩ fun _ _ => Iff.rfl⟩

end Follow

end ViewOS.Treepoch
