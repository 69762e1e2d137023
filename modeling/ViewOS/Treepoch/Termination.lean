import ViewOS.Treepoch.Visibility

namespace ViewOS.Treepoch
open AddrTree Transition

def Parents (m : Nat → Node) (a : Nat) (l : List Nat) : Prop :=
  Climb (fun b => (m b).parent) (some a) l

inductive Drains (s : State) (T : ATree) (e : Nat) : Nat → Prop
  | here {a : Nat} (h : a ∈ T.addrs) : Drains s T e a
  | top {a : Nat} (ha : a < s.next) (h : a ∉ T.addrs) (hp : (s.mem a).parent = none)
      (hr : (s.mem a).rise = e) : Drains s T e a
  | up {a b : Nat} (ha : a < s.next) (h : a ∉ T.addrs) (hp : (s.mem a).parent = some b)
      (hb : Drains s T e b) : Drains s T e a

structure Draining (s : State) (T : ATree) (e : Nat) : Prop where
  root : (s.mem T.addr).rise = e
  drains : ∀ a < s.next, Drains s T e a

section Chains

variable {s s' : State} {T T' : ATree} {a e : Nat}

theorem spine_last (C : List Frame) (t : ATree) :
    (t.addr :: Ctx.spine C).getLast? = some (Ctx.plug C t).addr := by
  induction C generalizing t with
  | nil => rfl
  | cons f C ih =>
    have hf := ih (f.fill t)
    rw [Frame.fill_addr] at hf
    change _ = some (Ctx.plug C (f.fill t)).addr
    rw [← hf]
    rfl

theorem Drains.parents (h : Drains s T e a) (hrep : Rep s T) (hroot : (s.mem T.addr).rise = e) :
    ∃ l, Parents s.mem a l ∧ (∀ x ∈ l, x < s.next) ∧ ∀ z ∈ l.getLast?, (s.mem z).rise = e := by
  induction h with
  | here h =>
    obtain ⟨C,t,rfl,rfl⟩ := Ctx.exists_plug_of_mem h
    refine ⟨_,hrep.climb_hole,fun x hx => ?_,fun z hz => ?_⟩
    · rcases List.mem_cons.mp hx with rfl | hx
      · exact hrep.bound_hole _ t.addr_mem_addrs
      · exact hrep.bound_ctx x (Ctx.spine_subset_addrs C _ hx)
    · obtain rfl : (Ctx.plug C t).addr = z := by simpa [spine_last] using hz
      exact hroot
  | @top a ha h hp hr =>
    refine ⟨[a],⟨rfl,?_⟩,by simpa using ha,by simpa using hr⟩
    change Climb _ (s.mem a).parent []
    rw [hp]
    trivial
  | @up a b ha h hp hb ih =>
    obtain ⟨l,hl,hlt,hlast⟩ := ih
    refine ⟨a :: l,⟨rfl,?_⟩,by simpa using ⟨ha,hlt⟩,fun z hz => hlast z ?_⟩
    · change Climb _ (s.mem a).parent l
      rw [hp]
      exact hl
    · cases l with
      | nil => simp [Parents,Climb] at hl
      | cons c l => simpa using hz

theorem Drains.mono (h : Drains s T e a) (hnext : s.next ≤ s'.next)
    (hin : ∀ x ∈ T.addrs, Drains s' T' e x)
    (hout : ∀ x < s.next, x ∉ T.addrs → s'.mem x = s.mem x ∧ x ∉ T'.addrs) : Drains s' T' e a := by
  induction h with
  | here h => exact hin _ h
  | @top a ha h hp hr =>
    obtain ⟨hm,hn⟩ := hout a ha h
    exact .top (Nat.lt_of_lt_of_le ha hnext) hn (by rw [hm,hp]) (by rw [hm,hr])
  | @up a b ha h hp _ ih =>
    obtain ⟨hm,hn⟩ := hout a ha h
    exact .up (Nat.lt_of_lt_of_le ha hnext) hn (by rw [hm,hp]) ih

theorem climbDead_ends {m : Nat → Node} {fuel : Nat} {l : List Nat} (h : Parents m a l)
    (hf : l.length ≤ fuel) : ∃ b l', climbDead fuel m a = some b ∧ Parents m b l' ∧ l' <:+ l := by
  induction fuel generalizing a l with
  | zero =>
    obtain rfl : l = [] := List.length_eq_zero_iff.mp (by omega)
    simp [Parents,Climb] at h
  | succ fuel ih =>
    cases l with
    | nil => simp [Parents,Climb] at h
    | cons c l =>
      obtain ⟨rfl,hl⟩ := id h
      dsimp only at hl
      cases hp : (m a).parent with
      | none => exact ⟨a,a :: l,by simp [climbDead,hp],h,List.suffix_refl _⟩
      | some p =>
        by_cases hn : (m a).nproc = 0
        · rw [hp] at hl
          obtain ⟨b,l',e1,e2,e3⟩ := ih hl (by simpa using hf)
          exact ⟨b,l',by simp [climbDead,hp,hn,e1],e2,
            e3.trans (List.suffix_cons a l)⟩
        · exact ⟨a,a :: l,by simp [climbDead,hp,hn],h,List.suffix_refl _⟩

theorem climbRise_ends {m : Nat → Node} {fuel : Nat} (epoch : Nat) {l : List Nat} (h : Parents m a l)
    (hf : l.length ≤ fuel) (hlast : ∀ z ∈ l.getLast?, (m z).rise ≤ epoch) :
    ∃ b ∈ l, climbRise fuel m epoch a = some b := by
  induction fuel generalizing a l with
  | zero =>
    obtain rfl : l = [] := List.length_eq_zero_iff.mp (by omega)
    simp [Parents,Climb] at h
  | succ fuel ih =>
    cases l with
    | nil => simp [Parents,Climb] at h
    | cons c l =>
      obtain ⟨rfl,hl⟩ := h
      dsimp only at hl
      by_cases hr : epoch < (m a).rise
      · cases hp : (m a).parent with
        | none =>
          rw [hp] at hl
          obtain rfl : l = [] := by
            cases l with
            | nil => rfl
            | cons d l => simp [Climb] at hl
          have := hlast a (by simp)
          omega
        | some p =>
          rw [hp] at hl
          have hne : l ≠ [] := by
            rintro rfl
            simp [Climb] at hl
          obtain ⟨b,hb,e1⟩ := ih hl (by simpa using hf) fun z hz => hlast z (by
            cases l with
            | nil => exact absurd rfl hne
            | cons d l => simpa using hz)
          exact ⟨b,List.mem_cons_of_mem _ hb,by simp [climbRise,hr,hp,e1]⟩
      · exact ⟨a,by simp,by simp [climbRise,hr]⟩

theorem Draining.parents (h : Draining s T e) (hrep : Rep s T) (ha : a < s.next) :
    ∃ l, Parents s.mem a l ∧ (∀ x ∈ l, x < s.next) ∧ ∀ z ∈ l.getLast?, (s.mem z).rise = e :=
  (h.drains a ha).parents hrep h.root

theorem Draining.walk_ends (h : Draining s T e) (hrep : Rep s T) (ha : a < s.next) {epoch : Nat}
    (he : e ≤ epoch) : ∃ b c, climbDead (s.next + 1) s.mem a = some b ∧
      climbRise (s.next + 1) s.mem epoch b = some c ∧ c < s.next := by
  obtain ⟨l,hl,hlt,hlast⟩ := h.parents hrep ha
  have hlen := length_le_of_nodup (Climb.nodup hl) hlt
  obtain ⟨b,l',e1,hl',hsuf⟩ := climbDead_ends hl (Nat.le_succ_of_le hlen)
  have hne : l' ≠ [] := by
    rintro rfl
    simp [Parents,Climb] at hl'
  obtain ⟨c,hc,e2⟩ := climbRise_ends epoch hl'
    (Nat.le_succ_of_le (Nat.le_trans hsuf.length_le hlen)) fun z hz => by
      obtain ⟨r,rfl⟩ := hsuf
      rw [hlast z (by rwa [List.getLast?_append_of_ne_nil _ hne])]
      exact he
  exact ⟨b,c,e1,e2,hlt c (hsuf.subset hc)⟩

theorem Draining.matching (h : Draining s T e) (hrep : Rep s T) {service : Timestamp}
    (ht : service.treepoch = some a) (ha : a < s.next) (he : e ≤ service.epoch)
    (process : Option Timestamp) : ∃ c < s.next, ∃ r,
      tstMatchingepoch s service process = some (⟨service.epoch, some c⟩, r) := by
  obtain ⟨b,c,e1,e2,hc⟩ := h.walk_ends hrep ha he
  refine ⟨c,hc,?_⟩
  simp only [tstMatchingepoch,ht,e1,e2,Option.bind_eq_bind,Option.bind_some]
  rcases process with _ | ⟨now,_ | p⟩
  · exact ⟨_,rfl⟩
  · exact ⟨_,rfl⟩
  · dsimp only
    split_ifs
    · exact ⟨_,rfl⟩
    · exact ⟨_,rfl⟩
    · exact ⟨_,rfl⟩

theorem Draining.same (h : Draining s T e) (hnext : s.next = s'.next)
    (hroot : (s'.mem T.addr).rise = (s.mem T.addr).rise)
    (hm : ∀ x ∉ T.addrs, s'.mem x = s.mem x) : Draining s' T e := by
  refine ⟨hroot.trans h.root,fun a ha => ?_⟩
  exact (h.drains a (hnext ▸ ha)).mono (Nat.le_of_eq hnext) (fun x hx => .here hx)
    fun x _ hx => ⟨hm x hx,hx⟩

theorem Draining.tally {f : Nat → Nat} {C : List Frame}
    (h : Draining s (Ctx.plug C (.leaf a)) e) :
    Draining { s with mem := tally f (a :: Ctx.spine C) s.mem } (Ctx.plug C (.leaf a)) e :=
  h.same rfl (tally_rise ..) fun _ hx => tally_of_notMem _ _ _ _ fun hm => hx (spine_subset_plug hm)

theorem Draining.fork {C : List Frame} (h : Draining s (Ctx.plug C (.leaf a)) e)
    (he : ForkEffect s s' C a) : Draining s' (Ctx.plug C (forkTree s a)) e := by
  refine ⟨he.root_rise.trans h.root,fun x hx => ?_⟩
  have hnext : s.next ≤ s'.next := by rw [he.next]; omega
  rcases Nat.lt_or_ge x s.next with hlt | hge
  · exact (h.drains x hlt).mono hnext (fun y hy => .here (mem_forkTree.mpr (Or.inl hy)))
      fun y hy hyT => he.rest hy hyT
  · have hnew : x = s.next ∨ x = s.next + 1 := by
      rw [he.next] at hx
      omega
    exact .here (mem_forkTree.mpr (Or.inr hnew))

theorem Draining.collapse {f : Frame} {C : List Frame} (hrep : Rep s (Ctx.plug (f :: C) (.leaf a)))
    (h : Draining s (Ctx.plug (f :: C) (.leaf a)) e) (he : Collapse s s' f C a) :
    Draining s' (Ctx.plug C f.sib) e := by
  refine ⟨(he.root_rise hrep).trans h.root,fun x hx => ?_⟩
  obtain ⟨k1,k2,k3,k4,k5,-⟩ := hrep.removal_nodup
  have hbound : ∀ y ∈ (Ctx.plug (f :: C) (.leaf a)).addrs, y < s'.next := fun y hy =>
    he.next.symm ▸ hrep.bound y hy
  refine (h.drains x (he.next ▸ hx)).mono (Nat.le_of_eq he.next.symm) (fun y hy => ?_)
    fun y _ hy => he.rest hy
  rcases mem_plug_collapse.mp hy with rfl | rfl | hin
  · -- the leaf now points to its sibling
    refine .up (hbound y hy) (fun hm => (Ctx.mem_plug_addrs.mp hm).elim k1 k3) he.leaf_parent ?_
    exact .here (Ctx.mem_plug_addrs.mpr (Or.inl f.sib.addr_mem_addrs))
  · -- the parent keeps its own parent, or was the root
    have hout : f.addr ∉ (Ctx.plug C f.sib).addrs := fun hm =>
      (Ctx.mem_plug_addrs.mp hm).elim k4 k5
    have hpar := he.dead_parent.trans hrep.parent_node.1
    cases C with
    | nil =>
      refine .top (hbound _ hy) hout hpar ?_
      have hf : (Ctx.plug [f] (.leaf a)).addr = f.addr := Frame.fill_addr f _
      rw [he.rise f.addr fun hm => k4 (hm ▸ f.sib.addr_mem_addrs),← hf]
      exact h.root
    | cons g D =>
      refine .up (hbound _ hy) hout hpar (.here ?_)
      exact Ctx.mem_plug_addrs.mpr (Or.inr (by simp [Ctx.addrs]))
  · exact .here hin

end Chains

section Services

variable {σ σ' : Sys} {T T' : ATree} {op : Op} {e : Nat}

theorem Effect.draining (h : Inv σ T) (hd : Draining σ.te T e) (he : Effect σ T op σ' T') :
    Draining σ'.te T' e := by
  cases he with
  | enter hpp hp ha => exact hd.tally
  | noFork hp => exact hd
  | split hp ha h1 hlen he => exact hd.fork he
  | leave hp ha h2 => exact hd.tally
  | collapse hp ha h1 he => exact hd.collapse h.rep he
  | syscall hp => exact hd
  | addService hp => exact hd.same rfl rfl fun _ _ => rfl
  | matching hp hs hm => exact hd

structure Placed (s : State) (e : Nat) (service : Timestamp) : Prop where
  node : ∃ a < s.next, service.treepoch = some a
  after : e ≤ service.epoch

theorem Effect.next_le (he : Effect σ T op σ' T') : σ.te.next ≤ σ'.te.next := by
  cases he with
  | split hp ha h1 hlen he => exact he.next.symm ▸ Nat.le_add_right _ 2
  | collapse hp ha h1 he => exact Nat.le_of_eq he.next.symm
  | _ => exact Nat.le_refl _

structure Served (e : Nat) (σ : Sys) (T : ATree) : Prop where
  inv : Inv σ T
  draining : Draining σ.te T e
  placed : ∀ k service, σ.svc k = some service → Placed σ.te e service

theorem Placed.mono {s s' : State} {service : Timestamp} (h : Placed s e service)
    (hnext : s.next ≤ s'.next) : Placed s' e service := by
  obtain ⟨⟨a,ha,ht⟩,he⟩ := h
  exact ⟨⟨a,Nat.lt_of_lt_of_le ha hnext,ht⟩,he⟩

theorem Served.effect (h : Served e σ T) (he : Effect σ T op σ' T') : Served e σ' T' := by
  refine ⟨he.inv h.inv,he.draining h.inv h.draining,fun k service hs => ?_⟩
  have hold : σ.svc k = some service → Placed σ'.te e service := fun hs =>
    (h.placed k service hs).mono he.next_le
  cases he with
  | @addService p k' _ hp =>
    by_cases hk : k = k'
    · obtain rfl : _ = service := by simpa [hk] using hs
      obtain ⟨ℓ,hℓ,hpℓ⟩ := h.inv.atLeaf p hp
      refine ⟨⟨ℓ,h.inv.rep.bound ℓ (T.leaves_subset_addrs ℓ hℓ),hpℓ⟩,?_⟩
      rw [← h.draining.root]
      exact Nat.le_of_lt (h.inv.rep.young _ T.addr_mem_addrs)
    · exact hold (by simpa [hk] using hs)
  | @matching p k' _ old new r hp hs' hm =>
    by_cases hk : k = k'
    · obtain rfl : new = service := by simpa [hk] using hs
      obtain ⟨⟨a,ha,ht⟩,hle⟩ := h.placed k' old hs'
      obtain ⟨c,hc,r',e1⟩ := h.draining.matching h.inv.rep ht ha hle (some (σ.tst p))
      obtain ⟨rfl,-⟩ : ⟨old.epoch,some c⟩ = new ∧ r' = r := by simpa using e1.symm.trans hm
      exact ⟨⟨c,hc,rfl⟩,hle⟩
    · exact hold (by simpa [hk] using hs)
  | _ => exact hold hs

structure Unstarted (σ : Sys) : Prop where
  root : σ.te.teRoot = none
  live : σ.live = ∅
  next : σ.te.next = 0
  svc : ∀ k, σ.svc k = none

theorem Unstarted.served (h : Unstarted σ) (hs : step σ op = some σ') : ∃ e T, Served e σ' T := by
  obtain ⟨p,rfl,hsvc,hinv⟩ := step_root h.root h.live hs
  obtain ⟨te,hte,hrep,hnext,-⟩ := pcbPlusRoot_spec h.root (p := p) (by simp [h.live])
  obtain rfl : _ = σ' := by simpa [hte] using hs
  refine ⟨_,_,hinv,⟨rfl,fun a ha => .here ?_⟩,fun k service hk => ?_⟩
  · have hz : a < σ.te.next + 1 := hnext ▸ ha
    have hn := h.next
    simp only [ATree.addrs,List.mem_singleton]
    omega
  · exact absurd hk (by simp [h.svc k])

theorem served_of_run (h : Run step (fun _ _ => True) Sys.empty σ) :
    Unstarted σ ∨ ∃ e T, Served e σ T := by
  refine h.invariant (I := fun σ => Unstarted σ ∨ ∃ e T, Served e σ T) ?_
    (Or.inl ⟨rfl,rfl,rfl,fun _ => rfl⟩)
  rintro σ op σ' (h | ⟨e,T,h⟩) - hs
  · exact Or.inr (h.served hs)
  · obtain ⟨T',he⟩ := effect_of_step h.inv hs
    exact Or.inr ⟨e,T',h.effect he⟩

theorem Served.run (h : Served e σ T) (hr : Run step (fun _ _ => True) σ σ') :
    σ.te.next ≤ σ'.te.next ∧ ∃ T', Served e σ' T' := by
  refine hr.invariant (I := fun τ => σ.te.next ≤ τ.te.next ∧ ∃ T', Served e τ T') ?_
    ⟨Nat.le_refl _,T,h⟩
  rintro τ op τ' ⟨hle,T',h'⟩ - hs
  obtain ⟨T'',he⟩ := effect_of_step h'.inv hs
  exact ⟨Nat.le_trans hle he.next_le,T'',h'.effect he⟩

end Services

theorem matching_terminates {σ₀ σ : Sys} (h₀ : Run step (fun _ _ => True) Sys.empty σ₀)
    (h : Run step (fun _ _ => True) σ₀ σ) :
    (∀ a < σ.te.next, ∃ l, Parents σ.te.mem a l) ∧
    ∀ k service, σ₀.svc k = some service → ∀ process,
      ∃ service' r, tstMatchingepoch σ.te service process = some (service', r) := by
  constructor
  · intro a ha
    rcases served_of_run (h₀.trans h) with hu | ⟨e,T,hs⟩
    · exact absurd ha (by simp [hu.next])
    · obtain ⟨l,hl,-⟩ := hs.draining.parents hs.inv.rep ha
      exact ⟨l,hl⟩
  · intro k service hk process
    rcases served_of_run h₀ with hu | ⟨e,T,hs⟩
    · exact absurd hk (by simp [hu.svc k])
    · obtain ⟨hnext,T',hs'⟩ := hs.run h
      obtain ⟨⟨a,ha,ht⟩,hle⟩ := (hs.placed k service hk).mono hnext
      obtain ⟨c,-,r,e1⟩ := hs'.draining.matching hs'.inv.rep ht ha hle process
      exact ⟨_,r,e1⟩

def childService : List Op :=
  [.pcbPlusRoot 1, .pcbPlus 1 2, .pcbNewfork 2, .addService 2 0]

theorem unlinked_matching : ∃ σ₀ σ : Sys, σ₀.svc 0 = some ⟨4, some 1⟩ ∧ σ.te.teRoot = some 0 ∧
    (σ.te.mem 1).parent = some 0 ∧ ∀ process,
      ∃ service' r, tstMatchingepoch σ.te ⟨4, some 1⟩ process = some (service', r) := by
  have h : (exec step Sys.empty childService).any fun σ₀ => σ₀.svc 0 == some ⟨4,some 1⟩ &&
      (exec step σ₀ [.pcbMinus 2]).any fun σ =>
        σ.te.teRoot == some 0 && (σ.te.mem 1).parent == some 0 := by
    decide
  obtain ⟨σ₀,hσ₀,h⟩ := (Option.any_eq_true _ _).mp h
  obtain ⟨hk,h⟩ := Bool.and_eq_true_iff.mp h
  obtain ⟨σ,hσ,h⟩ := (Option.any_eq_true _ _).mp h
  simp only [Bool.and_eq_true,beq_iff_eq] at hk h
  exact ⟨σ₀,σ,hk,h.1,h.2,(matching_terminates (Run.of_exec hσ₀ (by decide))
    (Run.of_exec hσ (Meets.of_forall (fun _ _ => trivial) _ _))).2 0 _ hk⟩

end ViewOS.Treepoch
