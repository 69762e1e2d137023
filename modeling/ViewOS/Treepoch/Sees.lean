import ViewOS.Treepoch.Paths

namespace ViewOS.Treepoch
open AddrTree

def Separate (m : Nat → Node) (L e ℓ : Nat) (_ : Option Nat) (_ : List Bool) (y : ATree) : Prop :=
  L ∈ y.addrs → ℓ ∉ y.leaves → e < (m y.addr).rise

def Sees (m : Nat → Node) (T : ATree) (L e ℓ : Nat) : Prop := T.Forall (Separate m L e ℓ) none []

theorem sees_congr {m m' : Nat → Node} {T : ATree} {L e ℓ : Nat}
    (h : ∀ b, (m' b).rise = (m b).rise) : Sees m' T L e ℓ ↔ Sees m T L e ℓ := by
  unfold Sees Separate
  simp only [h]

theorem separate_off {m : Nat → Node} {t : ATree} {L e ℓ : Nat} {par : Option Nat}
    {path : List Bool} (h : L ∉ t.addrs) : t.Forall (Separate m L e ℓ) par path :=
  ATree.forall_of_get fun _ _ _ hy hL => absurd ((ATree.get_sublist hy).1.subset hL) h

theorem separate_ctx {C : List Frame} {t t' : ATree} {m m' : Nat → Node} {L L' e ℓ ℓ' : Nat}
    (hr : ∀ b ∈ Ctx.addrs C, (m' b).rise = (m b).rise)
    (hLC : L' = L ∨ L ∉ Ctx.addrs C ∧ L' ∉ Ctx.addrs C)
    (hℓC : ℓ' = ℓ ∨ ℓ ∉ Ctx.leaves C ∧ ℓ' ∉ Ctx.leaves C)
    (hL : L' ∈ t'.addrs ↔ L ∈ t.addrs) (hℓ : ℓ' ∈ t'.leaves ↔ ℓ ∈ t.leaves) :
    Ctx.Forall (Separate m L e ℓ) C t → Ctx.Forall (Separate m' L' e ℓ') C t' := by
  have hsibL : ∀ g ∈ C, ∀ y : ATree, y.addrs ⊆ g.sib.addrs → (L' ∈ y.addrs ↔ L ∈ y.addrs) := by
    intro g hg y hy
    rcases hLC with rfl | ⟨h1,h2⟩
    · rfl
    · exact ⟨fun h => (h2 (Ctx.sib_addr_mem hg (hy h))).elim,
        fun h => (h1 (Ctx.sib_addr_mem hg (hy h))).elim⟩
  have hsibℓ : ∀ g ∈ C, ∀ y : ATree, y.leaves ⊆ g.sib.leaves → (ℓ' ∈ y.leaves ↔ ℓ ∈ y.leaves) := by
    intro g hg y hy
    rcases hℓC with rfl | ⟨h1,h2⟩
    · rfl
    · exact ⟨fun h => (h2 (Ctx.sib_mem_leaves hg (hy h))).elim,
        fun h => (h1 (Ctx.sib_mem_leaves hg (hy h))).elim⟩
  have haddr : ∀ g ∈ C, (L' = g.addr ↔ L = g.addr) := by
    intro g hg
    rcases hLC with rfl | ⟨h1,h2⟩
    · rfl
    · exact ⟨fun h => (h2 (h ▸ Ctx.frame_addr_mem hg)).elim,
        fun h => (h1 (h ▸ Ctx.frame_addr_mem hg)).elim⟩
  have hfill : ∀ g ∈ C, ∀ y y' : ATree,
      (L' ∈ y'.addrs ↔ L ∈ y.addrs) ∧ (ℓ' ∈ y'.leaves ↔ ℓ ∈ y.leaves) →
      (L' ∈ (g.fill y').addrs ↔ L ∈ (g.fill y).addrs) ∧
        (ℓ' ∈ (g.fill y').leaves ↔ ℓ ∈ (g.fill y).leaves) := by
    rintro g hg y y' ⟨e1,e2⟩
    rw [Frame.mem_fill_addrs,Frame.mem_fill_addrs,Frame.mem_fill_leaves,Frame.mem_fill_leaves,
      e1,e2,haddr g hg,hsibL g hg _ (List.Subset.refl _),hsibℓ g hg _ (List.Subset.refl _)]
    exact ⟨Iff.rfl,Iff.rfl⟩
  refine Ctx.Forall.imp
    (R := fun y y' => (L' ∈ y'.addrs ↔ L ∈ y.addrs) ∧ (ℓ' ∈ y'.leaves ↔ ℓ ∈ y.leaves))
    hfill ?_ ?_ ⟨hL,hℓ⟩
  · intro g hg par path y y' hy _ hs h1 h2
    obtain ⟨e1,e2⟩ := hfill g hg y y' hy
    have hlt := hs (e1.mp h1) fun h => h2 (e2.mpr h)
    rw [Frame.fill_addr] at hlt ⊢
    rwa [hr _ (Ctx.frame_addr_mem hg)]
  · intro g hg path
    refine ATree.Forall.imp fun _ _ y hy hyl _ hs h1 h2 => ?_
    rw [hr _ (Ctx.sib_addr_mem hg (hy y.addr_mem_addrs))]
    exact hs ((hsibL g hg y hy).mp h1) fun h => h2 ((hsibℓ g hg y hyl).mpr h)

section Fork

variable {s s' : State} {C : List Frame} {a L e ℓ ℓ' : Nat}

theorem sees_fork (h : Rep s (Ctx.plug C (.leaf a))) (he : ForkEffect s s' C a)
    (hL : L ∈ (Ctx.plug C (.leaf a)).addrs) (hnow : e < s.epochNow)
    (hℓ : ℓ ∈ (Ctx.plug C (.leaf a)).leaves) (hℓ' : ℓ' = ℓ ∨ ℓ = a ∧ ℓ' = s.next) :
    Sees s'.mem (Ctx.plug C (forkTree s a)) L e ℓ' ↔ Sees s.mem (Ctx.plug C (.leaf a)) L e ℓ := by
  have hLb := h.bound L hL
  have hℓb := h.bound ℓ (ATree.leaves_subset_addrs _ ℓ hℓ)
  have hdis := h.ctx_nodup.2.2
  have hfresh : s.next ∉ Ctx.leaves C := fun hm => by
    have := h.bound_ctx _ (Ctx.leaves_subset_addrs C _ hm)
    omega
  have haC : a ∉ Ctx.leaves C := fun hm =>
    hdis (by simp [ATree.addrs]) (Ctx.leaves_subset_addrs C _ hm)
  have hℓC : ℓ' = ℓ ∨ ℓ ∉ Ctx.leaves C ∧ ℓ' ∉ Ctx.leaves C := by
    rcases hℓ' with h | ⟨rfl,rfl⟩
    · exact Or.inl h
    · exact Or.inr ⟨haC,hfresh⟩
  have hLt : L ∈ (forkTree s a).addrs ↔ L ∈ (ATree.leaf a).addrs := by
    simp only [forkTree,ATree.addrs,List.mem_cons,List.mem_append,List.not_mem_nil,or_false]
    omega
  have hℓt : ℓ' ∈ (forkTree s a).leaves ↔ ℓ ∈ (ATree.leaf a).leaves := by
    simp only [forkTree,ATree.leaves,List.mem_append,List.mem_singleton]
    omega
  have hhole : (forkTree s a).Forall (Separate s'.mem L e ℓ') (Ctx.up C) (Ctx.path C) ↔
      (ATree.leaf a).Forall (Separate s.mem L e ℓ) (Ctx.up C) (Ctx.path C) := by
    have hpar : Separate s'.mem L e ℓ' (Ctx.up C) (Ctx.path C) (forkTree s a) ↔
        Separate s.mem L e ℓ (Ctx.up C) (Ctx.path C) (.leaf a) := by
      unfold Separate
      rw [hLt,hℓt]
      change (_ → _ → e < (s'.mem (s.next + 1)).rise) ↔ _
      rw [he.rise_par]
      rfl
    refine ⟨fun hf => hpar.mp hf.1,fun hf => ⟨hpar.mpr hf,?_,?_⟩⟩
    · intro _ _
      change e < (s'.mem a).rise
      rwa [he.rise_old]
    · intro _ _
      change e < (s'.mem s.next).rise
      rwa [he.rise_new]
  unfold Sees
  rw [Ctx.forall_plug,Ctx.forall_plug,hhole]
  refine and_congr_left fun _ => ⟨?_,?_⟩
  · exact separate_ctx (fun b hb => (he.rise_ctx b hb).symm) (Or.inl rfl)
      (hℓC.imp Eq.symm And.symm) hLt.symm hℓt.symm
  · exact separate_ctx he.rise_ctx (Or.inl rfl) hℓC hLt hℓt

end Fork

section Collapse

variable {s s' : State} {f : Frame} {C : List Frame} {a L e ℓ : Nat}

theorem fill_leaf_mem {b : Nat} (hb : b ≠ a) :
    (b ∈ (f.fill (.leaf a)).leaves ↔ b ∈ f.sib.leaves) ∧
      (b ≠ f.addr → (b ∈ (f.fill (.leaf a)).addrs ↔ b ∈ f.sib.addrs)) := by
  rw [Frame.mem_fill_leaves,Frame.mem_fill_addrs]
  simp only [ATree.leaves,ATree.addrs,List.mem_singleton,hb,false_or]
  exact ⟨trivial,fun hf => by simp [hf]⟩

theorem separate_survivor (h : Rep s (Ctx.plug (f :: C) (.leaf a))) (he : Collapse s s' f C a) :
    f.sib.Forall (Separate s'.mem L e ℓ) (Ctx.up C) (Ctx.path C) ↔
      (L ∈ f.sib.addrs → ℓ ∉ f.sib.leaves → e < (s.mem f.addr).rise) ∧
        f.sib.Forall (Separate s.mem L e ℓ) (some f.addr) (Ctx.path C ++ [!f.dir]) := by
  have hn := h.removal_nodup.2.2.2.2.2.1
  have hle : (s.mem f.addr).rise ≤ (s.mem f.sib.addr).rise :=
    (Ctx.forall_plug.mp h.rises).1.2.1.head f.addr rfl
  constructor
  · intro hf
    have hroot : L ∈ f.sib.addrs → ℓ ∉ f.sib.leaves → e < (s.mem f.addr).rise := by
      rw [← he.rise_survivor]
      exact hf.head
    refine ⟨hroot,hf.move hn (fun h1 h2 => Nat.lt_of_lt_of_le (hroot h1 h2) hle) ?_⟩
    intro b _ _ y _ _ hne hq h1 h2
    rw [← he.rise _ hne]
    exact hq h1 h2
  · rintro ⟨hroot,hf⟩
    refine hf.move hn ?_ ?_
    · intro h1 h2
      rw [he.rise_survivor]
      exact hroot h1 h2
    · intro b _ _ y _ _ hne hq h1 h2
      rw [he.rise _ hne]
      exact hq h1 h2

theorem Collapse.rise_ctx (h : Rep s (Ctx.plug (f :: C) (.leaf a))) (he : Collapse s s' f C a) :
    ∀ b ∈ Ctx.addrs C, (s'.mem b).rise = (s.mem b).rise := by
  intro b hb
  refine he.rise b fun hbs => ?_
  exact h.removal_nodup.2.2.2.2.2.2.2 f.sib.addr_mem_addrs (hbs ▸ hb)

theorem sees_collapse (h : Rep s (Ctx.plug (f :: C) (.leaf a))) (he : Collapse s s' f C a)
    (hL : L ≠ a) (hLf : L ≠ f.addr) (hℓ : ℓ ≠ a) :
    Sees s'.mem (Ctx.plug C f.sib) L e ℓ ↔ Sees s.mem (Ctx.plug (f :: C) (.leaf a)) L e ℓ := by
  have hLt := (fill_leaf_mem (f := f) hL).2 hLf
  have hℓt := (fill_leaf_mem (f := f) hℓ).1
  have hfill : Separate s.mem L e ℓ (Ctx.up C) (Ctx.path C) (f.fill (.leaf a)) ↔
      (L ∈ f.sib.addrs → ℓ ∉ f.sib.leaves → e < (s.mem f.addr).rise) := by
    unfold Separate
    rw [hLt,hℓt,Frame.fill_addr]
  have hctx : Ctx.Forall (Separate s'.mem L e ℓ) C f.sib ↔
      Ctx.Forall (Separate s.mem L e ℓ) C (f.fill (.leaf a)) :=
    ⟨separate_ctx (fun b hb => (he.rise_ctx h b hb).symm) (Or.inl rfl) (Or.inl rfl) hLt hℓt,
      separate_ctx (he.rise_ctx h) (Or.inl rfl) (Or.inl rfl) hLt.symm hℓt.symm⟩
  unfold Sees
  rw [Ctx.forall_plug,Ctx.forall_plug,hctx,separate_survivor h he,← hfill]
  constructor
  · rintro ⟨h1,h2,h3⟩
    exact ⟨⟨h2,h3,h1⟩,separate_off (by simpa [ATree.addrs] using hL)⟩
  · rintro ⟨⟨h2,h3,h1⟩,-⟩
    exact ⟨h1,h2,h3⟩

theorem sees_collapse_leaf (h : Rep s (Ctx.plug (f :: C) (.leaf a))) (he : Collapse s s' f C a)
    (hℓ : ℓ ≠ a) :
    Sees s.mem (Ctx.plug (f :: C) (.leaf a)) a e ℓ ↔
      Sees s'.mem (Ctx.plug C f.sib) f.sib.addr e ℓ ∧ e < (s.mem a).rise := by
  obtain ⟨k1,k2,k3,-,-,hn,-,k8⟩ := h.removal_nodup
  have hℓt := (fill_leaf_mem (f := f) hℓ).1
  have haf : a ∈ (f.fill (.leaf a)).addrs := Frame.mem_fill_addrs.mpr (by simp [ATree.addrs])
  have hbs := f.sib.addr_mem_addrs
  have hLC : a ∉ Ctx.addrs C ∧ f.sib.addr ∉ Ctx.addrs C := ⟨k3,fun hm => k8 hbs hm⟩
  have hctx : Ctx.Forall (Separate s.mem a e ℓ) C (f.fill (.leaf a)) ↔
      Ctx.Forall (Separate s'.mem f.sib.addr e ℓ) C f.sib :=
    ⟨separate_ctx (he.rise_ctx h) (Or.inr hLC) (Or.inl rfl) (by simp [haf,hbs]) hℓt.symm,
      separate_ctx (fun b hb => (he.rise_ctx h b hb).symm) (Or.inr hLC.symm) (Or.inl rfl)
        (by simp [haf,hbs]) hℓt⟩
  have hroot : Separate s.mem a e ℓ (Ctx.up C) (Ctx.path C) (f.fill (.leaf a)) ↔
      f.sib.Forall (Separate s'.mem f.sib.addr e ℓ) (Ctx.up C) (Ctx.path C) := by
    have hfill : Separate s.mem a e ℓ (Ctx.up C) (Ctx.path C) (f.fill (.leaf a)) ↔
        (ℓ ∉ f.sib.leaves → e < (s.mem f.addr).rise) := by
      unfold Separate
      rw [hℓt,Frame.fill_addr]
      simp [haf]
    rw [hfill]
    refine ⟨fun hr => ?_,fun hf => he.rise_survivor ▸ hf.head hbs⟩
    cases hs : f.sib with
    | leaf b =>
      rw [hs] at hr
      have e1 := he.rise_survivor
      rw [hs] at e1
      intro _ hl
      exact e1 ▸ hr hl
    | node b l r =>
      rw [hs] at hr hn
      have e1 := he.rise_survivor
      rw [hs] at e1
      simp only [ATree.addrs,List.nodup_cons,List.mem_append,not_or] at hn
      exact ⟨fun _ hl => e1 ▸ hr hl,separate_off hn.1.1,separate_off hn.1.2⟩
  have hhole : (ATree.leaf a).Forall (Separate s.mem a e ℓ) (Ctx.up (f :: C)) (Ctx.path (f :: C)) ↔
      e < (s.mem a).rise := by
    simp [ATree.Forall,Separate,ATree.addrs,ATree.leaves,ATree.addr,hℓ]
  unfold Sees
  rw [Ctx.forall_plug,Ctx.forall_plug,hhole]
  constructor
  · rintro ⟨⟨h1,-,h2⟩,h3⟩
    exact ⟨⟨hctx.mp h2,hroot.mp h1⟩,h3⟩
  · rintro ⟨⟨h2,h1⟩,h3⟩
    exact ⟨⟨hroot.mpr h1,separate_off k1,hctx.mpr h2⟩,h3⟩

end Collapse

end ViewOS.Treepoch
