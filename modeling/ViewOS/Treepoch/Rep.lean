import ViewOS.Treepoch.Walks

namespace ViewOS.Treepoch
open AddrTree

structure Rep (s : State) (T : ATree) : Prop where
  root : s.teRoot = some T.addr
  nodup : T.addrs.Nodup
  bound : ∀ a ∈ T.addrs, a < s.next
  links : T.Forall (Links s.mem) none []
  depths : T.Forall (Depths s.mem) none []
  heights : T.Forall (Heights s.mem) none []
  rises : T.Forall (Rises s.mem) none []
  young : ∀ a ∈ T.addrs, (s.mem a).rise < s.epochNow

theorem Rep.ctx_nodup {s : State} {C : List Frame} {t : ATree} (h : Rep s (Ctx.plug C t)) :
    t.addrs.Nodup ∧ (Ctx.addrs C).Nodup ∧ t.addrs.Disjoint (Ctx.addrs C) :=
  List.nodup_append'.mp ((Ctx.plug_addrs_perm C t).nodup_iff.mp h.nodup)

theorem Rep.bound_hole {s : State} {C : List Frame} {t : ATree} (h : Rep s (Ctx.plug C t)) :
    ∀ a ∈ t.addrs, a < s.next :=
  fun a ha => h.bound a (Ctx.mem_plug_addrs.mpr (Or.inl ha))

theorem Rep.bound_ctx {s : State} {C : List Frame} {t : ATree} (h : Rep s (Ctx.plug C t)) :
    ∀ a ∈ Ctx.addrs C, a < s.next :=
  fun a ha => h.bound a (Ctx.mem_plug_addrs.mpr (Or.inr ha))

theorem Rep.climb {s : State} {C : List Frame} {t : ATree} (h : Rep s (Ctx.plug C t)) :
    Climb (fun a => (s.mem a).parent) (Ctx.up C) (Ctx.spine C) := by
  refine Ctx.climb (t := t) ((Ctx.forall_plug.mp h.links).1.rehang (u := t) ?_)
  intro par path y y' hy _ _ hl
  rw [← hy]
  exact hl.1

theorem Rep.climb_hole {s : State} {C : List Frame} {t : ATree} (h : Rep s (Ctx.plug C t)) :
    Climb (fun a => (s.mem a).parent) (some t.addr) (t.addr :: Ctx.spine C) := by
  refine ⟨rfl,?_⟩
  have hp := (Ctx.forall_plug.mp h.links).2.head.1
  change Climb _ (s.mem t.addr).parent _
  rw [hp]
  exact h.climb

theorem Rep.spine_nodup {s : State} {C : List Frame} {t : ATree} (h : Rep s (Ctx.plug C t)) :
    (t.addr :: Ctx.spine C).Nodup := by
  obtain ⟨_,hC,hd⟩ := h.ctx_nodup
  exact List.nodup_cons.mpr ⟨fun hm => hd t.addr_mem_addrs (Ctx.spine_subset_addrs C _ hm),
    Ctx.spine_nodup hC⟩

theorem Rep.spine_length {s : State} {C : List Frame} {t : ATree} (h : Rep s (Ctx.plug C t)) :
    (t.addr :: Ctx.spine C).length ≤ s.next := by
  refine length_le_of_nodup h.spine_nodup fun a ha => ?_
  rcases List.mem_cons.mp ha with rfl | ha
  · exact h.bound_hole _ t.addr_mem_addrs
  · exact h.bound_ctx a (Ctx.spine_subset_addrs C _ ha)

theorem links_rehang {C : List Frame} {t t' : ATree} {m m' : Nat → Node}
    (hn : (Ctx.addrs C).Nodup) (hl : Ctx.Forall (Links m) C t)
    (hpar : ∀ b ∈ Ctx.addrs C, (m' b).parent = (m b).parent)
    (hsub : ∀ b ∈ Ctx.addrs C, b ∉ Ctx.up C → (m' b).sub = (m b).sub)
    (hup : ∀ f D, C = f :: D →
      (m' f.addr).sub = Function.update (m f.addr).sub f.dir (some t'.addr)) :
    Ctx.Forall (Links m') C t' := by
  cases C with
  | nil => trivial
  | cons f C =>
    obtain ⟨⟨hp,hs⟩,hsib,hC⟩ := hl
    simp only [Ctx.addrs,List.cons_append,List.nodup_cons,List.nodup_append',List.mem_append,
      not_or] at hn
    simp only [Frame.fill_addr] at hp hs
    have hne : ∀ b, b ≠ f.addr → b ∉ Ctx.up (f :: C) := by
      intro b hb
      simpa [Ctx.up] using fun h : f.addr = b => hb h.symm
    have hsibmem : ∀ b ∈ f.sib.addrs, b ∈ Ctx.addrs (f :: C) := fun b hb => by
      simp [Ctx.addrs,hb]
    have hCmem : ∀ b ∈ Ctx.addrs C, b ∈ Ctx.addrs (f :: C) := fun b hb => by
      simp [Ctx.addrs,hb]
    refine ⟨⟨?_,?_⟩,?_,?_⟩
    · simpa only [Frame.fill_addr] using (hpar f.addr (by simp [Ctx.addrs])).trans hp
    · intro b
      simp only [Frame.fill_addr]
      rw [hup f C rfl]
      by_cases hb : b = f.dir
      · subst hb
        simp [Frame.fill_child_dir]
      · obtain rfl : b = !f.dir := by cases b <;> cases hf : f.dir <;> simp_all
        rw [Function.update_of_ne hb,hs,Frame.fill_child_other,Frame.fill_child_other]
    · refine hsib.imp fun _ _ y hy _ _ hlk => ?_
      have hb := hy y.addr_mem_addrs
      have hb' : y.addr ≠ f.addr := fun h => hn.1.1 (h ▸ hb)
      simpa only [Links,hpar _ (hsibmem _ hb),hsub _ (hsibmem _ hb) (hne _ hb')] using hlk
    · refine Ctx.Forall.imp (R := fun y y' => y.addr = y'.addr) (by simp) ?_ ?_ (by simp) hC
      · intro g hg par path y y' hy _ hlk
        have hb : g.addr ∈ Ctx.addrs C := Ctx.frame_addr_mem hg
        have hb' : g.addr ≠ f.addr := fun h => hn.1.2 (h ▸ hb)
        refine ⟨?_,fun b => ?_⟩
        · simpa only [Frame.fill_addr,hpar _ (hCmem _ hb)] using hlk.1
        · have hc : ((g.fill y).child b).map ATree.addr = ((g.fill y').child b).map ATree.addr := by
            by_cases hbd : b = g.dir
            · subst hbd
              simp [Frame.fill_child_dir,hy]
            · obtain rfl : b = !g.dir := by cases b <;> cases hg : g.dir <;> simp_all
              simp [Frame.fill_child_other]
          simpa only [Frame.fill_addr,hsub _ (hCmem _ hb) (hne _ hb'),hc] using hlk.2 b
      · intro g hg path hs'
        refine hs'.imp fun _ _ y hy _ _ hlk => ?_
        have hb := Ctx.sib_addr_mem hg (hy y.addr_mem_addrs)
        have hb' : y.addr ≠ f.addr := fun h => hn.1.2 (h ▸ hb)
        simpa only [Links,hpar _ (hCmem _ hb),hsub _ (hCmem _ hb) (hne _ hb')] using hlk

theorem depths_rehang {C : List Frame} {t t' : ATree} {m m' : Nat → Node}
    (h : ∀ b ∈ Ctx.addrs C, (m' b).len = (m b).len ∧ (m' b).bitstr = (m b).bitstr)
    (hd : Ctx.Forall (Depths m) C t) : Ctx.Forall (Depths m') C t' :=
  hd.rehang fun _ _ y y' hy hm _ hq => by
    obtain ⟨e1,e2⟩ := h _ hm
    simpa only [Depths,← hy,e1,e2] using hq

theorem rises_rehang {C : List Frame} {t t' : ATree} {m m' : Nat → Node}
    (h : ∀ b ∈ Ctx.addrs C, (m' b).rise = (m b).rise)
    (hr : Ctx.Forall (Rises m) C t) : Ctx.Forall (Rises m') C t' :=
  hr.rehang fun par _ y y' hy hm hp hq => by
    intro p hpp
    have hle := hq p hpp
    rcases hp with rfl | ⟨b,hb,rfl⟩
    · simp at hpp
    · obtain rfl : b = p := by simpa using hpp
      rwa [← hy,h _ hb,h _ hm]

theorem bits_rehang {C : List Frame} {t t' : ATree} {m m' : Nat → Node}
    (h : ∀ b ∈ Ctx.addrs C, (m' b).bitstr = (m b).bitstr)
    (hd : Ctx.Forall (Bits m) C t) : Ctx.Forall (Bits m') C t' :=
  hd.rehang fun _ _ y y' hy hm _ hq => by simpa only [Bits,← hy,h _ hm] using hq

theorem heights_rehang {C : List Frame} {t : ATree} {m m' : Nat → Node}
    (h : ∀ b ∈ Ctx.addrs C, (m' b).subheight = (m b).subheight)
    (hh : Ctx.Forall (Heights m) C t) : Ctx.Forall (Heights m') C t :=
  ctx_keep Node.subheight (fun _ _ _ hy hq => by simpa only [Heights,hy] using hq) h hh

theorem counts_rehang {C : List Frame} {t t' : ATree} {m m' : Nat → Node} {w w' : Nat → Nat}
    (h : ∀ b ∈ Ctx.addrs C, (m' b).nproc = (m b).nproc)
    (hw : ∀ b ∈ Ctx.leaves C, w' b = w b) (ht : t'.weight w' = t.weight w)
    (hc : Ctx.Forall (Counts m w) C t) : Ctx.Forall (Counts m' w') C t' := by
  have hsib : ∀ g ∈ C, ∀ y : ATree, y.leaves ⊆ g.sib.leaves → y.weight w' = y.weight w := by
    intro g hg y hy
    exact ATree.weight_congr fun b hb => hw b (Ctx.sib_mem_leaves hg (hy hb))
  refine Ctx.Forall.imp (R := fun y y' => y'.weight w' = y.weight w) ?_ ?_ ?_ ht hc
  · intro g hg y y' hy
    rw [Frame.fill_weight,Frame.fill_weight,hy,hsib g hg _ (List.Subset.refl _)]
  · intro g hg par path y y' hy _ hq
    have hb := Ctx.frame_addr_mem hg
    simp only [Counts,Frame.fill_addr,Frame.fill_weight] at hq ⊢
    rw [h _ hb,hq,hy,hsib g hg _ (List.Subset.refl _)]
  · intro g hg path hs
    refine hs.imp fun _ _ y hy hyl _ hq => ?_
    simpa only [Counts,h _ (Ctx.sib_addr_mem hg (hy y.addr_mem_addrs)),hsib g hg y hyl] using hq

end ViewOS.Treepoch
