import ViewOS.Treepoch.Fork
import ViewOS.Treepoch.Removal

namespace ViewOS.Treepoch
open AddrTree

structure SameButCount (m m' : Nat → Node) : Prop where
  parent : ∀ b, (m' b).parent = (m b).parent
  sub : ∀ b, (m' b).sub = (m b).sub
  rise : ∀ b, (m' b).rise = (m b).rise
  subheight : ∀ b, (m' b).subheight = (m b).subheight
  len : ∀ b, (m' b).len = (m b).len
  bitstr : ∀ b, (m' b).bitstr = (m b).bitstr

theorem sameButCount_tally (f : Nat → Nat) (l : List Nat) (m : Nat → Node) :
    SameButCount m (tally f l m) :=
  ⟨by simp,by simp,by simp,by simp,by simp,by simp⟩

theorem Rep.congr {s s' : State} {T : ATree} (h : Rep s T) (hm : SameButCount s.mem s'.mem)
    (hroot : s'.teRoot = s.teRoot) (hnext : s.next ≤ s'.next) (hnow : s.epochNow ≤ s'.epochNow) :
    Rep s' T where
  root := hroot.trans h.root
  nodup := h.nodup
  bound a ha := Nat.lt_of_lt_of_le (h.bound a ha) hnext
  links := h.links.imp fun _ _ y _ _ _ hl => by
    simpa only [Links,hm.parent,hm.sub] using hl
  depths := h.depths.imp fun _ _ y _ _ _ hd => by
    simpa only [Depths,hm.len,hm.bitstr] using hd
  heights := h.heights.imp fun _ _ y _ _ _ hh => by
    simpa only [Heights,hm.subheight] using hh
  rises := h.rises.imp fun _ _ y _ _ _ hr => by
    simpa only [Rises,hm.rise] using hr
  young a ha := by
    rw [hm.rise]
    exact Nat.lt_of_lt_of_le (h.young a ha) hnow

theorem spine_nproc {C : List Frame} {t : ATree} {m : Nat → Node} {w : Nat → Nat}
    (hc : Ctx.Forall (Counts m w) C t) (ht : 0 < t.weight w) (hw : ∀ b ∈ Ctx.leaves C, 0 < w b) :
    ∀ b ∈ Ctx.spine C, 2 ≤ (m b).nproc := by
  induction C generalizing t with
  | nil => simp [Ctx.spine]
  | cons f C ih =>
    obtain ⟨hf,-,hC⟩ := hc
    simp only [Ctx.leaves,List.mem_append] at hw
    have hsib := ATree.weight_pos fun b hb => hw b (Or.inl hb)
    have hfill : (f.fill t).weight w = t.weight w + f.sib.weight w := Frame.fill_weight f t w
    intro b hb
    rcases List.mem_cons.mp hb with rfl | hb
    · simp only [Counts,Frame.fill_addr] at hf
      omega
    · exact ih hC (by omega) (fun b hb => hw b (Or.inr hb)) b hb

section Procs

variable {s : State} {C : List Frame} {a : Nat} {w : Nat → Nat}

theorem teNewproc_spec (h : Rep s (Ctx.plug C (.leaf a))) :
    teNewproc s.next s (some a) =
      some { s with mem := tally (· + 1) (a :: Ctx.spine C) s.mem } :=
  teNewproc_eq h.climb_hole h.spine_nodup h.spine_length

theorem leaf_nproc (hc : (Ctx.plug C (.leaf a)).Forall (Counts s.mem w) none []) :
    (s.mem a).nproc = w a :=
  (Ctx.forall_plug.mp hc).2

theorem teDelproc_stay (h : Rep s (Ctx.plug C (.leaf a)))
    (hc : (Ctx.plug C (.leaf a)).Forall (Counts s.mem w) none [])
    (hw : ∀ b ∈ (Ctx.plug C (.leaf a)).leaves, 0 < w b) (h2 : 2 ≤ w a ∨ C = []) :
    teDelproc s.next s (some a) =
      some { s with mem := tally decr (a :: Ctx.spine C) s.mem } := by
  refine teDelproc_eq h.climb_hole h.spine_nodup h.spine_length fun b hb => ?_
  have hwa : 0 < w a := hw a (Ctx.mem_plug_leaves.mpr (Or.inl (by simp [ATree.leaves])))
  rcases List.mem_cons.mp hb with rfl | hb
  · rcases h2 with h2 | rfl
    · exact Or.inl ((leaf_nproc hc).symm ▸ h2)
    · exact Or.inr (Ctx.forall_plug.mp h.links).2.1
  · exact Or.inl (spine_nproc (Ctx.forall_plug.mp hc).1 hwa
      (fun b hb => hw b (Ctx.mem_plug_leaves.mpr (Or.inr hb))) b hb)

end Procs

structure Collapse (s s' : State) (f : Frame) (C : List Frame) (a : Nat) : Prop
    extends Survives s s' f C a where
  outside : ∀ b ∉ (Ctx.plug (f :: C) (.leaf a)).addrs, s'.mem b = s.mem b
  leaf_nproc : (s'.mem a).nproc = 0
  dead_parent : (s'.mem f.addr).parent = (s.mem f.addr).parent
  nproc : ∀ b ≠ a, (s'.mem b).nproc = (tally decr (a :: Ctx.spine (f :: C)) s.mem b).nproc

section Collapse

variable {s : State} {f : Frame} {C : List Frame} {a : Nat} {w w' : Nat → Nat}

theorem Rep.tally {T : ATree} (h : Rep s T) (f : Nat → Nat) (l : List Nat) :
    Rep { s with mem := tally f l s.mem } T :=
  h.congr (sameButCount_tally _ _ _) rfl (Nat.le_refl _) (Nat.le_refl _)

theorem teDelproc_remove (h : Rep s (Ctx.plug (f :: C) (.leaf a)))
    (hc : (Ctx.plug (f :: C) (.leaf a)).Forall (Counts s.mem w) none [])
    (hw : ∀ b ∈ (Ctx.plug (f :: C) (.leaf a)).leaves, 0 < w b) (h1 : w a = 1) :
    ∃ s2, RemovalEffect { s with mem := tally decr [a] s.mem } s2 f C a ∧
      teDelproc s.next s (some a) =
        some { s2 with mem := tally decr (f.addr :: Ctx.spine C) s2.mem } := by
  obtain ⟨s2,e2,he⟩ := removeLeaf_spec (h.tally decr [a])
  obtain ⟨k1,k2,k3,k4,k5,-⟩ := h.removal_nodup
  have hsp : ∀ b ∈ f.addr :: Ctx.spine C, b ≠ a := by
    intro b hb
    rcases List.mem_cons.mp hb with rfl | hb
    · exact k2.symm
    · exact fun he => k3 (he ▸ Ctx.spine_subset_addrs C _ hb)
  have hclimb : Climb (fun b => (s2.mem b).parent) (some f.addr) (f.addr :: Ctx.spine C) := by
    refine ⟨rfl,?_⟩
    change Climb _ (s2.mem f.addr).parent _
    rw [he.outside f.addr k2.symm k4 fun hm => k5 (Ctx.spine_subset_addrs C _ hm)]
    simpa only [tally_parent,h.parent_node.1] using he.rep.climb
  have hpos : ∀ b ∈ f.addr :: Ctx.spine C, 2 ≤ (s2.mem b).nproc ∨ (s2.mem b).parent = none := by
    intro b hb
    rw [he.nproc]
    dsimp only
    rw [tally_of_notMem _ _ _ _ (by simpa using hsp b hb)]
    refine Or.inl (spine_nproc (Ctx.forall_plug.mp hc).1 ?_ ?_ b hb)
    · simp [ATree.weight,h1]
    · exact fun b hb => hw b (Ctx.mem_plug_leaves.mpr (Or.inr hb))
  have hlen := h.spine_length
  simp only [Ctx.spine,List.map_cons,List.length_cons] at hlen
  obtain ⟨k,hk⟩ : ∃ k, s.next = k + 1 := ⟨s.next - 1,by omega⟩
  have e3 := teDelproc_eq (n := k) hclimb (h.spine_nodup.sublist (List.sublist_cons_self _ _))
    (by simp only [List.length_cons,Ctx.spine]; omega) hpos
  refine ⟨s2,he,?_⟩
  have hpa : (s.mem a).parent = some f.addr := (Ctx.forall_plug.mp h.links).2.1
  have hna : (s.mem a).nproc = 1 := (leaf_nproc hc).trans h1
  have e1 : s.modify a (fun n => { n with nproc := decr n.nproc }) =
      { s with mem := tally decr [a] s.mem } := by
    rw [← tally_cons decr (by simp),tally_nil]
    rfl
  have hz : (tally decr [a] s.mem a).nproc = 0 := by
    rw [tally_nproc_of_mem _ _ _ _ (by simp),hna]
    rfl
  rw [hk]
  simp only [teDelproc,hpa,e1,hz,if_true,e2,Option.bind_eq_bind,Option.bind_some,e3]

theorem teDelproc_collapse (h : Rep s (Ctx.plug (f :: C) (.leaf a)))
    (hc : (Ctx.plug (f :: C) (.leaf a)).Forall (Counts s.mem w) none [])
    (hw : ∀ b ∈ (Ctx.plug (f :: C) (.leaf a)).leaves, 0 < w b) (h1 : w a = 1) :
    ∃ s', teDelproc s.next s (some a) = some s' ∧ Collapse s s' f C a := by
  obtain ⟨s2,he,e⟩ := teDelproc_remove h hc hw h1
  obtain ⟨k1,k2,k3,k4,k5,-⟩ := h.removal_nodup
  have hna : a ∉ f.addr :: Ctx.spine C := by
    simp only [List.mem_cons,not_or]
    exact ⟨k2,fun hm => k3 (Ctx.spine_subset_addrs C _ hm)⟩
  refine ⟨_,e,?_⟩
  exact
    { rep := he.rep.tally _ _
      next := he.next
      epochNow := he.epochNow
      outside := by
        intro b hb
        simp only [Ctx.mem_plug_addrs,Ctx.addrs,ATree.addrs,List.mem_cons,List.mem_append,
          List.not_mem_nil,or_false,not_or] at hb
        have hsp : b ∉ Ctx.spine C := fun hm => hb.2.2 (Ctx.spine_subset_addrs C _ hm)
        change tally _ _ _ b = _
        rw [tally_of_notMem _ _ _ _ (by simp [hb.2.1,hsp]),he.outside b hb.1 hb.2.1.2 hsp]
        exact tally_of_notMem _ _ _ _ (by simp [hb.1])
      leaf_parent := by simp [he.leaf_parent]
      leaf_nproc := by
        change (tally _ _ _ a).nproc = 0
        rw [tally_of_notMem _ _ _ _ hna,he.nproc]
        dsimp only
        rw [tally_nproc_of_mem _ _ _ _ (by simp),leaf_nproc hc,h1]
        rfl
      dead_parent := by
        simp [he.outside f.addr k2.symm k4 fun hm => k5 (Ctx.spine_subset_addrs C _ hm)]
      nproc := by
        intro b hb
        have e2 : (s2.mem b).nproc = (s.mem b).nproc :=
          (he.nproc b).trans (congrArg Node.nproc (tally_of_notMem _ _ _ _ (by simpa using hb)))
        by_cases hm : b ∈ f.addr :: Ctx.spine C
        · change (tally _ _ _ b).nproc = _
          rw [tally_nproc_of_mem _ _ _ _ hm,e2,
            tally_nproc_of_mem _ (a :: Ctx.spine (f :: C)) _ _ (List.mem_cons_of_mem _ hm)]
        · have hm' : b ∉ a :: Ctx.spine (f :: C) := fun hx =>
            (List.mem_cons.mp hx).elim hb hm
          change (tally _ _ _ b).nproc = _
          rw [tally_of_notMem _ _ _ _ hm,e2,tally_of_notMem _ _ _ _ hm']
      rise_survivor := by simp [he.rise_survivor]
      rise := fun b hb => by simp [he.rise b hb]
      bits_ctx := fun b hb => by simp [he.bits_ctx b hb]
      bits_survivor := by simp [he.bits_survivor]
      bits_below := he.bits_below.imp fun _ q y _ _ _ hq u hu => by simp [hq u hu] }

theorem Collapse.counts {s' : State} (h : Rep s (Ctx.plug (f :: C) (.leaf a)))
    (he : Collapse s s' f C a)
    (hc : (Ctx.plug (f :: C) (.leaf a)).Forall (Counts s.mem w) none [])
    (hw : ∀ b, b ≠ a → w' b = w b) (ha : w a = 1) (ha' : w' a = 0) :
    (Ctx.plug C f.sib).Forall (Counts s'.mem w') none [] := by
  have ht := counts_tally (f := decr) (v := w') h.nodup hc hw (by simp [ha,ha',decr])
    (fun k => by simp [ha,decr])
  obtain ⟨⟨-,hsib,hC⟩,-⟩ := Ctx.forall_plug.mp ht
  obtain ⟨k1,k2,k3,-⟩ := h.removal_nodup
  refine Ctx.forall_plug.mpr ⟨counts_rehang (fun b hb => ?_) (fun b _ => rfl) ?_ hC,?_⟩
  · exact he.nproc b fun hba => k3 (hba ▸ hb)
  · simp [Frame.fill_weight,ATree.weight,ha']
  · have hroot : ∀ y : ATree, y.addrs ⊆ f.sib.addrs → (s'.mem y.addr).nproc =
        (tally decr (a :: Ctx.spine (f :: C)) s.mem y.addr).nproc := fun y hy =>
      he.nproc _ fun hba => k1 (hba ▸ hy y.addr_mem_addrs)
    refine hsib.move he.rep.ctx_nodup.1 ?_ ?_
    · rw [Counts,hroot _ (List.Subset.refl _)]
      exact hsib.head
    · intro b _ _ y _ hy _ hq
      rwa [Counts,hroot y hy]

end Collapse

section Fork

variable {s s' : State} {C : List Frame} {a : Nat} {w w' : Nat → Nat}

theorem ForkEffect.counts (h : Rep s (Ctx.plug C (.leaf a))) (he : ForkEffect s s' C a)
    (hc : (Ctx.plug C (.leaf a)).Forall (Counts s.mem w) none [])
    (hw : ∀ b, b ≠ a → b ≠ s.next → w' b = w b) (ha : w' a + 1 = w a) (hnew : w' s.next = 1) :
    (Ctx.plug C (forkTree s a)).Forall (Counts s'.mem w') none [] := by
  obtain ⟨hC,hleaf⟩ := Ctx.forall_plug.mp hc
  have hna : (s.mem a).nproc = w a := hleaf
  have hdis := h.ctx_nodup.2.2
  refine Ctx.forall_plug.mpr ⟨counts_rehang he.nproc_ctx ?_ ?_ hC,?_,?_,?_⟩
  · intro b hb
    have hbC := Ctx.leaves_subset_addrs C b hb
    refine hw b (fun hba => hdis (by simp [ATree.addrs]) (hba ▸ hbC)) fun hbn => ?_
    have := h.bound_ctx b hbC
    omega
  · simp only [forkTree,ATree.weight]
    omega
  · change (s'.mem (s.next + 1)).nproc = w' a + w' s.next
    rw [he.nproc_par]
    omega
  · change (s'.mem a).nproc = w' a
    rw [he.nproc_old,hna,← ha]
    simp [decr]
  · change (s'.mem s.next).nproc = w' s.next
    rw [he.nproc_new,hnew]

theorem tstNewfork_spec {e : Nat} (h : Rep s (Ctx.plug C (.leaf a))) :
    ((s.mem a).nproc = 1 ∨ C.length ≥ maxDepth) ∧
        tstNewfork s (some ⟨e, some a⟩) = some (s, ⟨e, some a⟩) ∨
      ((s.mem a).nproc ≠ 1 ∧ C.length < maxDepth) ∧
        ∃ s', tstNewfork s (some ⟨e, some a⟩) = some (s', ⟨s.epochNow, some s.next⟩) ∧
          ForkEffect s s' C a := by
  have hh : (s.mem a).subheight = 0 := (Ctx.forall_plug.mp h.heights).2
  have hl : (s.mem a).len = C.length := by
    have hd := (Ctx.forall_plug.mp h.depths).2.1
    rwa [Ctx.path_length] at hd
  have hroot : s.teRoot.isNone = false := by simp [h.root]
  by_cases hstay : (s.mem a).nproc = 1 ∨ C.length ≥ maxDepth
  · refine Or.inl ⟨hstay,?_⟩
    simp [tstNewfork,hh,hl,hstay]
  · obtain ⟨s',e',he⟩ := forkLeaf_spec h
    refine Or.inr ⟨by simpa [not_or] using hstay,s',?_,he⟩
    simp [tstNewfork,hh,hl,hstay,hroot,e']

theorem forkRoot_rep (hroot : s.teRoot = none) :
    ∃ s', tstNewfork s none = some (s', ⟨s.epochNow, some s.next⟩) ∧ Rep s' (.leaf s.next) ∧
      s'.next = s.next + 1 ∧ s'.epochNow = s.epochNow + 1 ∧ (s'.mem s.next).nproc = 0 := by
  refine ⟨(forkRoot s).1,by simp [tstNewfork,hroot,forkRoot,calloc,newEpoch],?_,?_⟩
  · constructor <;>
      simp [forkRoot,calloc,newEpoch,State.modify,ATree.addr,ATree.addrs,ATree.Forall,Links,
        Depths,Heights,Rises,Node.calloc,ATree.child,ATree.height]
  · simp [forkRoot,calloc,newEpoch,State.modify,Node.calloc]

end Fork

end ViewOS.Treepoch
