import ViewOS.Treepoch.Steps

namespace ViewOS.Treepoch
open AddrTree Transition

inductive Effect (σ : Sys) : ATree → Op → Sys → ATree → Prop
  | enter {pp p a : Nat} {C : List Frame} (hpp : pp ∈ σ.live) (hp : p ∉ σ.live)
      (ha : σ.tst pp = ⟨(σ.tst pp).epoch, some a⟩) :
      Effect σ (Ctx.plug C (.leaf a)) (.pcbPlus pp p)
        { σ with te := { σ.te with mem := tally (· + 1) (a :: Ctx.spine C) σ.te.mem },
                 live := insert p σ.live, tst := Function.update σ.tst p (σ.tst pp) }
        (Ctx.plug C (.leaf a))
  | noFork {p : Nat} {T : ATree} (hp : p ∈ σ.live) : Effect σ T (.pcbNewfork p) σ T
  | split {p a : Nat} {C : List Frame} {te : State} (hp : p ∈ σ.live)
      (ha : σ.tst p = ⟨(σ.tst p).epoch, some a⟩) (h1 : occupancy σ a ≠ 1)
      (hlen : C.length < maxDepth) (he : ForkEffect σ.te te C a) :
      Effect σ (Ctx.plug C (.leaf a)) (.pcbNewfork p)
        { σ with te := te, tst := Function.update σ.tst p ⟨σ.te.epochNow, some σ.te.next⟩ }
        (Ctx.plug C (forkTree σ.te a))
  | leave {p a : Nat} {C : List Frame} (hp : p ∈ σ.live)
      (ha : σ.tst p = ⟨(σ.tst p).epoch, some a⟩) (h2 : 2 ≤ occupancy σ a ∨ C = []) :
      Effect σ (Ctx.plug C (.leaf a)) (.pcbMinus p)
        { σ with te := { σ.te with mem := tally decr (a :: Ctx.spine C) σ.te.mem },
                 live := σ.live.erase p }
        (Ctx.plug C (.leaf a))
  | collapse {p a : Nat} {f : Frame} {C : List Frame} {te : State} (hp : p ∈ σ.live)
      (ha : σ.tst p = ⟨(σ.tst p).epoch, some a⟩) (h1 : occupancy σ a = 1)
      (he : Collapse σ.te te f C a) :
      Effect σ (Ctx.plug (f :: C) (.leaf a)) (.pcbMinus p)
        { σ with te := te, live := σ.live.erase p } (Ctx.plug C f.sib)
  | syscall {p : Nat} {T : ATree} (hp : p ∈ σ.live) :
      Effect σ T (.syscall p)
        { σ with tst := Function.update σ.tst p { σ.tst p with epoch := σ.te.epochNow } } T
  | addService {p k : Nat} {T : ATree} (hp : p ∈ σ.live) :
      Effect σ T (.addService p k)
        { σ with te := { σ.te with epochNow := σ.te.epochNow + 1 },
                 svc := Function.update σ.svc k (some ⟨σ.te.epochNow, (σ.tst p).treepoch⟩) } T
  | matching {p k : Nat} {T : ATree} {service service' : Timestamp} {r : Nat} (hp : p ∈ σ.live)
      (hs : σ.svc k = some service)
      (hm : tstMatchingepoch σ.te service (some (σ.tst p)) = some (service', r)) :
      Effect σ T (.matching p k) { σ with svc := Function.update σ.svc k (some service') } T

section Preservation

variable {σ σ' : Sys} {T T' : ATree} {op : Op}

theorem effect_of_step (h : Inv σ T) (hs : step σ op = some σ') : ∃ T', Effect σ T op σ' T' := by
  have hen := enabled_of_step hs
  cases op with
  | pcbPlusRoot p => simp [Enabled,h.rep.root] at hen
  | pcbPlus pp p =>
    obtain ⟨C,a,rfl,ha⟩ := h.site hen.1
    obtain rfl : _ = σ' := by simpa [pcbPlus_spec h hen.1 hen.2 ha] using hs
    exact ⟨_,.enter hen.1 hen.2 ha⟩
  | pcbNewfork p =>
    obtain ⟨C,a,rfl,ha⟩ := h.site hen
    rcases pcbNewfork_spec h hen ha with ⟨-,e⟩ | ⟨⟨h1,hl⟩,te,e,he⟩
    · obtain rfl : σ = σ' := by simpa [e] using hs
      exact ⟨_,.noFork hen⟩
    · obtain rfl : _ = σ' := by simpa [e] using hs
      exact ⟨_,.split hen ha h1 hl he⟩
  | pcbMinus p =>
    obtain ⟨C,a,rfl,ha⟩ := h.site hen
    rcases pcbMinus_spec h hen ha with ⟨h2,e⟩ | ⟨h1,f,D,te,rfl,e,he⟩
    · obtain rfl : _ = σ' := by simpa [e] using hs
      exact ⟨_,.leave hen ha h2⟩
    · obtain rfl : _ = σ' := by simpa [e] using hs
      exact ⟨_,.collapse hen ha h1 he⟩
  | syscall p =>
    obtain rfl : _ = σ' := by simpa [syscall_spec hen] using hs
    exact ⟨_,.syscall hen⟩
  | addService p k =>
    obtain rfl : _ = σ' := by simpa [addService_spec hen] using hs
    exact ⟨_,.addService hen⟩
  | matching p k =>
    obtain ⟨hp,service,service',r,hk,hm,rfl⟩ := matching_spec hs
    exact ⟨_,.matching hp hk hm⟩

theorem Inv.of_same (h : Inv σ T) (hrep : Rep σ'.te T) (hn : ∀ b, (σ'.te.mem b).nproc = (σ.te.mem b).nproc)
    (hl : σ'.live = σ.live) (ht : ∀ p ∈ σ.live, (σ'.tst p).treepoch = (σ.tst p).treepoch) :
    Inv σ' T := by
  have ho := occupancy_congr hl ht
  refine ⟨hrep,?_,?_,?_,h.height⟩
  · rw [ho]
    exact h.counts.imp fun _ _ y _ _ _ hc => by simpa only [Counts,hn] using hc
  · intro p hp
    rw [hl] at hp
    rw [ht p hp]
    exact h.atLeaf p hp
  · rw [ho,hl]
    exact h.occupied

theorem Inv.enter {pp p a : Nat} {C : List Frame} (h : Inv σ (Ctx.plug C (.leaf a)))
    (hpp : pp ∈ σ.live) (hp : p ∉ σ.live) (ha : σ.tst pp = ⟨(σ.tst pp).epoch, some a⟩) :
    Inv { σ with te := { σ.te with mem := tally (· + 1) (a :: Ctx.spine C) σ.te.mem },
                 live := insert p σ.live, tst := Function.update σ.tst p (σ.tst pp) }
      (Ctx.plug C (.leaf a)) := by
  have hne : ∀ q ∈ σ.live, q ≠ p := fun q hq he => hp (he ▸ hq)
  have hta : (σ.tst pp).treepoch = some a := by rw [ha]
  obtain ⟨o1,o2⟩ := occupancy_insert (σ := σ) (p := p) (a := a)
    (τ := { σ with te := { σ.te with mem := tally (· + 1) (a :: Ctx.spine C) σ.te.mem },
                    live := insert p σ.live, tst := Function.update σ.tst p (σ.tst pp) })
    rfl hp (fun q hq => by simp [hne q hq]) (by simp [hta])
  have hmem : a ∈ (Ctx.plug C (.leaf a)).leaves :=
    Ctx.mem_plug_leaves.mpr (Or.inl (by simp [ATree.leaves]))
  refine ⟨h.rep.tally _ _,counts_tally h.rep.nodup h.counts o2 o1 (fun k => by omega),?_,?_,
    h.height⟩
  · intro q hq
    rcases Finset.mem_insert.mp hq with rfl | hq
    · exact ⟨a,hmem,by simp [hta]⟩
    · simpa [hne q hq] using h.atLeaf q hq
  · intro _ b hb
    have hold := h.occupied ⟨pp,hpp⟩ b hb
    by_cases hba : b = a
    · subst hba
      rw [o1]
      omega
    · rwa [o2 b hba]

theorem Inv.leave {p a : Nat} {C : List Frame} (h : Inv σ (Ctx.plug C (.leaf a)))
    (hp : p ∈ σ.live) (ha : σ.tst p = ⟨(σ.tst p).epoch, some a⟩)
    (h2 : 2 ≤ occupancy σ a ∨ C = []) :
    Inv { σ with te := { σ.te with mem := tally decr (a :: Ctx.spine C) σ.te.mem },
                 live := σ.live.erase p } (Ctx.plug C (.leaf a)) := by
  have hta : (σ.tst p).treepoch = some a := by rw [ha]
  have hpos := occupancy_pos hp hta
  obtain ⟨o1,o2⟩ := occupancy_erase (σ := σ) (p := p) (a := a)
    (τ := { σ with te := { σ.te with mem := tally decr (a :: Ctx.spine C) σ.te.mem },
                    live := σ.live.erase p }) rfl hp (fun _ _ => rfl) hta
  refine ⟨h.rep.tally _ _,counts_tally h.rep.nodup h.counts o2 ?_ ?_,?_,?_,h.height⟩
  · rw [decr_of_pos hpos]
    omega
  · intro k
    rw [decr_of_pos hpos,decr_of_pos (by omega)]
    omega
  · exact fun q hq => h.atLeaf q (Finset.mem_of_mem_erase hq)
  · rintro ⟨q,hq⟩ b hb
    by_cases hba : b = a
    · subst hba
      rcases h2 with h2 | rfl
      · omega
      · -- a single leaf holds every process
        obtain ⟨c,hc,hqc⟩ := h.atLeaf q (Finset.mem_of_mem_erase hq)
        obtain rfl : c = b := by simpa [Ctx.plug,ATree.leaves] using hc
        exact occupancy_pos hq hqc
    · rw [o2 b hba]
      exact h.occupied ⟨p,hp⟩ b hb

theorem Inv.collapse {p a : Nat} {f : Frame} {C : List Frame} {te : State}
    (h : Inv σ (Ctx.plug (f :: C) (.leaf a))) (hp : p ∈ σ.live)
    (ha : σ.tst p = ⟨(σ.tst p).epoch, some a⟩) (h1 : occupancy σ a = 1)
    (he : Collapse σ.te te f C a) :
    Inv { σ with te := te, live := σ.live.erase p } (Ctx.plug C f.sib) := by
  have hta : (σ.tst p).treepoch = some a := by rw [ha]
  obtain ⟨o1,o2⟩ := occupancy_erase (σ := σ) (p := p) (a := a)
    (τ := { σ with te := te, live := σ.live.erase p }) rfl hp (fun _ _ => rfl) hta
  have hleaves : ∀ b, b ∈ (Ctx.plug (f :: C) (.leaf a)).leaves ↔
      b = a ∨ b ∈ (Ctx.plug C f.sib).leaves := by
    intro b
    simp only [Ctx.mem_plug_leaves,Ctx.leaves,ATree.leaves,List.mem_singleton,List.mem_append]
  have hna : a ∉ (Ctx.plug C f.sib).leaves := by
    obtain ⟨k1,-,k3,-⟩ := h.rep.removal_nodup
    intro hm
    rcases Ctx.mem_plug_leaves.mp hm with hm | hm
    · exact k1 (f.sib.leaves_subset_addrs _ hm)
    · exact k3 (Ctx.leaves_subset_addrs C _ hm)
  refine ⟨he.rep,he.counts h.rep h.counts o2 h1 (by omega),?_,?_,?_⟩
  · intro q hq
    obtain ⟨hqp,hq⟩ := Finset.mem_erase.mp hq
    obtain ⟨b,hb,hqb⟩ := h.atLeaf q hq
    rcases (hleaves b).mp hb with rfl | hb
    · exact absurd (occupancy_eq_one hp hta h1 q hq hqb) hqp
    · exact ⟨b,hb,hqb⟩
  · intro _ b hb
    rw [o2 b fun hba => hna (hba ▸ hb)]
    exact h.occupied ⟨p,hp⟩ b ((hleaves b).mpr (Or.inr hb))
  · exact Nat.le_trans (Ctx.plug_collapse_height f C a) h.height

theorem Inv.split {p a : Nat} {C : List Frame} {te : State} (h : Inv σ (Ctx.plug C (.leaf a)))
    (hp : p ∈ σ.live) (ha : σ.tst p = ⟨(σ.tst p).epoch, some a⟩) (h1 : occupancy σ a ≠ 1)
    (hlen : C.length < maxDepth) (he : ForkEffect σ.te te C a) :
    Inv { σ with te := te, tst := Function.update σ.tst p ⟨σ.te.epochNow,some σ.te.next⟩ }
      (Ctx.plug C (forkTree σ.te a)) := by
  have hta : (σ.tst p).treepoch = some a := by rw [ha]
  have hpos := occupancy_pos hp hta
  have hbound : ∀ b ∈ (Ctx.plug C (.leaf a)).leaves, b ≠ σ.te.next := fun b hb he => by
    have := h.rep.bound b (ATree.leaves_subset_addrs _ b hb)
    omega
  have hleaves : ∀ b, b ∈ (Ctx.plug C (forkTree σ.te a)).leaves ↔
      b = σ.te.next ∨ b ∈ (Ctx.plug C (.leaf a)).leaves := by
    intro b
    simp only [Ctx.mem_plug_leaves,forkTree,ATree.leaves,List.mem_append,List.mem_singleton]
    tauto
  have hmem : a ∈ (Ctx.plug C (.leaf a)).leaves :=
    Ctx.mem_plug_leaves.mpr (Or.inl (by simp [ATree.leaves]))
  have hfresh : occupancy σ σ.te.next = 0 := by
    refine Finset.card_eq_zero.mpr (Finset.filter_eq_empty_iff.mpr fun q hq hqn => ?_)
    obtain ⟨b,hb,hqb⟩ := h.atLeaf q hq
    exact hbound b hb (by simpa [hqb] using hqn)
  obtain ⟨o1,o2,o3⟩ := occupancy_move (σ := σ) (p := p) (a := a) (b := σ.te.next)
    (τ := { σ with te := te,
                    tst := Function.update σ.tst p ⟨σ.te.epochNow,some σ.te.next⟩ })
    rfl hp (fun q _ hqp => by simp [hqp]) hta (by simp) (hbound a hmem).symm
  refine ⟨he.rep,he.counts h.rep h.counts o3 o1 (by rw [o2,hfresh]),?_,?_,?_⟩
  · intro q hq
    by_cases hqp : q = p
    · subst hqp
      exact ⟨σ.te.next,(hleaves _).mpr (Or.inl rfl),by simp⟩
    · obtain ⟨b,hb,hqb⟩ := h.atLeaf q hq
      exact ⟨b,(hleaves b).mpr (Or.inr hb),by simp [hqp,hqb]⟩
  · intro hne b hb
    rcases (hleaves b).mp hb with rfl | hb
    · omega
    · by_cases hba : b = a
      · subst hba
        omega
      · rw [o3 b hba (hbound b hb)]
        exact h.occupied hne b hb
  · refine Ctx.plug_height_le h.height ?_
    simp only [forkTree,ATree.height]
    omega

theorem Effect.inv (h : Inv σ T) (he : Effect σ T op σ' T') : Inv σ' T' := by
  cases he with
  | enter hpp hp ha => exact h.enter hpp hp ha
  | noFork hp => exact h
  | split hp ha h1 hlen he => exact h.split hp ha h1 hlen he
  | leave hp ha h2 => exact h.leave hp ha h2
  | collapse hp ha h1 he => exact h.collapse hp ha h1 he
  | @syscall p _ hp =>
    refine h.of_same h.rep (fun _ => rfl) rfl fun q _ => ?_
    by_cases hqp : q = p
    · subst hqp
      simp
    · simp [hqp]
  | addService hp =>
    exact h.of_same (h.rep.congr ⟨fun _ => rfl,fun _ => rfl,fun _ => rfl,fun _ => rfl,
      fun _ => rfl,fun _ => rfl⟩ rfl (Nat.le_refl _) (Nat.le_succ _)) (fun _ => rfl) rfl
      fun _ _ => rfl
  | matching hp hs hm => exact h.of_same h.rep (fun _ => rfl) rfl fun _ _ => rfl

end Preservation

end ViewOS.Treepoch
