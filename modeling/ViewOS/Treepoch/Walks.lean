import ViewOS.Treepoch.Shape

namespace ViewOS.Treepoch
open AddrTree

def tally (f : Nat → Nat) (l : List Nat) (m : Nat → Node) : Nat → Node :=
  fun b => if b ∈ l then { m b with nproc := f (m b).nproc } else m b

section TallyFields

variable (f : Nat → Nat) (l : List Nat) (m : Nat → Node) (b : Nat)

@[simp] theorem tally_parent : (tally f l m b).parent = (m b).parent := by
  unfold tally; split <;> rfl

@[simp] theorem tally_sub : (tally f l m b).sub = (m b).sub := by
  unfold tally; split <;> rfl

@[simp] theorem tally_rise : (tally f l m b).rise = (m b).rise := by
  unfold tally; split <;> rfl

@[simp] theorem tally_subheight : (tally f l m b).subheight = (m b).subheight := by
  unfold tally; split <;> rfl

@[simp] theorem tally_len : (tally f l m b).len = (m b).len := by
  unfold tally; split <;> rfl

@[simp] theorem tally_bitstr : (tally f l m b).bitstr = (m b).bitstr := by
  unfold tally; split <;> rfl

theorem tally_of_notMem (h : b ∉ l) : tally f l m b = m b := by simp [tally,h]

theorem tally_nproc_of_mem (h : b ∈ l) : (tally f l m b).nproc = f (m b).nproc := by simp [tally,h]

end TallyFields

@[simp] theorem tally_nil (f : Nat → Nat) (m : Nat → Node) : tally f [] m = m := by
  funext b; simp [tally]

theorem tally_cons (f : Nat → Nat) {a : Nat} {l : List Nat} (ha : a ∉ l) (m : Nat → Node) :
    tally f l (Function.update m a { m a with nproc := f (m a).nproc }) = tally f (a :: l) m := by
  funext b
  by_cases hb : b = a
  · subst hb
    simp [tally,ha]
  · simp [tally,hb]

theorem teNewproc_eq {s : State} {p : Option Nat} {l : List Nat} {n : Nat}
    (hc : Climb (fun a => (s.mem a).parent) p l) (hn : l.Nodup) (hf : l.length ≤ n) :
    teNewproc n s p = some { s with mem := tally (· + 1) l s.mem } := by
  induction l generalizing s p n with
  | nil =>
    cases p with
    | none => simp
    | some a => simp [Climb] at hc
  | cons b l ih =>
    cases p with
    | none => simp [Climb] at hc
    | some a =>
      obtain ⟨rfl,hc⟩ := hc
      obtain ⟨k,rfl⟩ : ∃ k, n = k + 1 := ⟨n - 1,by simp at hf; omega⟩
      obtain ⟨ha,hn⟩ := List.nodup_cons.mp hn
      let s1 := s.modify a fun n => { n with nproc := n.nproc + 1 }
      have hc1 : Climb (fun b => (s1.mem b).parent) (s1.mem a).parent l := by
        have hp : (s1.mem a).parent = (s.mem a).parent := by simp [s1]
        rw [hp]
        refine hc.congr fun b hb => ?_
        have hne : b ≠ a := fun h => ha (h ▸ hb)
        simp [s1,modify_mem_of_ne _ _ _ _ hne]
      have e := ih hc1 hn (n := k) (by simpa using hf)
      simp only [teNewproc]
      refine e.trans ?_
      rw [← tally_cons _ ha]
      rfl

theorem teDelproc_eq {s : State} {p : Option Nat} {l : List Nat} {n : Nat}
    (hc : Climb (fun a => (s.mem a).parent) p l) (hn : l.Nodup) (hf : l.length ≤ n)
    (hpos : ∀ b ∈ l, 2 ≤ (s.mem b).nproc ∨ (s.mem b).parent = none) :
    teDelproc n s p = some { s with mem := tally decr l s.mem } := by
  induction l generalizing s p n with
  | nil =>
    cases p with
    | none => simp
    | some a => simp [Climb] at hc
  | cons b l ih =>
    cases p with
    | none => simp [Climb] at hc
    | some a =>
      obtain ⟨rfl,hc⟩ := hc
      obtain ⟨k,rfl⟩ : ∃ k, n = k + 1 := ⟨n - 1,by simp at hf; omega⟩
      obtain ⟨ha,hn⟩ := List.nodup_cons.mp hn
      let s1 := s.modify a fun n => { n with nproc := decr n.nproc }
      have hkeep : ∀ b ∈ l, s1.mem b = s.mem b := fun b hb =>
        modify_mem_of_ne _ _ _ _ fun h => ha (h ▸ hb)
      have hc1 : Climb (fun b => (s1.mem b).parent) (s.mem a).parent l :=
        hc.congr fun b hb => by rw [hkeep b hb]
      have e := ih hc1 hn (n := k) (by simpa using hf) fun b hb => by
        rw [hkeep b hb]; exact hpos b (by simp [hb])
      have estep : teDelproc (k + 1) s (some a) = teDelproc k s1 (s.mem a).parent := by
        rcases hpos a (by simp) with h2 | h2
        · have hne : decr (s.mem a).nproc ≠ 0 := by unfold decr; split <;> omega
          cases hp : (s.mem a).parent <;> simp [teDelproc,hp,hne,s1]
        · simp [teDelproc,h2,s1]
      rw [estep,e,← tally_cons _ ha]
      rfl

theorem counts_tally {C : List Frame} {a : Nat} {m : Nat → Node} {w v : Nat → Nat}
    {f : Nat → Nat} (hn : (Ctx.plug C (.leaf a)).addrs.Nodup)
    (h : (Ctx.plug C (.leaf a)).Forall (Counts m w) none [])
    (hw : ∀ b, b ≠ a → v b = w b) (hwa : v a = f (w a))
    (hf : ∀ k, f (w a + k) = f (w a) + k) :
    (Ctx.plug C (.leaf a)).Forall (Counts (tally f (a :: Ctx.spine C) m) v) none [] := by
  have hd := (Ctx.plug_addrs_perm C (.leaf a)).nodup_iff.mp hn
  simp only [ATree.addrs,List.singleton_append,List.nodup_cons] at hd
  obtain ⟨hC,ha⟩ := Ctx.forall_plug.mp h
  refine Ctx.forall_plug.mpr ⟨?_,?_⟩
  · -- every plugged subtree on the spine weighs what it did, with the leaf's share replaced
    refine Ctx.Forall.imp
      (R := fun y y' => y' = y ∧ ∃ k, y.weight w = w a + k ∧ y.weight v = f (w a) + k)
      ?_ ?_ ?_ ⟨rfl,0,by simp [ATree.weight],by simp [ATree.weight,hwa]⟩ hC
    · rintro g hg y y' ⟨rfl,k,hk,hk'⟩
      have hs : g.sib.weight v = g.sib.weight w := ATree.weight_congr fun b hb => hw b fun hba => by
        subst hba
        exact hd.1 (Ctx.sib_leaf_mem hg hb)
      exact ⟨rfl,k + g.sib.weight w,by rw [Frame.fill_weight]; omega,
        by rw [Frame.fill_weight,hs]; omega⟩
    · rintro g hg par path y y' ⟨rfl,k,hk,hk'⟩ _ hc
      have hs : g.sib.weight v = g.sib.weight w := ATree.weight_congr fun b hb => hw b fun hba => by
        subst hba
        exact hd.1 (Ctx.sib_leaf_mem hg hb)
      simp only [Counts,Frame.fill_addr,Frame.fill_weight] at hc ⊢
      rw [tally_nproc_of_mem _ _ _ _ (by simp [Ctx.spine]; exact Or.inr ⟨g,hg,rfl⟩),hc,hs,hk,hk',
        Nat.add_assoc,hf]
      omega
    · intro g hg path hsib
      refine hsib.imp fun par' path' y hy hyl _ hc => ?_
      have hmem : y.addr ∈ Ctx.addrs C := Ctx.sib_addr_mem hg (hy y.addr_mem_addrs)
      have hnot : y.addr ∉ a :: Ctx.spine C := by
        simp only [List.mem_cons,not_or]
        exact ⟨fun h => hd.1 (h ▸ hmem),Ctx.sib_notMem_spine hd.2 hg (hy y.addr_mem_addrs)⟩
      have hwy : y.weight v = y.weight w := ATree.weight_congr fun b hb => hw b fun hba => by
        subst hba
        exact hd.1 (Ctx.sib_leaf_mem hg (hyl hb))
      simpa only [Counts,tally_of_notMem _ _ _ _ hnot,hwy] using hc
  · simp only [ATree.Forall,Counts,ATree.addr,ATree.weight] at ha ⊢
    rw [tally_nproc_of_mem _ _ _ _ (by simp),ha,hwa]

structure SameButHeight (l : List Nat) (m m' : Nat → Node) : Prop where
  outside : ∀ b, b ∉ l → m' b = m b
  parent : ∀ b, (m' b).parent = (m b).parent
  sub : ∀ b, (m' b).sub = (m b).sub
  rise : ∀ b, (m' b).rise = (m b).rise
  nproc : ∀ b, (m' b).nproc = (m b).nproc
  len : ∀ b, (m' b).len = (m b).len
  bitstr : ∀ b, (m' b).bitstr = (m b).bitstr

theorem SameButHeight.refl (l : List Nat) (m : Nat → Node) : SameButHeight l m m :=
  ⟨fun _ _ => rfl,fun _ => rfl,fun _ => rfl,fun _ => rfl,fun _ => rfl,fun _ => rfl,fun _ => rfl⟩

theorem SameButHeight.links {l : List Nat} {m m' : Nat → Node} (h : SameButHeight l m m') :
    Links m' = Links m := by
  funext par path t
  simp only [Links,h.parent,h.sub]

theorem SameButHeight.cons_of_modify {l : List Nat} {s : State} {m' : Nat → Node} {a h : Nat}
    (hm : SameButHeight l (s.modify a fun n => { n with subheight := h }).mem m') :
    SameButHeight (a :: l) s.mem m' := by
  have hfield : ∀ {α : Type} (φ : Node → α), (∀ n : Node, φ { n with subheight := h } = φ n) →
      ∀ b, φ ((s.modify a fun n => { n with subheight := h }).mem b) = φ (s.mem b) := by
    intro α φ hφ b
    by_cases hb : b = a
    · subst hb; simp [hφ]
    · rw [modify_mem_of_ne _ _ _ _ hb]
  refine ⟨?_,fun b => ?_,fun b => ?_,fun b => ?_,fun b => ?_,fun b => ?_,fun b => ?_⟩
  · intro b hb
    simp only [List.mem_cons,not_or] at hb
    rw [hm.outside b hb.2,modify_mem_of_ne _ _ _ _ hb.1]
  · exact (hm.parent b).trans (hfield Node.parent (fun _ => rfl) b)
  · exact (hm.sub b).trans (hfield Node.sub (fun _ => rfl) b)
  · exact (hm.rise b).trans (hfield Node.rise (fun _ => rfl) b)
  · exact (hm.nproc b).trans (hfield Node.nproc (fun _ => rfl) b)
  · exact (hm.len b).trans (hfield Node.len (fun _ => rfl) b)
  · exact (hm.bitstr b).trans (hfield Node.bitstr (fun _ => rfl) b)

theorem heights_keep {m m' : Nat → Node} {t : ATree} {par : Option Nat} {path : List Bool}
    (h : ∀ b ∈ t.addrs, (m' b).subheight = (m b).subheight) :
    t.Forall (Heights m) par path → t.Forall (Heights m') par path :=
  ATree.Forall.imp fun _ _ y hy _ _ hh => by
    simpa only [Heights,h _ (hy y.addr_mem_addrs)] using hh

theorem ctx_keep {β : Type} {P : (Nat → Node) → Option Nat → List Bool → ATree → Prop}
    {m m' : Nat → Node} {C : List Frame} {t : ATree} (φ : Node → β)
    (hP : ∀ par path (y : ATree), φ (m' y.addr) = φ (m y.addr) → P m par path y → P m' par path y)
    (h : ∀ b ∈ Ctx.addrs C, φ (m' b) = φ (m b)) (hC : Ctx.Forall (P m) C t) :
    Ctx.Forall (P m') C t := by
  refine Ctx.Forall.imp (R := fun y y' => y = y') (by rintro _ _ y _ rfl; rfl) ?_ ?_ rfl hC
  · rintro g hg par path y _ rfl _ hq
    exact hP _ _ _ (by rw [Frame.fill_addr]; exact h _ (Ctx.frame_addr_mem hg)) hq
  · intro g hg path hs
    exact hs.imp fun _ _ y hy _ _ hq =>
      hP _ _ _ (h _ (Ctx.sib_addr_mem hg (hy y.addr_mem_addrs))) hq

theorem deUpdateHeight_step {f : Frame} {C : List Frame} {t : ATree} {s : State}
    (hl : Ctx.Forall (Links s.mem) (f :: C) t) (ht : (s.mem t.addr).subheight = t.height)
    (hsib : (s.mem f.sib.addr).subheight = f.sib.height) (k : Nat) :
    deUpdateHeight (k + 1) s (Ctx.up (f :: C)) =
      if (s.mem f.addr).subheight ≠ (f.fill t).height then
        deUpdateHeight k (s.modify f.addr fun n => { n with subheight := (f.fill t).height })
          (Ctx.up C)
      else some s := by
  obtain ⟨⟨hpar,hsub⟩,_,_⟩ := hl
  simp only [Frame.fill_addr] at hpar hsub
  have hd : (s.mem f.addr).sub f.dir = some t.addr := by
    rw [hsub,Frame.fill_child_dir]
    rfl
  have ho : (s.mem f.addr).sub (!f.dir) = some f.sib.addr := by
    rw [hsub,Frame.fill_child_other]
    rfl
  have hfill : (f.fill t).height = max t.height f.sib.height + 1 := Frame.fill_height f t
  cases hdir : f.dir with
  | false =>
    rw [hdir] at hd ho
    simp only [Bool.not_false] at ho
    simp [deUpdateHeight,Ctx.up,hd,ho,ht,hsib,hfill,hpar]
  | true =>
    rw [hdir] at hd ho
    simp only [Bool.not_true] at ho
    simp [deUpdateHeight,Ctx.up,hd,ho,ht,hsib,hfill,hpar,Nat.max_comm]

theorem deUpdateHeight_spec {C : List Frame} {t t0 : ATree} {s : State} {n : Nat}
    (hl : Ctx.Forall (Links s.mem) C t) (hn : (Ctx.addrs C).Nodup)
    (ht : (s.mem t.addr).subheight = t.height) (h0 : Ctx.Forall (Heights s.mem) C t0)
    (hf : C.length ≤ n) :
    ∃ m', deUpdateHeight n s (Ctx.up C) = some { s with mem := m' } ∧
      SameButHeight (Ctx.spine C) s.mem m' ∧ Ctx.Forall (Heights m') C t := by
  induction C generalizing t t0 s n with
  | nil => exact ⟨s.mem,by simp [Ctx.up],SameButHeight.refl _ _,trivial⟩
  | cons f C ih =>
    obtain ⟨k,rfl⟩ : ∃ k, n = k + 1 := ⟨n - 1,by simp at hf; omega⟩
    obtain ⟨hf0,hsib0,hC0⟩ := h0
    have estep := deUpdateHeight_step hl ht hsib0.head k
    simp only [Heights,Frame.fill_addr] at hf0
    simp only [Ctx.addrs,List.cons_append,List.nodup_cons,List.nodup_append',List.mem_append,
      not_or] at hn
    by_cases heq : (s.mem f.addr).subheight = (f.fill t).height
    · -- the walk stops: above this node nothing sees the change
      refine ⟨s.mem,by rw [estep]; simp [heq],SameButHeight.refl _ _,?_,hsib0,?_⟩
      · simpa only [Heights,Frame.fill_addr] using heq
      · refine Ctx.Forall.imp (R := fun y y' => y.height = y'.height) ?_ ?_ (fun _ _ _ h => h)
          (hf0.symm.trans heq) hC0
        · intro g _ y y' hy
          simp only [Frame.fill_height,hy]
        · intro g _ par path y y' hy _ hg
          simpa only [Heights,Frame.fill_addr,Frame.fill_height,hy] using hg
    · let s1 := s.modify f.addr fun n => { n with subheight := (f.fill t).height }
      have hkeep : ∀ b ∈ Ctx.addrs C, s1.mem b = s.mem b := fun b hb =>
        modify_mem_of_ne _ _ _ _ fun h => hn.1.2 (h ▸ hb)
      have hl1 : Ctx.Forall (Links s1.mem) C (f.fill t) :=
        ctx_keep id (fun _ _ y (hy : s1.mem y.addr = s.mem y.addr) hq => by
          simpa only [Links,hy] using hq) hkeep hl.2.2
      have h01 : Ctx.Forall (Heights s1.mem) C (f.fill t0) :=
        ctx_keep id (fun _ _ y (hy : s1.mem y.addr = s.mem y.addr) hq => by
          simpa only [Heights,hy] using hq) hkeep hC0
      obtain ⟨m',e,hsame,hh⟩ := ih hl1 hn.2.2.1 (by simp [s1]) h01 (n := k)
        (by simpa using hf)
      have hnotC : f.addr ∉ Ctx.spine C := fun h => hn.1.2 (Ctx.spine_subset_addrs C _ h)
      refine ⟨m',?_,?_,?_,?_,hh⟩
      · rw [estep,if_pos heq,e]
        rfl
      · exact hsame.cons_of_modify
      · simp only [Heights,Frame.fill_addr]
        rw [hsame.outside _ hnotC]
        simp [s1]
      · refine heights_keep (fun b hb => ?_) hsib0
        have hb1 : b ∉ Ctx.spine C := fun h => hn.2.2.2 hb (Ctx.spine_subset_addrs C _ h)
        have hb2 : b ≠ f.addr := fun h => hn.1.1 (h ▸ hb)
        rw [hsame.outside _ hb1,modify_mem_of_ne _ _ _ _ hb2]

end ViewOS.Treepoch
