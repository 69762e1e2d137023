import ViewOS.Treepoch.Wellformed

namespace ViewOS.Treepoch
open AddrTree Transition

def Paths (s : State) : Prop :=
  ∀ path a, Reached s path a → (s.mem a).len = path.length ∧
    ∀ i v, path[i]? = some v → (s.mem a).bitstr.getLsbD i = v

instance (n : Node) : Decidable (IsLeaf n) := inferInstanceAs (Decidable (_ ∧ _))

def straight (m : Nat → Node) (x : Bool) : Nat → Nat → Bool
  | 0, _ => true
  | fuel + 1, b =>
    match (m b).sub x, (m b).sub (!x) with
    | some c, some d => decide (IsLeaf (m d)) && straight m x fuel c
    | _, _ => true

def side (m : Nat → Node) (p a : Nat) : Bool := (m p).sub true = some a

def dying (σ : Sys) (p : Nat) : Option (Nat × Nat) := do
  let a ← (σ.tst p).treepoch
  let par ← (σ.te.mem a).parent
  if (σ.te.mem a).nproc = 1 then some (a, par) else none

def keepsPaths (depth : Nat) (σ : Sys) : Op → Bool
  | .pcbNewfork p =>
    match (σ.tst p).treepoch with
    | some a => (σ.te.mem a).nproc = 1 || (σ.te.mem a).len < depth
    | none => true
  | .pcbMinus p =>
    match dying σ p with
    | some (a, par) =>
      match (σ.te.mem par).sub (!side σ.te.mem par a) with
      | some b => straight σ.te.mem (!side σ.te.mem par a) σ.te.next b
      | none => true
    | none => true
  | _ => true

def Straight (x : Bool) (t : ATree) : Prop :=
  ∀ q a l r, t.get q = some (.node a l r) → ∀ v ∈ q, v = x

theorem straight_sound {m : Nat → Node} {x : Bool} {t : ATree} {par : Option Nat} {path : List Bool}
    {fuel : Nat} (hl : t.Forall (Links m) par path) (hf : t.height ≤ fuel)
    (h : straight m x fuel t.addr = true) : Straight x t := by
  induction t generalizing par path fuel with
  | leaf a =>
    intro q b l r hq
    cases q <;> simp [ATree.get] at hq
  | node a l r ihl ihr =>
    obtain ⟨k,rfl⟩ : ∃ k, fuel = k + 1 := ⟨fuel - 1,by simp [ATree.height] at hf; omega⟩
    obtain ⟨⟨-,hs⟩,hll,hlr⟩ := hl
    have hsl : (m a).sub false = some l.addr := hs false
    have hsr : (m a).sub true = some r.addr := hs true
    simp only [ATree.height] at hf
    have hoff : ∀ {t' : ATree} {p' : List Bool}, t'.Forall (Links m) (some a) p' →
        IsLeaf (m t'.addr) → ∃ b, t' = .leaf b := by
      intro t' p' ht hleaf
      have hc := ht.head.2 false
      rw [hleaf.1] at hc
      cases t' with
      | leaf b => exact ⟨b,rfl⟩
      | node b u v => simp [ATree.child] at hc
    intro q b u v hq w hw
    cases x with
    | false =>
      have hx : IsLeaf (m r.addr) ∧ straight m false k l.addr = true := by
        simpa [straight,ATree.addr,hsl,hsr] using h
      obtain ⟨c,rfl⟩ := hoff hlr hx.1
      cases q with
      | nil => simp at hw
      | cons d q =>
        cases d with
        | false =>
          rcases List.mem_cons.mp hw with rfl | hw
          · rfl
          · exact ihl hll (by omega) hx.2 q b u v hq w hw
        | true => cases q <;> simp [ATree.get] at hq
    | true =>
      have hx : IsLeaf (m l.addr) ∧ straight m true k r.addr = true := by
        simpa [straight,ATree.addr,hsl,hsr] using h
      obtain ⟨c,rfl⟩ := hoff hll hx.1
      cases q with
      | nil => simp at hw
      | cons d q =>
        cases d with
        | false => cases q <;> simp [ATree.get] at hq
        | true =>
          rcases List.mem_cons.mp hw with rfl | hw
          · rfl
          · exact ihr hlr (by omega) hx.2 q b u v hq w hw

def Spells (v : BitVec 64) (path : List Bool) : Prop := ∀ i b, path[i]? = some b → v.getLsbD i = b

theorem Spells.of_append {v : BitVec 64} {p q : List Bool} (h : Spells v (p ++ q)) : Spells v p := by
  intro i b hi
  refine h i b ?_
  rw [List.getElem?_append_left (List.getElem?_eq_some_iff.mp hi).1]
  exact hi

theorem Spells.setbit {v : BitVec 64} {p : List Bool} (h : Spells v p) (hp : p.length < 32)
    (u : Bool) : Spells (setbit v p.length u) (p ++ [u]) := by
  intro i b hi
  have hlt := (List.getElem?_eq_some_iff.mp hi).1
  simp only [List.length_append,List.length_singleton] at hlt
  by_cases hip : i < p.length
  · rw [getLsbD_setbit_lt u hp hip]
    rw [List.getElem?_append_left hip] at hi
    exact h i b hi
  · obtain rfl : i = p.length := by omega
    rw [getLsbD_setbit_self u hp]
    simpa using hi

section Keep

variable {s s' : State} {C : List Frame} {a : Nat}

theorem bits_fork (h : (Ctx.plug C (.leaf a)).Forall (Bits s.mem) none [])
    (he : ForkEffect s s' C a) (hlen : C.length < 32) :
    (Ctx.plug C (forkTree s a)).Forall (Bits s'.mem) none [] := by
  obtain ⟨hC,hleaf⟩ := Ctx.forall_plug.mp h
  have hold : Spells (s.mem a).bitstr (Ctx.path C) := hleaf
  have hnew := fun u => hold.setbit (by simpa using hlen) u
  simp only [Ctx.path_length] at hnew
  refine Ctx.forall_plug.mpr ⟨bits_rehang he.bits_ctx hC,?_,?_,?_⟩
  · change Spells (s'.mem (s.next + 1)).bitstr _
    rw [he.bits_par]
    exact hold
  · change Spells (s'.mem a).bitstr _
    rw [he.bits_old]
    exact hnew false
  · change Spells (s'.mem s.next).bitstr _
    rw [he.bits_new]
    exact hnew true

theorem bits_collapse {f : Frame} (h : (Ctx.plug (f :: C) (.leaf a)).Forall (Bits s.mem) none [])
    (he : Collapse s s' f C a) (hst : Straight (!f.dir) f.sib)
    (hh : (Ctx.plug (f :: C) (.leaf a)).height ≤ 32) :
    (Ctx.plug C f.sib).Forall (Bits s'.mem) none [] := by
  obtain ⟨⟨hpar,hsib,hC⟩,-⟩ := Ctx.forall_plug.mp h
  refine Ctx.forall_plug.mpr ⟨bits_rehang he.bits_ctx hC,ATree.forall_of_get ?_⟩
  intro q y par hy
  change Spells (s'.mem y.addr).bitstr _
  rcases List.eq_nil_or_concat q with rfl | ⟨q,v,rfl⟩
  · obtain rfl : f.sib = y := by simpa [ATree.get] using hy
    rw [he.bits_survivor,List.append_nil]
    simpa [Bits,Spells,Frame.fill_addr] using hpar
  · -- above its last step the old path of this node is one straight line
    rw [List.concat_eq_append] at hy ⊢
    obtain ⟨b,l,r,hq⟩ := ATree.get_parent hy
    have hline : q = List.replicate q.length (!f.dir) :=
      List.eq_replicate_of_mem (hst q b l r hq)
    obtain ⟨_,hbelow⟩ := he.bits_below.get hy
    obtain ⟨_,hsib⟩ := hsib.get hy
    have hold : Spells (s.mem y.addr).bitstr ((Ctx.path C ++ [!f.dir]) ++ (q ++ [v])) := hsib.head
    have hprefix : Spells (s.mem y.addr).bitstr (Ctx.path C ++ q) := by
      have hshift : [!f.dir] ++ q = q ++ [!f.dir] := by
        rw [hline]
        simp [← List.replicate_succ,← List.replicate_succ']
      rw [List.append_assoc,← List.append_assoc [!f.dir],hshift,List.append_assoc,
        ← List.append_assoc] at hold
      exact hold.of_append
    have hlen : (Ctx.path C ++ q).length < 32 := by
      have hget : ((Ctx.plug (f :: C) (.leaf a)).get (Ctx.path C ++ ((!f.dir) :: (q ++ [v])))).isSome := by
        rw [Ctx.plug,Ctx.get_plug,Frame.fill_get_other,hy]
        rfl
      have := ATree.length_le_height hget
      simp only [List.length_append,List.length_cons,List.length_nil,Ctx.path_length] at this ⊢
      omega
    have hset : (s'.mem y.addr).bitstr =
        setbit (s.mem y.addr).bitstr (Ctx.path C ++ q).length v := by
      have e := hbelow.head v (by simp)
      simpa [← Nat.add_assoc] using e
    rw [hset,← List.append_assoc]
    exact hprefix.setbit hlen v

end Keep

structure PathInv (depth : Nat) (σ : Sys) (T : ATree) : Prop where
  inv : Inv σ T
  bits : T.Forall (Bits σ.te.mem) none []
  height : T.height ≤ depth

theorem side_eq {s : State} {f : Frame} {C : List Frame} {a : Nat}
    (h : Rep s (Ctx.plug (f :: C) (.leaf a))) : side s.mem f.addr a = f.dir := by
  obtain ⟨-,hd,ho,-⟩ := h.parent_node
  have hne : f.sib.addr ≠ a := fun he => h.removal_nodup.1 (he ▸ f.sib.addr_mem_addrs)
  unfold side
  cases hdir : f.dir with
  | false =>
    rw [hdir,Bool.not_false] at ho
    simpa [ho] using hne
  | true =>
    rw [hdir] at hd
    simp [hd]

theorem dying_eq {σ : Sys} {p a : Nat} {f : Frame} {C : List Frame}
    (h : Inv σ (Ctx.plug (f :: C) (.leaf a))) (ha : σ.tst p = ⟨(σ.tst p).epoch, some a⟩)
    (h1 : occupancy σ a = 1) : dying σ p = some (a, f.addr) := by
  have hta : (σ.tst p).treepoch = some a := by rw [ha]
  have hpar : (σ.te.mem a).parent = some f.addr := (Ctx.forall_plug.mp h.rep.links).2.1
  have hn : (σ.te.mem a).nproc = 1 := (leaf_nproc h.counts).trans h1
  simp [dying,hta,hpar,hn]

theorem straight_of_keeps {depth : Nat} {σ : Sys} {p a : Nat} {f : Frame} {C : List Frame}
    (h : Inv σ (Ctx.plug (f :: C) (.leaf a))) (ha : σ.tst p = ⟨(σ.tst p).epoch, some a⟩)
    (h1 : occupancy σ a = 1) (hk : keepsPaths depth σ (.pcbMinus p) = true) :
    Straight (!f.dir) f.sib := by
  obtain ⟨-,-,ho,-⟩ := h.rep.parent_node
  have hst : straight σ.te.mem (!f.dir) σ.te.next f.sib.addr = true := by
    simpa [keepsPaths,dying_eq h ha h1,side_eq h.rep,ho] using hk
  have hheight : f.sib.height ≤ σ.te.next := by
    have hlen := length_le_of_nodup h.rep.removal_nodup.2.2.2.2.2.1 fun b hb =>
      h.rep.bound_ctx b (by simp [Ctx.addrs,hb])
    have := f.sib.height_lt_length
    omega
  exact straight_sound (Ctx.forall_plug.mp h.rep.links).1.2.1 hheight hst

theorem PathInv.effect {depth : Nat} {σ σ' : Sys} {T T' : ATree} {op : Op}
    (hdepth : depth ≤ 32) (h : PathInv depth σ T) (he : Effect σ T op σ' T')
    (hk : keepsPaths depth σ op = true) : PathInv depth σ' T' := by
  obtain ⟨hi,hb,hh⟩ := h
  have hi' := he.inv hi
  cases he with
  | enter => exact ⟨hi',hb.imp fun _ _ y _ _ _ hy => by simpa only [Bits,tally_bitstr] using hy,hh⟩
  | noFork => exact ⟨hi,hb,hh⟩
  | @split p a C te hp ha h1 hlen he =>
    have hta : (σ.tst p).treepoch = some a := by rw [ha]
    have hn : (σ.te.mem a).nproc ≠ 1 := fun e => h1 ((leaf_nproc hi.counts).symm.trans e)
    have hl : (σ.te.mem a).len = C.length := by
      have hd := (Ctx.forall_plug.mp hi.rep.depths).2.1
      rwa [Ctx.path_length] at hd
    have hlen : C.length < depth := by simpa [keepsPaths,hta,hn,hl] using hk
    refine ⟨hi',bits_fork hb he (by omega),Ctx.plug_height_le hh ?_⟩
    simp only [forkTree,ATree.height]
    omega
  | leave => exact ⟨hi',hb.imp fun _ _ y _ _ _ hy => by simpa only [Bits,tally_bitstr] using hy,hh⟩
  | collapse hp ha h1 he =>
    exact ⟨hi',bits_collapse hb he (straight_of_keeps hi ha h1 hk) (Nat.le_trans hh hdepth),
      Nat.le_trans (Ctx.plug_collapse_height _ _ _) hh⟩
  | syscall => exact ⟨hi',hb,hh⟩
  | addService => exact ⟨hi',hb,hh⟩
  | matching => exact ⟨hi',hb,hh⟩

theorem pathInv_root {depth : Nat} {σ : Sys} {a : Nat} (h : Inv σ (.leaf a)) :
    PathInv depth σ (.leaf a) :=
  ⟨h,by simp [ATree.Forall,Bits],by simp [ATree.height]⟩

theorem pathInv_of_run {σ : Sys} (h : Run step (fun σ op => keepsPaths 32 σ op = true) Sys.empty σ) :
    σ.te.teRoot = none ∧ σ.live = ∅ ∨ ∃ T, PathInv 32 σ T := by
  refine h.invariant (I := fun σ => σ.te.teRoot = none ∧ σ.live = ∅ ∨ ∃ T, PathInv 32 σ T) ?_
    (Or.inl ⟨rfl,rfl⟩)
  rintro σ op σ' (⟨hroot,hlive⟩ | ⟨T,h⟩) hk hs
  · obtain ⟨p,-,-,h'⟩ := step_root hroot hlive hs
    exact Or.inr ⟨_,pathInv_root h'⟩
  · obtain ⟨T',he⟩ := effect_of_step h.inv hs
    exact Or.inr ⟨T',h.effect (Nat.le_refl _) he hk⟩

theorem paths_of_run {σ : Sys} (h : Run step (fun σ op => keepsPaths 32 σ op = true) Sys.empty σ) :
    Paths σ.te := by
  intro path a ha
  rcases pathInv_of_run h with ⟨hroot,-⟩ | ⟨T,hi,hb,-⟩
  · obtain ⟨root,hr,-⟩ := ha
    simp [hroot] at hr
  · obtain ⟨y,hy,rfl⟩ := hi.rep.reached.mp ha
    obtain ⟨_,hd⟩ := hi.rep.depths.get hy
    obtain ⟨_,hs⟩ := hb.get hy
    exact ⟨by simpa using hd.head.1,by simpa [Bits] using hs.head⟩

theorem twoViews_paths : (exec step Sys.empty twoViews).isSome ∧
    ∀ σ, exec step Sys.empty twoViews = some σ → Paths σ.te :=
  ⟨rfl,fun _ h => paths_of_run (Run.of_exec h (by decide))⟩

def liftedView : List Op :=
  [.pcbPlusRoot 1, .pcbPlus 1 2, .pcbPlus 1 3, .pcbNewfork 2, .pcbNewfork 3, .pcbPlus 3 4,
    .pcbNewfork 4, .pcbMinus 2]

theorem liftedView_path : ∃ σ, Run step (fun _ _ => True) Sys.empty σ ∧ ¬ Paths σ.te := by
  have h : (exec step Sys.empty liftedView).any fun σ => σ.te.teRoot.any fun root =>
      (follow σ.te.mem root [true,false]).any fun a => !(σ.te.mem a).bitstr.getLsbD 0 := by
    decide
  obtain ⟨σ,hσ,h⟩ := (Option.any_eq_true _ _).mp h
  obtain ⟨root,hroot,h⟩ := (Option.any_eq_true _ _).mp h
  obtain ⟨a,ha,h⟩ := (Option.any_eq_true _ _).mp h
  refine ⟨σ,Run.of_exec hσ (by decide),fun hp => ?_⟩
  have hbit := (hp [true,false] a ⟨root,hroot,ha⟩).2 0 true rfl
  simp only [hbit,Bool.not_true,Bool.false_eq_true] at h

end ViewOS.Treepoch
