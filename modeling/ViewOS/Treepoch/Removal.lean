import ViewOS.Treepoch.Rep

namespace ViewOS.Treepoch
open AddrTree

section LinkSurvivor

variable {s : State} {a p other : Nat}

structure RemovalSite (s : State) (a p other : Nat) : Prop where
  a_p : a ≠ p
  a_other : a ≠ other
  p_other : p ≠ other
  up_ne : ∀ g ∈ (s.mem p).parent, g ≠ a ∧ g ≠ p ∧ g ≠ other

theorem linkSurvivor_mem_other (h : RemovalSite s a p other) :
    (linkSurvivor s a p other).mem other =
      { s.mem other with parent := (s.mem p).parent, rise := (s.mem p).rise, len := (s.mem p).len,
                         bitstr := (s.mem p).bitstr } := by
  obtain ⟨h1,h2,h3,h4⟩ := h
  cases hp : (s.mem p).parent with
  | none => simp [linkSurvivor,State.modify,h2.symm,h3,hp]
  | some g =>
    obtain ⟨g1,g2,g3⟩ := h4 g (by simp [hp])
    simp [linkSurvivor,State.modify,h2.symm,h3,hp,g3.symm,g2.symm]

theorem linkSurvivor_mem_leaf (h : RemovalSite s a p other) :
    (linkSurvivor s a p other).mem a = { s.mem a with parent := some other, viewname := none } := by
  obtain ⟨h1,h2,h3,h4⟩ := h
  cases hp : (s.mem p).parent with
  | none => simp [linkSurvivor,State.modify,h2,h3,hp]
  | some g =>
    obtain ⟨g1,g2,g3⟩ := h4 g (by simp [hp])
    simp [linkSurvivor,State.modify,h2,h3,hp,g1.symm]

theorem linkSurvivor_mem_up (h : RemovalSite s a p other) {g : Nat} (hg : (s.mem p).parent = some g) :
    (linkSurvivor s a p other).mem g =
      { s.mem g with
        sub := Function.update (s.mem g).sub (getbit (s.mem p).bitstr ((s.mem p).len - 1))
          (some other) } := by
  obtain ⟨h1,h2,h3,h4⟩ := h
  obtain ⟨g1,g2,g3⟩ := h4 g hg
  simp [linkSurvivor,State.modify,h3,hg,g1,g3]

theorem linkSurvivor_mem_rest {b : Nat} (hb : b ≠ a ∧ b ≠ other) (hg : b ∉ (s.mem p).parent) :
    (linkSurvivor s a p other).mem b = s.mem b := by
  obtain ⟨b1,b2⟩ := hb
  cases hp : (s.mem p).parent with
  | none => simp [linkSurvivor,State.modify,hp,b1,b2]
  | some g =>
    have hbg : b ≠ g := by
      rintro rfl
      exact hg (by simp [hp])
    simp [linkSurvivor,State.modify,hp,b1,b2,hbg]

theorem linkSurvivor_teRoot :
    (linkSurvivor s a p other).teRoot = if (s.mem p).parent = none then some other else s.teRoot := by
  cases hp : (s.mem p).parent <;> simp [linkSurvivor,State.modify,hp]

theorem linkSurvivor_scalars :
    (linkSurvivor s a p other).next = s.next ∧
      (linkSurvivor s a p other).epochNow = s.epochNow := by
  unfold linkSurvivor
  dsimp only
  split <;> exact ⟨rfl,rfl⟩

end LinkSurvivor

def relabelSubs (d : Nat) : ATree → (Nat → Node) → Nat → Node
  | .leaf _, m => m
  | .node _ l r, m => relabel d true r (relabel d false l m)

section RelabelSubs

variable (d : Nat) (t : ATree) (m : Nat → Node)

@[simp] theorem relabelSubs_kept (b : Nat) :
    (relabelSubs d t m b).parent = (m b).parent ∧ (relabelSubs d t m b).sub = (m b).sub ∧
      (relabelSubs d t m b).rise = (m b).rise ∧ (relabelSubs d t m b).nproc = (m b).nproc ∧
      (relabelSubs d t m b).subheight = (m b).subheight := by
  cases t <;> simp [relabelSubs]

variable {t}

theorem relabelSubs_root (hn : t.addrs.Nodup) : relabelSubs d t m t.addr = m t.addr := by
  cases t with
  | leaf a => rfl
  | node a l r =>
    simp only [ATree.addrs,List.nodup_cons,List.mem_append,not_or] at hn
    simp [relabelSubs,ATree.addr,relabel_of_notMem hn.1.1,relabel_of_notMem hn.1.2]

theorem relabelSubs_of_notMem {b : Nat} (hb : b ∉ t.addrs) : relabelSubs d t m b = m b := by
  cases t with
  | leaf a => rfl
  | node a l r =>
    simp only [ATree.addrs,List.mem_cons,List.mem_append,not_or] at hb
    simp [relabelSubs,relabel_of_notMem hb.2.1,relabel_of_notMem hb.2.2]

theorem deUpdateSubstr_subs {s : State} {fuel : Nat} {par : Option Nat} {path : List Bool}
    (hl : t.Forall (Links s.mem) par path) (hn : t.addrs.Nodup) (hf : t.height ≤ fuel) :
    ((deUpdateSubstr fuel s ((s.mem t.addr).sub false) false).bind fun s' =>
      deUpdateSubstr fuel s' ((s'.mem t.addr).sub true) true) =
      some { s with mem := relabelSubs (s.mem t.addr).len t s.mem } := by
  cases t with
  | leaf a =>
    have hs := hl.2
    simp only [ATree.addr,ATree.child,Option.map_none] at hs
    simp [ATree.addr,hs,relabelSubs]
  | node a l r =>
    obtain ⟨⟨-,hs⟩,hll,hlr⟩ := hl
    have hsl : (s.mem a).sub false = some l.addr := by simpa [ATree.child,ATree.addr] using hs false
    have hsr : (s.mem a).sub true = some r.addr := by simpa [ATree.child,ATree.addr] using hs true
    simp only [ATree.addrs,List.nodup_cons,List.mem_append,not_or,List.nodup_append'] at hn
    simp only [ATree.height] at hf
    have el := deUpdateSubstr_eq (n := fuel) false hll hn.2.1 hn.1.1 (by omega)
    let s1 : State := { s with mem := relabel (s.mem a).len false l s.mem }
    have h1 : s1.mem a = s.mem a := relabel_of_notMem hn.1.1 _ _ _
    have hlr1 : r.Forall (Links s1.mem) (some a) (path ++ [true]) := by
      refine hlr.imp fun _ _ y _ _ _ hlk => ?_
      simpa only [Links,s1,relabel_kept] using hlk
    have er := deUpdateSubstr_eq (n := fuel) true hlr1 hn.2.2.1 hn.1.2 (by omega)
    change ((deUpdateSubstr fuel s ((s.mem a).sub false) false).bind fun s' =>
      deUpdateSubstr fuel s' ((s'.mem a).sub true) true) = _
    rw [hsl,el]
    change deUpdateSubstr fuel s1 ((s1.mem a).sub true) true = _
    rw [h1,hsr,er,h1]
    rfl

theorem relabelSubs_bitstr {n : Nat → Node} (hn : t.addrs.Nodup)
    (hm : ∀ b ∈ t.addrs, b ≠ t.addr → (m b).bitstr = (n b).bitstr) (par : Option Nat) :
    t.Forall (fun _ q y => ∀ u ∈ q.getLast?,
      (relabelSubs d t m y.addr).bitstr = setbit (n y.addr).bitstr (d + q.length - 1) u) par [] := by
  cases t with
  | leaf a => simp [ATree.Forall]
  | node a l r =>
    simp only [ATree.addrs,List.nodup_cons,List.mem_append,not_or,List.nodup_append'] at hn
    refine ⟨by simp,?_,?_⟩
    · refine (relabel_bitstr hn.2.1 d d false m (some a) (q := []) (by simp)).imp ?_
      intro par' path' y hy _ _ hd u hu
      have hyl := hy y.addr_mem_addrs
      have hb : y.addr ∉ r.addrs := fun h => hn.2.2.2 hyl h
      have hba : y.addr ≠ a := fun h => hn.1.1 (h ▸ hyl)
      rw [← hm y.addr (by simp [ATree.addrs,hyl]) hba]
      simpa only [relabelSubs,relabel_of_notMem hb] using hd u hu
    · refine (relabel_bitstr hn.2.2.1 d d true (relabel d false l m) (some a) (q := [])
        (by simp)).imp ?_
      intro par' path' y hy _ _ hd u hu
      have hyr := hy y.addr_mem_addrs
      have hb : y.addr ∉ l.addrs := fun h => hn.2.2.2 h hyr
      have hba : y.addr ≠ a := fun h => hn.1.2 (h ▸ hyr)
      rw [← hm y.addr (by simp [ATree.addrs,hyr]) hba]
      simpa only [relabelSubs,relabel_of_notMem hb] using hd u hu

end RelabelSubs

def removeMem (s : State) (f : Frame) (C : List Frame) (a : Nat) : Nat → Node :=
  relabelSubs C.length f.sib (linkSurvivor s a f.addr f.sib.addr).mem

section RemoveMem

variable {s : State} {f : Frame} {C : List Frame} {a : Nat}

theorem Rep.removal_nodup (h : Rep s (Ctx.plug (f :: C) (.leaf a))) :
    a ∉ f.sib.addrs ∧ a ≠ f.addr ∧ a ∉ Ctx.addrs C ∧ f.addr ∉ f.sib.addrs ∧
      f.addr ∉ Ctx.addrs C ∧ f.sib.addrs.Nodup ∧ (Ctx.addrs C).Nodup ∧
      f.sib.addrs.Disjoint (Ctx.addrs C) := by
  obtain ⟨-,hC,hd⟩ := h.ctx_nodup
  have ha : a ∉ Ctx.addrs (f :: C) := fun hm => hd (by simp [ATree.addrs]) hm
  simp only [Ctx.addrs,List.cons_append,List.mem_cons,List.mem_append,not_or] at ha
  simp only [Ctx.addrs,List.cons_append,List.nodup_cons,List.nodup_append',List.mem_append,
    not_or] at hC
  exact ⟨ha.2.1,ha.1,ha.2.2,hC.1.1,hC.1.2,hC.2.1,hC.2.2.1,hC.2.2.2⟩

theorem Rep.parent_node (h : Rep s (Ctx.plug (f :: C) (.leaf a))) :
    (s.mem f.addr).parent = Ctx.up C ∧ (s.mem f.addr).sub f.dir = some a ∧
      (s.mem f.addr).sub (!f.dir) = some f.sib.addr ∧ (s.mem f.addr).len = C.length ∧
      ∀ b ∈ (Ctx.path C).getLast?, getbit (s.mem f.addr).bitstr (C.length - 1) = b := by
  obtain ⟨⟨hpar,hsub⟩,-⟩ := (Ctx.forall_plug.mp h.links).1
  obtain ⟨⟨hlen,hbit⟩,-⟩ := (Ctx.forall_plug.mp h.depths).1
  simp only [Frame.fill_addr,Ctx.path_length] at hpar hsub hlen hbit
  refine ⟨hpar,?_,?_,hlen,hbit⟩
  · rw [hsub,Frame.fill_child_dir]
    rfl
  · rw [hsub,Frame.fill_child_other]
    rfl

theorem Rep.removalSite (h : Rep s (Ctx.plug (f :: C) (.leaf a))) :
    RemovalSite s a f.addr f.sib.addr := by
  obtain ⟨h1,h2,h3,h4,h5,-,-,h8⟩ := h.removal_nodup
  refine ⟨h2,?_,?_,?_⟩
  · rintro he
    exact h1 (he ▸ f.sib.addr_mem_addrs)
  · rintro he
    exact h4 (he ▸ f.sib.addr_mem_addrs)
  · intro g hg
    rw [h.parent_node.1] at hg
    have hgC := Ctx.up_mem hg
    exact ⟨fun he => h3 (he ▸ hgC),fun he => h5 (he ▸ hgC),
      fun he => h8 f.sib.addr_mem_addrs (he ▸ hgC)⟩

theorem removeMem_survivor (h : Rep s (Ctx.plug (f :: C) (.leaf a))) :
    removeMem s f C a f.sib.addr =
      { s.mem f.sib.addr with
        parent := Ctx.up C, rise := (s.mem f.addr).rise, len := C.length,
        bitstr := (s.mem f.addr).bitstr } := by
  obtain ⟨hpar,-,-,hlen,-⟩ := h.parent_node
  rw [removeMem,relabelSubs_root _ _ h.removal_nodup.2.2.2.2.2.1,
    linkSurvivor_mem_other h.removalSite,hpar,hlen]

theorem removeMem_leaf (h : Rep s (Ctx.plug (f :: C) (.leaf a))) :
    removeMem s f C a a = { s.mem a with parent := some f.sib.addr, viewname := none } := by
  rw [removeMem,relabelSubs_of_notMem _ _ h.removal_nodup.1,linkSurvivor_mem_leaf h.removalSite]

theorem removeMem_up {g : Frame} {D : List Frame}
    (h : Rep s (Ctx.plug (f :: g :: D) (.leaf a))) :
    removeMem s f (g :: D) a g.addr =
      { s.mem g.addr with
        sub := Function.update (s.mem g.addr).sub g.dir (some f.sib.addr) } := by
  obtain ⟨hpar,-,-,hlen,hbit⟩ := h.parent_node
  obtain ⟨-,-,-,-,-,-,-,h8⟩ := h.removal_nodup
  have hnot : g.addr ∉ f.sib.addrs := fun hm => h8 hm (by simp [Ctx.addrs])
  rw [removeMem,relabelSubs_of_notMem _ _ hnot,linkSurvivor_mem_up h.removalSite hpar,hlen,
    hbit g.dir (by simp [Ctx.path])]

theorem removeMem_rest (h : Rep s (Ctx.plug (f :: C) (.leaf a))) {b : Nat} (hb : b ∉ f.sib.addrs)
    (hba : b ≠ a) (hup : b ∉ Ctx.up C) : removeMem s f C a b = s.mem b := by
  rw [removeMem,relabelSubs_of_notMem _ _ hb,linkSurvivor_mem_rest ⟨hba,?_⟩ ?_]
  · rintro rfl
    exact hb f.sib.addr_mem_addrs
  · rwa [h.parent_node.1]

theorem removeMem_ctx (h : Rep s (Ctx.plug (f :: C) (.leaf a))) {b : Nat} (hb : b ∈ Ctx.addrs C) :
    ∃ sub, removeMem s f C a b = { s.mem b with sub := sub } ∧
      (b ∉ Ctx.up C → sub = (s.mem b).sub) := by
  obtain ⟨-,-,h3,-,-,-,-,h8⟩ := h.removal_nodup
  by_cases hup : b ∈ Ctx.up C
  · cases C with
    | nil => simp [Ctx.up] at hup
    | cons g D =>
      obtain rfl : g.addr = b := by simpa [Ctx.up] using hup
      exact ⟨_,removeMem_up h,fun hn => absurd hup hn⟩
  · exact ⟨_,removeMem_rest h (fun hm => h8 hm hb) (fun he => h3 (he ▸ hb)) hup,fun _ => rfl⟩

theorem linkSurvivor_inner (h : Rep s (Ctx.plug (f :: C) (.leaf a))) {b : Nat}
    (hb : b ∈ f.sib.addrs) (hne : b ≠ f.sib.addr) :
    (linkSurvivor s a f.addr f.sib.addr).mem b = s.mem b := by
  obtain ⟨h1,-,-,-,-,-,-,h8⟩ := h.removal_nodup
  refine linkSurvivor_mem_rest ⟨fun he => h1 (he ▸ hb),hne⟩ ?_
  rw [h.parent_node.1]
  exact fun hg => h8 hb (Ctx.up_mem hg)

theorem removeMem_inner (h : Rep s (Ctx.plug (f :: C) (.leaf a))) {b : Nat} (hb : b ∈ f.sib.addrs)
    (hne : b ≠ f.sib.addr) :
    (removeMem s f C a b).parent = (s.mem b).parent ∧ (removeMem s f C a b).sub = (s.mem b).sub ∧
      (removeMem s f C a b).subheight = (s.mem b).subheight := by
  simp only [removeMem,relabelSubs_kept,linkSurvivor_inner h hb hne,and_self]

end RemoveMem

structure Removed (s : State) (f : Frame) (C : List Frame) (a : Nat) (m' : Nat → Node) : Prop where
  same : SameButHeight (Ctx.spine C) (removeMem s f C a) m'
  heights : Ctx.Forall (Heights m') C f.sib

section RemoveRun

variable {s : State} {f : Frame} {C : List Frame} {a : Nat}

theorem removeMem_ctx_links (h : Rep s (Ctx.plug (f :: C) (.leaf a))) :
    Ctx.Forall (Links (removeMem s f C a)) C f.sib := by
  refine links_rehang h.removal_nodup.2.2.2.2.2.2.1 (Ctx.forall_plug.mp h.links).1.2.2 ?_ ?_ ?_
  · intro b hb
    obtain ⟨sub,e,-⟩ := removeMem_ctx h hb
    rw [e]
  · intro b hb hb'
    obtain ⟨sub,e,hs⟩ := removeMem_ctx h hb
    rw [e]
    exact hs hb'
  · rintro g D rfl
    rw [removeMem_up h]

theorem removeMem_sib_links (h : Rep s (Ctx.plug (f :: C) (.leaf a))) :
    f.sib.Forall (Links (removeMem s f C a)) (Ctx.up C) (Ctx.path C) := by
  have hl := (Ctx.forall_plug.mp h.links).1.2.1
  have hn := h.removal_nodup.2.2.2.2.2.1
  have hroot : Links (removeMem s f C a) (Ctx.up C) (Ctx.path C) f.sib := by
    refine ⟨?_,fun b => ?_⟩
    · rw [removeMem_survivor h]
    · rw [removeMem_survivor h]
      exact hl.head.2 b
  refine ATree.Forall.move hn hroot (fun b p p' y _ hy hne hlk => ?_) hl
  obtain ⟨e1,e2,-⟩ := removeMem_inner h (hy y.addr_mem_addrs) hne
  simpa only [Links,e1,e2] using hlk

theorem removeLeaf_run (h : Rep s (Ctx.plug (f :: C) (.leaf a))) :
    ∃ m', Removed s f C a m' ∧ removeLeaf s a f.addr =
      some { linkSurvivor s a f.addr f.sib.addr with mem := m' } := by
  obtain ⟨hpar,hsd,hso,hlen,-⟩ := h.parent_node
  obtain ⟨h1,-,-,-,-,hsn,hCn,-⟩ := h.removal_nodup
  have hother : sibling s a f.addr = some f.sib.addr := by
    unfold sibling
    have hne : f.sib.addr ≠ a := fun he => h1 (he ▸ f.sib.addr_mem_addrs)
    cases hd : f.dir with
    | false =>
      rw [hd] at hsd hso
      rw [if_pos hsd]
      exact hso
    | true =>
      rw [hd] at hsd hso
      simp only [Bool.not_true] at hso
      rw [hso,if_neg (by simpa using hne)]
  let s1 := linkSurvivor s a f.addr f.sib.addr
  have hnext : s1.next = s.next := linkSurvivor_scalars.1
  have hl1 : f.sib.Forall (Links s1.mem) (Ctx.up C) (Ctx.path C) := by
    refine (removeMem_sib_links h).imp fun _ _ y _ _ _ hlk => ?_
    simpa only [Links,removeMem,relabelSubs_kept] using hlk
  have hlen1 : (s1.mem f.sib.addr).len = C.length := by
    rw [linkSurvivor_mem_other h.removalSite]
    exact hlen
  have hheight : f.sib.height ≤ s1.next := by
    have hb : f.sib.addrs.length ≤ s.next := length_le_of_nodup hsn fun b hb =>
      h.bound_ctx b (by simp [Ctx.addrs,hb])
    have := f.sib.height_lt_length
    omega
  have e1 := deUpdateSubstr_subs (s := s1) hl1 hsn hheight
  rw [hlen1] at e1
  let s2 : State := { s1 with mem := removeMem s f C a }
  have hup2 : (s2.mem f.sib.addr).parent = Ctx.up C := by
    change (removeMem s f C a f.sib.addr).parent = _
    rw [removeMem_survivor h]
  have hh2 : Ctx.Forall (Heights s2.mem) C (f.fill (.leaf a)) := by
    refine heights_rehang (fun b hb => ?_) (Ctx.forall_plug.mp h.heights).1.2.2
    obtain ⟨sub,e,-⟩ := removeMem_ctx h hb
    change (removeMem s f C a b).subheight = _
    rw [e]
  have hsh : (s2.mem f.sib.addr).subheight = f.sib.height := by
    change (removeMem s f C a f.sib.addr).subheight = _
    rw [removeMem_survivor h]
    exact (Ctx.forall_plug.mp h.heights).1.2.1.head
  obtain ⟨m',e3,hsame,hhC⟩ := deUpdateHeight_spec (t := f.sib) (s := s2) (n := s2.next)
    (removeMem_ctx_links h) hCn hsh hh2
    (by
      have := h.spine_length
      simp only [List.length_cons,Ctx.spine,List.length_map] at this
      change C.length ≤ s1.next
      omega)
  refine ⟨m',⟨hsame,hhC⟩,?_⟩
  have e : removeLeaf s a f.addr =
      ((deUpdateSubstr s1.next s1 ((s1.mem f.sib.addr).sub false) false).bind fun s' =>
        deUpdateSubstr s1.next s' ((s'.mem f.sib.addr).sub true) true).bind fun s' =>
          deUpdateHeight s1.next s' (s'.mem f.sib.addr).parent := by
    unfold removeLeaf
    rw [hother]
    exact (Option.bind_assoc _ _ _).symm
  rw [e,e1]
  change deUpdateHeight s2.next s2 (s2.mem f.sib.addr).parent = _
  rw [hup2,e3]

end RemoveRun

section Removed

variable {s : State} {f : Frame} {C : List Frame} {a : Nat} {m' : Nat → Node}

theorem Removed.sib_outside (h : Rep s (Ctx.plug (f :: C) (.leaf a))) (hm : Removed s f C a m')
    {b : Nat} (hb : b ∈ f.sib.addrs) : m' b = removeMem s f C a b :=
  hm.same.outside b fun hs =>
    h.removal_nodup.2.2.2.2.2.2.2 hb (Ctx.spine_subset_addrs C _ hs)

theorem Removed.survivor (h : Rep s (Ctx.plug (f :: C) (.leaf a))) (hm : Removed s f C a m') :
    m' f.sib.addr =
      { s.mem f.sib.addr with
        parent := Ctx.up C, rise := (s.mem f.addr).rise, len := C.length,
        bitstr := (s.mem f.addr).bitstr } := by
  rw [hm.sib_outside h f.sib.addr_mem_addrs,removeMem_survivor h]

theorem Removed.leaf (h : Rep s (Ctx.plug (f :: C) (.leaf a))) (hm : Removed s f C a m') :
    m' a = { s.mem a with parent := some f.sib.addr, viewname := none } := by
  rw [hm.same.outside a fun hs => h.removal_nodup.2.2.1 (Ctx.spine_subset_addrs C _ hs),
    removeMem_leaf h]

theorem Removed.outside (h : Rep s (Ctx.plug (f :: C) (.leaf a))) (hm : Removed s f C a m')
    {b : Nat} (hba : b ≠ a) (hb : b ∉ f.sib.addrs) (hsp : b ∉ Ctx.spine C) : m' b = s.mem b := by
  rw [hm.same.outside b hsp]
  exact removeMem_rest h hb hba fun hup => hsp (Ctx.up_mem_spine hup)

theorem Removed.ctx (h : Rep s (Ctx.plug (f :: C) (.leaf a))) (hm : Removed s f C a m') {b : Nat}
    (hb : b ∈ Ctx.addrs C) :
    (m' b).rise = (s.mem b).rise ∧ (m' b).len = (s.mem b).len ∧
      (m' b).bitstr = (s.mem b).bitstr := by
  obtain ⟨sub,e,-⟩ := removeMem_ctx h hb
  rw [hm.same.rise,hm.same.len,hm.same.bitstr,e]
  exact ⟨rfl,rfl,rfl⟩

theorem Removed.apart (h : Rep s (Ctx.plug (f :: C) (.leaf a))) (hm : Removed s f C a m') {b : Nat}
    (hne : b ≠ f.sib.addr) :
    (m' b).rise = (s.mem b).rise ∧ (m' b).nproc = (s.mem b).nproc := by
  simp only [hm.same.rise,hm.same.nproc,removeMem,relabelSubs_kept]
  by_cases hba : b = a
  · subst hba
    simp [linkSurvivor_mem_leaf h.removalSite]
  · by_cases hup : b ∈ Ctx.up C
    · simp [linkSurvivor_mem_up h.removalSite (h.parent_node.1.trans hup)]
    · simp [linkSurvivor_mem_rest ⟨hba,hne⟩ (by rwa [h.parent_node.1])]

theorem Removed.nproc (h : Rep s (Ctx.plug (f :: C) (.leaf a))) (hm : Removed s f C a m') (b : Nat) :
    (m' b).nproc = (s.mem b).nproc := by
  by_cases hbs : b = f.sib.addr
  · rw [hbs,hm.survivor h]
  · exact (hm.apart h hbs).2

theorem Removed.links (h : Rep s (Ctx.plug (f :: C) (.leaf a))) (hm : Removed s f C a m') :
    (Ctx.plug C f.sib).Forall (Links m') none [] := by
  rw [hm.same.links]
  exact Ctx.forall_plug.mpr ⟨removeMem_ctx_links h,removeMem_sib_links h⟩

theorem removeMem_depths (h : Rep s (Ctx.plug (f :: C) (.leaf a))) :
    f.sib.Forall (Depths (removeMem s f C a)) (Ctx.up C) (Ctx.path C) := by
  have hn := h.removal_nodup.2.2.2.2.2.1
  have hroot : Depths (removeMem s f C a) (Ctx.up C) (Ctx.path C) f.sib := by
    rw [Depths,removeMem_survivor h]
    simp only [Ctx.path_length]
    exact ⟨trivial,h.parent_node.2.2.2.2⟩
  unfold removeMem at hroot ⊢
  generalize (linkSurvivor s a f.addr f.sib.addr).mem = m at hroot ⊢
  cases hsib : f.sib with
  | leaf b => rw [hsib] at hroot; exact hroot
  | node b l r =>
    rw [hsib] at hroot hn
    simp only [ATree.addrs,List.nodup_cons,List.mem_append,not_or,List.nodup_append'] at hn
    refine ⟨hroot,?_,?_⟩
    · refine (relabel_depths hn.2.1 C.length false m (some b) (Ctx.path_length C)).imp
        fun _ _ y hy _ _ hd => ?_
      have hnot : y.addr ∉ r.addrs := fun hr => hn.2.2.2 (hy y.addr_mem_addrs) hr
      simpa only [Depths,relabelSubs,relabel_of_notMem hnot] using hd
    · exact relabel_depths hn.2.2.1 C.length true _ (some b) (Ctx.path_length C)

theorem Removed.depths (h : Rep s (Ctx.plug (f :: C) (.leaf a))) (hm : Removed s f C a m') :
    (Ctx.plug C f.sib).Forall (Depths m') none [] := by
  refine Ctx.forall_plug.mpr
    ⟨depths_rehang (fun b hb => (hm.ctx h hb).2) (Ctx.forall_plug.mp h.depths).1.2.2,?_⟩
  refine (removeMem_depths h).imp fun _ _ y _ _ _ hd => ?_
  simpa only [Depths,hm.same.len,hm.same.bitstr] using hd

theorem Removed.allHeights (h : Rep s (Ctx.plug (f :: C) (.leaf a))) (hm : Removed s f C a m') :
    (Ctx.plug C f.sib).Forall (Heights m') none [] := by
  have hh := (Ctx.forall_plug.mp h.heights).1.2.1
  have hn := h.removal_nodup.2.2.2.2.2.1
  refine Ctx.forall_plug.mpr ⟨hm.heights,ATree.Forall.move hn ?_ ?_ hh⟩
  · rw [Heights,hm.survivor h]
    exact hh.head
  · intro b p p' y _ hy hne hq
    have hy' := hy y.addr_mem_addrs
    rw [Heights,hm.sib_outside h hy',(removeMem_inner h hy' hne).2.2]
    exact hq

theorem Removed.rises (h : Rep s (Ctx.plug (f :: C) (.leaf a))) (hm : Removed s f C a m') :
    (Ctx.plug C f.sib).Forall (Rises m') none [] := by
  obtain ⟨⟨hp,hsib,hC⟩,-⟩ := Ctx.forall_plug.mp h.rises
  have hn := h.removal_nodup.2.2.2.2.2.1
  refine Ctx.forall_plug.mpr
    ⟨rises_rehang (fun b hb => (hm.ctx h hb).1) hC,ATree.Forall.move hn ?_ ?_ hsib⟩
  · intro p hup
    rw [(hm.ctx h (Ctx.up_mem hup)).1,hm.survivor h]
    simpa using hp p hup
  · intro b q q' y hb hy hne hq p hbp
    obtain rfl : b = p := by simpa using hbp
    have hle := hq b rfl
    rw [(hm.apart h hne).1]
    by_cases hbs : b = f.sib.addr
    · -- the survivor takes the older rise of the parent it replaces
      subst hbs
      have hold := hsib.head f.addr rfl
      rw [hm.survivor h]
      exact Nat.le_trans hold hle
    · rwa [(hm.apart h hbs).1]

theorem Removed.bits_below (h : Rep s (Ctx.plug (f :: C) (.leaf a))) (hm : Removed s f C a m') :
    f.sib.Forall (fun _ q y => ∀ u ∈ q.getLast?,
      (m' y.addr).bitstr = setbit (s.mem y.addr).bitstr (C.length + q.length - 1) u) none [] := by
  refine (relabelSubs_bitstr (n := s.mem) C.length (linkSurvivor s a f.addr f.sib.addr).mem
    h.removal_nodup.2.2.2.2.2.1 ?_ none).imp ?_
  · intro b hb hne
    rw [linkSurvivor_inner h hb hne]
  · intro par' q y hy _ _ hq u hu
    rw [hm.sib_outside h (hy y.addr_mem_addrs)]
    exact hq u hu

end Removed

-- The sibling takes the place of the parent of the removed leaf.
structure Survives (s s' : State) (f : Frame) (C : List Frame) (a : Nat) : Prop where
  rep : Rep s' (Ctx.plug C f.sib)
  next : s'.next = s.next
  epochNow : s'.epochNow = s.epochNow
  leaf_parent : (s'.mem a).parent = some f.sib.addr
  rise_survivor : (s'.mem f.sib.addr).rise = (s.mem f.addr).rise
  rise : ∀ b, b ≠ f.sib.addr → (s'.mem b).rise = (s.mem b).rise
  bits_ctx : ∀ b ∈ Ctx.addrs C, (s'.mem b).bitstr = (s.mem b).bitstr
  bits_survivor : (s'.mem f.sib.addr).bitstr = (s.mem f.addr).bitstr
  bits_below : f.sib.Forall (fun _ q y => ∀ u ∈ q.getLast?,
    (s'.mem y.addr).bitstr = setbit (s.mem y.addr).bitstr (C.length + q.length - 1) u) none []

structure RemovalEffect (s s' : State) (f : Frame) (C : List Frame) (a : Nat) : Prop
    extends Survives s s' f C a where
  outside : ∀ b, b ≠ a → b ∉ f.sib.addrs → b ∉ Ctx.spine C → s'.mem b = s.mem b
  nproc : ∀ b, (s'.mem b).nproc = (s.mem b).nproc

theorem removeLeaf_spec {s : State} {f : Frame} {C : List Frame} {a : Nat}
    (h : Rep s (Ctx.plug (f :: C) (.leaf a))) :
    ∃ s', removeLeaf s a f.addr = some s' ∧ RemovalEffect s s' f C a := by
  obtain ⟨m',hm,e⟩ := removeLeaf_run h
  obtain ⟨h1,h2,h3,h4,h5,hsn,hCn,hdis⟩ := h.removal_nodup
  have hsub : ∀ b ∈ (Ctx.plug C f.sib).addrs, b ∈ (Ctx.plug (f :: C) (.leaf a)).addrs := by
    intro b hb
    rcases Ctx.mem_plug_addrs.mp hb with hb | hb
    · exact Ctx.mem_plug_addrs.mpr (Or.inr (by simp [Ctx.addrs,hb]))
    · exact Ctx.mem_plug_addrs.mpr (Or.inr (by simp [Ctx.addrs,hb]))
  refine ⟨_,e,?_⟩
  have hrep : Rep { linkSurvivor s a f.addr f.sib.addr with mem := m' } (Ctx.plug C f.sib) := by
    refine ⟨?_,?_,?_,hm.links h,hm.depths h,hm.allHeights h,hm.rises h,?_⟩
    · refine (linkSurvivor_teRoot (a := a)).trans ?_
      rw [h.parent_node.1]
      cases C with
      | nil => rfl
      | cons g D =>
        change s.teRoot = _
        rw [h.root]
        exact congrArg some (Ctx.plug_cons_addr g D _ _)
    · exact (Ctx.plug_addrs_perm C _).nodup_iff.mpr (List.nodup_append'.mpr ⟨hsn,hCn,hdis⟩)
    · intro b hb
      exact Nat.lt_of_lt_of_eq (h.bound b (hsub b hb)) (linkSurvivor_scalars (a := a)).1.symm
    · intro b hb
      refine Nat.lt_of_lt_of_eq ?_ (linkSurvivor_scalars (a := a)).2.symm
      by_cases hbs : b = f.sib.addr
      · subst hbs
        change (m' f.sib.addr).rise < _
        rw [hm.survivor h]
        exact h.young f.addr (Ctx.mem_plug_addrs.mpr (Or.inr (by simp [Ctx.addrs])))
      · change (m' b).rise < _
        rw [(hm.apart h hbs).1]
        exact h.young b (hsub b hb)
  exact
    { rep := hrep
      next := (linkSurvivor_scalars (a := a)).1
      epochNow := (linkSurvivor_scalars (a := a)).2
      outside := fun b hba hb hsp => hm.outside h hba hb hsp
      leaf_parent := congrArg Node.parent (hm.leaf h)
      nproc := hm.nproc h
      rise_survivor := (congrArg Node.rise (hm.survivor h)).trans rfl
      rise := fun b hb => (hm.apart h hb).1
      bits_ctx := fun b hb => (hm.ctx h hb).2.2
      bits_survivor := (congrArg Node.bitstr (hm.survivor h)).trans rfl
      bits_below := hm.bits_below h }

end ViewOS.Treepoch
