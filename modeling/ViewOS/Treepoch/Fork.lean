import ViewOS.Treepoch.Rep

namespace ViewOS.Treepoch
open AddrTree

section LinkFork

variable {s : State} {old new par : Nat}

structure ForkSite (s : State) (old new par : Nat) : Prop where
  old_new : old ≠ new
  old_par : old ≠ par
  new_par : new ≠ par
  up_ne : ∀ g ∈ (s.mem old).parent, g ≠ old ∧ g ≠ new ∧ g ≠ par

theorem linkFork_mem (h : ForkSite s old new par) :
    (linkFork s old new par).mem old =
      { s.mem old with rise := (s.mem new).rise, nproc := decr (s.mem old).nproc, parent := some par } ∧
    (linkFork s old new par).mem new =
      { s.mem new with nproc := 1, nref := 0, parent := some par, bitstr := (s.mem old).bitstr,
                       subheight := 0 } ∧
    (linkFork s old new par).mem par =
      { s.mem par with rise := (s.mem old).rise, nproc := (s.mem old).nproc, nref := 2,
                       sub := fun b => some (bif b then new else old),
                       parent := (s.mem old).parent, len := (s.mem old).len,
                       bitstr := (s.mem old).bitstr,
                       subheight := (s.mem old).subheight + 1 } := by
  obtain ⟨h1,h2,h3,h4⟩ := h
  cases hp : (s.mem old).parent with
  | none => simp [linkFork,State.modify,h1,h2,h3,h1.symm,h2.symm,h3.symm,hp]
  | some g =>
    obtain ⟨g1,g2,g3⟩ := h4 g (by simp [hp])
    simp [linkFork,State.modify,h1,h2,h3,h1.symm,h2.symm,h3.symm,hp,g1,g1.symm,
      g2,g2.symm,g3,g3.symm]

theorem linkFork_mem_up (h : ForkSite s old new par) {g : Nat} (hg : (s.mem old).parent = some g) :
    (linkFork s old new par).mem g =
      { s.mem g with
        sub := Function.update (s.mem g).sub (getbit (s.mem old).bitstr ((s.mem old).len - 1))
          (some par) } := by
  obtain ⟨h1,h2,h3,h4⟩ := h
  obtain ⟨g1,g2,g3⟩ := h4 g hg
  simp [linkFork,State.modify,h1,h2,h3,h1.symm,h2.symm,h3.symm,hg,g1,g1.symm,
    g2,g2.symm,g3,g3.symm]

theorem linkFork_mem_other {b : Nat} (hb : b ≠ old ∧ b ≠ new ∧ b ≠ par)
    (hg : b ∉ (s.mem old).parent) (h : ForkSite s old new par) :
    (linkFork s old new par).mem b = s.mem b := by
  obtain ⟨h1,h2,h3,h4⟩ := h
  obtain ⟨b1,b2,b3⟩ := hb
  cases hp : (s.mem old).parent with
  | none => simp [linkFork,State.modify,h1,h2,h3,h1.symm,h2.symm,h3.symm,hp,b1,b2,b3]
  | some g =>
    obtain ⟨g1,g2,g3⟩ := h4 g (by simp [hp])
    have hbg : b ≠ g := by
      rintro rfl
      exact hg (by simp [hp])
    simp [linkFork,State.modify,h1,h2,h3,h1.symm,h2.symm,h3.symm,hp,g1,g1.symm,
      g2,g2.symm,g3,g3.symm,b1,b2,b3,hbg]

theorem linkFork_teRoot (h : ForkSite s old new par) :
    (linkFork s old new par).teRoot =
      if (s.mem old).parent = none then some par else s.teRoot := by
  obtain ⟨h1,h2,h3,h4⟩ := h
  cases hp : (s.mem old).parent with
  | none => simp [linkFork,State.modify,h1,h2,h3,h1.symm,h2.symm,h3.symm,hp]
  | some g => simp [linkFork,State.modify,h1,h2,h3,h1.symm,h2.symm,h3.symm,hp]

theorem linkFork_scalars :
    (linkFork s old new par).next = s.next ∧ (linkFork s old new par).epochNow = s.epochNow := by
  unfold linkFork
  dsimp only
  split <;> exact ⟨rfl,rfl⟩

end LinkFork

def forkAlloc (s : State) : State :=
  { s with
    mem := Function.update (Function.update s.mem s.next
      { Node.calloc with rise := s.epochNow, viewid := s.nextviewid }) (s.next + 1) Node.calloc
    next := s.next + 2
    epochNow := s.epochNow + 1
    nextviewid := s.nextviewid + 1 }

theorem forkLeaf_eq (s : State) (old : Nat) :
    forkLeaf s old =
      (deUpdateSubstr (s.next + 2) (linkFork (forkAlloc s) old s.next (s.next + 1)) (some old)
        false).bind fun s1 => (deUpdateSubstr s1.next s1 (some s.next) true).bind fun s2 =>
        (deUpdateHeight s2.next s2 (s2.mem (s.next + 1)).parent).bind fun s3 =>
        some (s3, ⟨s.epochNow, some s.next⟩) := by
  have ha : ({ (((newEpoch (calloc s).1).1.modify s.next fun n =>
      { n with rise := s.epochNow, viewid := s.nextviewid })) with
      mem := Function.update ((newEpoch (calloc s).1).1.modify s.next fun n =>
      { n with rise := s.epochNow, viewid := s.nextviewid }).mem (s.next + 1) Node.calloc,
      next := s.next + 1 + 1, nextviewid := s.nextviewid + 1 } : State) = forkAlloc s := by
    simp [forkAlloc,newEpoch,calloc,State.modify]
  have hn : (forkAlloc s).next = s.next + 2 := rfl
  rw [← hn,← (@linkFork_scalars (forkAlloc s) old s.next (s.next + 1)).1,
    ← ha]
  rfl

def forkTree (s : State) (a : Nat) : ATree := .node (s.next + 1) (.leaf a) (.leaf s.next)

structure ForkEffect (s s' : State) (C : List Frame) (a : Nat) : Prop where
  rep : Rep s' (Ctx.plug C (forkTree s a))
  next : s'.next = s.next + 2
  epochNow : s'.epochNow = s.epochNow + 1
  outside : ∀ b < s.next, b ≠ a → b ∉ Ctx.spine C → s'.mem b = s.mem b
  rise_ctx : ∀ b ∈ Ctx.addrs C, (s'.mem b).rise = (s.mem b).rise
  rise_par : (s'.mem (s.next + 1)).rise = (s.mem a).rise
  rise_old : (s'.mem a).rise = s.epochNow
  rise_new : (s'.mem s.next).rise = s.epochNow
  nproc_ctx : ∀ b ∈ Ctx.addrs C, (s'.mem b).nproc = (s.mem b).nproc
  nproc_par : (s'.mem (s.next + 1)).nproc = (s.mem a).nproc
  nproc_old : (s'.mem a).nproc = decr (s.mem a).nproc
  nproc_new : (s'.mem s.next).nproc = 1
  bits_ctx : ∀ b ∈ Ctx.addrs C, (s'.mem b).bitstr = (s.mem b).bitstr
  bits_par : (s'.mem (s.next + 1)).bitstr = (s.mem a).bitstr
  bits_old : (s'.mem a).bitstr = setbit (s.mem a).bitstr C.length false
  bits_new : (s'.mem s.next).bitstr = setbit (s.mem a).bitstr C.length true

def forkMem (s : State) (C : List Frame) (a : Nat) : Nat → Node :=
  relabel C.length true (.leaf s.next)
    (relabel C.length false (.leaf a) (linkFork (forkAlloc s) a s.next (s.next + 1)).mem)

section ForkMem

variable {s : State} {C : List Frame} {a : Nat}

theorem forkAlloc_mem_of_lt {b : Nat} (hb : b < s.next) : (forkAlloc s).mem b = s.mem b := by
  have h1 : b ≠ s.next := by omega
  have h2 : b ≠ s.next + 1 := by omega
  simp [forkAlloc,h1,h2]

theorem Rep.leaf_node (h : Rep s (Ctx.plug C (.leaf a))) :
    a < s.next ∧ (s.mem a).parent = Ctx.up C ∧ (∀ b, (s.mem a).sub b = none) ∧
      (s.mem a).len = C.length ∧ (s.mem a).subheight = 0 := by
  obtain ⟨hpar,hsub⟩ := (Ctx.forall_plug.mp h.links).2.head
  have hlen := (Ctx.forall_plug.mp h.depths).2.head.1
  have hh := (Ctx.forall_plug.mp h.heights).2.head
  simp only [Ctx.path_length] at hlen
  exact ⟨h.bound_hole a (by simp [ATree.addrs]),hpar,hsub,hlen,hh⟩

theorem Rep.forkSite (h : Rep s (Ctx.plug C (.leaf a))) :
    ForkSite (forkAlloc s) a s.next (s.next + 1) := by
  obtain ⟨ha,hpar,-⟩ := h.leaf_node
  refine ⟨by omega,by omega,by omega,?_⟩
  intro g hg
  rw [forkAlloc_mem_of_lt ha,hpar] at hg
  have hgC := Ctx.up_mem hg
  have hlt := h.bound_ctx g hgC
  have hne : g ≠ a := by
    rintro rfl
    exact h.ctx_nodup.2.2 (by simp [ATree.addrs]) hgC
  exact ⟨hne,by omega,by omega⟩

theorem forkMem_old (h : Rep s (Ctx.plug C (.leaf a))) :
    forkMem s C a a = relabelNode C.length false
      { s.mem a with rise := s.epochNow, nproc := decr (s.mem a).nproc, parent := some (s.next + 1) } := by
  have ha := h.leaf_node.1
  have hne : a ≠ s.next := by omega
  simp [forkMem,relabel,hne,(linkFork_mem h.forkSite).1,forkAlloc_mem_of_lt ha]
  simp [forkAlloc]

theorem forkMem_new (h : Rep s (Ctx.plug C (.leaf a))) :
    forkMem s C a s.next = relabelNode C.length true
      { Node.calloc with rise := s.epochNow, viewid := s.nextviewid, nproc := 1,
                         parent := some (s.next + 1), bitstr := (s.mem a).bitstr } := by
  have ha := h.leaf_node.1
  have hne : s.next ≠ a := by omega
  simp [forkMem,relabel,hne,(linkFork_mem h.forkSite).2.1,forkAlloc_mem_of_lt ha]
  simp [forkAlloc,Node.calloc]

theorem forkMem_par (h : Rep s (Ctx.plug C (.leaf a))) :
    forkMem s C a (s.next + 1) =
      { Node.calloc with rise := (s.mem a).rise, nproc := (s.mem a).nproc, nref := 2,
                         sub := fun b => some (bif b then s.next else a),
                         parent := Ctx.up C, len := C.length, bitstr := (s.mem a).bitstr,
                         subheight := 1 } := by
  obtain ⟨ha,hpar,-,hlen,hh⟩ := h.leaf_node
  have hne : s.next + 1 ≠ a := by omega
  simp [forkMem,relabel,hne,(linkFork_mem h.forkSite).2.2,forkAlloc_mem_of_lt ha,hpar,hlen,hh]
  simp [forkAlloc,Node.calloc]

theorem forkMem_lt {b : Nat} (hb : b < s.next) (hne : b ≠ a) :
    forkMem s C a b = (linkFork (forkAlloc s) a s.next (s.next + 1)).mem b := by
  have h1 : b ≠ s.next := by omega
  simp [forkMem,relabel,h1,hne]

theorem forkMem_other {b : Nat} (h : Rep s (Ctx.plug C (.leaf a))) (hb : b < s.next) (hne : b ≠ a)
    (hup : b ∉ Ctx.up C) : forkMem s C a b = s.mem b := by
  obtain ⟨ha,hpar,-⟩ := h.leaf_node
  rw [forkMem_lt hb hne,linkFork_mem_other ⟨hne,by omega,by omega⟩ ?_ h.forkSite,
    forkAlloc_mem_of_lt hb]
  rwa [forkAlloc_mem_of_lt ha,hpar]

theorem forkMem_up {f : Frame} {D : List Frame} (h : Rep s (Ctx.plug (f :: D) (.leaf a))) :
    forkMem s (f :: D) a f.addr =
      { s.mem f.addr with
        sub := Function.update (s.mem f.addr).sub f.dir (some (s.next + 1)) } := by
  obtain ⟨ha,hpar,-,hlen,-⟩ := h.leaf_node
  have hmem : f.addr ∈ Ctx.addrs (f :: D) := by simp [Ctx.addrs]
  have hlt := h.bound_ctx _ hmem
  have hne : f.addr ≠ a := by
    rintro he
    exact h.ctx_nodup.2.2 (by simp [ATree.addrs,he]) hmem
  have hpar' : ((forkAlloc s).mem a).parent = some f.addr := by
    rw [forkAlloc_mem_of_lt ha,hpar]; rfl
  have hbit := (Ctx.forall_plug.mp h.depths).2.head.2 f.dir (by simp [Ctx.path])
  simp only [ATree.addr,Ctx.path_length] at hbit
  rw [forkMem_lt hlt hne,linkFork_mem_up h.forkSite hpar',forkAlloc_mem_of_lt hlt,
    forkAlloc_mem_of_lt ha,hlen,hbit]

theorem forkMem_ctx (h : Rep s (Ctx.plug C (.leaf a))) {b : Nat} (hb : b ∈ Ctx.addrs C) :
    ∃ sub, forkMem s C a b = { s.mem b with sub := sub } ∧ (b ∉ Ctx.up C → sub = (s.mem b).sub) := by
  have hne : b ≠ a := by
    rintro rfl
    exact h.ctx_nodup.2.2 (by simp [ATree.addrs]) hb
  by_cases hup : b ∈ Ctx.up C
  · cases C with
    | nil => simp [Ctx.up] at hup
    | cons f D =>
      obtain rfl : f.addr = b := by simpa [Ctx.up] using hup
      exact ⟨_,forkMem_up h,fun hn => absurd hup hn⟩
  · exact ⟨_,forkMem_other h (h.bound_ctx b hb) hne hup,fun _ => rfl⟩

end ForkMem

structure Forked (s : State) (C : List Frame) (a : Nat) (m' : Nat → Node) : Prop where
  same : SameButHeight (Ctx.spine C) (forkMem s C a) m'
  heights : Ctx.Forall (Heights m') C (forkTree s a)

section ForkRun

variable {s : State} {C : List Frame} {a : Nat}

theorem forkMem_links (h : Rep s (Ctx.plug C (.leaf a))) :
    Ctx.Forall (Links (forkMem s C a)) C (forkTree s a) := by
  refine links_rehang h.ctx_nodup.2.1 (Ctx.forall_plug.mp h.links).1 ?_ ?_ ?_
  · intro b hb
    obtain ⟨sub,e,-⟩ := forkMem_ctx h hb
    rw [e]
  · intro b hb hb'
    obtain ⟨sub,e,hs⟩ := forkMem_ctx h hb
    rw [e]
    exact hs hb'
  · rintro f D rfl
    rw [forkMem_up h]
    rfl

theorem forkLeaf_run (h : Rep s (Ctx.plug C (.leaf a))) :
    ∃ m', Forked s C a m' ∧ forkLeaf s a =
      some ({ linkFork (forkAlloc s) a s.next (s.next + 1) with mem := m' },
        ⟨s.epochNow,some s.next⟩) := by
  obtain ⟨ha,hpar,hsub,hlen,-⟩ := h.leaf_node
  let s1 := linkFork (forkAlloc s) a s.next (s.next + 1)
  have hnext1 : s1.next = s.next + 2 := linkFork_scalars.1
  have hlen1 : (s1.mem (s.next + 1)).len = C.length := by
    rw [(linkFork_mem h.forkSite).2.2,forkAlloc_mem_of_lt ha]
    exact hlen
  have e1 : deUpdateSubstr (s.next + 2) s1 (some a) false =
      some { s1 with mem := relabel C.length false (.leaf a) s1.mem } := by
    rw [← hlen1]
    refine deUpdateSubstr_eq (t := .leaf a) (q := []) false ?_ (by simp [ATree.addrs])
      (by simp [ATree.addrs]; omega) (by simp [ATree.height])
    simp only [ATree.Forall,Links,ATree.addr,s1,(linkFork_mem h.forkSite).1,
      forkAlloc_mem_of_lt ha,hsub]
    exact ⟨trivial,fun b => rfl⟩
  let s2 : State := { s1 with mem := relabel C.length false (.leaf a) s1.mem }
  have hs2 : ∀ b, b ≠ a → s2.mem b = s1.mem b := fun b hb => by simp [s2,relabel,hb]
  have e2 : deUpdateSubstr s2.next s2 (some s.next) true =
      some { s2 with mem := forkMem s C a } := by
    have hl2 : (s2.mem (s.next + 1)).len = C.length := by
      rw [hs2 _ (by omega),hlen1]
    have := deUpdateSubstr_eq (t := .leaf s.next) (s := s2) (p := s.next + 1) (n := s2.next)
      (q := []) true ?_ (by simp [ATree.addrs]) (by simp [ATree.addrs]) ?_
    · rw [hl2] at this
      exact this
    · simp only [ATree.Forall,Links,ATree.addr,hs2 s.next (by omega),s1,
        (linkFork_mem h.forkSite).2.1]
      refine ⟨trivial,fun b => ?_⟩
      simp [forkAlloc,Node.calloc,ATree.child]
    · change 0 < s1.next
      omega
  let s3 : State := { s2 with mem := forkMem s C a }
  have hup3 : (s3.mem (s.next + 1)).parent = Ctx.up C := by
    change (forkMem s C a (s.next + 1)).parent = _
    rw [forkMem_par h]
  have hh3 : Ctx.Forall (Heights s3.mem) C (.leaf a) := by
    refine heights_rehang (fun b hb => ?_) (Ctx.forall_plug.mp h.heights).1
    obtain ⟨sub,e,-⟩ := forkMem_ctx h hb
    change (forkMem s C a b).subheight = _
    rw [e]
  obtain ⟨m',e3,hsame,hhC⟩ := deUpdateHeight_spec (t := forkTree s a) (s := s3)
    (n := s3.next) (forkMem_links h) h.ctx_nodup.2.1
    (by change (forkMem s C a (s.next + 1)).subheight = _; rw [forkMem_par h]; rfl) hh3
    (by
      have := h.spine_length
      simp only [List.length_cons,Ctx.spine,List.length_map] at this
      change C.length ≤ s1.next
      omega)
  refine ⟨m',⟨hsame,hhC⟩,?_⟩
  rw [forkLeaf_eq]
  change (deUpdateSubstr (s.next + 2) s1 (some a) false).bind _ = _
  rw [e1]
  change (deUpdateSubstr s2.next s2 (some s.next) true).bind _ = _
  rw [e2]
  change (deUpdateHeight s3.next s3 (s3.mem (s.next + 1)).parent).bind _ = _
  rw [hup3,e3]
  rfl

end ForkRun

section Forked

variable {s : State} {C : List Frame} {a : Nat} {m' : Nat → Node}

theorem Forked.old (h : Rep s (Ctx.plug C (.leaf a))) (hm : Forked s C a m') :
    m' a = relabelNode C.length false
      { s.mem a with rise := s.epochNow, nproc := decr (s.mem a).nproc, parent := some (s.next + 1) } := by
  rw [← forkMem_old h]
  exact hm.same.outside a fun hs =>
    h.ctx_nodup.2.2 (by simp [ATree.addrs]) (Ctx.spine_subset_addrs C _ hs)

theorem Forked.fresh (h : Rep s (Ctx.plug C (.leaf a))) (hm : Forked s C a m') {b : Nat}
    (hb : s.next ≤ b) : m' b = forkMem s C a b :=
  hm.same.outside b fun hs => by
    have := h.bound_ctx b (Ctx.spine_subset_addrs C _ hs)
    omega

theorem Forked.new (h : Rep s (Ctx.plug C (.leaf a))) (hm : Forked s C a m') :
    m' s.next = relabelNode C.length true
      { Node.calloc with rise := s.epochNow, viewid := s.nextviewid, nproc := 1,
                         parent := some (s.next + 1), bitstr := (s.mem a).bitstr } := by
  rw [hm.fresh h (Nat.le_refl _),forkMem_new h]

theorem Forked.par (h : Rep s (Ctx.plug C (.leaf a))) (hm : Forked s C a m') :
    m' (s.next + 1) =
      { Node.calloc with rise := (s.mem a).rise, nproc := (s.mem a).nproc, nref := 2,
                         sub := fun b => some (bif b then s.next else a),
                         parent := Ctx.up C, len := C.length, bitstr := (s.mem a).bitstr,
                         subheight := 1 } := by
  rw [hm.fresh h (by omega),forkMem_par h]

theorem Forked.ctx (h : Rep s (Ctx.plug C (.leaf a))) (hm : Forked s C a m') {b : Nat}
    (hb : b ∈ Ctx.addrs C) :
    (m' b).rise = (s.mem b).rise ∧ (m' b).nproc = (s.mem b).nproc ∧ (m' b).len = (s.mem b).len ∧
      (m' b).bitstr = (s.mem b).bitstr := by
  obtain ⟨sub,e,-⟩ := forkMem_ctx h hb
  rw [hm.same.rise,hm.same.nproc,hm.same.len,hm.same.bitstr,e]
  exact ⟨rfl,rfl,rfl,rfl⟩

theorem Forked.outside (h : Rep s (Ctx.plug C (.leaf a))) (hm : Forked s C a m') {b : Nat}
    (hb : b < s.next) (hne : b ≠ a) (hsp : b ∉ Ctx.spine C) : m' b = s.mem b := by
  rw [hm.same.outside b hsp]
  exact forkMem_other h hb hne fun hup => hsp (Ctx.up_mem_spine hup)

theorem forkTree_addrs {b : Nat} (hb : b ∈ (Ctx.plug C (forkTree s a)).addrs) :
    b = s.next + 1 ∨ b = a ∨ b = s.next ∨ b ∈ Ctx.addrs C := by
  simpa [Ctx.mem_plug_addrs,forkTree,ATree.addrs,or_assoc] using hb

theorem forkTree_nodup (h : Rep s (Ctx.plug C (.leaf a))) :
    (Ctx.plug C (forkTree s a)).addrs.Nodup := by
  have ha := h.leaf_node.1
  refine (Ctx.plug_addrs_perm C _).nodup_iff.mpr (List.nodup_append'.mpr ⟨?_,h.ctx_nodup.2.1,?_⟩)
  · simp [forkTree,ATree.addrs]; omega
  · intro b hb hb'
    have hlt := h.bound_ctx b hb'
    have hne : b ≠ a := by
      rintro rfl
      exact h.ctx_nodup.2.2 (by simp [ATree.addrs]) hb'
    simp only [forkTree,ATree.addrs,List.mem_cons,List.mem_append,List.not_mem_nil,
      or_false] at hb
    omega

theorem Forked.links (h : Rep s (Ctx.plug C (.leaf a))) (hm : Forked s C a m') :
    (Ctx.plug C (forkTree s a)).Forall (Links m') none [] := by
  refine Ctx.forall_plug.mpr ⟨?_,?_,?_,?_⟩
  · rw [hm.same.links]
    exact forkMem_links h
  · refine ⟨?_,fun b => ?_⟩
    · exact congrArg Node.parent (hm.par h)
    · refine (congrFun (congrArg Node.sub (hm.par h)) b).trans ?_
      cases b <;> rfl
  · refine ⟨?_,fun b => ?_⟩
    · rw [ATree.addr,hm.old h]
      rfl
    · rw [ATree.addr,hm.old h]
      exact h.leaf_node.2.2.1 b
  · refine ⟨?_,fun b => ?_⟩
    · rw [ATree.addr,hm.new h]
      rfl
    · rw [ATree.addr,hm.new h]
      rfl

theorem Forked.depths (h : Rep s (Ctx.plug C (.leaf a))) (hm : Forked s C a m') :
    (Ctx.plug C (forkTree s a)).Forall (Depths m') none [] := by
  have hd := Ctx.forall_plug.mp h.depths
  refine Ctx.forall_plug.mpr ⟨depths_rehang (fun b hb => (hm.ctx h hb).2.2) hd.1,?_,?_,?_⟩
  · refine ⟨(congrArg Node.len (hm.par h)).trans (Ctx.path_length C).symm,fun b hb => ?_⟩
    change getbit (m' (s.next + 1)).bitstr _ = b
    rw [hm.par h]
    exact hd.2.head.2 b hb
  · rw [ATree.Forall,Depths,ATree.addr,hm.old h]
    simp [relabelNode,getbit_setbit]
  · rw [ATree.Forall,Depths,ATree.addr,hm.new h]
    simp [relabelNode,getbit_setbit]

theorem Forked.allHeights (h : Rep s (Ctx.plug C (.leaf a))) (hm : Forked s C a m') :
    (Ctx.plug C (forkTree s a)).Forall (Heights m') none [] := by
  refine Ctx.forall_plug.mpr ⟨hm.heights,?_,?_,?_⟩
  · exact congrArg Node.subheight (hm.par h)
  · rw [ATree.Forall,Heights,ATree.addr,hm.old h]
    exact h.leaf_node.2.2.2.2
  · rw [ATree.Forall,Heights,ATree.addr,hm.new h]
    rfl

theorem Forked.rises (h : Rep s (Ctx.plug C (.leaf a))) (hm : Forked s C a m') :
    (Ctx.plug C (forkTree s a)).Forall (Rises m') none [] := by
  have hr := Ctx.forall_plug.mp h.rises
  have hya := h.young a (Ctx.mem_plug_addrs.mpr (Or.inl (by simp [ATree.addrs])))
  refine Ctx.forall_plug.mpr ⟨rises_rehang (fun b hb => (hm.ctx h hb).1) hr.1,?_,?_,?_⟩
  · intro p hp
    change (m' p).rise ≤ (m' (s.next + 1)).rise
    rw [hm.par h,(hm.ctx h (Ctx.up_mem hp)).1]
    exact hr.2.head p hp
  · intro p hp
    obtain rfl : s.next + 1 = p := by simpa using hp
    rw [ATree.addr,hm.par h,hm.old h]
    exact Nat.le_of_lt hya
  · intro p hp
    obtain rfl : s.next + 1 = p := by simpa using hp
    rw [ATree.addr,hm.par h,hm.new h]
    exact Nat.le_of_lt hya

theorem Forked.young (h : Rep s (Ctx.plug C (.leaf a))) (hm : Forked s C a m') {b : Nat}
    (hb : b ∈ (Ctx.plug C (forkTree s a)).addrs) : (m' b).rise < s.epochNow + 1 := by
  have hya := h.young a (Ctx.mem_plug_addrs.mpr (Or.inl (by simp [ATree.addrs])))
  rcases forkTree_addrs hb with rfl | rfl | rfl | hb
  · rw [hm.par h]
    exact Nat.lt_succ_of_lt hya
  · rw [hm.old h]
    exact Nat.lt_succ_self _
  · rw [hm.new h]
    exact Nat.lt_succ_self _
  · rw [(hm.ctx h hb).1]
    exact Nat.lt_succ_of_lt (h.young b (Ctx.mem_plug_addrs.mpr (Or.inr hb)))

theorem forkRoot_addr (h : Rep s (Ctx.plug C (.leaf a))) :
    (linkFork (forkAlloc s) a s.next (s.next + 1)).teRoot =
      some (Ctx.plug C (forkTree s a)).addr := by
  obtain ⟨ha,hpar,-⟩ := h.leaf_node
  rw [linkFork_teRoot h.forkSite,forkAlloc_mem_of_lt ha,hpar]
  cases C with
  | nil => rfl
  | cons f D =>
    change s.teRoot = _
    rw [h.root,Ctx.plug_cons_addr f D (.leaf a) (forkTree s a)]

end Forked

theorem forkLeaf_spec {s : State} {C : List Frame} {a : Nat} (h : Rep s (Ctx.plug C (.leaf a))) :
    ∃ s', forkLeaf s a = some (s', ⟨s.epochNow, some s.next⟩) ∧ ForkEffect s s' C a := by
  obtain ⟨m',hm,e⟩ := forkLeaf_run h
  have hnext : (linkFork (forkAlloc s) a s.next (s.next + 1)).next = s.next + 2 := linkFork_scalars.1
  have hepoch : (linkFork (forkAlloc s) a s.next (s.next + 1)).epochNow = s.epochNow + 1 :=
    linkFork_scalars.2
  refine ⟨_,e,?_⟩
  have hrep : Rep { linkFork (forkAlloc s) a s.next (s.next + 1) with mem := m' }
      (Ctx.plug C (forkTree s a)) := by
    refine ⟨forkRoot_addr h,forkTree_nodup h,?_,hm.links h,hm.depths h,hm.allHeights h,
      hm.rises h,?_⟩
    · intro b hb
      have ha := h.leaf_node.1
      change b < (linkFork (forkAlloc s) a s.next (s.next + 1)).next
      rcases forkTree_addrs hb with rfl | rfl | rfl | hb
      · omega
      · omega
      · omega
      · have := h.bound_ctx b hb
        omega
    · intro b hb
      change (m' b).rise < (linkFork (forkAlloc s) a s.next (s.next + 1)).epochNow
      rw [hepoch]
      exact hm.young h hb
  exact
    { rep := hrep
      next := hnext
      epochNow := hepoch
      outside := fun b hb hne hsp => hm.outside h hb hne hsp
      rise_ctx := fun b hb => (hm.ctx h hb).1
      rise_par := (congrArg Node.rise (hm.par h)).trans rfl
      rise_old := congrArg Node.rise (hm.old h)
      rise_new := congrArg Node.rise (hm.new h)
      nproc_ctx := fun b hb => (hm.ctx h hb).2.1
      nproc_par := (congrArg Node.nproc (hm.par h)).trans rfl
      nproc_old := congrArg Node.nproc (hm.old h)
      nproc_new := congrArg Node.nproc (hm.new h)
      bits_ctx := fun b hb => (hm.ctx h hb).2.2.2
      bits_par := (congrArg Node.bitstr (hm.par h)).trans rfl
      bits_old := congrArg Node.bitstr (hm.old h)
      bits_new := congrArg Node.bitstr (hm.new h) }

end ViewOS.Treepoch
