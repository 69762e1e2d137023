import ViewOS.Lib.Run
import ViewOS.Lib.Shared
import ViewOS.Umfuse.Nodes

namespace ViewOS.Umfuse.Nodes
open Transition Shared

structure Sound (s : State) : Prop where
  named : ∀ fd h, s.handle fd = some h → ∃ n, s.node h.node = some n ∧ s.names n.path = some h.file
  unique : ∀ i j m n, s.node i = some m → s.node j = some n → m.path = n.path → i = j
  shown : ∀ i, i ∉ s.hidden → s.unlinked.count i = 0
  held : ∀ fd h, s.handle fd = some h → s.unlinked.count h.node = 0
  removed : ∀ i ∈ s.hidden, (∀ fd h, s.handle fd = some h → h.node ≠ i) → s.unlinked.count i = 1

def Free (s : State) (old new : Path) : Prop :=
  ∀ o ∈ s.nodes, ∀ n ∈ o, ¬ new <+: n.path ∧ (old <+: n.path → n.path = old)

def Orderly (fuse : Fuse) (s : State) : Op → Prop
  | .open path _ _ => nodeHiddenpathcheck fuse path = false
  | .close fd _ => ∀ h ∈ s.handle fd, ∀ n ∈ s.node h.node,
      nodeHiddenpathcheck fuse n.path = true → n.openCount = 1
  | .unlink path _ => ∀ o ∈ s.nodes, ∀ n ∈ o, n.path = path →
      fuse.hardremove = false ∧ fuse.hasRename = true ∧ Free s path (nodeHiddenpath fuse s.hiddencount)
  | .rename old new accepts _ => (fopsRename accepts s.names old new).isSome = true → Free s old new ∧
      ∀ o ∈ s.nodes, ∀ n ∈ o, n.path = old → fuse.mnt = [] ∧
        nodeHiddenpathcheck fuse old = false ∧ nodeHiddenpathcheck fuse new = false

instance (s : State) (old new : Path) : Decidable (Free s old new) :=
  inferInstanceAs (Decidable (∀ o ∈ s.nodes, ∀ n ∈ o, _ ∧ _))

instance (fuse : Fuse) (s : State) : (o : Op) → Decidable (Orderly fuse s o)
  | .open _ _ _ => inferInstanceAs (Decidable (_ = false))
  | .close fd _ => inferInstanceAs (Decidable (∀ h ∈ s.handle fd, ∀ n ∈ s.node h.node, _ → _))
  | .unlink _ _ => inferInstanceAs (Decidable (∀ o ∈ s.nodes, ∀ n ∈ o, _ → _ ∧ _ ∧ _))
  | .rename _ _ _ _ => inferInstanceAs (Decidable (_ → _ ∧ ∀ o ∈ s.nodes, ∀ n ∈ o, _ → _ ∧ _ ∧ _))

theorem hiddenpath_check (fuse : Fuse) (k : Nat) :
    nodeHiddenpathcheck fuse (nodeHiddenpath fuse k) = true := by
  simp [nodeHiddenpathcheck,nodeHiddenpath]

structure Inv (fuse : Fuse) (s : State) : Prop where
  counted : Counted Node.openCount Handle.node s.nodes s.handles
  table : ∀ i, i ∈ s.table ↔ (s.node i).isSome
  nodup : s.table.Nodup
  unique : ∀ i j m n, s.node i = some m → s.node j = some n → m.path = n.path → i = j
  named : ∀ fd h n, s.handle fd = some h → s.node h.node = some n → s.names n.path = some h.file
  marked : ∀ i n, s.node i = some n → (nodeHiddenpathcheck fuse n.path = true ↔ i ∈ s.hidden)
  made : ∀ i ∈ s.hidden, i < s.nodes.length
  once : ∀ i, s.unlinked.count i = if i ∈ s.hidden ∧ s.node i = none then 1 else 0

section Reading

variable {fuse : Fuse} {s : State} {i fd : Nat} {n : Node} {h : Handle} {path : Path}

theorem node_eq_some : s.node i = some n ↔ s.nodes[i]? = some (some n) := Option.join_eq_some_iff

theorem mem_of_node (h : s.node i = some n) : some n ∈ s.nodes :=
  List.mem_of_getElem? (node_eq_some.mp h)

theorem handle_eq_some : s.handle fd = some h ↔ s.handles[fd]? = some (some h) :=
  Option.join_eq_some_iff

theorem Inv.node_of_handle (hi : Inv fuse s) (hh : s.handle fd = some h) : ∃ n, s.node h.node = some n := by
  obtain ⟨n,hn⟩ := hi.counted.object (handle_eq_some.mp hh)
  exact ⟨n,node_eq_some.mpr hn⟩

theorem Inv.handle_of_node (hi : Inv fuse s) (hn : s.node i = some n) :
    ∃ fd h, s.handle fd = some h ∧ h.node = i := by
  obtain ⟨fd,h,hh,href⟩ := hi.counted.user (node_eq_some.mp hn)
  exact ⟨fd,h,handle_eq_some.mpr hh,href⟩

theorem Inv.sound (hi : Inv fuse s) : Sound s := by
  constructor
  · intro fd h hh
    obtain ⟨n,hn⟩ := hi.node_of_handle hh
    exact ⟨n,hn,hi.named fd h n hh hn⟩
  · exact hi.unique
  · intro i hnot
    rw [hi.once,if_neg fun hand => hnot hand.1]
  · intro fd h hh
    obtain ⟨n,hn⟩ := hi.node_of_handle hh
    rw [hi.once,if_neg fun hand => absurd hand.2 (hn ▸ Option.some_ne_none n)]
  · intro i hmem hnone
    rw [hi.once,if_pos]
    refine ⟨hmem,?_⟩
    cases hn : s.node i with
    | none => rfl
    | some n =>
      obtain ⟨fd,h,hh,href⟩ := hi.handle_of_node hn
      exact absurd href (hnone fd h hh)

theorem search_some (h : nodeSearch s path = some i) : ∃ n, s.node i = some n ∧ n.path = path := by
  simpa [Option.any_eq_true] using List.find?_some h

theorem Inv.search_none (hi : Inv fuse s) (h : nodeSearch s path = none) (hn : s.node i = some n) :
    n.path ≠ path := by
  have hmem : i ∈ s.table := (hi.table i).mpr (by rw [hn]; rfl)
  simpa [hn] using List.find?_eq_none.mp h i hmem

end Reading

theorem modify_eq_set {nodes : List (Option Node)} {i : Nat} {n : Node} (f : Node → Node)
    (h : nodes[i]? = some (some n)) : nodes.modify i (Option.map f) = nodes.set i (some (f n)) := by
  apply List.ext_getElem?
  intro j
  rw [List.getElem?_modify,List.getElem?_set]
  by_cases hj : i = j
  · obtain rfl := hj
    simp only [if_true,h,if_pos (lt_of_get h)]
    rfl
  · simp [hj]

theorem fopsRename_some {accepts : Bool} {names names' : Names} {old new : Path}
    (h : fopsRename accepts names old new = some names') :
    names' new = names old ∧ ∀ p, ¬ new <+: p → ¬ old <+: p → names' p = names p := by
  cases hold : names old with
  | none => simp [fopsRename,hold] at h
  | some file =>
    simp only [fopsRename,hold] at h
    split_ifs at h with _ hsame
    · obtain rfl := Option.some.inj h
      exact ⟨hsame,fun _ _ _ => rfl⟩
    · obtain rfl := Option.some.inj h
      refine ⟨?_,fun p hnew hnot => ?_⟩
      · simp [hold]
      · simp only [if_neg hnew,if_neg hnot]

section Steps

variable {fuse : Fuse} {s : State} {i fd : Nat} {n : Node} {h : Handle} {path : Path}

theorem Inv.congr {s' : State} (hi : Inv fuse s) (hnames : s'.names = s.names) (hnodes : s'.nodes = s.nodes)
    (htable : s'.table = s.table) (hhandles : s'.handles = s.handles) (hhidden : s'.hidden = s.hidden)
    (hunlinked : s'.unlinked = s.unlinked) : Inv fuse s' := by
  obtain ⟨names,files,nodes,table,handles,hiddencount,hidden,unlinked⟩ := s
  obtain ⟨names',files',nodes',table',handles',hiddencount',hidden',unlinked'⟩ := s'
  dsimp only at hnames hnodes htable hhandles hhidden hunlinked
  subst hnames hnodes htable hhandles hhidden hunlinked
  exact ⟨hi.counted,hi.table,hi.nodup,hi.unique,hi.named,hi.marked,hi.made,hi.once⟩

theorem Inv.rebind (hi : Inv fuse s) {names : Names}
    (hkeep : ∀ i n, s.node i = some n → names n.path = s.names n.path) :
    Inv fuse { s with names := names } := by
  refine ⟨hi.counted,hi.table,hi.nodup,hi.unique,?_,hi.marked,hi.made,hi.once⟩
  intro fd h n hh hn
  exact (hkeep _ _ hn).trans (hi.named fd h n hh hn)

theorem Inv.live_name (hi : Inv fuse s) (hn : s.node i = some n) : ∃ file, s.names n.path = some file := by
  obtain ⟨fd,h,hh,rfl⟩ := hi.handle_of_node hn
  exact ⟨h.file,hi.named fd h n hh hn⟩

theorem Inv.same_paths (hi : Inv fuse s) {node : Nat → Option Node}
    (hold : ∀ j m, node j = some m → ∃ m', s.node j = some m' ∧ m'.path = m.path) :
    (∀ j k m m', node j = some m → node k = some m' → m.path = m'.path → j = k) ∧
      ∀ j m, node j = some m → (nodeHiddenpathcheck fuse m.path = true ↔ j ∈ s.hidden) := by
  refine ⟨fun j k m m' hm hm' heq => ?_,fun j m hm => ?_⟩
  · obtain ⟨l,hl,hlp⟩ := hold j m hm
    obtain ⟨l',hl',hlp'⟩ := hold k m' hm'
    exact hi.unique j k l l' hl hl' (hlp.trans (heq.trans hlp'.symm))
  · obtain ⟨l,hl,hlp⟩ := hold j m hm
    rw [← hlp]
    exact hi.marked j l hl

theorem Inv.fresh_path (hi : Inv fuse s) {node : Nat → Option Node}
    (hcases : ∀ j m, node j = some m → (j = i ∧ m.path = path) ∨
      (s.node j = some m ∧ m.path ≠ path)) (j k : Nat) (m m' : Node) (hm : node j = some m)
    (hm' : node k = some m') (heq : m.path = m'.path) : j = k := by
  rcases hcases j m hm with ⟨rfl,hp⟩ | ⟨hold,hne⟩
  · rcases hcases k m' hm' with ⟨rfl,-⟩ | ⟨-,hne'⟩
    · rfl
    · exact absurd (heq.symm.trans hp) hne'
  · rcases hcases k m' hm' with ⟨-,hp'⟩ | ⟨hold',-⟩
    · exact absurd (heq.trans hp') hne
    · exact hi.unique j k m m' hold hold' heq

theorem Inv.move (hi : Inv fuse s) (hn : s.node i = some n) {names : Names} {hidden : List Nat}
    (hname : names path = s.names n.path)
    (hother : ∀ j m, j ≠ i → s.node j = some m → names m.path = s.names m.path ∧ m.path ≠ path)
    (hmark : nodeHiddenpathcheck fuse path = true ↔ i ∈ hidden) (hsame : ∀ j, j ≠ i → (j ∈ hidden ↔ j ∈ s.hidden)) :
    Inv fuse (nodeNewpath { s with names := names, hidden := hidden } i path) := by
  have hget := node_eq_some.mp hn
  have hlt := lt_of_get hget
  have hnodes : s.nodes.modify i (Option.map fun n => { n with path := path }) =
      s.nodes.set i (some { n with path := path }) := modify_eq_set _ hget
  have hnode : ∀ j, (nodeNewpath { s with names := names, hidden := hidden } i path).node j =
      if j = i then some { n with path := path } else s.node j := by
    intro j
    rw [State.node,nodeNewpath]
    dsimp only
    rw [hnodes,join_set hlt]
    rfl
  have hcases : ∀ j m, (nodeNewpath { s with names := names, hidden := hidden } i path).node j = some m →
      (j = i ∧ m = { n with path := path }) ∨ (j ≠ i ∧ s.node j = some m) := by
    intro j m hm
    rw [hnode] at hm
    split_ifs at hm with hj
    · exact Or.inl ⟨hj,(Option.some.inj hm).symm⟩
    · exact Or.inr ⟨hj,hm⟩
  constructor
  · simp only [nodeNewpath,hnodes]
    exact hi.counted.write hget rfl
  · intro j
    rw [hnode]
    by_cases hj : j = i
    · simp [nodeNewpath,hj]
    · rw [if_neg hj,← hi.table]
      simp [nodeNewpath,hj,List.mem_erase_of_ne hj]
  · exact List.nodup_cons.mpr ⟨hi.nodup.not_mem_erase,hi.nodup.erase i⟩
  · exact hi.fresh_path fun j m hm => (hcases j m hm).imp (fun h => ⟨h.1,by rw [h.2]⟩)
      fun h => ⟨h.2,(hother j m h.1 h.2).2⟩
  · intro fd h m hh hm
    rcases hcases _ m hm with ⟨hj,rfl⟩ | ⟨hj,hm⟩
    · exact hname.trans (hi.named fd h n hh (hj ▸ hn))
    · exact (hother _ m hj hm).1.trans (hi.named fd h m hh hm)
  · intro j m hm
    rcases hcases j m hm with ⟨rfl,rfl⟩ | ⟨hj,hm⟩
    · exact hmark
    · exact (hi.marked j m hm).trans (hsame j hj).symm
  · intro j hj
    by_cases hji : j = i
    · rw [hji,nodeNewpath,List.length_modify]
      exact hlt
    · rw [nodeNewpath,List.length_modify]
      exact hi.made j ((hsame j hji).mp hj)
  · intro j
    rw [hnode]
    refine (hi.once j).trans ?_
    by_cases hji : j = i
    · simp [hji,hn]
    · simp only [if_neg hji,nodeNewpath,hsame j hji]

theorem handle_append {hs : List (Option Handle)} {fd : Nat} {h g : Handle}
    (hg : ((hs ++ [some h])[fd]?).join = some g) : g = h ∨ hs[fd]?.join = some g := by
  rw [join_append] at hg
  split_ifs at hg
  · exact Or.inl (Option.some.inj hg).symm
  · exact Or.inr hg

theorem Inv.share (hi : Inv fuse s) (hn : s.node i = some n) {file : Nat}
    (hname : s.names n.path = some file) :
    Inv fuse { s with nodes := s.nodes.set i (some { n with openCount := n.openCount + 1 }),
                      handles := s.handles ++ [some ⟨i,file⟩] } := by
  have hget := node_eq_some.mp hn
  have hnode : ∀ j, ((s.nodes.set i (some { n with openCount := n.openCount + 1 }))[j]?).join =
      if j = i then some { n with openCount := n.openCount + 1 } else s.node j := join_set (lt_of_get hget) _
  have hpath : ∀ j m, ((s.nodes.set i (some { n with openCount := n.openCount + 1 }))[j]?).join = some m →
      ∃ m', s.node j = some m' ∧ m'.path = m.path := by
    intro j m hm
    rw [hnode] at hm
    split_ifs at hm with hj
    · exact ⟨n,hj ▸ hn,by rw [← Option.some.inj hm]⟩
    · exact ⟨m,hm,rfl⟩
  have hlive : ∀ j, ((s.nodes.set i (some { n with openCount := n.openCount + 1 }))[j]?).join.isSome =
      (s.node j).isSome := by
    intro j
    rw [hnode]
    split_ifs with hj
    · rw [hj,hn]
      rfl
    · rfl
  constructor
  · obtain ⟨fd,h,hh,href⟩ := hi.handle_of_node hn
    rw [← href] at hget ⊢
    exact hi.counted.share (handle_eq_some.mp hh) hget (v := ⟨h.node,file⟩) rfl
      (b := ⟨n.path,n.openCount + 1⟩) rfl
  · intro j
    exact (hi.table j).trans (by rw [← hlive]; rfl)
  · exact hi.nodup
  · exact (hi.same_paths hpath).1
  · intro fd h m hh hm
    obtain ⟨l,hl,hlp⟩ := hpath _ m hm
    rw [← hlp]
    rcases handle_append hh with rfl | hh
    · obtain rfl := Option.some.inj (hl.symm.trans hn)
      exact hname
    · exact hi.named fd h l hh hl
  · exact (hi.same_paths hpath).2
  · intro j hj
    rw [List.length_set]
    exact hi.made j hj
  · intro j
    have hnone : ((s.nodes.set i (some { n with openCount := n.openCount + 1 }))[j]?).join = none ↔
        s.node j = none := by
      rw [← Option.not_isSome_iff_eq_none,hlive,Option.not_isSome_iff_eq_none]
    simp only [State.node,hnone]
    exact hi.once j

theorem Inv.node_length (s : State) : s.node s.nodes.length = none := by
  rw [State.node,List.getElem?_eq_none (Nat.le_refl _)]
  rfl

theorem Inv.add (hi : Inv fuse s) (hfresh : ∀ j m, s.node j = some m → m.path ≠ path) {file : Nat}
    (hname : s.names path = some file) (hcheck : nodeHiddenpathcheck fuse path = false) :
    Inv fuse { s with nodes := s.nodes ++ [some ⟨path,1⟩], table := s.nodes.length :: s.table,
                      handles := s.handles ++ [some ⟨s.nodes.length,file⟩] } := by
  have hnode : ∀ j, ((s.nodes ++ [some ⟨path,1⟩])[j]?).join =
      if j = s.nodes.length then some ⟨path,1⟩ else s.node j := join_append _ _
  have hcases : ∀ j m, ((s.nodes ++ [some ⟨path,1⟩])[j]?).join = some m →
      (j = s.nodes.length ∧ m = ⟨path,1⟩) ∨ s.node j = some m := by
    intro j m hm
    rw [hnode] at hm
    split_ifs at hm with hj
    · exact Or.inl ⟨hj,(Option.some.inj hm).symm⟩
    · exact Or.inr hm
  have hnew : s.nodes.length ∉ s.hidden := fun hmem => Nat.lt_irrefl _ (hi.made _ hmem)
  constructor
  · exact hi.counted.add rfl rfl
  · intro j
    rw [State.node,hnode,List.mem_cons,hi.table]
    split_ifs with hj
    · simp [hj]
    · simp [hj]
  · refine List.nodup_cons.mpr ⟨fun hmem => ?_,hi.nodup⟩
    have := (hi.table _).mp hmem
    rw [Inv.node_length] at this
    cases this
  · exact hi.fresh_path fun j m hm => (hcases j m hm).imp (fun h => ⟨h.1,by rw [h.2]⟩)
      fun h => ⟨h,hfresh j m h⟩
  · intro fd h m hh hm
    rcases hcases _ m hm with ⟨hj,rfl⟩ | hold
    · rcases handle_append hh with rfl | hh
      · exact hname
      · obtain ⟨n,hn⟩ := hi.node_of_handle hh
        rw [hj,Inv.node_length] at hn
        cases hn
    · rcases handle_append hh with rfl | hh
      · rw [Inv.node_length] at hold
        cases hold
      · exact hi.named fd h m hh hold
  · intro j m hm
    rcases hcases j m hm with ⟨rfl,rfl⟩ | hold
    · simp [hcheck,hnew]
    · exact hi.marked j m hold
  · intro j hj
    rw [List.length_append]
    exact Nat.lt_of_lt_of_le (hi.made j hj) (Nat.le_add_right _ _)
  · intro j
    refine (hi.once j).trans ?_
    simp only [State.node,hnode]
    by_cases hj : j = s.nodes.length
    · simp [hj,hnew]
    · rw [if_neg hj]
      rfl

theorem Inv.opened (hi : Inv fuse s) {file : Nat} (hname : s.names path = some file)
    (hcheck : nodeHiddenpathcheck fuse path = false) :
    Inv fuse { (nodeAdd s path).1 with
      handles := s.handles ++ [some ⟨(nodeAdd s path).2,file⟩] } := by
  cases hsearch : nodeSearch s path with
  | none =>
    simp only [nodeAdd,hsearch]
    exact hi.add (fun j m hm => hi.search_none hsearch hm) hname hcheck
  | some i =>
    obtain ⟨n,hn,rfl⟩ := search_some hsearch
    simp only [nodeAdd,hsearch,modify_eq_set _ (node_eq_some.mp hn)]
    exact hi.share hn hname

theorem Inv.open (hi : Inv fuse s) (creat accepts : Bool) (hcheck : nodeHiddenpathcheck fuse path = false) :
    Inv fuse (umfuseOpen s path creat accepts) := by
  cases accepts with
  | false => exact hi
  | true =>
    cases hname : s.names path with
    | some file =>
      simp only [umfuseOpen,hname]
      exact hi.opened hname hcheck
    | none =>
      cases creat with
      | false =>
        simp only [umfuseOpen,hname]
        exact hi
      | true =>
        simp only [umfuseOpen,hname]
        refine Inv.opened (s := { s with names := fun p => if p = path then some s.files else s.names p,
                                         files := s.files + 1 }) ?_ (if_pos rfl) hcheck
        refine Inv.congr (s := { s with names := fun p => if p = path then some s.files else s.names p })
          (hi.rebind fun j m hm => if_neg ?_) rfl rfl rfl rfl rfl rfl
        obtain ⟨file,hfile⟩ := hi.live_name hm
        rintro rfl
        rw [hname] at hfile
        cases hfile

def left (n : Node) : Option Node :=
  if n.openCount - 1 = 0 then none else some { n with openCount := n.openCount - 1 }

theorem nodeDel_eq (s : State) (i : Nat) (n : Node) : nodeDel s i n =
    { s with nodes := s.nodes.set i (left n),
             table := if n.openCount - 1 = 0 then s.table.erase i else s.table } := by
  unfold nodeDel left
  split_ifs <;> rfl

theorem left_path {m : Node} (h : left n = some m) : n.openCount ≠ 1 ∧ m.path = n.path := by
  unfold left at h
  split_ifs at h with hlast
  rw [← Option.some.inj h]
  exact ⟨by omega,rfl⟩

theorem Inv.release (hi : Inv fuse s) (hh : s.handle fd = some h) (hn : s.node h.node = some n)
    {names : Names} {unlinked : List Nat}
    (hother : ∀ j m, j ≠ h.node → s.node j = some m → names m.path = s.names m.path)
    (hself : n.openCount ≠ 1 → names n.path = s.names n.path)
    (hlog : ∀ j, unlinked.count j = s.unlinked.count j +
      if j = h.node ∧ h.node ∈ s.hidden ∧ n.openCount = 1 then 1 else 0) :
    Inv fuse (delHandle { s with names := names, unlinked := unlinked } fd h.node n) := by
  have hget := node_eq_some.mp hn
  have hfd := handle_eq_some.mp hh
  have hnode : ∀ j, ((s.nodes.set h.node (left n))[j]?).join =
      if j = h.node then left n else s.node j := join_set (lt_of_get hget) _
  have hold : ∀ j m, ((s.nodes.set h.node (left n))[j]?).join = some m →
      ∃ m', s.node j = some m' ∧ m'.path = m.path ∧ names m.path = s.names m.path := by
    intro j m hm
    rw [hnode] at hm
    split_ifs at hm with hj
    · obtain ⟨hcount,hpath⟩ := left_path hm
      exact ⟨n,hj ▸ hn,hpath.symm,hpath ▸ hself hcount⟩
    · exact ⟨m,hm,rfl,hother j m hj hm⟩
  have hpaths := hi.same_paths fun j m hm =>
    (hold j m hm).imp fun _ h => ⟨h.1,h.2.1⟩
  rw [delHandle,nodeDel_eq]
  constructor
  · apply hi.counted.drop hfd hget
    unfold left
    split_ifs <;> rfl
  · intro j
    change _ ↔ ((s.nodes.set h.node (left n))[j]?).join.isSome = true
    rw [hnode]
    by_cases hj : j = h.node
    · rw [if_pos hj,hj]
      unfold left
      split_ifs with hlast
      · simp [hi.nodup.not_mem_erase]
      · simp [(hi.table h.node).mpr (by rw [hn]; rfl)]
    · rw [if_neg hj,← hi.table]
      split_ifs
      · exact List.mem_erase_of_ne hj
      · rfl
  · dsimp only
    split_ifs
    · exact hi.nodup.erase _
    · exact hi.nodup
  · exact hpaths.1
  · intro g u m hu hm
    obtain ⟨l,hl,hlp,hname⟩ := hold _ m hm
    have hu' : s.handle g = some u := by
      have hu := hu
      simp only [State.handle] at hu
      rw [join_set (lt_of_get hfd)] at hu
      split_ifs at hu
      exact hu
    exact hname.trans (hlp ▸ hi.named g u l hu' hl)
  · exact hpaths.2
  · intro j hj
    dsimp only
    rw [List.length_set]
    exact hi.made j hj
  · intro j
    change unlinked.count j =
      if j ∈ s.hidden ∧ ((s.nodes.set h.node (left n))[j]?).join = none then 1 else 0
    rw [hlog,hi.once,hnode]
    by_cases hj : j = h.node
    · have hone : n.openCount - 1 = 0 ↔ n.openCount = 1 := by omega
      by_cases hcount : n.openCount = 1 <;> simp [hj,hn,left,hone,hcount]
    · simp [hj]

theorem Inv.close {s' : State} {accepts : Bool} (hi : Inv fuse s) (ho : Orderly fuse s (.close fd accepts))
    (hs : umfuseClose fuse s fd accepts = some s') : Inv fuse s' := by
  simp only [umfuseClose,Option.bind_eq_bind,Option.bind_eq_some_iff] at hs
  obtain ⟨h,hh,n,hn,hs⟩ := hs
  obtain rfl := Option.some.inj hs
  have hmark := hi.marked _ n hn
  cases hcheck : nodeHiddenpathcheck fuse n.path with
  | false =>
    have hnot : h.node ∉ s.hidden := fun hmem => by
      rw [hmark.mpr hmem] at hcheck
      cases hcheck
    rw [if_neg (by simp)]
    refine hi.release hh hn (fun _ _ _ _ => rfl) (fun _ => rfl) ?_
    intro j
    simp [hnot]
  | true =>
    have hcount : n.openCount = 1 := ho h hh n hn hcheck
    have hmem := hmark.mp hcheck
    rw [if_pos rfl]
    refine hi.release hh hn ?_ (fun hne => absurd hcount hne) ?_
    · intro j m hj hm
      have hpath : m.path ≠ n.path := fun heq => hj (hi.unique j _ m n hm hn heq)
      unfold fopsUnlink
      split_ifs
      · exact if_neg hpath
      · rfl
    · intro j
      rw [List.count_cons]
      by_cases hj : j = h.node
      · simp [hj,hcount,hmem]
      · simp [hj,Ne.symm hj]

theorem Inv.renamed_apart {new : Path} {names : Names} {accepts : Bool} (hi : Inv fuse s)
    (hn : s.node i = some n) (hrename : fopsRename accepts s.names n.path new = some names)
    (hfree : Free s n.path new) :
    ∀ j m, j ≠ i → s.node j = some m → names m.path = s.names m.path ∧ m.path ≠ new := by
  intro j m hj hm
  obtain ⟨hnot,honly⟩ := hfree _ (mem_of_node hm) m rfl
  have hpath : m.path ≠ n.path := fun heq => hj (hi.unique j i m n hm hn heq)
  exact ⟨(fopsRename_some hrename).2 _ hnot fun hpre => hpath (honly hpre),
    fun heq => hnot (heq ▸ List.prefix_refl _)⟩

theorem Inv.hide {new : Path} {names : Names} {accepts : Bool} (hi : Inv fuse s)
    (hn : s.node i = some n) (hrename : fopsRename accepts s.names n.path new = some names)
    (hfree : Free s n.path new) (hcheck : nodeHiddenpathcheck fuse new = true) :
    Inv fuse (hide s i names new) := by
  apply hi.move hn (fopsRename_some hrename).1 (hi.renamed_apart hn hrename hfree)
  · simp [hcheck]
  · intro j hj
    simp [hj]

theorem Inv.unlinkName (hi : Inv fuse s) (hfresh : ∀ j m, s.node j = some m → m.path ≠ path)
    (accepts : Bool) : Inv fuse { s with names := (fopsUnlink accepts s.names path).getD s.names } := by
  apply hi.rebind
  intro j m hm
  unfold fopsUnlink
  split_ifs
  · exact if_neg (hfresh j m hm)
  · rfl

theorem Inv.unlink (hi : Inv fuse s) {accepts : Bool} (ho : Orderly fuse s (.unlink path accepts)) :
    Inv fuse (umfuseUnlink fuse s path accepts) := by
  unfold umfuseUnlink
  split_ifs with hnone hhard
  · exact hi
  · apply hi.unlinkName
    intro j m hm hpath
    obtain ⟨hremove,hhas,-⟩ := ho _ (mem_of_node hm) m rfl hpath
    simp [hremove,hhas] at hhard
  · cases hsearch : nodeSearch s path with
    | none => exact hi.unlinkName (fun j m hm => hi.search_none hsearch hm) accepts
    | some i =>
      obtain ⟨n,hn,rfl⟩ := search_some hsearch
      obtain ⟨-,-,hfree⟩ := ho _ (mem_of_node hn) n rfl rfl
      have hi' : Inv fuse { s with hiddencount := s.hiddencount + 1 } :=
        hi.congr rfl rfl rfl rfl rfl rfl
      dsimp only
      split
      · exact hi'
      · rename_i names hrename
        exact hi'.hide hn hrename hfree (hiddenpath_check fuse _)

theorem Inv.rename (hi : Inv fuse s) {old new : Path} {accepts accepts' : Bool}
    (ho : Orderly fuse s (.rename old new accepts accepts')) :
    Inv fuse (umfuseRename fuse s old new accepts accepts') := by
  unfold umfuseRename
  dsimp only
  split
  · exact hi
  · rename_i names hrename
    obtain ⟨hfree,hroot⟩ := ho (by rw [hrename]; rfl)
    have hnone : nodeSearch s new = none := by
      cases hsearch : nodeSearch s new with
      | none => rfl
      | some j =>
        obtain ⟨m,hm,rfl⟩ := search_some hsearch
        exact absurd (List.prefix_refl _) (hfree _ (mem_of_node hm) m rfl).1
    simp only [hnone]
    cases hsearch : nodeSearch s old with
    | none =>
      apply hi.rebind
      intro j m hm
      obtain ⟨hnot,honly⟩ := hfree _ (mem_of_node hm) m rfl
      exact (fopsRename_some hrename).2 _ hnot fun hpre => hi.search_none hsearch hm (honly hpre)
    | some i =>
      obtain ⟨n,hn,rfl⟩ := search_some hsearch
      obtain ⟨hmnt,hold,hcheck⟩ := hroot _ (mem_of_node hn) n rfl rfl
      have hshown : i ∉ s.hidden := fun hmem => by
        rw [(hi.marked i n hn).mpr hmem] at hold
        cases hold
      rw [hmnt,List.nil_append]
      apply hi.move hn (fopsRename_some hrename).1 (hi.renamed_apart hn hrename hfree)
      · simp [hcheck,hshown]
      · intro j _
        rfl

theorem Inv.step {s' : State} {o : Op} (hi : Inv fuse s) (ho : Orderly fuse s o)
    (hs : step fuse s o = some s') : Inv fuse s' := by
  cases o with
  | «open» path creat accepts => exact Option.some.inj hs ▸ hi.open creat accepts ho
  | close fd accepts => exact hi.close ho hs
  | unlink path accepts => exact Option.some.inj hs ▸ hi.unlink ho
  | rename old new accepts accepts' => exact Option.some.inj hs ▸ hi.rename ho

end Steps

theorem Inv.init (fuse : Fuse) (names : Names) (files : Nat) : Inv fuse (State.init names files) := by
  refine ⟨?_,?_,List.nodup_nil,nofun,nofun,nofun,nofun,?_⟩
  · funext i
    simp [State.init,counts,users,RefCount.tally]
  · intro i
    simp [State.init,State.node]
  · intro i
    simp [State.init]

theorem handles_keep_files {fuse : Fuse} {names : Names} {files : Nat} {s : State}
    (h : Run (step fuse) (Orderly fuse) (State.init names files) s) : Sound s := by
  have hinv : Inv fuse s := h.invariant (fun _ _ _ hi ho hs => hi.step ho hs) (Inv.init fuse names files)
  exact hinv.sound

def mounted : Fuse := ⟨[['m']], 5, false, true⟩

def fileA : Path := [['a']]

def fileB : Path := [['b']]

def fileC : Path := [['c']]

def twoFiles : Names := fun p => if p = fileA then some 0 else if p = fileB then some 1 else none

def hideAndRename : List Op :=
  [.open fileA false true, .unlink fileA true, .open fileA true true, .close 0 true,
    .rename fileB fileC true true, .open fileC false true, .close 2 true]

theorem hideAndRename_sound :
    (exec (step mounted) (State.init twoFiles 2) hideAndRename).any (fun s =>
      decide (s.unlinked = [0]) && decide (s.handle 1 = some ⟨1, 2⟩)) = true ∧
    ∀ s ∈ exec (step mounted) (State.init twoFiles 2) hideAndRename, Sound s :=
  ⟨by decide +kernel,fun _ hs => handles_keep_files (Run.of_exec hs (by decide +kernel))⟩

theorem removed_while_open : ¬∀ (fuse : Fuse) (names : Names) (files : Nat) (s : State),
    Run (step fuse) (fun _ _ => True) (State.init names files) s → Sound s := by
  intro h
  have hlost : (exec (step mounted) (State.init twoFiles 2)
      [.open fileA false true,.open fileA false true,.unlink fileA true,.close 0 true]).any (fun s =>
        decide (s.handle 1 = some ⟨0, 0⟩) && decide (s.unlinked = [0])) = true := by decide +kernel
  obtain ⟨s,hrun,hs⟩ := Run.of_any hlost
  obtain ⟨hopen,hunlinked⟩ : s.handle 1 = some ⟨0, 0⟩ ∧ s.unlinked = [0] := by simpa using hs
  have hheld := (h mounted twoFiles 2 s hrun).held 1 _ hopen
  rw [hunlinked] at hheld
  cases hheld

end ViewOS.Umfuse.Nodes
