import ViewOS.Treepoch.Invariant
import Mathlib.Data.Set.Card

namespace ViewOS.Treepoch
open AddrTree Transition

def follow (m : Nat → Node) : Nat → List Bool → Option Nat
  | a, [] => some a
  | a, b :: q => ((m a).sub b).bind fun c => follow m c q

def Reached (s : State) (path : List Bool) (a : Nat) : Prop :=
  ∃ root, s.teRoot = some root ∧ follow s.mem root path = some a

def IsLeaf (n : Node) : Prop := n.sub false = none ∧ n.sub true = none

def Good (σ : Sys) : Prop := σ.te.teRoot = none ∧ σ.live = ∅ ∨ ∃ T, Inv σ T

theorem follow_eq {m : Nat → Node} {t : ATree} {par : Option Nat} {path q : List Bool}
    (h : t.Forall (Links m) par path) : follow m t.addr q = (t.get q).map ATree.addr := by
  induction q generalizing t par path with
  | nil => rfl
  | cons b q ih =>
    have hs := h.head.2 b
    cases t with
    | leaf a =>
      have e : (m (ATree.leaf a).addr).sub b = none := by simpa [ATree.child] using hs
      rw [follow,e]
      rfl
    | node a l r =>
      cases b with
      | false =>
        have e : (m (ATree.node a l r).addr).sub false = some l.addr := by simpa [ATree.child] using hs
        rw [follow,e]
        exact ih h.2.1
      | true =>
        have e : (m (ATree.node a l r).addr).sub true = some r.addr := by simpa [ATree.child] using hs
        rw [follow,e]
        exact ih h.2.2

section Read

variable {s : State} {T : ATree} {path : List Bool} {a : Nat}

theorem Rep.reached (h : Rep s T) : Reached s path a ↔ ∃ y, T.get path = some y ∧ y.addr = a := by
  unfold Reached
  rw [h.root]
  simp [follow_eq h.links]

theorem Rep.isLeaf (h : Rep s T) {y : ATree} (hy : T.get path = some y) :
    IsLeaf (s.mem y.addr) ∧ y = .leaf y.addr ∨
      ∃ l r, y = .node y.addr l r ∧ (s.mem y.addr).sub false = some l.addr ∧
        (s.mem y.addr).sub true = some r.addr := by
  obtain ⟨par,hl⟩ := h.links.get hy
  have hs := hl.head.2
  cases y with
  | leaf a =>
    refine Or.inl ⟨⟨?_,?_⟩,rfl⟩
    · simpa [ATree.child] using hs false
    · simpa [ATree.child] using hs true
  | node a l r =>
    refine Or.inr ⟨l,r,rfl,?_,?_⟩
    · simpa [ATree.child] using hs false
    · simpa [ATree.child] using hs true

theorem Rep.follow_leaf (h : Rep s T) {y : ATree} (hy : T.get path = some y) {l : Nat}
    (hl : l ∈ T.leaves) : (∃ q, follow s.mem y.addr q = some l) ↔ l ∈ y.leaves := by
  obtain ⟨par,hlinks⟩ := h.links.get hy
  constructor
  · rintro ⟨q,hq⟩
    rw [follow_eq hlinks] at hq
    obtain ⟨z,hz,rfl⟩ := Option.map_eq_some_iff.mp hq
    obtain ⟨q₀,hq₀⟩ := ATree.exists_get_of_mem_leaves hl
    have hleaf : IsLeaf (s.mem z.addr) := by
      rcases h.isLeaf hq₀ with ⟨hf,-⟩ | ⟨l,r,he,-⟩
      · exact hf
      · simp at he
    obtain ⟨par',hz'⟩ := hlinks.get hz
    have hzs := hz'.head.2 false
    rw [hleaf.1] at hzs
    cases z with
    | leaf b => exact (ATree.get_sublist hz).2.subset (by simp [ATree.leaves,ATree.addr])
    | node b l r => simp [ATree.child] at hzs
  · intro hly
    obtain ⟨q,hq⟩ := ATree.exists_get_of_mem_leaves hly
    exact ⟨q,by rw [follow_eq hlinks,hq]; rfl⟩

end Read

theorem weight_occupancy {σ : Sys} {y : ATree} (hn : y.leaves.Nodup) :
    y.weight (occupancy σ) =
      (σ.live.filter fun p => ∃ l ∈ y.leaves, (σ.tst p).treepoch = some l).card := by
  induction y with
  | leaf a => simp [ATree.weight,ATree.leaves,occupancy]
  | node a l r ihl ihr =>
    simp only [ATree.leaves,List.nodup_append'] at hn
    rw [ATree.weight,ihl hn.1,ihr hn.2.1,← Finset.card_union_of_disjoint]
    · congr 1
      ext p
      simp only [Finset.mem_union,Finset.mem_filter,ATree.leaves,List.mem_append,or_and_right,
        exists_or,and_or_left]
    · refine Finset.disjoint_filter.mpr ?_
      rintro p _ ⟨x,hx,ex⟩ ⟨z,hz,ez⟩
      obtain rfl : x = z := by simpa [ex] using ez
      exact hn.2.2 hx hz

structure Wellformed (σ : Sys) : Prop where
  children : ∀ path a, Reached σ.te path a →
    IsLeaf (σ.te.mem a) ∨ ∃ c d, (σ.te.mem a).sub false = some c ∧ (σ.te.mem a).sub true = some d
  procs : ∀ p ∈ σ.live, ∃ path a, (σ.tst p).treepoch = some a ∧ Reached σ.te path a ∧
    IsLeaf (σ.te.mem a)
  nproc : ∀ path a, Reached σ.te path a → (σ.te.mem a).nproc =
    {p | p ∈ σ.live ∧ ∃ q l, follow σ.te.mem a q = some l ∧ (σ.tst p).treepoch = some l}.ncard
  nproc_pos : σ.live.Nonempty → ∀ path a, Reached σ.te path a → 0 < (σ.te.mem a).nproc
  subheight : ∀ path a, Reached σ.te path a →
    IsGreatest {n | ∃ q, (follow σ.te.mem a q).isSome ∧ q.length = n} (σ.te.mem a).subheight
  rise_child : ∀ path a b c, Reached σ.te path a → (σ.te.mem a).sub b = some c →
    (σ.te.mem a).rise ≤ (σ.te.mem c).rise
  rise_root : ∀ path root a, σ.te.teRoot = some root → Reached σ.te path a →
    (σ.te.mem root).rise ≤ (σ.te.mem a).rise
  leaf_len : ∀ path a, Reached σ.te path a → IsLeaf (σ.te.mem a) → (σ.te.mem a).len ≤ maxDepth

theorem ATree.rise_le {m : Nat → Node} {t y : ATree} {par : Option Nat} {path q : List Bool}
    (h : t.Forall (Rises m) par path) (hy : t.get q = some y) :
    (m t.addr).rise ≤ (m y.addr).rise := by
  induction q generalizing t par path with
  | nil =>
    cases hy
    exact Nat.le_refl _
  | cons b q ih =>
    cases t with
    | leaf a => simp [ATree.get] at hy
    | node a l r =>
      cases b with
      | false => exact Nat.le_trans (h.2.1.head a rfl) (ih h.2.1 hy)
      | true => exact Nat.le_trans (h.2.2.head a rfl) (ih h.2.2 hy)

theorem Inv.wellformed {σ : Sys} {T : ATree} (h : Inv σ T) : Wellformed σ := by
  refine ⟨?_,?_,?_,?_,?_,?_,?_,?_⟩
  · intro path a ha
    obtain ⟨y,hy,rfl⟩ := h.rep.reached.mp ha
    rcases h.rep.isLeaf hy with ⟨hl,-⟩ | ⟨l,r,-,hl,hr⟩
    · exact Or.inl hl
    · exact Or.inr ⟨_,_,hl,hr⟩
  · intro p hp
    obtain ⟨a,ha,hpa⟩ := h.atLeaf p hp
    obtain ⟨path,hpath⟩ := ATree.exists_get_of_mem_leaves ha
    refine ⟨path,a,hpa,h.rep.reached.mpr ⟨_,hpath,rfl⟩,?_⟩
    rcases h.rep.isLeaf hpath with ⟨hl,-⟩ | ⟨l,r,he,-⟩
    · exact hl
    · simp at he
  · intro path a ha
    obtain ⟨y,hy,rfl⟩ := h.rep.reached.mp ha
    obtain ⟨par,hc⟩ := h.counts.get hy
    have hn := (ATree.nodup_leaves h.rep.nodup).sublist (ATree.get_sublist hy).2
    rw [hc.head,weight_occupancy hn,← Set.ncard_coe_finset]
    congr 1
    ext p
    simp only [Finset.coe_filter,Set.mem_ofPred_eq]
    refine and_congr_right fun hp => ?_
    obtain ⟨b,hb,hpb⟩ := h.atLeaf p hp
    constructor
    · rintro ⟨l,hl,hpl⟩
      obtain ⟨q,hq⟩ := (h.rep.follow_leaf hy ((ATree.get_sublist hy).2.subset hl)).mpr hl
      exact ⟨q,l,hq,hpl⟩
    · rintro ⟨q,l,hq,hpl⟩
      obtain rfl : b = l := by simpa [hpb] using hpl
      exact ⟨b,(h.rep.follow_leaf hy hb).mp ⟨q,hq⟩,hpl⟩
  · intro hne path a ha
    obtain ⟨y,hy,rfl⟩ := h.rep.reached.mp ha
    obtain ⟨par,hc⟩ := h.counts.get hy
    rw [hc.head]
    exact ATree.weight_pos fun b hb => h.occupied hne b ((ATree.get_sublist hy).2.subset hb)
  · intro path a ha
    obtain ⟨y,hy,rfl⟩ := h.rep.reached.mp ha
    obtain ⟨par,hh⟩ := h.rep.heights.get hy
    obtain ⟨par',hl⟩ := h.rep.links.get hy
    rw [hh.head]
    constructor
    · obtain ⟨q,hq,e⟩ := y.exists_get_height
      exact ⟨q,by rw [follow_eq hl]; simpa using hq,e⟩
    · rintro n ⟨q,hq,rfl⟩
      rw [follow_eq hl] at hq
      exact ATree.length_le_height (by simpa using hq)
  · intro path a b c ha hsub
    obtain ⟨y,hy,rfl⟩ := h.rep.reached.mp ha
    obtain ⟨par,hr⟩ := h.rep.rises.get hy
    obtain ⟨par',hl⟩ := h.rep.links.get hy
    have hchild : follow σ.te.mem y.addr [b] = some c := by simp [follow,hsub]
    rw [follow_eq hl] at hchild
    obtain ⟨z,hz,rfl⟩ := Option.map_eq_some_iff.mp hchild
    exact ATree.rise_le hr hz
  · intro path root a hroot ha
    obtain ⟨y,hy,rfl⟩ := h.rep.reached.mp ha
    obtain rfl : T.addr = root := by simpa [h.rep.root] using hroot
    exact ATree.rise_le h.rep.rises hy
  · intro path a ha _
    obtain ⟨y,hy,rfl⟩ := h.rep.reached.mp ha
    obtain ⟨par,hd⟩ := h.rep.depths.get hy
    have hlen := ATree.length_le_height (t := T) (q := path) (by simp [hy])
    rw [hd.head.1]
    simpa using Nat.le_trans hlen h.height

theorem Inv.start {σ : Sys} {p : Nat} {te : State} (hlive : σ.live = ∅)
    (hrep : Rep te (.leaf σ.te.next)) (hn : (te.mem σ.te.next).nproc = 1) :
    Inv { σ with te := te, live := insert p σ.live,
                 tst := Function.update σ.tst p ⟨σ.te.epochNow,some σ.te.next⟩ }
      (.leaf σ.te.next) := by
  have ho : occupancy (Sys.mk te (insert p σ.live)
      (Function.update σ.tst p ⟨σ.te.epochNow,some σ.te.next⟩) σ.svc) σ.te.next = 1 := by
    simp [occupancy,hlive,Finset.filter_singleton]
  refine ⟨hrep,?_,?_,?_,by simp [ATree.height]⟩
  · simp only [ATree.Forall,Counts,ATree.weight,ho]
    exact hn
  · intro q hq
    obtain rfl : q = p := by simpa [hlive] using hq
    exact ⟨σ.te.next,by simp [ATree.leaves],by simp⟩
  · intro _ b hb
    obtain rfl : b = σ.te.next := by simpa [ATree.leaves] using hb
    rw [ho]
    exact Nat.one_pos

theorem step_root {σ σ' : Sys} {op : Op} (hroot : σ.te.teRoot = none) (hlive : σ.live = ∅)
    (hs : step σ op = some σ') :
    ∃ p, op = .pcbPlusRoot p ∧ σ'.svc = σ.svc ∧ Inv σ' (.leaf σ.te.next) := by
  have hen := enabled_of_step hs
  cases op with
  | pcbPlusRoot p =>
    obtain ⟨te,e,hrep,-,-,hn⟩ := pcbPlusRoot_spec hroot hen.2
    obtain rfl : _ = σ' := by simpa [e] using hs
    exact ⟨p,rfl,rfl,Inv.start hlive hrep hn⟩
  | _ => simp [Enabled,hlive] at hen

theorem Good.after {σ σ' : Sys} {op : Op} (h : Good σ) (hs : step σ op = some σ') : Good σ' := by
  rcases h with ⟨hroot,hlive⟩ | ⟨T,h⟩
  · obtain ⟨p,-,-,h'⟩ := step_root hroot hlive hs
    exact Or.inr ⟨_,h'⟩
  · obtain ⟨T',he⟩ := effect_of_step h hs
    exact Or.inr ⟨T',he.inv h⟩

theorem Good.of_run {ok : Sys → Op → Prop} {σ : Sys} (h : Run step ok Sys.empty σ) : Good σ :=
  h.invariant (fun _ _ _ hg _ hs => hg.after hs) (Or.inl ⟨rfl,rfl⟩)

def TreeOp : Op → Prop
  | .pcbPlusRoot _ | .pcbPlus _ _ | .pcbNewfork _ | .pcbMinus _ => True
  | _ => False

theorem Good.progress {σ : Sys} {op : Op} (h : Good σ) (hop : TreeOp op) (hen : Enabled σ op) :
    ∃ σ', step σ op = some σ' := by
  cases op with
  | pcbPlusRoot p =>
    obtain ⟨te,e,-⟩ := pcbPlusRoot_spec hen.1 hen.2
    exact ⟨_,e⟩
  | pcbPlus pp p =>
    rcases h with ⟨-,hlive⟩ | ⟨T,h⟩
    · simp [Enabled,hlive] at hen
    · obtain ⟨C,a,rfl,ha⟩ := h.site hen.1
      exact ⟨_,pcbPlus_spec h hen.1 hen.2 ha⟩
  | pcbNewfork p =>
    rcases h with ⟨-,hlive⟩ | ⟨T,h⟩
    · simp [Enabled,hlive] at hen
    · obtain ⟨C,a,rfl,ha⟩ := h.site hen
      rcases pcbNewfork_spec h hen ha with ⟨-,e⟩ | ⟨-,te,e,-⟩
      · exact ⟨_,e⟩
      · exact ⟨_,e⟩
  | pcbMinus p =>
    rcases h with ⟨-,hlive⟩ | ⟨T,h⟩
    · simp [Enabled,hlive] at hen
    · obtain ⟨C,a,rfl,ha⟩ := h.site hen
      rcases pcbMinus_spec h hen ha with ⟨-,e⟩ | ⟨-,f,D,te,-,e,-⟩
      · exact ⟨_,e⟩
      · exact ⟨_,e⟩
  | _ => exact hop.elim

theorem Good.wellformed {σ : Sys} (h : Good σ) : Wellformed σ := by
  rcases h with ⟨hroot,hlive⟩ | ⟨T,h⟩
  · have hno : ∀ path a, ¬ Reached σ.te path a := by
      rintro path a ⟨root,hr,-⟩
      simp [hroot] at hr
    refine ⟨?_,?_,?_,?_,?_,?_,?_,?_⟩
    · exact fun path a ha => (hno path a ha).elim
    · simp [hlive]
    · exact fun path a ha => (hno path a ha).elim
    · exact fun _ path a ha => (hno path a ha).elim
    · exact fun path a ha => (hno path a ha).elim
    · exact fun path a _ _ ha => (hno path a ha).elim
    · exact fun path _ a _ ha => (hno path a ha).elim
    · exact fun path a ha => (hno path a ha).elim
  · exact h.wellformed

theorem reachable_wellformed {σ : Sys} (h : Run step (fun _ _ => True) Sys.empty σ) :
    Wellformed σ ∧ ∀ op, TreeOp op → Enabled σ op →
      ∃ σ', step σ op = some σ' ∧ Wellformed σ' := by
  have hg := Good.of_run h
  refine ⟨hg.wellformed,fun op hop hen => ?_⟩
  obtain ⟨σ',e⟩ := hg.progress hop hen
  exact ⟨σ',e,(hg.after e).wellformed⟩

def twoViews : List Op :=
  [.pcbPlusRoot 1, .pcbPlus 1 2, .pcbNewfork 2, .pcbPlus 2 3, .pcbNewfork 3, .pcbMinus 1]

theorem twoViews_wellformed : (exec step Sys.empty twoViews).isSome ∧
    ∀ σ, exec step Sys.empty twoViews = some σ → Wellformed σ :=
  ⟨rfl,fun _ h => (reachable_wellformed (Run.of_exec h (by simp [twoViews,Meets]))).1⟩

end ViewOS.Treepoch
