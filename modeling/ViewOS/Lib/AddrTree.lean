import Mathlib.Data.List.Nodup
import Mathlib.Data.List.Perm.Subperm

namespace AddrTree

inductive ATree where
  | leaf (a : Nat)
  | node (a : Nat) (l r : ATree)
  deriving DecidableEq, Repr

structure Frame where
  addr : Nat
  dir : Bool
  sib : ATree

namespace ATree

def addr : ATree → Nat
  | leaf a => a
  | node a _ _ => a

def child : ATree → Bool → Option ATree
  | leaf _, _ => none
  | node _ l r, b => some (bif b then r else l)

def addrs : ATree → List Nat
  | leaf a => [a]
  | node a l r => a :: (l.addrs ++ r.addrs)

def leaves : ATree → List Nat
  | leaf a => [a]
  | node _ l r => l.leaves ++ r.leaves

def height : ATree → Nat
  | leaf _ => 0
  | node _ l r => max l.height r.height + 1

def weight (w : Nat → Nat) : ATree → Nat
  | leaf a => w a
  | node _ l r => l.weight w + r.weight w

def get : ATree → List Bool → Option ATree
  | t, [] => some t
  | leaf _, _ :: _ => none
  | node _ l r, b :: q => (bif b then r else l).get q

def Forall (Q : Option Nat → List Bool → ATree → Prop) : Option Nat → List Bool → ATree → Prop
  | par, path, leaf a => Q par path (leaf a)
  | par, path, node a l r => Q par path (node a l r) ∧
      Forall Q (some a) (path ++ [false]) l ∧ Forall Q (some a) (path ++ [true]) r

theorem addr_mem_addrs (t : ATree) : t.addr ∈ t.addrs := by
  cases t <;> simp [addr,addrs]

theorem leaves_subset_addrs (t : ATree) : ∀ a ∈ t.leaves, a ∈ t.addrs := by
  induction t with
  | leaf b => simp [leaves,addrs]
  | node b l r ihl ihr =>
    intro a ha
    simp only [leaves,addrs,List.mem_append,List.mem_cons] at ha ⊢
    rcases ha with h | h
    · exact Or.inr (Or.inl (ihl a h))
    · exact Or.inr (Or.inr (ihr a h))

theorem leaves_nonempty (t : ATree) : ∃ a, a ∈ t.leaves := by
  induction t with
  | leaf b => exact ⟨b,by simp [leaves]⟩
  | node b l r ihl _ =>
    obtain ⟨a,ha⟩ := ihl
    exact ⟨a,by simp [leaves,ha]⟩

theorem nodup_leaves {t : ATree} (h : t.addrs.Nodup) : t.leaves.Nodup := by
  induction t with
  | leaf b => simp [leaves]
  | node b l r ihl ihr =>
    simp only [addrs,List.nodup_cons,List.nodup_append'] at h
    simp only [leaves,List.nodup_append']
    refine ⟨ihl h.2.1,ihr h.2.2.1,?_⟩
    intro x hx hy
    exact h.2.2.2 (leaves_subset_addrs l x hx) (leaves_subset_addrs r x hy)

theorem height_lt_length (t : ATree) : t.height < t.addrs.length := by
  induction t with
  | leaf b => simp [height,addrs]
  | node b l r ihl ihr =>
    simp only [height,addrs,List.length_cons,List.length_append]
    omega

theorem get_append (t : ATree) (q r : List Bool) : t.get (q ++ r) = (t.get q).bind (get · r) := by
  induction q generalizing t with
  | nil => rfl
  | cons b q ih =>
    cases t with
    | leaf a => rfl
    | node a l r => exact ih _

theorem get_parent {t y : ATree} {q : List Bool} {v : Bool} (h : t.get (q ++ [v]) = some y) :
    ∃ a l r, t.get q = some (node a l r) := by
  rw [get_append] at h
  obtain ⟨z,hz,hy⟩ := Option.bind_eq_some_iff.mp h
  cases z with
  | leaf a => simp [get] at hy
  | node a l r => exact ⟨a,l,r,hz⟩

theorem get_sublist {t y : ATree} {q : List Bool} (h : t.get q = some y) :
    y.addrs.Sublist t.addrs ∧ y.leaves.Sublist t.leaves := by
  induction q generalizing t with
  | nil =>
    cases h
    exact ⟨.refl _,.refl _⟩
  | cons b q ih =>
    cases t with
    | leaf a => simp [get] at h
    | node a l r =>
      cases b with
      | false =>
        obtain ⟨h1,h2⟩ := ih h
        exact ⟨(h1.trans (List.sublist_append_left _ _)).cons _,
          h2.trans (List.sublist_append_left _ _)⟩
      | true =>
        obtain ⟨h1,h2⟩ := ih h
        exact ⟨(h1.trans (List.sublist_append_right _ _)).cons _,
          h2.trans (List.sublist_append_right _ _)⟩

theorem exists_get_of_mem_leaves {t : ATree} {a : Nat} (h : a ∈ t.leaves) :
    ∃ q, t.get q = some (leaf a) := by
  induction t with
  | leaf b => exact ⟨[],by simpa [leaves,get,eq_comm] using h⟩
  | node b l r ihl ihr =>
    rcases List.mem_append.mp h with h | h
    · obtain ⟨q,hq⟩ := ihl h
      exact ⟨false :: q,hq⟩
    · obtain ⟨q,hq⟩ := ihr h
      exact ⟨true :: q,hq⟩

theorem length_le_height {t : ATree} {q : List Bool} (h : (t.get q).isSome) : q.length ≤ t.height := by
  induction q generalizing t with
  | nil => simp
  | cons b q ih =>
    cases t with
    | leaf a => simp [get] at h
    | node a l r =>
      cases b with
      | false =>
        have := ih (t := l) h
        simp only [height,List.length_cons]
        omega
      | true =>
        have := ih (t := r) h
        simp only [height,List.length_cons]
        omega

theorem exists_get_height (t : ATree) : ∃ q, (t.get q).isSome ∧ q.length = t.height := by
  induction t with
  | leaf a => exact ⟨[],rfl,rfl⟩
  | node a l r ihl ihr =>
    obtain ⟨ql,hl,el⟩ := ihl
    obtain ⟨qr,hr,er⟩ := ihr
    rcases Nat.le_total l.height r.height with h | h
    · exact ⟨true :: qr,hr,by simp only [height,List.length_cons]; omega⟩
    · exact ⟨false :: ql,hl,by simp only [height,List.length_cons]; omega⟩

theorem weight_congr {w w' : Nat → Nat} {t : ATree} (h : ∀ a ∈ t.leaves, w a = w' a) :
    t.weight w = t.weight w' := by
  induction t with
  | leaf a => exact h a (by simp [leaves])
  | node a l r ihl ihr =>
    simp only [weight]
    rw [ihl fun b hb => h b (by simp [leaves,hb]),ihr fun b hb => h b (by simp [leaves,hb])]

theorem le_weight {w : Nat → Nat} {t : ATree} {a : Nat} (h : a ∈ t.leaves) : w a ≤ t.weight w := by
  induction t with
  | leaf b => simp only [leaves,List.mem_singleton] at h; simp [weight,h]
  | node b l r ihl ihr =>
    simp only [leaves,List.mem_append] at h
    simp only [weight]
    rcases h with h | h
    · have := ihl h; omega
    · have := ihr h; omega

theorem weight_pos {w : Nat → Nat} {t : ATree} (h : ∀ a ∈ t.leaves, 0 < w a) : 0 < t.weight w := by
  obtain ⟨a,ha⟩ := t.leaves_nonempty
  exact Nat.lt_of_lt_of_le (h a ha) (le_weight ha)

section Forall

variable {Q Q' : Option Nat → List Bool → ATree → Prop} {par : Option Nat} {path : List Bool}

theorem Forall.head {t : ATree} (h : Forall Q par path t) : Q par path t := by
  cases t with
  | leaf a => exact h
  | node a l r => exact h.1

theorem Forall.imp {t : ATree}
    (h : ∀ par' path' y, y.addrs ⊆ t.addrs → y.leaves ⊆ t.leaves →
      (par' = par ∨ ∃ b ∈ t.addrs, par' = some b) → Q par' path' y → Q' par' path' y) :
    Forall Q par path t → Forall Q' par path t := by
  induction t generalizing par path with
  | leaf a => exact h par path _ (List.Subset.refl _) (List.Subset.refl _) (Or.inl rfl)
  | node a l r ihl ihr =>
    rintro ⟨hq,hl,hr⟩
    have hpar : ∀ (t' : ATree) (par' : Option Nat), t'.addrs ⊆ (node a l r).addrs →
        (par' = some a ∨ ∃ b ∈ t'.addrs, par' = some b) →
        ∃ b ∈ (node a l r).addrs, par' = some b := by
      rintro t' par' ht (rfl | ⟨b,hb,rfl⟩)
      · exact ⟨a,by simp [addrs],rfl⟩
      · exact ⟨b,ht hb,rfl⟩
    have hla : l.addrs ⊆ (node a l r).addrs := by intro b hb; simp [addrs,hb]
    have hra : r.addrs ⊆ (node a l r).addrs := by intro b hb; simp [addrs,hb]
    have hll : l.leaves ⊆ (node a l r).leaves := by intro b hb; simp [leaves,hb]
    have hrl : r.leaves ⊆ (node a l r).leaves := by intro b hb; simp [leaves,hb]
    refine ⟨h par path _ (List.Subset.refl _) (List.Subset.refl _) (Or.inl rfl) hq,?_,?_⟩
    · refine ihl (fun par' path' y hy hv hp => ?_) hl
      exact h par' path' y (List.Subset.trans hy hla) (List.Subset.trans hv hll)
        (Or.inr (hpar l par' hla hp))
    · refine ihr (fun par' path' y hy hv hp => ?_) hr
      exact h par' path' y (List.Subset.trans hy hra) (List.Subset.trans hv hrl)
        (Or.inr (hpar r par' hra hp))

theorem Forall.below {t : ATree} {path' : List Bool}
    (h : ∀ b p p' y, (some b = par ∨ b ∈ t.addrs) → y.addrs ⊆ t.addrs → Q (some b) p y →
      Q' (some b) p' y) (hp : par.isSome) :
    Forall Q par path t → Forall Q' par path' t := by
  obtain ⟨c,rfl⟩ := Option.isSome_iff_exists.mp hp
  clear hp
  induction t generalizing c path path' with
  | leaf a => exact h c path path' _ (Or.inl rfl) (List.Subset.refl _)
  | node a l r ihl ihr =>
    rintro ⟨hq,hl,hr⟩
    have hsub : ∀ t' : ATree, t'.addrs ⊆ (node a l r).addrs → ∀ b p p' y,
        (some b = some a ∨ b ∈ t'.addrs) → y.addrs ⊆ t'.addrs → Q (some b) p y →
        Q' (some b) p' y := by
      rintro t' ht b p p' y hb hy
      refine h b p p' y (Or.inr ?_) (List.Subset.trans hy ht)
      rcases hb with hb | hb
      · cases hb
        simp [addrs]
      · exact ht hb
    exact ⟨h c path path' _ (Or.inl rfl) (List.Subset.refl _) hq,
      ihl a (hsub l fun b hb => by simp [addrs,hb]) hl,
      ihr a (hsub r fun b hb => by simp [addrs,hb]) hr⟩

theorem Forall.move {t : ATree} {par' : Option Nat} {path' : List Bool} (hn : t.addrs.Nodup)
    (hroot : Q' par' path' t)
    (h : ∀ b p p' y, b ∈ t.addrs → y.addrs ⊆ t.addrs → y.addr ≠ t.addr → Q (some b) p y →
      Q' (some b) p' y) :
    Forall Q par path t → Forall Q' par' path' t := by
  cases t with
  | leaf a => exact fun _ => hroot
  | node a l r =>
    rintro ⟨-,hl,hr⟩
    simp only [addrs,List.nodup_cons,List.mem_append,not_or] at hn
    have hsub : ∀ t' : ATree, t'.addrs ⊆ (node a l r).addrs → a ∉ t'.addrs → ∀ b p p' y,
        (some b = some a ∨ b ∈ t'.addrs) → y.addrs ⊆ t'.addrs → Q (some b) p y →
        Q' (some b) p' y := by
      intro t' ht ha b p p' y hb hy
      have hne : y.addr ≠ a := fun he => ha (he ▸ hy y.addr_mem_addrs)
      refine h b p p' y ?_ (List.Subset.trans hy ht) hne
      rcases hb with hb | hb
      · cases hb
        simp [addrs]
      · exact ht hb
    exact ⟨hroot,hl.below (hsub l (fun b hb => by simp [addrs,hb]) hn.1.1) rfl,
      hr.below (hsub r (fun b hb => by simp [addrs,hb]) hn.1.2) rfl⟩

theorem Forall.get {t y : ATree} {q : List Bool} (h : Forall Q par path t) (hy : t.get q = some y) :
    ∃ par', Forall Q par' (path ++ q) y := by
  induction q generalizing par path t with
  | nil => cases hy; exact ⟨par,by simpa using h⟩
  | cons b q ih =>
    cases t with
    | leaf a => simp [ATree.get] at hy
    | node a l r =>
      cases b with
      | false =>
        obtain ⟨p,hp⟩ := ih h.2.1 hy
        exact ⟨p,by simpa using hp⟩
      | true =>
        obtain ⟨p,hp⟩ := ih h.2.2 hy
        exact ⟨p,by simpa using hp⟩

theorem forall_of_get {t : ATree} (h : ∀ q y par', t.get q = some y → Q par' (path ++ q) y) :
    Forall Q par path t := by
  induction t generalizing par path with
  | leaf a =>
    have h0 := h [] _ par rfl
    rwa [List.append_nil] at h0
  | node a l r ihl ihr =>
    refine ⟨by simpa using h [] _ par rfl,ihl ?_,ihr ?_⟩
    · intro q y par' hy
      simpa using h (false :: q) y par' hy
    · intro q y par' hy
      simpa using h (true :: q) y par' hy

end Forall

end ATree

open ATree

namespace Frame

def fill (f : Frame) (t : ATree) : ATree :=
  bif f.dir then node f.addr f.sib t else node f.addr t f.sib

@[simp] theorem fill_addr (f : Frame) (t : ATree) : (f.fill t).addr = f.addr := by
  unfold fill; cases f.dir <;> rfl

theorem fill_child_dir (f : Frame) (t : ATree) : (f.fill t).child f.dir = some t := by
  unfold fill; cases f.dir <;> rfl

theorem fill_child_other (f : Frame) (t : ATree) : (f.fill t).child (!f.dir) = some f.sib := by
  unfold fill; cases f.dir <;> rfl

theorem fill_get_dir (f : Frame) (t : ATree) (q : List Bool) :
    (f.fill t).get (f.dir :: q) = t.get q := by
  obtain ⟨a,d,u⟩ := f
  cases d <;> rfl

theorem fill_get_other (f : Frame) (t : ATree) (q : List Bool) :
    (f.fill t).get ((!f.dir) :: q) = f.sib.get q := by
  obtain ⟨a,d,u⟩ := f
  cases d <;> rfl

theorem fill_height (f : Frame) (t : ATree) : (f.fill t).height = max t.height f.sib.height + 1 := by
  unfold fill; cases f.dir <;> simp [height,Nat.max_comm]

theorem fill_weight (f : Frame) (t : ATree) (w : Nat → Nat) :
    (f.fill t).weight w = t.weight w + f.sib.weight w := by
  unfold fill; cases f.dir <;> simp [weight,Nat.add_comm]

theorem mem_fill_addrs {f : Frame} {t : ATree} {a : Nat} :
    a ∈ (f.fill t).addrs ↔ a = f.addr ∨ a ∈ t.addrs ∨ a ∈ f.sib.addrs := by
  unfold fill; cases f.dir <;> simp [addrs,or_comm]

theorem mem_fill_leaves {f : Frame} {t : ATree} {a : Nat} :
    a ∈ (f.fill t).leaves ↔ a ∈ t.leaves ∨ a ∈ f.sib.leaves := by
  unfold fill; cases f.dir <;> simp [leaves,or_comm]

theorem fill_addrs_perm (f : Frame) (t : ATree) :
    (f.fill t).addrs.Perm (t.addrs ++ f.addr :: f.sib.addrs) := by
  unfold fill
  cases f.dir
  · exact List.perm_middle.symm
  · exact (List.Perm.cons _ List.perm_append_comm).trans List.perm_middle.symm

theorem forall_fill {Q : Option Nat → List Bool → ATree → Prop} {par : Option Nat}
    {path : List Bool} {f : Frame} {t : ATree} :
    Forall Q par path (f.fill t) ↔ Q par path (f.fill t) ∧
      Forall Q (some f.addr) (path ++ [!f.dir]) f.sib ∧
      Forall Q (some f.addr) (path ++ [f.dir]) t := by
  obtain ⟨a,d,s⟩ := f
  cases d <;> simp [fill,Forall,and_comm]

end Frame

namespace Ctx

def plug : List Frame → ATree → ATree
  | [], t => t
  | f :: C, t => plug C (f.fill t)

def path : List Frame → List Bool
  | [] => []
  | f :: C => path C ++ [f.dir]

def up (C : List Frame) : Option Nat := C.head?.map Frame.addr

def spine (C : List Frame) : List Nat := C.map Frame.addr

def addrs : List Frame → List Nat
  | [] => []
  | f :: C => f.addr :: f.sib.addrs ++ addrs C

def leaves : List Frame → List Nat
  | [] => []
  | f :: C => f.sib.leaves ++ leaves C

def Forall (Q : Option Nat → List Bool → ATree → Prop) : List Frame → ATree → Prop
  | [], _ => True
  | f :: C, t => Q (up C) (path C) (f.fill t) ∧
      ATree.Forall Q (some f.addr) (path C ++ [!f.dir]) f.sib ∧ Forall Q C (f.fill t)

@[simp] theorem path_length (C : List Frame) : (path C).length = C.length := by
  induction C with
  | nil => rfl
  | cons f C ih => simp [path,ih]

theorem forall_plug {Q : Option Nat → List Bool → ATree → Prop} {C : List Frame} {t : ATree} :
    ATree.Forall Q none [] (plug C t) ↔ Forall Q C t ∧ ATree.Forall Q (up C) (path C) t := by
  induction C generalizing t with
  | nil => simp [plug,Forall,up,path]
  | cons f C ih =>
    simp only [plug,ih,Forall,Frame.forall_fill,up,path,List.head?_cons,Option.map_some]
    tauto

theorem plug_addrs_perm (C : List Frame) (t : ATree) :
    (plug C t).addrs.Perm (t.addrs ++ addrs C) := by
  induction C generalizing t with
  | nil => simp [plug,addrs]
  | cons f C ih =>
    refine (ih (f.fill t)).trans ?_
    simpa [addrs] using (Frame.fill_addrs_perm f t).append_right (addrs C)

theorem mem_plug_addrs {C : List Frame} {t : ATree} {a : Nat} :
    a ∈ (plug C t).addrs ↔ a ∈ t.addrs ∨ a ∈ addrs C := by
  rw [(plug_addrs_perm C t).mem_iff,List.mem_append]

theorem mem_plug_leaves {C : List Frame} {t : ATree} {a : Nat} :
    a ∈ (plug C t).leaves ↔ a ∈ t.leaves ∨ a ∈ leaves C := by
  induction C generalizing t with
  | nil => simp [plug,leaves]
  | cons f C ih => simp only [plug,ih,Frame.mem_fill_leaves,leaves,List.mem_append,or_assoc]

theorem plug_cons_addr (f : Frame) (C : List Frame) (t t' : ATree) :
    (plug (f :: C) t).addr = (plug (f :: C) t').addr := by
  induction C generalizing f t t' with
  | nil => simp [plug]
  | cons g C ih => exact ih g (f.fill t) (f.fill t')

theorem root_mem_addrs (f : Frame) (C : List Frame) (t : ATree) :
    (plug (f :: C) t).addr ∈ addrs (f :: C) := by
  induction C generalizing f t with
  | nil => simp [plug,addrs]
  | cons g C ih =>
    have h := ih g (f.fill t)
    simp only [addrs,List.cons_append,List.mem_cons,List.mem_append] at h ⊢
    tauto

theorem leaves_subset_addrs (C : List Frame) : ∀ a ∈ leaves C, a ∈ addrs C := by
  induction C with
  | nil => simp [leaves]
  | cons f C ih =>
    intro a ha
    simp only [leaves,List.mem_append] at ha
    simp only [addrs,List.mem_cons,List.mem_append,List.cons_append]
    rcases ha with h | h
    · exact Or.inr (Or.inl (ATree.leaves_subset_addrs _ a h))
    · exact Or.inr (Or.inr (ih a h))

theorem spine_subset_addrs (C : List Frame) : ∀ a ∈ spine C, a ∈ addrs C := by
  induction C with
  | nil => simp [spine]
  | cons f C ih =>
    intro a ha
    simp only [spine,List.map_cons,List.mem_cons] at ha
    simp only [addrs,List.mem_cons,List.mem_append,List.cons_append]
    rcases ha with h | h
    · exact Or.inl h
    · exact Or.inr (Or.inr (ih a h))

theorem spine_nodup {C : List Frame} (h : (addrs C).Nodup) : (spine C).Nodup := by
  induction C with
  | nil => simp [spine]
  | cons f C ih =>
    simp only [addrs,List.cons_append,List.nodup_cons,List.nodup_append',List.mem_append] at h
    simp only [spine,List.map_cons,List.nodup_cons]
    exact ⟨fun hm => h.1 (Or.inr (spine_subset_addrs C _ hm)),ih h.2.2.1⟩

theorem sib_addr_mem {C : List Frame} {g : Frame} {b : Nat} (hg : g ∈ C) (hb : b ∈ g.sib.addrs) :
    b ∈ addrs C := by
  induction C with
  | nil => simp at hg
  | cons f C ih =>
    simp only [addrs,List.cons_append,List.mem_cons,List.mem_append]
    rcases List.mem_cons.mp hg with rfl | hg
    · exact Or.inr (Or.inl hb)
    · exact Or.inr (Or.inr (ih hg))

theorem sib_leaf_mem {C : List Frame} {g : Frame} {b : Nat} (hg : g ∈ C) (hb : b ∈ g.sib.leaves) :
    b ∈ addrs C :=
  sib_addr_mem hg (ATree.leaves_subset_addrs _ b hb)

theorem sib_mem_leaves {C : List Frame} {g : Frame} {b : Nat} (hg : g ∈ C) (hb : b ∈ g.sib.leaves) :
    b ∈ leaves C := by
  induction C with
  | nil => simp at hg
  | cons f C ih =>
    simp only [leaves,List.mem_append]
    rcases List.mem_cons.mp hg with rfl | hg
    · exact Or.inl hb
    · exact Or.inr (ih hg)

theorem frame_addr_mem {C : List Frame} {g : Frame} (hg : g ∈ C) : g.addr ∈ addrs C :=
  spine_subset_addrs C _ (List.mem_map_of_mem hg)

theorem up_mem_spine {C : List Frame} {g : Nat} (hg : g ∈ up C) : g ∈ spine C := by
  cases C with
  | nil => simp [up] at hg
  | cons f C => simpa [up,spine,eq_comm] using Or.inl hg

theorem up_mem {C : List Frame} {g : Nat} (hg : g ∈ up C) : g ∈ addrs C :=
  spine_subset_addrs C g (up_mem_spine hg)

theorem sib_notMem_spine {C : List Frame} {g : Frame} {b : Nat} (hn : (addrs C).Nodup) (hg : g ∈ C)
    (hb : b ∈ g.sib.addrs) : b ∉ spine C := by
  induction C with
  | nil => simp at hg
  | cons f C ih =>
    simp only [addrs,List.cons_append,List.nodup_cons,List.nodup_append',List.mem_append,
      not_or] at hn
    simp only [spine,List.map_cons,List.mem_cons,not_or]
    rcases List.mem_cons.mp hg with rfl | hg
    · exact ⟨fun h => hn.1.1 (h ▸ hb),fun h => hn.2.2.2 hb (spine_subset_addrs C _ h)⟩
    · exact ⟨fun h => hn.1.2 (h ▸ sib_addr_mem hg hb),ih hn.2.2.1 hg⟩

theorem exists_plug_of_mem {T : ATree} {a : Nat} (h : a ∈ T.addrs) :
    ∃ C t, T = plug C t ∧ t.addr = a := by
  suffices H : ∀ (t : ATree) (C : List Frame), a ∈ t.addrs →
      ∃ C' t', plug C t = plug C' t' ∧ t'.addr = a from H T [] h
  intro t
  induction t with
  | leaf b =>
    intro C hb
    exact ⟨C,_,rfl,(List.mem_singleton.mp hb).symm⟩
  | node b l r ihl ihr =>
    intro C hb
    simp only [ATree.addrs,List.mem_cons,List.mem_append] at hb
    rcases hb with rfl | hl | hr
    · exact ⟨C,_,rfl,rfl⟩
    · exact ihl (⟨b,false,r⟩ :: C) hl
    · exact ihr (⟨b,true,l⟩ :: C) hr

theorem exists_plug_leaf {T : ATree} {a : Nat} (h : a ∈ T.leaves) : ∃ C, T = plug C (leaf a) := by
  suffices H : ∀ (t : ATree) (C : List Frame), a ∈ t.leaves → ∃ C', plug C t = plug C' (leaf a) from
    H T [] h
  intro t
  induction t with
  | leaf b =>
    intro C hb
    rw [List.mem_singleton.mp hb]
    exact ⟨C,rfl⟩
  | node b l r ihl ihr =>
    intro C hb
    simp only [ATree.leaves,List.mem_append] at hb
    rcases hb with hl | hr
    · exact ihl (⟨b,false,r⟩ :: C) hl
    · exact ihr (⟨b,true,l⟩ :: C) hr

theorem get_plug (C : List Frame) (t : ATree) (q : List Bool) :
    (plug C t).get (path C ++ q) = t.get q := by
  induction C generalizing t q with
  | nil => rfl
  | cons f C ih =>
    simp only [plug,path,List.append_assoc,ih]
    obtain ⟨a,d,s⟩ := f
    cases d <;> rfl

theorem Forall.imp {Q Q' : Option Nat → List Bool → ATree → Prop} {R : ATree → ATree → Prop}
    {C : List Frame} {t t' : ATree}
    (hR : ∀ f ∈ C, ∀ y y', R y y' → R (f.fill y) (f.fill y'))
    (hq : ∀ f ∈ C, ∀ par path y y', R y y' → (par = none ∨ ∃ b ∈ spine C, par = some b) →
      Q par path (f.fill y) → Q' par path (f.fill y'))
    (hs : ∀ f ∈ C, ∀ path, ATree.Forall Q (some f.addr) path f.sib →
      ATree.Forall Q' (some f.addr) path f.sib)
    (ht : R t t') : Forall Q C t → Forall Q' C t' := by
  induction C generalizing t t' with
  | nil => exact fun _ => trivial
  | cons f C ih =>
    rintro ⟨h1,h2,h3⟩
    refine ⟨hq f (by simp) _ _ t t' ht ?_ h1,hs f (by simp) _ h2,?_⟩
    · cases C with
      | nil => exact Or.inl rfl
      | cons g C => exact Or.inr ⟨g.addr,by simp [spine],rfl⟩
    · refine ih (fun g hg => hR g (by simp [hg])) ?_ (fun g hg => hs g (by simp [hg]))
        (hR f (by simp) _ _ ht) h3
      intro g hg par path y y' hy hp
      refine hq g (by simp [hg]) par path y y' hy ?_
      rcases hp with rfl | ⟨b,hb,rfl⟩
      · exact Or.inl rfl
      · exact Or.inr ⟨b,by simpa [spine] using Or.inr hb,rfl⟩

theorem Forall.rehang {Q Q' : Option Nat → List Bool → ATree → Prop} {C : List Frame} {t u : ATree}
    (h : ∀ par path y y', y.addr = y'.addr → y.addr ∈ addrs C →
      (par = none ∨ ∃ b ∈ addrs C, par = some b) → Q par path y → Q' par path y')
    (hQ : Forall Q C t) : Forall Q' C u := by
  refine Forall.imp (R := fun _ _ => True) (fun _ _ _ _ _ => trivial) ?_ ?_ trivial hQ
  · intro f hf par path y y' _ hp hq
    refine h par path _ _ (by simp) ?_ ?_ hq
    · simpa using spine_subset_addrs C _ (List.mem_map_of_mem hf)
    · rcases hp with rfl | ⟨b,hb,rfl⟩
      · exact Or.inl rfl
      · exact Or.inr ⟨b,spine_subset_addrs C _ hb,rfl⟩
  · intro f hf path hsib
    refine hsib.imp fun par' path' y hy _ hp hq => ?_
    refine h par' path' y y rfl (sib_addr_mem hf (hy y.addr_mem_addrs)) (Or.inr ?_) hq
    rcases hp with rfl | ⟨b,hb,rfl⟩
    · exact ⟨f.addr,spine_subset_addrs C _ (List.mem_map_of_mem hf),rfl⟩
    · exact ⟨b,sib_addr_mem hf hb,rfl⟩

theorem plug_height_mono {t t' : ATree} (C : List Frame) (h : t'.height ≤ t.height) :
    (plug C t').height ≤ (plug C t).height := by
  induction C generalizing t t' with
  | nil => exact h
  | cons f C ih =>
    refine ih ?_
    simp only [Frame.fill_height]
    omega

theorem plug_collapse_height (f : Frame) (C : List Frame) (a : Nat) :
    (plug C f.sib).height ≤ (plug (f :: C) (.leaf a)).height := by
  refine plug_height_mono C ?_
  simp only [Frame.fill_height]
  omega

theorem plug_height_le {C : List Frame} {t t' : ATree} {n : Nat} (h : (plug C t).height ≤ n)
    (ht : t'.height + C.length ≤ n) : (plug C t').height ≤ n := by
  induction C generalizing t t' with
  | nil => simpa [plug] using ht
  | cons f C ih =>
    have hsib : ∀ (D : List Frame) (y : ATree), y.height + D.length ≤ (plug D y).height := by
      intro D
      induction D with
      | nil => intro y; simp [plug]
      | cons g D ihD =>
        intro y
        have := ihD (g.fill y)
        rw [Frame.fill_height] at this
        simp only [plug,List.length_cons]
        omega
    refine ih (t := f.fill t) h ?_
    have hf := hsib C (f.fill t)
    simp only [plug] at h
    rw [Frame.fill_height] at hf ⊢
    simp only [List.length_cons] at ht
    omega

end Ctx

def Climb (parent : Nat → Option Nat) : Option Nat → List Nat → Prop
  | none, [] => True
  | some a, b :: l => a = b ∧ Climb parent (parent a) l
  | _, _ => False

theorem Climb.congr {parent parent' : Nat → Option Nat} {p : Option Nat} {l : List Nat}
    (h : ∀ a ∈ l, parent a = parent' a) (hc : Climb parent p l) : Climb parent' p l := by
  induction l generalizing p with
  | nil =>
    cases p with
    | none => trivial
    | some a => simp [Climb] at hc
  | cons b l ih =>
    cases p with
    | none => simp [Climb] at hc
    | some a =>
      obtain ⟨rfl,hc⟩ := hc
      refine ⟨rfl,?_⟩
      rw [← h a (by simp)]
      exact ih (fun c hc => h c (by simp [hc])) hc

theorem Climb.unique {parent : Nat → Option Nat} {p : Option Nat} {l l' : List Nat}
    (h : Climb parent p l) (h' : Climb parent p l') : l = l' := by
  induction l generalizing p l' with
  | nil =>
    cases p with
    | none =>
      cases l' with
      | nil => rfl
      | cons b l' => simp [Climb] at h'
    | some a => simp [Climb] at h
  | cons b l ih =>
    cases p with
    | none => simp [Climb] at h
    | some a =>
      cases l' with
      | nil => simp [Climb] at h'
      | cons b' l' =>
        obtain ⟨rfl,h⟩ := h
        obtain ⟨rfl,h'⟩ := h'
        rw [ih h h']

theorem Climb.drop {parent : Nat → Option Nat} {p : Option Nat} {l r : List Nat} {a : Nat}
    (h : Climb parent p (l ++ a :: r)) : Climb parent (some a) (a :: r) := by
  induction l generalizing p with
  | nil =>
    cases p with
    | none => simp [Climb] at h
    | some b => exact ⟨rfl,h.1 ▸ h.2⟩
  | cons b l ih =>
    cases p with
    | none => simp [Climb] at h
    | some c => exact ih h.2

theorem Climb.nodup {parent : Nat → Option Nat} {p : Option Nat} {l : List Nat}
    (h : Climb parent p l) : l.Nodup := by
  induction l generalizing p with
  | nil => exact List.nodup_nil
  | cons b l ih =>
    cases p with
    | none => simp [Climb] at h
    | some a =>
      obtain ⟨rfl,h⟩ := h
      refine List.nodup_cons.mpr ⟨fun hm => ?_,ih h⟩
      obtain ⟨l₁,l₂,rfl⟩ := List.append_of_mem hm
      have hself : Climb parent (some a) (a :: (l₁ ++ a :: l₂)) := ⟨rfl,h⟩
      have he := congrArg List.length ((Climb.drop h).unique hself)
      simp only [List.length_cons,List.length_append] at he
      omega

theorem Ctx.climb {parent : Nat → Option Nat} {C : List Frame} {t : ATree}
    (h : Ctx.Forall (fun par _ y => parent y.addr = par) C t) :
    Climb parent (Ctx.up C) (Ctx.spine C) := by
  induction C generalizing t with
  | nil => trivial
  | cons f C ih =>
    refine ⟨rfl,?_⟩
    have hp := h.1
    simp only [Frame.fill_addr] at hp
    rw [hp]
    exact ih h.2.2

theorem length_le_of_nodup {l : List Nat} {n : Nat} (hn : l.Nodup) (h : ∀ a ∈ l, a < n) :
    l.length ≤ n := by
  have hs : l ⊆ List.range n := fun a ha => List.mem_range.mpr (h a ha)
  simpa using (List.subperm_of_subset hn hs).length_le

end AddrTree
