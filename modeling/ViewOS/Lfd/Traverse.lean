import ViewOS.Lfd.Table
import ViewOS.Lib.AddrTree
import ViewOS.Lib.Run

namespace ViewOS.Lfd
open Transition AddrTree

def Cell.null : Cell := .free (some 0)

def deleteFreeList : Nat → Lfds → Option Lfds
  | 0, t => if t.tabfree = none then some t else none
  | fuel + 1, t =>
    match t.tabfree with
    | none => some t
    | some lfd =>
      match t.tab lfd with
      | .free next => deleteFreeList fuel { t.store lfd .null with tabfree := next }
      | .live _ => none

section Traversal

variable {σ ρ : Type}

def visitCell (f : (Nat → Option LfdTable) → Nat → σ → σ) (x : Lfds × σ) (lfd : Nat) : Lfds × σ :=
  if x.1.tab lfd ≠ .null then (x.1, f x.1.entry lfd x.2) else (lfdFree x.1 lfd, x.2)

def lfdForall (f : (Nat → Option LfdTable) → Nat → σ → σ) (t : Lfds) (arg : σ) :
    Option (Lfds × σ) := do
  let t ← deleteFreeList t.tabmax t
  some ((List.range t.tabmax).foldl (visitCell f) (t, arg))

def lfdForallR (f : (Nat → Option LfdTable) → Nat → σ → σ × Option ρ) (t : Lfds) (arg : σ) :
    Option (Lfds × σ × Option ρ) :=
  lfdForall (fun entry lfd x => if x.2.isNone then f entry lfd x.1 else x) t (arg, none)

def Lfds.live (t : Lfds) : List Nat := (List.range t.tabmax).filter fun lfd => (t.entry lfd).isSome

def untilResult (f : Nat → σ → σ × Option ρ) : List Nat → σ → σ × Option ρ
  | [], arg => (arg, none)
  | lfd :: lfds, arg =>
    match f lfd arg with
    | (arg, some rv) => (arg, some rv)
    | (arg, none) => untilResult f lfds arg

inductive TabOp (σ ρ : Type) where
  | alloc (e : LfdTable)
  | free (lfd : Nat)
  | «forall» (f : (Nat → Option LfdTable) → Nat → σ → σ) (arg : σ)
  | forallR (f : (Nat → Option LfdTable) → Nat → σ → σ × Option ρ) (arg : σ)

-- What was allocated and not freed since.
abbrev History := Nat → Option LfdTable

def tabStep (x : Lfds × History) : TabOp σ ρ → Option (Lfds × History)
  | .alloc e =>
    (lfdAlloc x.1).map fun y => (y.1.store y.2 (.live e), Function.update x.2 y.2 (some e))
  | .free lfd => some (lfdFree x.1 lfd, Function.update x.2 lfd none)
  | .«forall» f arg => (lfdForall f x.1 arg).map fun y => (y.1, x.2)
  | .forallR f arg => (lfdForallR f x.1 arg).map fun y => (y.1, x.2)

def FreesLive (x : Lfds × History) : TabOp σ ρ → Prop
  | .free lfd => x.2 lfd ≠ none
  | _ => True

theorem deleteFreeList_spec {l : List Nat} {fuel : Nat} {t : Lfds} (hl : Linked t.tab t.tabfree l)
    (hn : l.Nodup) (hf : l.length ≤ fuel) :
    ∃ u, deleteFreeList fuel t = some u ∧ u.tabfree = none ∧ u.tabmax = t.tabmax ∧
      ∀ a, u.tab a = if a ∈ l then .null else t.tab a := by
  induction l generalizing fuel t with
  | nil =>
    cases hfree : t.tabfree with
    | none => exact ⟨t,by cases fuel <;> simp [deleteFreeList,hfree],hfree,rfl,by simp⟩
    | some a =>
      rw [hfree] at hl
      exact hl.elim
  | cons b l ih =>
    obtain ⟨k,rfl⟩ : ∃ k, fuel = k + 1 := ⟨fuel - 1,by simp at hf; omega⟩
    obtain ⟨hb,hnl⟩ := List.nodup_cons.mp hn
    cases hfree : t.tabfree with
    | none =>
      rw [hfree] at hl
      exact hl.elim
    | some a =>
      rw [hfree] at hl
      obtain ⟨rfl,next,hnext,hrest⟩ := hl
      have hlink : Linked (Function.update t.tab a .null) next l :=
        hrest.congr fun c hc => Function.update_of_ne (fun h : c = a => hb (h ▸ hc)) _ _
      obtain ⟨u,hu,hnone,hmax,htab⟩ :=
        @ih k { t.store a .null with tabfree := next } hlink hnl (by simpa using hf)
      refine ⟨u,by simpa only [deleteFreeList,hfree,hnext] using hu,hnone,hmax,fun c => ?_⟩
      rw [htab c]
      rcases eq_or_ne c a with rfl | hc
      · simp [Lfds.store]
      · simp [Lfds.store,hc]

structure Rebuilt (t u : Lfds) (n : Nat) : Prop where
  entry : u.entry = t.entry
  max : u.tabmax = t.tabmax
  marked : ∀ a, n ≤ a → a < t.tabmax → t.entry a = none → u.tab a = .null
  linked : Linked u.tab u.tabfree ((List.range n).filter fun a => (t.entry a).isNone).reverse

theorem Rebuilt.start {t : Lfds} {l : List Nat} (h : FreeList t l) :
    ∃ u, deleteFreeList t.tabmax t = some u ∧ Rebuilt t u 0 := by
  have hlen : l.length ≤ t.tabmax :=
    length_le_of_nodup h.nodup fun a ha => ((h.mem a).mp ha).1
  obtain ⟨u,hu,hnone,hmax,htab⟩ := deleteFreeList_spec h.linked h.nodup hlen
  refine ⟨u,hu,?_,hmax,fun a _ hlt he => ?_,?_⟩
  · funext a
    unfold Lfds.entry
    rw [htab a]
    split_ifs with ha
    · have hfree := ((h.mem a).mp ha).2
      unfold Lfds.entry at hfree
      exact hfree.symm
    · rfl
  · rw [htab a,if_pos ((h.mem a).mpr ⟨hlt,he⟩)]
  · rw [hnone]
    trivial

theorem Rebuilt.visitCell {t u : Lfds} {n : Nat} (h : Rebuilt t u n) (hn : n < t.tabmax)
    (f : (Nat → Option LfdTable) → Nat → σ → σ) (arg : σ) :
    ∃ u', visitCell f (u, arg) n =
        (u', if (t.entry n).isSome then f t.entry n arg else arg) ∧ Rebuilt t u' (n + 1) := by
  cases he : t.entry n with
  | some e =>
    have htab : u.tab n = .live e := by
      have hu : u.entry n = some e := by rw [h.entry,he]
      unfold Lfds.entry at hu
      split at hu
      · simp_all
      · simp at hu
    refine ⟨u,by simp [Lfd.visitCell,htab,Cell.null,h.entry],h.entry,h.max,
      fun a ha => h.marked a (by omega),?_⟩
    simpa [List.range_succ,List.filter_append,he] using h.linked
  | none =>
    have htab : u.tab n = .null := h.marked n le_rfl hn he
    refine ⟨lfdFree u n,by simp [Lfd.visitCell,htab],?_,h.max,fun a ha hlt hnone => ?_,?_⟩
    · funext a
      rw [entry_free,h.entry]
      split_ifs with ha
      · rw [ha,he]
      · rfl
    · have hne : a ≠ n := by omega
      simpa [lfdFree,Lfds.store,hne] using h.marked a (by omega) hlt hnone
    · simp only [List.range_succ,List.filter_append,List.filter_cons,he,Option.isNone_none,
        if_true,List.filter_nil,List.reverse_append,List.reverse_cons,List.reverse_nil,
        List.nil_append,List.singleton_append]
      refine ⟨rfl,u.tabfree,by simp [lfdFree,Lfds.store],h.linked.congr fun a ha => ?_⟩
      have hlt : a < n := by simpa using (List.mem_filter.mp (List.mem_reverse.mp ha)).1
      simp [lfdFree,Lfds.store,hlt.ne]

theorem Rebuilt.foldl {t u : Lfds} (h : Rebuilt t u 0) {n : Nat} (hn : n ≤ t.tabmax)
    (f : (Nat → Option LfdTable) → Nat → σ → σ) (arg : σ) :
    ∃ u', (List.range n).foldl (Lfd.visitCell f) (u, arg) =
        (u', ((List.range n).filter fun a => (t.entry a).isSome).foldl
          (fun x a => f t.entry a x) arg) ∧ Rebuilt t u' n := by
  induction n with
  | zero => exact ⟨u,rfl,h⟩
  | succ n ih =>
    obtain ⟨v,hv,hrebuilt⟩ := ih (by omega)
    obtain ⟨u',hu',hnext⟩ := hrebuilt.visitCell (by omega) f
      (((List.range n).filter fun a => (t.entry a).isSome).foldl (fun x a => f t.entry a x) arg)
    refine ⟨u',?_,hnext⟩
    rw [List.range_succ,List.foldl_append,hv,List.foldl_cons,List.foldl_nil,hu',
      List.filter_append,List.foldl_append]
    cases he : t.entry n <;> simp [he]

theorem Rebuilt.freeList {t u : Lfds} (h : Rebuilt t u t.tabmax) {l : List Nat}
    (hl : FreeList t l) : ∃ l', FreeList u l' := by
  refine ⟨_,h.linked,List.nodup_reverse.mpr (List.nodup_range.filter _),fun a => ?_,fun a ha => ?_⟩
  · rw [h.max,h.entry]
    simp
  · rw [h.max] at ha
    rw [h.entry]
    exact hl.above a ha

theorem lfdForall_spec {t : Lfds} {l : List Nat} (h : FreeList t l)
    (f : (Nat → Option LfdTable) → Nat → σ → σ) (arg : σ) :
    ∃ u l', lfdForall f t arg = some (u, t.live.foldl (fun x a => f t.entry a x) arg) ∧
      u.entry = t.entry ∧ u.tabmax = t.tabmax ∧ FreeList u l' := by
  obtain ⟨v,hv,hstart⟩ := Rebuilt.start h
  obtain ⟨u,hu,hend⟩ := hstart.foldl le_rfl f arg
  obtain ⟨l',hl'⟩ := hend.freeList h
  refine ⟨u,l',?_,hend.entry,hend.max,hl'⟩
  simp only [lfdForall,hv,Option.bind_eq_bind,Option.bind_some,hstart.max,hu]
  rfl

theorem untilResult_eq_foldl (f : Nat → σ → σ × Option ρ) (lfds : List Nat) (arg : σ) :
    lfds.foldl (fun x a => if x.2.isNone then f a x.1 else x) (arg, none) =
      untilResult f lfds arg := by
  have hdone : ∀ (lfds : List Nat) (arg : σ) (rv : ρ),
      lfds.foldl (fun x a => if x.2.isNone then f a x.1 else x) (arg, some rv) = (arg, some rv) := by
    intro lfds arg rv
    induction lfds with
    | nil => rfl
    | cons a lfds ih => simpa using ih
  induction lfds generalizing arg with
  | nil => rfl
  | cons a lfds ih =>
    rw [List.foldl_cons,untilResult]
    simp only [Option.isNone_none,if_true]
    rcases hf : f a arg with ⟨arg',_ | rv⟩
    · exact ih arg'
    · exact hdone lfds arg' rv

theorem lfdForallR_spec {t : Lfds} {l : List Nat} (h : FreeList t l)
    (f : (Nat → Option LfdTable) → Nat → σ → σ × Option ρ) (arg : σ) :
    ∃ u l', lfdForallR f t arg = some (u, untilResult (f t.entry) t.live arg) ∧
      u.entry = t.entry ∧ u.tabmax = t.tabmax ∧ FreeList u l' := by
  obtain ⟨u,l',hu,hrest⟩ := lfdForall_spec h
    (fun entry lfd x => if x.2.isNone then f entry lfd x.1 else x) (arg, (none : Option ρ))
  refine ⟨u,l',?_,hrest⟩
  rw [lfdForallR,hu,← untilResult_eq_foldl]

theorem FreeList.lfdAlloc {t : Lfds} {l : List Nat} (h : FreeList t l) :
    ∃ u lfd, lfdAlloc t = some (u, lfd) ∧ t.entry lfd = none ∧
      (t.tabmax ≤ lfd → ∀ a, a < t.tabmax → t.entry a ≠ none) := by
  obtain ⟨u,lfd,_,ha,_,hnone,_⟩ := h.alloc
  refine ⟨u,lfd,ha,hnone,fun hge a hlt hfree => ?_⟩
  have hmem : a ∈ l := (h.mem a).mpr ⟨hlt,hfree⟩
  have hlink := h.linked
  unfold Lfd.lfdAlloc at ha
  cases hf : t.tabfree with
  | none =>
    rw [hf] at hlink
    cases l with
    | nil => simp at hmem
    | cons b l => exact hlink.elim
  | some rv =>
    rw [hf] at hlink
    cases l with
    | nil => simp at hmem
    | cons b l =>
      obtain ⟨rfl,next,hn,_⟩ := hlink
      simp only [hf,hn,Option.some.injEq,Prod.mk.injEq] at ha
      have := ((h.mem rv).mp (by simp)).1
      omega

theorem FreeList.tabStep {x y : Lfds × History} {o : TabOp σ ρ}
    (h : x.1.entry = x.2 ∧ ∃ l, FreeList x.1 l) (ho : FreesLive x o) (hy : tabStep x o = some y) :
    y.1.entry = y.2 ∧ ∃ l, FreeList y.1 l := by
  obtain ⟨hentry,l,hl⟩ := h
  cases o with
  | alloc e =>
    obtain ⟨t',lfd,l',ha,htab,_,hstore⟩ := hl.alloc
    simp only [Lfd.tabStep,ha,Option.map_some,Option.some.injEq] at hy
    obtain rfl := hy
    refine ⟨funext fun a => ?_,l',hstore e⟩
    dsimp only
    rw [entry_store,Function.update_apply,← hentry]
    unfold Lfds.entry
    rw [htab]
  | free lfd =>
    obtain ⟨e,he⟩ := Option.ne_none_iff_exists'.mp ho
    simp only [Lfd.tabStep,Option.some.injEq] at hy
    obtain rfl := hy
    refine ⟨funext fun a => ?_,lfd :: l,hl.free (hentry ▸ he)⟩
    dsimp only
    rw [entry_free,Function.update_apply,← hentry]
  | «forall» f arg =>
    obtain ⟨v,l',hv,he,_,hl'⟩ := lfdForall_spec hl f arg
    simp only [Lfd.tabStep,hv,Option.map_some,Option.some.injEq] at hy
    obtain rfl := hy
    exact ⟨he.trans hentry,l',hl'⟩
  | forallR f arg =>
    obtain ⟨v,l',hv,he,_,hl'⟩ := lfdForallR_spec hl f arg
    simp only [Lfd.tabStep,hv,Option.map_some,Option.some.injEq] at hy
    obtain rfl := hy
    exact ⟨he.trans hentry,l',hl'⟩

structure TableKept (σ ρ : Type) (t : Lfds) (history : History) : Prop where
  live : t.entry = history
  free : ∃ l, FreeList t l
  alloc : ∃ u lfd, lfdAlloc t = some (u, lfd) ∧ t.entry lfd = none ∧
    (t.tabmax ≤ lfd → ∀ a, a < t.tabmax → t.entry a ≠ none)
  traversed : ∀ (f : (Nat → Option LfdTable) → Nat → σ → σ) (arg : σ),
    ∃ u l, lfdForall f t arg = some (u, t.live.foldl (fun x a => f t.entry a x) arg) ∧
      u.entry = t.entry ∧ u.tabmax = t.tabmax ∧ FreeList u l
  searched : ∀ (f : (Nat → Option LfdTable) → Nat → σ → σ × Option ρ) (arg : σ),
    ∃ u l, lfdForallR f t arg = some (u, untilResult (f t.entry) t.live arg) ∧
      u.entry = t.entry ∧ u.tabmax = t.tabmax ∧ FreeList u l

theorem lfd_table_kept (x : Lfds × History)
    (h : Run (tabStep (σ := σ) (ρ := ρ)) FreesLive (Lfds.empty, fun _ => none) x) :
    TableKept σ ρ x.1 x.2 := by
  have hempty : Lfds.empty.entry = (fun _ => none) ∧ ∃ l, FreeList Lfds.empty l :=
    ⟨rfl,[],trivial,List.nodup_nil,by simp [Lfds.empty],fun _ _ => rfl⟩
  obtain ⟨hentry,l,hl⟩ := h.invariant (fun _ _ _ ht ho hu => FreeList.tabStep ht ho hu) hempty
  exact ⟨hentry,⟨l,hl⟩,hl.lfdAlloc,lfdForall_spec hl,lfdForallR_spec hl⟩

instance (x : Lfds × History) : (o : TabOp σ ρ) → Decidable (FreesLive x o)
  | .alloc _ => inferInstanceAs (Decidable True)
  | .free _ => inferInstanceAs (Decidable (_ ≠ _))
  | .«forall» _ _ => inferInstanceAs (Decidable True)
  | .forallR _ _ => inferInstanceAs (Decidable True)

end Traversal

def tableChurn : List (TabOp (List Nat) Nat) :=
  [.alloc ⟨1, none, -1⟩, .alloc ⟨1, some 7, 5⟩, .alloc ⟨1, none, -1⟩, .free 0, .free 2,
    .«forall» (fun _ lfd seen => seen ++ [lfd]) [], .alloc ⟨1, some 7, 6⟩,
    .forallR (fun _ lfd seen => (seen ++ [lfd], some lfd)) []]

theorem tableChurn_kept :
    ((exec tabStep (Lfds.empty, fun _ => none) tableChurn).all fun x =>
      x.1.live = [1, 2] ∧ x.1.tabmax = 3) ∧
    ∃ x, exec tabStep (Lfds.empty, fun _ => none) tableChurn = some x ∧
      TableKept (List Nat) Nat x.1 x.2 := by
  have hsome : (exec tabStep (Lfds.empty, fun _ => none) tableChurn).isSome := by decide +kernel
  have hok : Meets tabStep FreesLive (Lfds.empty, fun _ => none) tableChurn := by decide +kernel
  obtain ⟨x,hx⟩ := Option.isSome_iff_exists.mp hsome
  exact ⟨by decide +kernel,x,hx,lfd_table_kept x (Run.of_exec hx hok)⟩

end ViewOS.Lfd
