import Mathlib.Data.List.Nodup
import ViewOS.Mmap.Allocation

namespace ViewOS.Mmap
open Tiling Transition

structure Laid (A : Arch) (l : List Entry) : Prop where
  tiles : Tiles Entry.pgoffset Entry.pgsize 0 l
  bound : extent Entry.pgsize l < A.ulong

section Compaction

variable {A : Arch}

theorem joinFree_tiles {next : List Entry} {scan : Entry} {a : Nat}
    (ht : Tiles Entry.pgoffset Entry.pgsize a (scan :: next))
    (hb : extent Entry.pgsize (scan :: next) < A.ulong) :
    Tiles Entry.pgoffset Entry.pgsize a (joinFree A scan next) ∧
      extent Entry.pgsize (joinFree A scan next) = extent Entry.pgsize (scan :: next) := by
  induction next generalizing scan a with
  | nil => exact ⟨ht,rfl⟩
  | cons victim next ih =>
    obtain ⟨h1,h2,h3,h4,h5⟩ := ht
    simp only [extent_cons] at hb ih ⊢
    rw [joinFree]
    split_ifs
    · have hsum : (scan.pgsize + victim.pgsize) % A.ulong = scan.pgsize + victim.pgsize :=
        Nat.mod_eq_of_lt (by omega)
      rw [hsum]
      obtain ⟨i1,i2⟩ := @ih { scan with pgsize := scan.pgsize + victim.pgsize } a
        ⟨h1,by simp; omega,by simpa [Nat.add_assoc] using h5⟩ (by simp; omega)
      exact ⟨i1,i2.trans (by simp; omega)⟩
    · obtain ⟨i1,i2⟩ := ih ⟨h3,h4,h5⟩ (by omega)
      exact ⟨⟨h1,h2,i1⟩,by rw [extent_cons,i2]⟩

theorem joinFree_keeps {next : List Entry} {scan e : Entry} (he : e ∈ scan :: next)
    (hpath : e.path ≠ none) : e ∈ joinFree A scan next := by
  induction next generalizing scan with
  | nil => exact he
  | cons victim next ih =>
    rw [joinFree]
    split_ifs with hfree
    · rcases List.mem_cons.mp he with rfl | he
      · exact absurd hfree.1 hpath
      rcases List.mem_cons.mp he with rfl | he
      · exact absurd hfree.2 hpath
      · exact ih (List.mem_cons_of_mem _ he)
    · rcases List.mem_cons.mp he with rfl | he
      · exact List.mem_cons_self
      · exact List.mem_cons_of_mem _ (ih he)

theorem joinFree_free {next : List Entry} {scan e : Entry}
    (hb : extent Entry.pgsize (scan :: next) < A.ulong) (he : e ∈ scan :: next)
    (hpath : e.path = none) : ∃ f ∈ joinFree A scan next, f.path = none ∧ e.pgsize ≤ f.pgsize := by
  induction next generalizing scan e with
  | nil => exact ⟨e,he,hpath,le_rfl⟩
  | cons victim next ih =>
    simp only [extent_cons] at hb ih
    rw [joinFree]
    split_ifs with hfree
    · have hsum : (scan.pgsize + victim.pgsize) % A.ulong = scan.pgsize + victim.pgsize :=
        Nat.mod_eq_of_lt (by omega)
      rw [hsum]
      have hjoined := @ih { scan with pgsize := scan.pgsize + victim.pgsize }
      rcases List.mem_cons.mp he with rfl | he
      · obtain ⟨f,hf,hfp,hle⟩ := @hjoined _ (by simp; omega) List.mem_cons_self hfree.1
        exact ⟨f,hf,hfp,le_trans (by simp) hle⟩
      rcases List.mem_cons.mp he with rfl | he
      · obtain ⟨f,hf,hfp,hle⟩ := @hjoined _ (by simp; omega) List.mem_cons_self hfree.1
        exact ⟨f,hf,hfp,le_trans (by simp) hle⟩
      · exact hjoined (by simp; omega) (List.mem_cons_of_mem _ he) hpath
    · rcases List.mem_cons.mp he with rfl | he
      · exact ⟨e,List.mem_cons_self,hpath,le_rfl⟩
      · obtain ⟨f,hf,hfp,hle⟩ := ih (by omega) he hpath
        exact ⟨f,List.mem_cons_of_mem _ hf,hfp,hle⟩

theorem joinFree_used {next : List Entry} {scan e : Entry} (he : e ∈ joinFree A scan next)
    (hpath : e.path ≠ none) : e ∈ scan :: next := by
  induction next generalizing scan with
  | nil => exact he
  | cons victim next ih =>
    rw [joinFree] at he
    split_ifs at he with hfree
    · rcases List.mem_cons.mp (ih he) with rfl | he
      · exact absurd hfree.1 hpath
      · exact List.mem_cons_of_mem _ (List.mem_cons_of_mem _ he)
    · rcases List.mem_cons.mp he with rfl | he
      · exact List.mem_cons_self
      · exact List.mem_cons_of_mem _ (ih he)

theorem joinFree_ids (scan : Entry) (next : List Entry) :
    ((joinFree A scan next).map Entry.id).Sublist ((scan :: next).map Entry.id) := by
  induction next generalizing scan with
  | nil => exact List.Sublist.refl _
  | cons victim next ih =>
    rw [joinFree]
    split_ifs
    · exact (ih _).trans ((List.sublist_cons_self _ _).cons_cons _)
    · exact (ih victim).cons_cons _

theorem age_pgoffset (e : Entry) : (age e).pgoffset = e.pgoffset := by
  unfold age
  split_ifs <;> rfl

theorem age_pgsize (e : Entry) : (age e).pgsize = e.pgsize := by
  unfold age
  split_ifs <;> rfl

theorem age_id (e : Entry) : (age e).id = e.id := by
  unfold age
  split_ifs <;> rfl

theorem age_free {e : Entry} (h : e.path = none) : (age e).path = none := by
  unfold age
  split_ifs
  · rfl
  · exact h

def Live (e : Entry) : Prop := e.path ≠ none ∧ 0 < e.counter

theorem age_live {e : Entry} (h : Live e) : age e = { e with lastuse := e.lastuse >>> 1 } :=
  if_neg fun hdead => h.2.ne' hdead.2.1

theorem age_used {e : Entry} (h : (age e).path ≠ none) :
    age e = { e with lastuse := e.lastuse >>> 1 } := by
  unfold age at h ⊢
  split_ifs at h ⊢ with hdead
  · simp at h
  · rfl

theorem forall₂_age (l : List Entry) :
    List.Forall₂ (fun e f => f.pgoffset = e.pgoffset ∧ f.pgsize = e.pgsize) l (l.map age) := by
  rw [List.forall₂_map_right_iff,List.forall₂_same]
  exact fun e _ => ⟨age_pgoffset e,age_pgsize e⟩

theorem laid_compact {l : List Entry} (h : Laid A l) :
    Laid A (mmapCompact A l) ∧
      extent Entry.pgsize (mmapCompact A l) = extent Entry.pgsize l := by
  have ht := h.tiles.of_forall₂ (forall₂_age l)
  have hext := extent_of_forall₂ (forall₂_age l)
  unfold mmapCompact
  cases hl : l.map age with
  | nil =>
    rw [hl] at hext
    exact ⟨⟨trivial,hext ▸ h.bound⟩,hext⟩
  | cons scan next =>
    rw [hl] at ht hext
    obtain ⟨i1,i2⟩ := joinFree_tiles ht (hext ▸ h.bound)
    exact ⟨⟨i1,i2.trans hext ▸ h.bound⟩,i2.trans hext⟩

theorem mem_compact_of_live {l : List Entry} {e : Entry} (he : e ∈ l) (hlive : Live e) :
    { e with lastuse := e.lastuse >>> 1 } ∈ mmapCompact A l := by
  have hmem : age e ∈ l.map age := List.mem_map_of_mem he
  rw [age_live hlive] at hmem
  unfold mmapCompact
  cases hl : l.map age with
  | nil => simp [hl] at hmem
  | cons scan next => exact joinFree_keeps (hl ▸ hmem) hlive.1

theorem free_compact {l : List Entry} (h : Laid A l) {e : Entry} (he : e ∈ l) (hpath : e.path = none) :
    ∃ f ∈ mmapCompact A l, f.path = none ∧ e.pgsize ≤ f.pgsize := by
  have hmem : age e ∈ l.map age := List.mem_map_of_mem he
  have hext := extent_of_forall₂ (forall₂_age l)
  unfold mmapCompact
  cases hl : l.map age with
  | nil => simp [hl] at hmem
  | cons scan next =>
    rw [hl] at hext hmem
    obtain ⟨f,hf,hfp,hle⟩ := joinFree_free (hext ▸ h.bound) hmem (age_free hpath)
    exact ⟨f,hf,hfp,age_pgsize e ▸ hle⟩

theorem used_of_mem_compact {l : List Entry} {f : Entry} (hf : f ∈ mmapCompact A l)
    (hpath : f.path ≠ none) : ∃ e ∈ l, f = { e with lastuse := e.lastuse >>> 1 } := by
  unfold mmapCompact at hf
  cases hl : l.map age with
  | nil => simp [hl] at hf
  | cons scan next =>
    rw [hl] at hf
    obtain ⟨e,he,rfl⟩ := List.mem_map.mp (hl ▸ joinFree_used hf hpath : f ∈ l.map age)
    exact ⟨e,he,age_used hpath⟩

theorem compact_ids (l : List Entry) :
    ((mmapCompact A l).map Entry.id).Sublist (l.map Entry.id) := by
  have hids : (l.map age).map Entry.id = l.map Entry.id := by
    rw [List.map_map]
    exact List.map_congr_left fun e _ => age_id e
  rw [← hids]
  unfold mmapCompact
  cases l.map age with
  | nil => exact List.Sublist.refl _
  | cons scan next => exact joinFree_ids scan next

end Compaction

section Taken

variable {A : Arch} {r : Request} {n n' id : Nat} {l l' : List Entry}

theorem endOf_laid (h : Laid A l) : endOf A l = extent Entry.pgsize l := by
  rcases List.eq_nil_or_concat' l with rfl | ⟨l₁,e,rfl⟩
  · rfl
  · have hlast := (tiles_append.mp h.tiles).2.1
    have hb := h.bound
    simp only [extent_append,extent_cons,extent_nil] at hb
    rw [Nat.zero_add] at hlast
    rw [endOf,List.getLast?_concat]
    simp only [extent_append,extent_cons,extent_nil,hlast]
    exact Nat.mod_eq_of_lt (by omega)

theorem Allocated.laid (ha : Allocated A r n l l' n' id) (h : Laid A l) (hpos : 0 < r.pgsize)
    (hroom : (∀ e ∈ l, e.path = none → e.pgsize < r.pgsize) →
      extent Entry.pgsize l + r.pgsize < A.ulong) : Laid A l' := by
  cases ha with
  | exact hl hfree hsize =>
    subst hl
    obtain ⟨h1,h2,h3,h4⟩ := tiles_append.mp h.tiles
    exact ⟨tiles_append.mpr ⟨h1,h2,h3,h4⟩,by simpa [take] using h.bound⟩
  | split hl hfree hsize =>
    rename_i l₁ l₂ e
    subst hl
    obtain ⟨h1,h2,h3,h4⟩ := tiles_append.mp h.tiles
    have hb := h.bound
    simp only [extent_append,extent_cons] at hb
    have hoff : (e.pgoffset + r.pgsize) % A.ulong = e.pgoffset + r.pgsize :=
      Nat.mod_eq_of_lt (by omega)
    have hsum : e.pgsize = r.pgsize + (e.pgsize - r.pgsize) := by omega
    refine ⟨tiles_append.mpr ⟨h1,h2,hpos,?_,?_,?_⟩,?_⟩
    · exact hoff.trans (congrArg (· + r.pgsize) h2)
    · simp only [unused]
      omega
    · rw [hsum,← Nat.add_assoc] at h4
      exact h4
    · simp only [extent_append,extent_cons,take,unused]
      omega
  | grow hl hfree hfull =>
    have hb := hroom hfull
    subst hl
    obtain ⟨h1,h2,h3,h4⟩ := tiles_append.mp h.tiles
    refine ⟨tiles_append.mpr ⟨h1,h2,hpos,trivial⟩,?_⟩
    simp only [extent_append,extent_cons,extent_nil,take] at hb ⊢
    omega
  | extend hfull =>
    have hb := hroom hfull
    refine ⟨tiles_append.mpr ⟨h.tiles,?_,hpos,trivial⟩,?_⟩
    · simp [take,unused,endOf_laid h]
    · simpa [take,unused] using hb

theorem Allocated.keeps (ha : Allocated A r n l l' n' id) {e : Entry} (he : e ∈ l)
    (hpath : e.path ≠ none) : e ∈ l' := by
  cases ha with
  | exact hl hfree hsize =>
    subst hl
    simp only [List.mem_append,List.mem_cons] at he ⊢
    rcases he with he | rfl | he
    · exact .inl he
    · exact absurd hfree hpath
    · exact .inr (.inr he)
  | split hl hfree hsize =>
    subst hl
    simp only [List.mem_append,List.mem_cons] at he ⊢
    rcases he with he | rfl | he
    · exact .inl he
    · exact absurd hfree hpath
    · exact .inr (.inr (.inr he))
  | grow hl hfree hfull =>
    subst hl
    simp only [List.mem_append,List.mem_singleton] at he ⊢
    rcases he with he | rfl
    · exact .inl he
    · exact absurd hfree hpath
  | extend hfull => exact List.mem_append_left _ he

theorem Allocated.taken (ha : Allocated A r n l l' n' id) :
    ∃ e, e.id = id ∧ e.pgsize = r.pgsize ∧ take r e ∈ l' ∧
      ∀ f ∈ l', f.path ≠ none → f = take r e ∨ f ∈ l := by
  cases ha with
  | exact hl hfree hsize =>
    rename_i l₁ l₂ e
    refine ⟨e,rfl,hsize,by simp,fun f hf _ => ?_⟩
    subst hl
    simp only [List.mem_append,List.mem_cons] at hf ⊢
    tauto
  | split hl hfree hsize =>
    rename_i l₁ l₂ e
    refine ⟨{ e with pgsize := r.pgsize },rfl,rfl,by simp,fun f hf hp => ?_⟩
    subst hl
    simp only [List.mem_append,List.mem_cons] at hf ⊢
    rcases hf with hf | hf | rfl | hf
    · exact .inr (.inl hf)
    · exact .inl hf
    · exact absurd rfl hp
    · exact .inr (.inr (.inr hf))
  | grow hl hfree hfull =>
    rename_i l₁ e
    refine ⟨{ e with pgsize := r.pgsize },rfl,rfl,by simp,fun f hf _ => ?_⟩
    subst hl
    simp only [List.mem_append,List.mem_singleton] at hf ⊢
    tauto
  | extend hfull =>
    refine ⟨unused n (endOf A l) r.pgsize,rfl,rfl,by simp,fun f hf _ => ?_⟩
    simp only [List.mem_append,List.mem_singleton] at hf
    tauto

theorem Allocated.ids (ha : Allocated A r n l l' n' id) :
    l'.map Entry.id = l.map Entry.id ∧ n' = n ∨
      (l'.map Entry.id).Perm (n :: l.map Entry.id) ∧ n' = n + 1 := by
  cases ha with
  | exact hl hfree hsize => exact .inl ⟨by simp [hl,take],rfl⟩
  | split hl hfree hsize =>
    rename_i l₁ l₂ e
    refine .inr ⟨?_,rfl⟩
    have hmid := @List.perm_middle _ n (l₁.map Entry.id ++ [e.id]) (l₂.map Entry.id)
    simpa [hl,take,unused] using hmid
  | grow hl hfree hfull => exact .inl ⟨by simp [hl,take],rfl⟩
  | extend hfull =>
    exact .inr ⟨by simp [take,unused],rfl⟩

end Taken

structure Distinct (s : SecretFile) : Prop where
  nodup : (s.chunks.map Entry.id).Nodup
  fresh : ∀ i ∈ s.chunks.map Entry.id, i < s.next

structure Inv (A : Arch) (s : SecretFile) : Prop where
  laid : Laid A s.chunks
  distinct : Distinct s

theorem distinct_empty : Distinct .empty := ⟨List.nodup_nil,by simp [SecretFile.empty]⟩

theorem inv_empty (A : Arch) : Inv A .empty := ⟨⟨trivial,Nat.two_pow_pos _⟩,distinct_empty⟩

def Room (A : Arch) (s : SecretFile) (pgsize : Nat) : Prop :=
  (∃ e ∈ s.chunks, e.path = none ∧ pgsize ≤ e.pgsize) ∨
    extent Entry.pgsize s.chunks + pgsize < A.ulong

section Steps

variable {A : Arch} {s : SecretFile} {r : Request}

theorem Distinct.allocated {l : List Entry} {n id : Nat} (h : Distinct s)
    (ha : Allocated A r s.next (mmapCompact A s.chunks) l n id) : Distinct ⟨l, n⟩ := by
  have hsub := compact_ids (A := A) s.chunks
  have hnodup := hsub.nodup h.nodup
  have hfresh : ∀ i ∈ (mmapCompact A s.chunks).map Entry.id, i < s.next := fun i hi =>
    h.fresh i (hsub.subset hi)
  refine ⟨?_,?_⟩
  · rcases ha.ids with ⟨hids,-⟩ | ⟨hids,-⟩
    · exact hids ▸ hnodup
    · rw [hids.nodup_iff,List.nodup_cons]
      exact ⟨fun hn => lt_irrefl _ (hfresh _ hn),hnodup⟩
  · rcases ha.ids with ⟨hids,rfl⟩ | ⟨hids,rfl⟩
    · exact hids ▸ hfresh
    · intro i hi
      rcases List.mem_cons.mp (hids.mem_iff.mp hi) with rfl | hi
      · exact Nat.lt_succ_self _
      · exact (hfresh i hi).trans (Nat.lt_succ_self _)

theorem Inv.allocated {l : List Entry} {n id : Nat} (h : Inv A s) (hpos : 0 < r.pgsize)
    (hroom : Room A s r.pgsize) (ha : Allocated A r s.next (mmapCompact A s.chunks) l n id) :
    Inv A ⟨l, n⟩ := by
  obtain ⟨hlaid,hext⟩ := laid_compact h.laid
  refine ⟨ha.laid hlaid hpos fun hfull => ?_,h.distinct.allocated ha⟩
  rw [hext]
  refine hroom.resolve_left ?_
  rintro ⟨e,he,hfree,hle⟩
  obtain ⟨f,hf,hfp,hef⟩ := free_compact h.laid he hfree
  have := hfull f hf hfp
  omega

def Reused (e f : Entry) : Prop := ∃ x, f = { e with lastuse := x }

theorem Reused.refl (e : Entry) : Reused e e := ⟨e.lastuse,rfl⟩

theorem mmapSfFind_spec {l l' : List Entry} {found : Option Nat}
    (h : mmapSfFind A r l = some (found, l')) :
    List.Forall₂ Reused l l' ∧ ∀ id ∈ found, ∃ e ∈ l, e.id = id ∧ e.path = some r.path ∧
      e.epoch = r.epoch ∧ e.mtime = r.mtime ∧ r.pgsize ≤ e.pgsize := by
  induction l generalizing found l' with
  | nil =>
    obtain ⟨rfl,rfl⟩ := Prod.mk.inj (Option.some.inj h)
    exact ⟨.nil,by simp⟩
  | cons scan next ih =>
    have hnext : (mmapSfFind A r next).map (fun x => (x.1, scan :: x.2)) = some (found, l') →
        List.Forall₂ Reused (scan :: next) l' ∧ ∀ id ∈ found, ∃ e ∈ scan :: next, e.id = id ∧
          e.path = some r.path ∧ e.epoch = r.epoch ∧ e.mtime = r.mtime ∧
          r.pgsize ≤ e.pgsize := by
      intro hx
      obtain ⟨⟨found',next'⟩,hfind,hx⟩ := Option.map_eq_some_iff.mp hx
      obtain ⟨rfl,rfl⟩ := Prod.mk.inj hx
      obtain ⟨i1,i2⟩ := ih hfind
      refine ⟨.cons (.refl scan) i1,fun id hid => ?_⟩
      obtain ⟨e,he,hrest⟩ := i2 id hid
      exact ⟨e,List.mem_cons_of_mem _ he,hrest⟩
    simp only [mmapSfFind] at h
    split_ifs at h with hkey
    · cases hp : scan.path with
      | none => simp [hp] at h
      | some path =>
        simp only [hp] at h
        split_ifs at h with hpath
        · obtain ⟨rfl,rfl⟩ := Prod.mk.inj (Option.some.inj h)
          refine ⟨.cons ⟨_,by rw [hp]⟩ (List.forall₂_same.mpr fun e _ => .refl e),?_⟩
          rintro id ⟨⟩
          exact ⟨scan,List.mem_cons_self,rfl,by rw [hp,hpath],hkey.1.symm,hkey.2.1.symm,
            hkey.2.2⟩
        · exact hnext h
    · exact hnext h

theorem Distinct.of_forall₂ {l : List Entry} (h : Distinct s)
    (hl : List.Forall₂ (fun e f => f.id = e.id) s.chunks l) : Distinct { s with chunks := l } := by
  have hids : List.Forall₂ Eq (s.chunks.map Entry.id) (l.map Entry.id) := by
    rw [List.forall₂_map_left_iff,List.forall₂_map_right_iff]
    exact hl.imp fun _ _ hef => hef.symm
  rw [List.forall₂_eq_eq_eq] at hids
  exact ⟨hids ▸ h.nodup,hids ▸ h.fresh⟩

theorem Inv.of_forall₂ {l : List Entry} (h : Inv A s)
    (hl : List.Forall₂ (fun e f => f.id = e.id ∧ f.pgoffset = e.pgoffset ∧ f.pgsize = e.pgsize)
      s.chunks l) : Inv A { s with chunks := l } := by
  have hsame := hl.imp fun _ _ hef => hef.2
  exact ⟨⟨h.laid.tiles.of_forall₂ hsame,extent_of_forall₂ hsame ▸ h.laid.bound⟩,
    h.distinct.of_forall₂ (hl.imp fun _ _ hef => hef.1)⟩

theorem exists_forall₂ {R : Entry → Entry → Prop} {l l' : List Entry} (h : List.Forall₂ R l l')
    {e : Entry} (he : e ∈ l) : ∃ f ∈ l', R e f := by
  induction h with
  | nil => simp at he
  | cons hef _ ih =>
    rcases List.mem_cons.mp he with rfl | he
    · exact ⟨_,List.mem_cons_self,hef⟩
    · obtain ⟨f,hf,hr⟩ := ih he
      exact ⟨f,List.mem_cons_of_mem _ hf,hr⟩

theorem setCounter_same (id counter : Nat) (e : Entry) :
    (setCounter id counter e).id = e.id ∧ (setCounter id counter e).pgoffset = e.pgoffset ∧
      (setCounter id counter e).pgsize = e.pgsize := by
  unfold setCounter
  split_ifs <;> exact ⟨rfl,rfl,rfl⟩

theorem Inv.setCounter (h : Inv A s) (id counter : Nat) :
    Inv A { s with chunks := s.chunks.map (setCounter id counter) } := by
  refine h.of_forall₂ ?_
  rw [List.forall₂_map_right_iff,List.forall₂_same]
  exact fun e _ => setCounter_same id counter e

theorem Inv.find {l : List Entry} {found : Option Nat} (h : Inv A s)
    (hf : mmapSfFind A r s.chunks = some (found, l)) : Inv A { s with chunks := l } := by
  refine h.of_forall₂ ((mmapSfFind_spec hf).1.imp ?_)
  rintro e f ⟨x,rfl⟩
  exact ⟨rfl,rfl,rfl⟩

def Roomy (A : Arch) (s : SecretFile) : Op → Prop
  | .allocate r => 1 ≤ r.pgsize ∧ Room A s r.pgsize
  | _ => True

theorem Inv.step {s' : SecretFile} {o : Op} (h : Inv A s) (ho : Roomy A s o)
    (hs : step A s o = some s') : Inv A s' := by
  cases o with
  | find r =>
    obtain ⟨⟨found,l⟩,hf,rfl⟩ := Option.map_eq_some_iff.mp hs
    exact h.find hf
  | allocate r =>
    obtain ⟨l,n,id,hl,ha⟩ := mmapSfAllocate_spec A s r
    obtain rfl : (⟨l,n⟩ : SecretFile) = s' := by simpa [Mmap.step,hl] using hs
    exact h.allocated ho.1 ho.2 ha
  | count id counter =>
    obtain rfl := Option.some.inj hs
    exact h.setCounter id counter

theorem live_kept {s' : SecretFile} {o : Op} (hs : step A s o = some s') {e : Entry}
    (he : e ∈ s.chunks) (hlive : Live e) (ho : ∀ c, o ≠ .count e.id c) :
    ∃ f ∈ s'.chunks, Reused e f := by
  cases o with
  | find r =>
    obtain ⟨⟨found,l⟩,hf,rfl⟩ := Option.map_eq_some_iff.mp hs
    exact exists_forall₂ (mmapSfFind_spec hf).1 he
  | allocate r =>
    obtain ⟨l,n,id,hl,ha⟩ := mmapSfAllocate_spec A s r
    obtain rfl : (⟨l,n⟩ : SecretFile) = s' := by simpa [Mmap.step,hl] using hs
    exact ⟨_,ha.keeps (mem_compact_of_live he hlive) hlive.1,_,rfl⟩
  | count id counter =>
    obtain rfl := Option.some.inj hs
    have hne : e.id ≠ id := fun hid => ho counter (by rw [hid])
    refine ⟨e,List.mem_map.mpr ⟨e,he,if_neg hne⟩,.refl e⟩

theorem Distinct.eq_of_id (h : Distinct s) {e f : Entry} (he : e ∈ s.chunks) (hf : f ∈ s.chunks)
    (hid : e.id = f.id) : e = f :=
  List.inj_on_of_nodup_map h.nodup he hf hid

end Steps

theorem secret_file_tiled (A : Arch) {s : SecretFile}
    (hrun : Run (step A) (Roomy A) .empty s) :
    Tiles Entry.pgoffset Entry.pgsize 0 s.chunks ∧
    (∀ r, Roomy A s (.allocate r) → ∃ s' id,
      (∀ fuel, allocFuel s ≤ fuel → mmapSfAllocate A fuel s r = some (s', id)) ∧
      (∃ e ∈ s'.chunks, e.id = id ∧ e.path = some r.path ∧ e.pgsize = r.pgsize) ∧
      ∀ e ∈ s.chunks, Live e → e.id ≠ id) ∧
    ∀ o s', step A s o = some s' → ∀ e ∈ s.chunks, Live e → (∀ c, o ≠ .count e.id c) →
      ∃ x, { e with lastuse := x } ∈ s'.chunks := by
  have h : Inv A s := hrun.invariant (fun _ _ _ hi ho hs => hi.step ho hs) (inv_empty A)
  refine ⟨h.laid.tiles,fun r hr => ?_,fun o s' hs e he hlive ho => ?_⟩
  · obtain ⟨l,n,id,hl,ha⟩ := mmapSfAllocate_spec A s r
    have hinv := h.allocated hr.1 hr.2 ha
    obtain ⟨e,hid,hsize,hmem,-⟩ := ha.taken
    refine ⟨⟨l,n⟩,id,fun fuel hfuel => mmapSfAllocate_le hfuel hl,
      ⟨take r e,hmem,hid,rfl,hsize⟩,fun f hf hlive heq => ?_⟩
    have hkept := ha.keeps (mem_compact_of_live hf hlive) hlive.1
    have hsame := hinv.distinct.eq_of_id hkept hmem (heq.trans hid.symm)
    have hzero : f.counter = 0 := congrArg Entry.counter hsame
    exact hlive.2.ne' hzero
  · obtain ⟨f,hf,x,rfl⟩ := live_kept hs he hlive ho
    exact ⟨x,hf⟩

instance (A : Arch) (s : SecretFile) : (o : Op) → Decidable (Roomy A s o)
  | .find _ => inferInstanceAs (Decidable True)
  | .allocate _ => inferInstanceAs (Decidable (_ ∧ ((∃ e ∈ _, _) ∨ _)))
  | .count _ _ => inferInstanceAs (Decidable True)

def request (path : Char) (pgsize : Nat) : Request := ⟨[path], 5, 7, pgsize, 1, 0, 100⟩

def fileChurn : List Op :=
  [.allocate (request 'a' 3), .count 0 1, .allocate (request 'b' 2), .allocate (request 'c' 1),
    .find (request 'a' 2), .count 1 1, .allocate (request 'd' 9)]

theorem fileChurn_tiled :
    ∃ s, exec (step x86_64) .empty fileChurn = some s ∧
      s.chunks.map (fun e => (e.id, e.path, e.pgoffset, e.pgsize)) =
        [(0, some ['a'], 0, 3), (1, some ['c'], 3, 1), (2, some ['d'], 4, 9)] ∧
      Tiles Entry.pgoffset Entry.pgsize 0 s.chunks := by
  have hok : Meets (step x86_64) (Roomy x86_64) .empty fileChurn := by decide +kernel
  have hsome : (exec (step x86_64) .empty fileChurn).any fun s =>
      s.chunks.map (fun e => (e.id, e.path, e.pgoffset, e.pgsize)) =
        [(0, some ['a'], 0, 3),(1, some ['c'], 3, 1),(2, some ['d'], 4, 9)] := by decide +kernel
  obtain ⟨s,hs,hchunks⟩ := (Option.any_eq_true _ _).mp hsome
  exact ⟨s,hs,of_decide_eq_true hchunks,(secret_file_tiled x86_64 (Run.of_exec hs hok)).1⟩

def Positive (_ : SecretFile) : Op → Prop
  | .allocate r => 1 ≤ r.pgsize
  | _ => True

instance (s : SecretFile) : (o : Op) → Decidable (Positive s o)
  | .find _ => inferInstanceAs (Decidable True)
  | .allocate _ => inferInstanceAs (Decidable (_ ≤ _))
  | .count _ _ => inferInstanceAs (Decidable True)

def hugeChunks : List Op :=
  [.allocate (request 'a' (2 ^ 63)), .count 0 1, .allocate (request 'b' (2 ^ 63)), .count 1 1,
    .allocate (request 'c' 1)]

theorem huge_chunks_overlap : ¬∀ (A : Arch) (s : SecretFile), Run (step A) Positive .empty s →
    Tiles Entry.pgoffset Entry.pgsize 0 s.chunks := by
  intro h
  have hok : Meets (step x86_64) Positive .empty hugeChunks := by decide +kernel
  have hlost : (exec (step x86_64) .empty hugeChunks).any fun s =>
      ¬Tiles Entry.pgoffset Entry.pgsize 0 s.chunks := by decide +kernel
  obtain ⟨s,hs,hnot⟩ := (Option.any_eq_true _ _).mp hlost
  exact of_decide_eq_true hnot (h x86_64 s (Run.of_exec hs hok))

end ViewOS.Mmap
