import ViewOS.Lib.RefCount
import ViewOS.Mmap.Model
import ViewOS.Mmap.Tiled

namespace ViewOS.Mmap
open RefCount

structure Counts (f : SecretFile) (refs : Multiset Nat) : Prop where
  distinct : Distinct f
  live : ∀ i ∈ refs, ∃ e ∈ f.chunks, e.id = i ∧ e.path ≠ none ∧ e.counter = refs.count i
  dead : ∀ e ∈ f.chunks, e.id ∉ refs → e.counter = 0

section Counts

variable {A : Arch} {f : SecretFile} {refs : Multiset Nat} {r : Request}

theorem Counts.counter (h : Counts f refs) {e : Entry} (he : e ∈ f.chunks) :
    e.counter = refs.count e.id := by
  by_cases hi : e.id ∈ refs
  · obtain ⟨e',he',hid,-,hc⟩ := h.live _ hi
    rw [← hc,h.distinct.eq_of_id he' he hid]
  · rw [h.dead e he hi,Multiset.count_eq_zero_of_notMem hi]

theorem Counts.used (h : Counts f refs) {e : Entry} (he : e ∈ f.chunks) (hi : e.id ∈ refs) :
    Live e := by
  obtain ⟨e',he',hid,hpath,hc⟩ := h.live _ hi
  obtain rfl := h.distinct.eq_of_id he' he hid
  exact ⟨hpath,hc ▸ Multiset.count_pos.mpr hi⟩

theorem chunk_eq_some (h : Distinct f) {e : Entry} {id : Nat} :
    f.chunk id = some e ↔ e ∈ f.chunks ∧ e.id = id := by
  unfold SecretFile.chunk
  constructor
  · intro hc
    exact ⟨List.mem_of_find?_eq_some hc,by simpa using List.find?_some hc⟩
  · rintro ⟨he,rfl⟩
    cases hc : f.chunks.find? (·.id = e.id) with
    | none => exact absurd (List.find?_eq_none.mp hc e he) (by simp)
    | some e' =>
      have hid : e'.id = e.id := by simpa using List.find?_some hc
      rw [h.eq_of_id (List.mem_of_find?_eq_some hc) he hid]

theorem Counts.find {l : List Entry} {found : Option Nat} (h : Counts f refs)
    (hf : mmapSfFind A r f.chunks = some (found, l)) : Counts { f with chunks := l } refs := by
  have hl := (mmapSfFind_spec hf).1
  refine ⟨h.distinct.of_forall₂ (hl.imp ?_),fun i hi => ?_,fun e he hi => ?_⟩
  · rintro e e' ⟨x,rfl⟩
    rfl
  · obtain ⟨e,he,hid,hpath,hc⟩ := h.live i hi
    obtain ⟨e',he',x,rfl⟩ := exists_forall₂ hl he
    exact ⟨_,he',hid,hpath,hc⟩
  · obtain ⟨e',he',x,rfl⟩ := exists_forall₂ hl.flip he
    exact h.dead e' he' hi

def Matches (r : Request) (e : Entry) : Prop :=
  e.path = some r.path ∧ r.epoch = e.epoch ∧ r.mtime = e.mtime ∧ r.pgsize ≤ e.pgsize

instance (r : Request) (e : Entry) : Decidable (Matches r e) := inferInstanceAs (Decidable (_ ∧ _))

theorem mmapSfFind_eq {l l' : List Entry} {found : Option Nat}
    (h : mmapSfFind A r l = some (found, l')) : found = (l.find? (Matches r)).map Entry.id := by
  induction l generalizing found l' with
  | nil =>
    obtain ⟨rfl,-⟩ := Prod.mk.inj (Option.some.inj h)
    rfl
  | cons scan next ih =>
    have hnext : ¬Matches r scan →
        (mmapSfFind A r next).map (fun x => (x.1, scan :: x.2)) = some (found, l') →
        found = ((scan :: next).find? (Matches r)).map Entry.id := by
      intro hm hn
      obtain ⟨⟨found',l''⟩,hf,hx⟩ := Option.map_eq_some_iff.mp hn
      obtain ⟨rfl,-⟩ := Prod.mk.inj hx
      rw [ih hf,List.find?_cons_of_neg (by simpa using hm)]
    simp only [mmapSfFind] at h
    split_ifs at h with hkey
    · cases hp : scan.path with
      | none => simp [hp] at h
      | some path =>
        simp only [hp] at h
        split_ifs at h with hpath
        · obtain ⟨rfl,-⟩ := Prod.mk.inj (Option.some.inj h)
          have hm : Matches r scan := ⟨by rw [hp,hpath],hkey⟩
          rw [List.find?_cons_of_pos (by simpa using hm)]
          rfl
        · refine hnext (fun hm => hpath ?_) h
          exact Option.some.inj (hm.1.symm.trans hp)
    · exact hnext (fun hm => hkey hm.2) h

theorem joinFree_counter {next : List Entry} {scan e : Entry} (he : e ∈ joinFree A scan next) :
    ∃ e' ∈ scan :: next, e'.id = e.id ∧ e'.counter = e.counter := by
  induction next generalizing scan with
  | nil => exact ⟨e,he,rfl,rfl⟩
  | cons victim next ih =>
    rw [joinFree] at he
    split_ifs at he with hfree
    · obtain ⟨e',he',hid,hc⟩ := ih he
      rcases List.mem_cons.mp he' with rfl | he'
      · exact ⟨scan,List.mem_cons_self,hid,hc⟩
      · exact ⟨e',List.mem_cons_of_mem _ (List.mem_cons_of_mem _ he'),hid,hc⟩
    · rcases List.mem_cons.mp he with rfl | he
      · exact ⟨e,List.mem_cons_self,rfl,rfl⟩
      · obtain ⟨e',he',hrest⟩ := ih he
        exact ⟨e',List.mem_cons_of_mem _ he',hrest⟩

theorem age_counter (e : Entry) : (age e).counter = e.counter := by
  unfold age
  split_ifs <;> rfl

theorem compact_counter {l : List Entry} {e : Entry} (he : e ∈ mmapCompact A l) :
    ∃ e' ∈ l, e'.id = e.id ∧ e'.counter = e.counter := by
  unfold mmapCompact at he
  cases hl : l.map age with
  | nil => simp [hl] at he
  | cons scan next =>
    rw [hl] at he
    obtain ⟨e',he',hid,hc⟩ := joinFree_counter he
    obtain ⟨e'',he'',rfl⟩ := List.mem_map.mp (hl ▸ he' : e' ∈ l.map age)
    exact ⟨e'',he'',(age_id e'').symm.trans hid,(age_counter e'').symm.trans hc⟩

theorem Allocated.counter {l l' : List Entry} {n n' id : Nat} (ha : Allocated A r n l l' n' id)
    {e : Entry} (he : e ∈ l') : e ∈ l ∨ e.counter = 0 := by
  cases ha with
  | exact hl hfree hsize =>
    subst hl
    simp only [List.mem_append,List.mem_cons] at he ⊢
    rcases he with he | rfl | he
    · exact .inl (.inl he)
    · exact .inr rfl
    · exact .inl (.inr (.inr he))
  | split hl hfree hsize =>
    subst hl
    simp only [List.mem_append,List.mem_cons] at he ⊢
    rcases he with he | rfl | rfl | he
    · exact .inl (.inl he)
    · exact .inr rfl
    · exact .inr rfl
    · exact .inl (.inr (.inr he))
  | grow hl hfree hfull =>
    subst hl
    simp only [List.mem_append,List.mem_singleton] at he ⊢
    rcases he with he | rfl
    · exact .inl (.inl he)
    · exact .inr rfl
  | extend hfull =>
    simp only [List.mem_append,List.mem_singleton] at he
    rcases he with he | rfl
    · exact .inl he
    · exact .inr rfl

theorem Counts.allocated {l : List Entry} {n id : Nat} (h : Counts f refs)
    (ha : Allocated A r f.next (mmapCompact A f.chunks) l n id) :
    Counts ⟨l, n⟩ refs ∧ id ∉ refs := by
  have hdistinct := h.distinct.allocated ha
  have hkept : ∀ e ∈ f.chunks, e.id ∈ refs → { e with lastuse := e.lastuse >>> 1 } ∈ l :=
    fun e he hi => ha.keeps (mem_compact_of_live he (h.used he hi)) (h.used he hi).1
  refine ⟨⟨hdistinct,fun i hi => ?_,fun e he hi => ?_⟩,fun hi => ?_⟩
  · obtain ⟨e,he,hid,hpath,hc⟩ := h.live i hi
    exact ⟨_,hkept e he (hid ▸ hi),hid,hpath,hc⟩
  · rcases ha.counter he with he | hz
    · obtain ⟨e',he',hid,hc⟩ := compact_counter he
      rw [← hc]
      exact h.dead e' he' (hid ▸ hi)
    · exact hz
  · obtain ⟨e,he,hid,-,hc⟩ := h.live id hi
    obtain ⟨t,htid,-,ht,-⟩ := ha.taken
    have hsame := hdistinct.eq_of_id (hkept e he (hid ▸ hi)) ht (hid.trans htid.symm)
    have hzero : e.counter = 0 := congrArg Entry.counter hsame
    rw [hzero] at hc
    exact (Multiset.count_pos.mpr hi).ne hc

theorem Distinct.setCounter (h : Distinct f) (id counter : Nat) : Distinct (f.setCounter id counter) := by
  refine h.of_forall₂ ?_
  rw [List.forall₂_map_right_iff,List.forall₂_same]
  exact fun e _ => (setCounter_same id counter e).1

theorem mem_setCounter {e : Entry} {id counter : Nat} :
    e ∈ (f.setCounter id counter).chunks ↔
      ∃ e' ∈ f.chunks, e = if e'.id = id then { e' with counter := counter } else e' := by
  simp only [SecretFile.setCounter,List.mem_map,Mmap.setCounter,eq_comm]

theorem Counts.setCounter (h : Counts f refs) (refs' : Multiset Nat) {e : Entry}
    (he : e ∈ f.chunks) (hpath : e.path ≠ none)
    (hrest : ∀ i ≠ e.id, refs'.count i = refs.count i) :
    Counts (f.setCounter e.id (refs'.count e.id)) refs' := by
  refine ⟨h.distinct.setCounter _ _,fun i hi => ?_,fun e' he' hi => ?_⟩
  · rcases eq_or_ne i e.id with rfl | hne
    · refine ⟨_,mem_setCounter.mpr ⟨e,he,rfl⟩,?_⟩
      rw [if_pos rfl]
      exact ⟨rfl,hpath,rfl⟩
    · have hi' : i ∈ refs := Multiset.count_pos.mp (hrest i hne ▸ Multiset.count_pos.mpr hi)
      obtain ⟨e',he',hid,hpath',hc⟩ := h.live i hi'
      refine ⟨_,mem_setCounter.mpr ⟨e',he',rfl⟩,?_⟩
      rw [if_neg (hid ▸ hne)]
      exact ⟨hid,hpath',hc.trans (hrest i hne).symm⟩
  · obtain ⟨e'',he'',rfl⟩ := mem_setCounter.mp he'
    have hzero := Multiset.count_eq_zero_of_notMem hi
    split_ifs at hzero ⊢ with hid
    · exact hid ▸ hzero
    · rw [h.counter he'',← hrest _ hid,hzero]

theorem Counts.retain (h : Counts f refs) {e : Entry} (he : e ∈ f.chunks) (hpath : e.path ≠ none) :
    Counts (f.setCounter e.id (e.counter + 1)) ({e.id} + refs) := by
  have hset := h.setCounter ({e.id} + refs) he hpath fun i hne => by simp [hne]
  rwa [Multiset.count_add,Multiset.count_singleton_self,← h.counter he,Nat.add_comm] at hset

theorem Counts.release {id : Nat} (h : Counts f ({id} + refs)) :
    ∃ e, f.chunk id = some e ∧ Live e ∧ e.counter = refs.count id + 1 ∧
      Counts (f.setCounter id (e.counter - 1)) refs := by
  have hi : id ∈ ({id} + refs : Multiset Nat) := by simp
  obtain ⟨e,he,rfl,hpath,hc⟩ := h.live id hi
  rw [Multiset.count_add,Multiset.count_singleton_self,Nat.add_comm] at hc
  have hset := h.setCounter refs he hpath fun i hne => by simp [hne]
  refine ⟨e,(chunk_eq_some h.distinct).mpr ⟨he,rfl⟩,h.used he hi,hc,?_⟩
  rwa [hc,Nat.add_sub_cancel]

def sfs (l : List MapEntry) : Multiset Nat := (l.map MapEntry.sf : List Nat)

@[simp] theorem sfs_nil : sfs [] = 0 := rfl

@[simp] theorem sfs_cons (m : MapEntry) (l : List MapEntry) : sfs (m :: l) = {m.sf} + sfs l := by
  simp [sfs,Multiset.singleton_add]

-- What the list of an exiting process does to the file is done to its counters.
theorem recdelproc_induct {P : SecretFile → Prop} {f' : SecretFile} {l : List MapEntry}
    (hstep : ∀ f id counter, P f → P (f.setCounter id counter)) (h : P f)
    (hf : umMmapRecdelproc l f = some f') : P f' := by
  induction l generalizing f with
  | nil =>
    obtain rfl := Option.some.inj hf
    exact h
  | cons m l ih =>
    obtain ⟨e,-,hf⟩ := Option.bind_eq_some_iff.mp hf
    exact ih (hstep _ _ _ h) hf

theorem Counts.recdelproc {l : List MapEntry} (h : Counts f (sfs l + refs)) :
    ∃ f', umMmapRecdelproc l f = some f' ∧ Counts f' refs := by
  induction l generalizing f with
  | nil => exact ⟨f,rfl,by simpa using h⟩
  | cons m l ih =>
    rw [sfs_cons,add_assoc] at h
    obtain ⟨e,he,-,-,hnext⟩ := h.release
    obtain ⟨f',hf',hc⟩ := ih hnext
    exact ⟨f',by simp [umMmapRecdelproc,he,hf'],hc⟩

end Counts

end ViewOS.Mmap
