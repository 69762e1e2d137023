import ViewOS.Mmap.References

namespace ViewOS.Mmap
open RefCount

def procRefs : Option Proc → Multiset Nat
  | none => 0
  | some q => sfs q.umMmap

def State.refs (s : State) : Multiset Nat := (s.procs.map procRefs).sum

def Alike (e e' : Entry) : Prop := ∃ x c, e' = { e with lastuse := x, counter := c }

theorem Alike.refl (e : Entry) : Alike e e := ⟨e.lastuse,e.counter,rfl⟩

theorem Alike.trans {e e' e'' : Entry} (h : Alike e e') (h' : Alike e' e'') : Alike e e'' := by
  obtain ⟨x,c,rfl⟩ := h
  obtain ⟨x',c',rfl⟩ := h'
  exact ⟨x',c',rfl⟩

theorem Reused.alike {e e' : Entry} (h : Reused e e') : Alike e e' := by
  obtain ⟨x,rfl⟩ := h
  exact ⟨x,e.counter,rfl⟩

def Keeps (f f' : SecretFile) (refs : Multiset Nat) : Prop :=
  ∀ e ∈ f.chunks, e.id ∈ refs → ∃ e' ∈ f'.chunks, Alike e e'

section Keeps

variable {A : Arch} {f f' f'' : SecretFile} {refs : Multiset Nat} {r : Request}

theorem Keeps.refl (f : SecretFile) (refs : Multiset Nat) : Keeps f f refs :=
  fun e he _ => ⟨e,he,.refl e⟩

theorem Keeps.trans (h : Keeps f f' refs) (h' : Keeps f' f'' refs) : Keeps f f'' refs := by
  intro e he hi
  obtain ⟨e',he',ha⟩ := h e he hi
  have hid : e'.id = e.id := by
    obtain ⟨x,c,rfl⟩ := ha
    rfl
  obtain ⟨e'',he'',ha'⟩ := h' e' he' (hid.symm ▸ hi)
  exact ⟨e'',he'',ha.trans ha'⟩

theorem keeps_find {l : List Entry} {found : Option Nat}
    (hf : mmapSfFind A r f.chunks = some (found, l)) : Keeps f { f with chunks := l } refs := by
  intro e he _
  obtain ⟨e',he',hr⟩ := exists_forall₂ (mmapSfFind_spec hf).1 he
  exact ⟨e',he',hr.alike⟩

theorem keeps_allocated {l : List Entry} {n id : Nat} (h : Counts f refs)
    (ha : Allocated A r f.next (mmapCompact A f.chunks) l n id) : Keeps f ⟨l, n⟩ refs := by
  intro e he hi
  have hlive := h.used he hi
  exact ⟨_,ha.keeps (mem_compact_of_live he hlive) hlive.1,e.lastuse >>> 1,e.counter,rfl⟩

theorem keeps_setCounter (id counter : Nat) : Keeps f (f.setCounter id counter) refs := by
  intro e he _
  refine ⟨_,mem_setCounter.mpr ⟨e,he,rfl⟩,?_⟩
  split_ifs
  · exact ⟨e.lastuse,counter,rfl⟩
  · exact .refl e

theorem keeps_recdelproc {l : List MapEntry} (h : umMmapRecdelproc l f = some f') :
    Keeps f f' refs := by
  refine recdelproc_induct (P := (Keeps f · refs)) (fun g id n hk => ?_) (.refl f refs) h
  exact hk.trans (keeps_setCounter id n)

end Keeps

section Processes

variable {s s' : State} {pid : Nat} {q q' : Proc}

theorem proc_eq_some : s.proc pid = some q ↔ s.procs[pid]? = some (some q) := by
  simp [State.proc,Option.join_eq_some_iff]

theorem lt_of_proc (hq : s.proc pid = some q) : pid < s.procs.length :=
  (List.getElem?_eq_some_iff.mp (proc_eq_some.mp hq)).1

theorem proc_set {x : Option Proc} (hq : s.proc pid = some q) (hprocs : s'.procs = s.procs.set pid x) :
    s'.proc pid = x ∧ ∀ p, p ≠ pid → s'.proc p = s.proc p := by
  unfold State.proc
  rw [hprocs]
  refine ⟨by simp [List.getElem?_set_self (lt_of_proc hq)],fun p hp => ?_⟩
  rw [List.getElem?_set_ne hp.symm]

theorem refs_split (hq : s.proc pid = some q) :
    ∃ r, s.refs = sfs q.umMmap + r ∧
      ∀ (t : State) (x : Option Proc), t.procs = s.procs.set pid x → t.refs = procRefs x + r := by
  obtain ⟨r,hr,hset⟩ := sum_map_split procRefs (proc_eq_some.mp hq)
  refine ⟨r,hr,fun t x ht => ?_⟩
  rw [State.refs,ht,hset]

theorem mem_refs (hq : s.proc pid = some q) {m : MapEntry} (hm : m ∈ q.umMmap) : m.sf ∈ s.refs := by
  obtain ⟨r,hr,-⟩ := refs_split hq
  rw [hr]
  exact Multiset.mem_add.mpr (.inl (List.mem_map_of_mem hm))

theorem sfsearch_spec {start len : Nat} {pre l l' : List MapEntry}
    (h : sfsearchNMovetohead start len pre l = some l') :
    ∃ m rest, l' = m :: rest ∧ m.start = start ∧ m.len = len ∧ (m :: rest).Perm (pre ++ l) := by
  induction l generalizing pre with
  | nil => simp [sfsearchNMovetohead] at h
  | cons this next ih =>
    rw [sfsearchNMovetohead] at h
    split_ifs at h with hkey
    · obtain rfl := Option.some.inj h
      exact ⟨this,pre ++ next,rfl,hkey.1,hkey.2,List.perm_middle.symm⟩
    · obtain ⟨m,rest,hl,hs,hlen,hperm⟩ := ih h
      exact ⟨m,rest,hl,hs,hlen,by simpa using hperm⟩

theorem sfs_perm {l l' : List MapEntry} (h : l.Perm l') : sfs l = sfs l' :=
  Multiset.coe_eq_coe.mpr (h.map _)

theorem counts_put (h : Counts s.file s.refs) (hq : s.proc pid = some q)
    (hsfs : sfs q'.umMmap = sfs q.umMmap) :
    Counts (s.put pid q').file (s.put pid q').refs := by
  obtain ⟨r,hr,hr'⟩ := refs_split hq
  have hrefs : (s.put pid q').refs = s.refs := by rw [hr' _ (some q') rfl,hr,procRefs,hsfs]
  rw [hrefs]
  exact h

end Processes

end ViewOS.Mmap
