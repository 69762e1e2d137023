import ViewOS.Mmap.Effect

namespace ViewOS.Mmap

open Transition

def served (A : Arch) (s : State) (a : MmapArgs) : Option Nat :=
  match a.stat with
  | none => none
  | some (mtime, size) => (mmapSfFind A (a.request A mtime size) s.file.chunks).bind Prod.fst

def loads (A : Arch) (s : State) (a : MmapArgs) : Option (Nat × Request × Bool) :=
  match a.stat with
  | none => none
  | some (mtime, size) =>
    match mmapSfFind A (a.request A mtime size) s.file.chunks with
    | some (none, chunks) =>
      (mmapSfAllocate A (allocFuel { s.file with chunks := chunks })
        { s.file with chunks := chunks } (a.request A mtime size)).map
        fun x => (x.2, a.request A mtime size, a.loaded.any (decide <| size ≤ ·))
    | _ => none

structure Watched where
  state : State
  unloaded : List Nat
  failed : List Request

def Watched.init : Watched := ⟨.init, [], []⟩

def Watched.record (w : Watched) (s : State) : Option (Nat × Request × Bool) → Watched
  | none => { w with state := s }
  | some (id, _, true) => { w with state := s, unloaded := w.unloaded.filter (· ≠ id) }
  | some (id, r, false) => ⟨s, id :: w.unloaded, r :: w.failed⟩

def Watched.step (A : Arch) (w : Watched) (o : SysOp) : Option Watched :=
  (perform A w.state o).map fun s =>
    match o.call with
    | .mmap a => w.record s (loads A w.state a)
    | _ => { w with state := s }

structure NoTrace (A : Arch) (w : Watched) (o : SysOp) (w' : Watched) : Prop where
  complete : ∀ a id, o.call = .mmap a → served A w.state a = some id → id ∉ w.unloaded
  refused : ∀ a id r, o.call = .mmap a → loads A w.state a = some (id, r, false) →
    w'.state.proc o.pid = w.state.proc o.pid

structure Tidy (A : Arch) (w : Watched) (o : SysOp) : Prop where
  larger : ∀ a mtime size, o.call = .mmap a → a.stat = some (mtime, size) → ∀ r ∈ w.failed,
    r.path = a.path → r.epoch = a.nestepoch → r.mtime = mtime → r.pgsize < a.pgsize A size
  whole : ∀ a mtime size k, o.call = .mmap a → a.stat = some (mtime, size) →
    served A w.state a = none → a.loaded = some k → size ≤ k

def Stems (l l' : List Entry) : Prop :=
  ∀ f ∈ l', f.path ≠ none → ∃ e ∈ l, e.id = f.id ∧ e.path = f.path ∧ e.epoch = f.epoch ∧
    e.mtime = f.mtime ∧ e.pgsize = f.pgsize

structure Loaded (w : Watched) : Prop where
  booked : Booked w.state
  unloaded : ∀ e ∈ w.state.file.chunks, e.path ≠ none → e.id ∈ w.unloaded →
    ∃ r ∈ w.failed, e.path = some r.path ∧ e.epoch = r.epoch ∧ e.mtime = r.mtime ∧
      e.pgsize ≤ r.pgsize

section

variable {A : Arch} {s t : State} {w : Watched} {pid : Nat} {q : Proc} {a : MmapArgs}
  {f : SecretFile} {l l' l'' : List Entry}

theorem Stems.refl (l : List Entry) : Stems l l :=
  fun f hf _ => ⟨f,hf,rfl,rfl,rfl,rfl,rfl⟩

theorem Stems.trans (h : Stems l l') (h' : Stems l' l'') : Stems l l'' := by
  intro f hf hp
  obtain ⟨e,he,h1,h2,h3,h4,h5⟩ := h' f hf hp
  obtain ⟨e₀,he₀,g1,g2,g3,g4,g5⟩ := h e he (h2 ▸ hp)
  exact ⟨e₀,he₀,g1.trans h1,g2.trans h2,g3.trans h3,g4.trans h4,g5.trans h5⟩

theorem stems_setCounter (f : SecretFile) (id counter : Nat) :
    Stems f.chunks (f.setCounter id counter).chunks := by
  intro e he _
  obtain ⟨e₀,he₀,rfl⟩ := mem_setCounter.mp he
  refine ⟨e₀,he₀,?_⟩
  split_ifs <;> exact ⟨rfl,rfl,rfl,rfl,rfl⟩

theorem setCounter_stems (f : SecretFile) (id counter : Nat) :
    Stems (f.setCounter id counter).chunks f.chunks := by
  intro e he _
  refine ⟨_,mem_setCounter.mpr ⟨e,he,rfl⟩,?_⟩
  split_ifs <;> exact ⟨rfl,rfl,rfl,rfl,rfl⟩

theorem stems_recdelproc {ms : List MapEntry} {f' : SecretFile}
    (h : umMmapRecdelproc ms f = some f') : Stems f.chunks f'.chunks := by
  refine recdelproc_induct (P := fun g => Stems f.chunks g.chunks) (fun g id n hs => ?_) (.refl _) h
  exact hs.trans (stems_setCounter g id n)

theorem stems_reused (h : List.Forall₂ Reused l l') : Stems l l' := by
  induction h with
  | nil => exact .refl _
  | cons hab _ ih =>
    intro f hf hp
    rcases List.mem_cons.mp hf with rfl | hf
    · obtain ⟨x,rfl⟩ := hab
      exact ⟨_,List.mem_cons_self,rfl,rfl,rfl,rfl,rfl⟩
    · obtain ⟨e,he,hsame⟩ := ih f hf hp
      exact ⟨e,List.mem_cons_of_mem _ he,hsame⟩

theorem stems_find {r : Request} {found : Option Nat} (h : mmapSfFind A r l = some (found, l')) :
    Stems l l' :=
  stems_reused (mmapSfFind_spec h).1

theorem stems_compact (l : List Entry) : Stems l (mmapCompact A l) := by
  intro f hf hp
  obtain ⟨e,he,rfl⟩ := used_of_mem_compact hf hp
  exact ⟨e,he,rfl,rfl,rfl,rfl,rfl⟩

theorem Effect.stems {c : Call} (h : Effect A s pid q c t) (hc : ∀ a, c ≠ .mmap a) :
    Stems s.file.chunks t.file.chunks := by
  cases h with
  | unread | mmap => exact absurd rfl (hc _)
  | unmapped | failed => exact stems_setCounter _ _ _
  | exit hf => exact stems_recdelproc hf
  | clone cloneVm _ => cases cloneVm <;> exact .refl _
  | _ => exact .refl _

theorem wrapInMmap_stems (h : wrapInMmap A s pid q a = some t) :
    (loads A s a = none ∧ Stems s.file.chunks t.file.chunks) ∨
      ∃ mtime size e, a.stat = some (mtime, size) ∧ served A s a = none ∧
        loads A s a =
          some (e.id, a.request A mtime size, a.loaded.any (decide <| size ≤ ·)) ∧
        e.pgsize = a.pgsize A size ∧
        Stems (take (a.request A mtime size) e :: s.file.chunks) t.file.chunks ∧
        Stems t.file.chunks [take (a.request A mtime size) e] ∧
        (a.loaded = none → t.procs = s.procs) := by
  unfold wrapInMmap at h
  cases hstat : a.stat with
  | none =>
    simp only [hstat] at h
    cases h
    exact .inl ⟨by simp only [loads,hstat],.refl _⟩
  | some x =>
    obtain ⟨mtime,size⟩ := x
    simp only [hstat] at h
    obtain ⟨⟨found,chunks⟩,hf,h⟩ := Option.bind_eq_some_iff.mp h
    change mmapSfFind A (a.request A mtime size) s.file.chunks = some (found, chunks) at hf
    cases found with
    | some id =>
      obtain ⟨e,he,h⟩ := Option.bind_eq_some_iff.mp h
      cases h
      exact .inl ⟨by simp only [loads,hstat,hf],
        (stems_find hf).trans (stems_setCounter _ _ _)⟩
    | none =>
      obtain ⟨⟨⟨l,n⟩,id⟩,ha,h⟩ := Option.bind_eq_some_iff.mp h
      change mmapSfAllocate A _ { s.file with chunks := chunks } (a.request A mtime size) = _ at ha
      have halloc := mmapSfAllocate_some ha
      obtain ⟨e,rfl,hsize,hin,hused⟩ := halloc.taken
      have hstems : Stems (take (a.request A mtime size) e :: s.file.chunks) l := by
        intro f hmem hp
        rcases hused f hmem hp with rfl | hold
        · exact ⟨_,List.mem_cons_self,rfl,rfl,rfl,rfl,rfl⟩
        · obtain ⟨e₀,he₀,hsame⟩ := (stems_find hf).trans (stems_compact _) f hold hp
          exact ⟨e₀,List.mem_cons_of_mem _ he₀,hsame⟩
      have htaken : Stems l [take (a.request A mtime size) e] := fun f hmem _ =>
        ⟨f,List.mem_singleton.mp hmem ▸ hin,rfl,rfl,rfl,rfl,rfl⟩
      refine .inr ⟨mtime,size,e,rfl,by simp only [served,hstat,hf,Option.bind_some],
        by simp only [loads,hstat,hf,ha,Option.map_some],hsize,?_⟩
      obtain ⟨e',-,h⟩ := Option.bind_eq_some_iff.mp h
      cases hload : a.loaded with
      | none =>
        simp only [hload] at h
        cases h
        exact ⟨hstems,htaken,fun _ => rfl⟩
      | some k =>
        simp only [hload] at h
        obtain ⟨e'',-,h⟩ := Option.bind_eq_some_iff.mp h
        cases h
        exact ⟨hstems.trans (stems_setCounter _ _ _),(setCounter_stems _ _ _).trans htaken,
          fun h => by cases h⟩

theorem Loaded.of_stems {s' : State} (h : Loaded w) (hb : Booked s')
    (hstems : Stems w.state.file.chunks s'.file.chunks) : Loaded { w with state := s' } := by
  refine ⟨hb,fun f hf hp hid => ?_⟩
  obtain ⟨e,he,h1,h2,h3,h4,h5⟩ := hstems f hf hp
  obtain ⟨r,hr,g2,g3,g4,g5⟩ := h.unloaded e he (h2 ▸ hp) (h1 ▸ hid)
  exact ⟨r,hr,h2 ▸ g2,h3 ▸ g3,h4 ▸ g4,h5 ▸ g5⟩

theorem Loaded.record {s' : State} {r : Request} {e : Entry} {whole : Bool} (h : Loaded w)
    (hb : Booked s') (hsize : e.pgsize = r.pgsize)
    (hstems : Stems (take r e :: w.state.file.chunks) s'.file.chunks)
    (htaken : Stems s'.file.chunks [take r e]) :
    Loaded (w.record s' (some (e.id, r, whole))) := by
  have hold : ∀ f ∈ s'.file.chunks, f.path ≠ none → f.id ≠ e.id → f.id ∈ w.unloaded →
      ∃ r ∈ w.failed, f.path = some r.path ∧ f.epoch = r.epoch ∧ f.mtime = r.mtime ∧
        f.pgsize ≤ r.pgsize := by
    intro f hf hp hne hid
    obtain ⟨g,hg,h1,h2,h3,h4,h5⟩ := hstems f hf hp
    rcases List.mem_cons.mp hg with rfl | hg
    · exact absurd h1.symm hne
    · obtain ⟨r',hr',g2,g3,g4,g5⟩ := h.unloaded g hg (h2 ▸ hp) (h1 ▸ hid)
      exact ⟨r',hr',h2 ▸ g2,h3 ▸ g3,h4 ▸ g4,h5 ▸ g5⟩
  cases whole with
  | true =>
    refine ⟨hb,fun f hf hp hid => ?_⟩
    obtain ⟨hid,hne⟩ := List.mem_filter.mp hid
    exact hold f hf hp (of_decide_eq_true hne) hid
  | false =>
    refine ⟨hb,fun f hf hp hid => ?_⟩
    by_cases hne : f.id = e.id
    · obtain ⟨g,hg,h1,h2,h3,h4,h5⟩ := htaken _ (List.mem_singleton_self _)
        (Option.some_ne_none _)
      obtain rfl := hb.counts.distinct.eq_of_id hg hf (h1.trans hne.symm)
      exact ⟨r,List.mem_cons_self,h2,h3,h4,(h5.trans hsize).le⟩
    · obtain ⟨r',hr',hsame⟩ := hold f hf hp hne ((List.mem_cons.mp hid).resolve_left hne)
      exact ⟨r',List.mem_cons_of_mem _ hr',hsame⟩

theorem Watched.step_cases {o : SysOp} {w' : Watched} (h : w.step A o = some w') :
    ∃ s', perform A w.state o = some s' ∧ w' = match o.call with
      | .mmap a => w.record s' (loads A w.state a)
      | _ => { w with state := s' } := by
  obtain ⟨s',hs,rfl⟩ := Option.map_eq_some_iff.mp h
  exact ⟨s',hs,rfl⟩

theorem perform_mmap {s' : State} (h : perform A s ⟨pid, .mmap a⟩ = some s') :
    ∃ q t, s.proc pid = some q ∧ q.pending = none ∧ wrapInMmap A s pid q a = some t ∧
      s' = t.forget := by
  obtain ⟨q,hq,h⟩ := Option.bind_eq_some_iff.mp h
  obtain ⟨t,ht,h⟩ := Option.bind_eq_some_iff.mp h
  cases hpend : q.pending with
  | some p =>
    simp only [wrap,hpend] at ht
    cases ht
  | none =>
    simp only [wrap,hpend,wrapIn] at ht
    exact ⟨q,t,hq,hpend,ht,(Option.some.inj h).symm⟩

theorem Loaded.step {o : SysOp} {w' : Watched} (h : Loaded w) (hs : w.step A o = some w') :
    Loaded w' := by
  obtain ⟨s',hperf,rfl⟩ := Watched.step_cases hs
  have hb := h.booked.perform hperf
  obtain ⟨pid,c⟩ := o
  by_cases hc : ∃ a, c = .mmap a
  · obtain ⟨a,rfl⟩ := hc
    obtain ⟨q,t,-,-,ht,rfl⟩ := perform_mmap hperf
    rcases wrapInMmap_stems ht with ⟨hnone,hstems⟩ | ⟨mtime,size,e,-,-,hloads,
        hsize,hstems,htaken,-⟩
    · show Loaded (w.record _ (loads A w.state a))
      rw [hnone]
      exact h.of_stems hb hstems
    · show Loaded (w.record _ (loads A w.state a))
      rw [hloads]
      exact h.record hb hsize hstems htaken
  · obtain ⟨q,t,-,heff,rfl⟩ := perform_effect h.booked hperf
    have hstems := h.of_stems hb (heff.stems fun a ha => hc ⟨a,ha⟩)
    cases c with
    | mmap a => exact absurd ⟨a,rfl⟩ hc
    | _ => exact hstems

theorem Loaded.noTrace {o : SysOp} {w' : Watched} (h : Loaded w) (ho : Tidy A w o)
    (hs : w.step A o = some w') : NoTrace A w o w' := by
  obtain ⟨s',hperf,rfl⟩ := Watched.step_cases hs
  obtain ⟨pid,c⟩ := o
  constructor
  · rintro a id rfl hserved hid
    unfold served at hserved
    cases hstat : a.stat with
    | none =>
      rw [hstat] at hserved
      cases hserved
    | some x =>
      obtain ⟨mtime,size⟩ := x
      rw [hstat] at hserved
      obtain ⟨⟨found,l⟩,hf,rfl⟩ := Option.bind_eq_some_iff.mp hserved
      obtain ⟨e,he,rfl,hpath,hepoch,hmtime,hsize⟩ := (mmapSfFind_spec hf).2 id rfl
      obtain ⟨r,hr,g2,g3,g4,g5⟩ := h.unloaded e he (by rw [hpath]; exact Option.some_ne_none _)
        hid
      have hlt := ho.larger a mtime size rfl hstat r hr
        (Option.some.inj (g2.symm.trans hpath)) (g3.symm.trans hepoch) (g4.symm.trans hmtime)
      exact absurd (hsize.trans g5) (Nat.not_le.mpr hlt)
  · rintro a id r rfl hloads
    obtain ⟨q,t,hq,-,ht,rfl⟩ := perform_mmap hperf
    show (w.record _ (loads A w.state a)).state.proc pid = _
    rcases wrapInMmap_stems ht with ⟨hnone,-⟩ | ⟨mtime,size,e,hstat,hserved,hl,
        -,-,-,hprocs⟩
    · cases hnone.symm.trans hloads
    · have hfail := Prod.mk.inj (Prod.mk.inj (Option.some.inj (hl.symm.trans hloads))).2
      rw [hloads]
      show (t.procs[pid]?).join = _
      cases hload : a.loaded with
      | none =>
        rw [hprocs hload]
        rfl
      | some k =>
        have hle := ho.whole a mtime size k rfl hstat hserved hload
        rw [hload,Option.any_some,decide_eq_true hle] at hfail
        cases hfail.2

end

theorem failed_load_no_trace (A : Arch) (w w' : Watched) (o : SysOp)
    (hrun : Run (Watched.step A) (Tidy A) .init w) (ho : Tidy A w o)
    (hs : w.step A o = some w') : NoTrace A w o w' := by
  have hloaded : Loaded w := hrun.invariant (fun _ _ _ h _ hstep => h.step hstep)
    ⟨booked_init,fun e he => by cases he⟩
  exact hloaded.noTrace ho hs

def readArgs (loaded : Option Nat) (length : Nat) : MmapArgs :=
  ⟨['f'], 1, 0, some (7, 100), loaded, 1, length, 0, false⟩

def reading (loaded : Option Nat) (length : Nat) : SysOp := ⟨0, .mmap (readArgs loaded length)⟩

theorem unread_then_larger :
    ∃ w w', Watched.init.step x86_64 (reading none 10) = some w ∧
      w.step x86_64 (reading (some 100) 5000) = some w' ∧
        NoTrace x86_64 w (reading (some 100) 5000) w' := by
  have hrun : ((Watched.init.step x86_64 (reading none 10)).any fun w =>
      w.failed == [(readArgs none 10).request x86_64 7 100] &&
        (w.step x86_64 (reading (some 100) 5000)).isSome) = true := by decide +kernel
  obtain ⟨w,hw,hboth⟩ := (Option.any_eq_true _ _).mp hrun
  rw [Bool.and_eq_true,beq_iff_eq,Option.isSome_iff_exists] at hboth
  obtain ⟨hfailed,w',hw'⟩ := hboth
  refine ⟨w,w',hw,hw',failed_load_no_trace x86_64 w w' _ (.tail (.refl _) ?_ hw) ?_ hw'⟩
  · constructor
    · intro a mtime size _ _ r hr
      cases hr
    · rintro a mtime size k ⟨⟩ _ _ hk
      cases hk
  · constructor
    · rintro a mtime size ⟨⟩ hstat r hr _ _ _
      rw [hfailed] at hr
      rw [List.mem_singleton.mp hr]
      cases hstat
      decide
    · rintro a mtime size k ⟨⟩ hstat _ hk
      cases hstat
      cases hk
      exact Nat.le_refl 100

theorem unread_file_served :
    ¬∀ (w w' : Watched) (o : SysOp), Run (Watched.step x86_64) (fun _ _ => True) .init w →
      w.step x86_64 o = some w' → NoTrace x86_64 w o w' := by
  intro h
  have hrun : ((Watched.init.step x86_64 (reading none 10)).any fun w =>
      served x86_64 w.state (readArgs none 10) == some 0 && w.unloaded == [0] &&
        (w.step x86_64 (reading none 10)).isSome) = true := by decide +kernel
  obtain ⟨w,hw,hboth⟩ := (Option.any_eq_true _ _).mp hrun
  rw [Bool.and_eq_true,Bool.and_eq_true,beq_iff_eq,beq_iff_eq,Option.isSome_iff_exists] at hboth
  obtain ⟨⟨hserved,hun⟩,w',hw'⟩ := hboth
  have htrace := (h w w' _ (.tail (.refl _) trivial hw) hw').complete _ 0 rfl hserved
  rw [hun] at htrace
  exact htrace (List.mem_singleton_self 0)

end ViewOS.Mmap
