import ViewOS.Mmap.Balance

namespace ViewOS.Mmap
open RefCount

def written (A : Arch) (e : Entry) (error : Bool) (secret : List UInt8) : List Store :=
  if !error ∧ e.counter - 1 = 0 ∧ e.writable then [storeMmapSecret A e secret] else []

def MmapArgs.request (A : Arch) (a : MmapArgs) (mtime : Int) (size : Nat) : Request :=
  ⟨a.path, a.nestepoch, mtime, a.pgsize A size, a.prot, a.hte, a.length⟩

inductive Fetched (A : Arch) (s : State) (a : MmapArgs) (r : Request) : State → Nat → Prop
  | found {chunks : List Entry} {id : Nat} (h : mmapSfFind A r s.file.chunks = some (some id, chunks)) :
      Fetched A s a r { s with file := { s.file with chunks := chunks } } id
  | loaded {chunks l : List Entry} {n id k : Nat} {e : Entry}
      (h : mmapSfFind A r s.file.chunks = some (none, chunks))
      (ha : Allocated A r s.file.next (mmapCompact A chunks) l n id)
      (he : SecretFile.chunk ⟨l, n⟩ id = some e) (hk : a.loaded = some k) :
      Fetched A s a r
        { s with file := ⟨l, n⟩, written := s.written ++ [(e.pgoffset, k)] } id

inductive Effect (A : Arch) (s : State) (pid : Nat) (q : Proc) : Call → State → Prop
  | idle (c : Call) (hidle : q.pending = none) : Effect A s pid q c s
  | unread {a : MmapArgs} {mtime : Int} {size n id : Nat} {chunks l : List Entry}
      (hidle : q.pending = none) (hstat : a.stat = some (mtime, size))
      (h : mmapSfFind A (a.request A mtime size) s.file.chunks = some (none, chunks))
      (ha : Allocated A (a.request A mtime size) s.file.next (mmapCompact A chunks) l n id) :
      Effect A s pid q (.mmap a) { s with file := ⟨l, n⟩ }
  | mmap {a : MmapArgs} {mtime : Int} {size id : Nat} {t : State} {e : Entry}
      (hidle : q.pending = none) (hstat : a.stat = some (mtime, size))
      (ht : Fetched A s a (a.request A mtime size) t id) (he : t.file.chunk id = some e) :
      Effect A s pid q (.mmap a)
        { t.put pid { q with
            umMmap := ⟨0, a.length, id⟩ :: q.umMmap,
            pending := some (.mmap ⟨id, a.prot, a.pageOffset A, a.length, size⟩
              (kernelPage A e.pgoffset (a.pageOffset A) (a.pgsize A size))) } with
          file := t.file.setCounter id (e.counter + 1) }
  | search {c : Call} {start len : Nat} {m : MapEntry} {rest : List MapEntry} {pending : Pending}
      (hidle : q.pending = none) (hkey : m.start = start ∧ m.len = len)
      (hperm : (m :: rest).Perm q.umMmap)
      (hc : (∃ ok, c = .munmap start len ok) ∧ pending = .munmap start len ∨
        ∃ len' rv, c = .mremap start len len' rv ∧ pending = .mremap start len len') :
      Effect A s pid q c (s.put pid { q with umMmap := m :: rest, pending := some pending })
  | unmap {start len : Nat} (hidle : q.pending = none) :
      Effect A s pid q (.munmap start len true)
        (s.putVm q.vm (unmapPages (s.vm q.vm) start (pages A len)))
  | remap {start len len' rv : Nat} (hidle : q.pending = none)
      (hnone : ∀ m ∈ q.umMmap, ¬(m.start = start ∧ m.len = len)) :
      Effect A s pid q (.mremap start len len' (some rv))
        (s.putVm q.vm (remapPages (s.vm q.vm) start (pages A len) rv (pages A len')))
  | mapped {map : Mapping} {page rv : Nat} {secret : List UInt8} {m : MapEntry}
      {rest : List MapEntry} (hpend : q.pending = some (.mmap map (some page)))
      (hl : q.umMmap = m :: rest) :
      Effect A s pid q (.out (some rv) secret)
        { (s.putVm q.vm (mapPages (s.vm q.vm) rv (pages A map.length) page)).put pid
            { q with umMmap := { m with start := rv } :: rest, pending := none } with
          maps := s.maps ++ [map] }
  | unmapped {start len rv : Nat} {secret : List UInt8} {m : MapEntry} {rest : List MapEntry} {e : Entry}
      (hpend : q.pending = some (.munmap start len)) (hl : q.umMmap = m :: rest)
      (he : s.file.chunk m.sf = some e) :
      Effect A s pid q (.out (some rv) secret)
        { (s.putVm q.vm (unmapPages (s.vm q.vm) start (pages A len))).put pid
            { q with umMmap := rest, pending := none } with
          file := s.file.setCounter m.sf (e.counter - 1),
          stores := s.stores ++ written A e false secret }
  | failed {map : Mapping} {page rv : Option Nat} {secret : List UInt8} {m : MapEntry}
      {rest : List MapEntry} {e : Entry} (hpend : q.pending = some (.mmap map page))
      (hrv : page = none ∨ rv = none) (hl : q.umMmap = m :: rest) (he : s.file.chunk m.sf = some e) :
      Effect A s pid q (.out rv secret)
        { s.put pid { q with umMmap := rest, pending := none } with
          file := s.file.setCounter m.sf (e.counter - 1) }
  | remapped {start len len' rv : Nat} {secret : List UInt8} {m : MapEntry} {rest : List MapEntry}
      (hpend : q.pending = some (.mremap start len len')) (hl : q.umMmap = m :: rest) :
      Effect A s pid q (.out (some rv) secret)
        ((s.putVm q.vm (remapPages (s.vm q.vm) start (pages A len) rv (pages A len'))).put pid
          { q with umMmap := { m with start := rv, len := len' } :: rest, pending := none })
  | undone {secret : List UInt8} {pending : Pending} (hpend : q.pending = some pending)
      (hne : ∀ map page, pending ≠ .mmap map page) :
      Effect A s pid q (.out none secret) (s.put pid { q with pending := none })
  | clone (cloneVm : Bool) (hidle : q.pending = none) :
      Effect A s pid q (.clone cloneVm) (Mmap.clone s q cloneVm)
  | exit {f : SecretFile} (hf : umMmapRecdelproc q.umMmap s.file = some f) :
      Effect A s pid q .exit { s with file := f, procs := s.procs.set pid none }

def Ready (q : Proc) : Prop :=
  match q.pending with
  | none => True
  | some (.mmap map _) => ∃ m rest, q.umMmap = m :: rest ∧ m.len = map.length ∧ m.sf = map.sf
  | some (.munmap start len) => ∃ m rest, q.umMmap = m :: rest ∧ m.start = start ∧ m.len = len
  | some (.mremap start len _) => ∃ m rest, q.umMmap = m :: rest ∧ m.start = start ∧ m.len = len

section Effect

variable {A : Arch} {s s' : State} {pid : Nat} {q : Proc} {c : Call}

theorem mmapSfDel_eq {sf : Nat} {e : Entry} (error : Bool) (secret : List UInt8)
    (he : s.file.chunk sf = some e) :
    mmapSfDel A s sf error secret =
      some { s with file := s.file.setCounter sf (e.counter - 1),
                    stores := s.stores ++ written A e error secret } := by
  simp only [mmapSfDel,he,Option.bind_eq_bind,Option.bind_some,written]
  split_ifs
  · rfl
  · rw [List.append_nil]

theorem deletehead_some {m : MapEntry} {rest : List MapEntry} {error : Bool} {secret : List UInt8}
    (hl : q.umMmap = m :: rest) (h : pcbMmapDeletehead A s pid q error secret = some s') :
    ∃ e, s.file.chunk m.sf = some e ∧
      s' = { s.put pid { q with umMmap := rest } with
        file := s.file.setCounter m.sf (e.counter - 1),
        stores := s.stores ++ written A e error secret } := by
  simp only [pcbMmapDeletehead,hl] at h
  obtain ⟨t,ht,h⟩ := Option.bind_eq_some_iff.mp h
  cases he : s.file.chunk m.sf with
  | none => simp [mmapSfDel,he] at ht
  | some e =>
    rw [mmapSfDel_eq error secret he] at ht
    obtain rfl := Option.some.inj ht
    exact ⟨e,rfl,(Option.some.inj h).symm⟩

theorem wrapInMmap_effect {a : MmapArgs} (hidle : q.pending = none)
    (h : wrapInMmap A s pid q a = some s') : Effect A s pid q (.mmap a) s' := by
  unfold wrapInMmap at h
  cases hstat : a.stat with
  | none =>
    rw [hstat] at h
    obtain rfl := Option.some.inj h
    exact .idle _ hidle
  | some x =>
    obtain ⟨mtime,size⟩ := x
    simp only [hstat] at h
    obtain ⟨⟨found,chunks⟩,hf,h⟩ := Option.bind_eq_some_iff.mp h
    cases found with
    | some id =>
      obtain ⟨e,he,h⟩ := Option.bind_eq_some_iff.mp h
      obtain rfl := Option.some.inj h
      exact .mmap hidle hstat (.found hf) he
    | none =>
      obtain ⟨⟨⟨l,n⟩,id⟩,ha,h⟩ := Option.bind_eq_some_iff.mp h
      have halloc := mmapSfAllocate_some ha
      obtain ⟨e,he,h⟩ := Option.bind_eq_some_iff.mp h
      cases hload : a.loaded with
      | none =>
        simp only [hload] at h
        obtain rfl := Option.some.inj h
        exact .unread hidle hstat hf halloc
      | some k =>
        simp only [hload] at h
        obtain ⟨e',he',h⟩ := Option.bind_eq_some_iff.mp h
        obtain rfl := Option.some.inj h
        exact .mmap hidle hstat (.loaded hf halloc he hload) he'

theorem sfsearch_none {start len : Nat} {pre l : List MapEntry}
    (h : sfsearchNMovetohead start len pre l = none) : ∀ m ∈ l, ¬(m.start = start ∧ m.len = len) := by
  induction l generalizing pre with
  | nil => simp
  | cons this next ih =>
    rw [sfsearchNMovetohead] at h
    split_ifs at h with hkey
    exact List.forall_mem_cons.mpr ⟨hkey,ih h⟩

theorem remapped_some {start len len' rv : Nat} (h : remapped A s q start len len' rv = some s') :
    s.putVm q.vm (remapPages (s.vm q.vm) start (pages A len) rv (pages A len')) = s' := by
  unfold remapped at h
  split_ifs at h
  exact Option.some.inj h

theorem exit_effect (h : Mmap.exit s pid q = some s') : Effect A s pid q .exit s' := by
  obtain ⟨f,hf,h⟩ := Option.bind_eq_some_iff.mp h
  obtain rfl := Option.some.inj h
  exact .exit hf

theorem written_error (e : Entry) (secret : List UInt8) : written A e true secret = [] := by
  simp [written]

theorem wrapIn_effect (hidle : q.pending = none) (h : wrapIn A s pid q c = some s') :
    Effect A s pid q c s' := by
  cases c with
  | mmap a => exact wrapInMmap_effect hidle h
  | munmap start len ok =>
    simp only [wrapIn,wrapInMunmap] at h
    cases hl : sfsearchNMovetohead start len [] q.umMmap with
    | some l =>
      obtain ⟨m,rest,rfl,hs,hlen,hperm⟩ := sfsearch_spec hl
      rw [hl] at h
      obtain rfl := Option.some.inj h
      exact .search hidle ⟨hs,hlen⟩ hperm (.inl ⟨⟨ok,rfl⟩,rfl⟩)
    | none =>
      rw [hl] at h
      dsimp only at h
      split_ifs at h with hok
      · obtain rfl := Option.some.inj h
        exact hok ▸ .unmap hidle
      · obtain rfl := Option.some.inj h
        exact .idle _ hidle
  | mremap start len len' rv =>
    simp only [wrapIn,wrapInMremap] at h
    cases hl : sfsearchNMovetohead start len [] q.umMmap with
    | some l =>
      obtain ⟨m,rest,rfl,hs,hlen,hperm⟩ := sfsearch_spec hl
      rw [hl] at h
      obtain rfl := Option.some.inj h
      exact .search hidle ⟨hs,hlen⟩ hperm (.inr ⟨len',rv,rfl,rfl⟩)
    | none =>
      rw [hl] at h
      cases rv with
      | none =>
        obtain rfl := Option.some.inj h
        exact .idle _ hidle
      | some rv =>
        obtain rfl := remapped_some h
        exact .remap hidle (sfsearch_none hl)
  | out rv secret => simp [wrapIn] at h
  | clone cloneVm =>
    obtain rfl := Option.some.inj h
    exact .clone cloneVm hidle
  | exit => exact exit_effect h

theorem wrapOut_effect {rv : Option Nat} {secret : List UInt8} {pending : Pending}
    (hpend : q.pending = some pending) (hready : Ready q)
    (h : wrapOut A s pid q rv secret pending = some s') :
    Effect A s pid q (.out rv secret) s' := by
  cases pending with
  | mmap map page =>
    simp only [Ready,hpend] at hready
    obtain ⟨m,rest,hl,-⟩ := hready
    by_cases hrv : page = none ∨ rv = none
    · have hdel : pcbMmapDeletehead A s pid { q with pending := none } true secret = some s' := by
        rcases hrv with rfl | rfl
        · exact h
        · cases page <;> exact h
      obtain ⟨e,he,rfl⟩ := deletehead_some (q := { q with pending := none }) hl hdel
      rw [written_error,List.append_nil]
      exact .failed hpend hrv hl he
    · obtain ⟨page,rfl⟩ := Option.ne_none_iff_exists'.mp fun hp => hrv (.inl hp)
      obtain ⟨rv,rfl⟩ := Option.ne_none_iff_exists'.mp fun hr => hrv (.inr hr)
      simp only [wrapOut,wrapOutMmap,hl] at h
      obtain rfl := Option.some.inj h
      exact .mapped hpend hl
  | munmap start len =>
    simp only [Ready,hpend] at hready
    obtain ⟨m,rest,hl,-⟩ := hready
    cases rv with
    | none =>
      obtain rfl := Option.some.inj h
      exact .undone hpend nofun
    | some rv =>
      obtain ⟨e,he,rfl⟩ := deletehead_some (q := { q with pending := none }) hl h
      exact .unmapped hpend hl he
  | mremap start len len' =>
    simp only [Ready,hpend] at hready
    obtain ⟨m,rest,hl,-⟩ := hready
    cases rv with
    | none =>
      obtain rfl := Option.some.inj h
      exact .undone hpend nofun
    | some rv =>
      obtain ⟨t,ht,h⟩ := Option.bind_eq_some_iff.mp h
      obtain rfl := remapped_some ht
      obtain rfl := Option.some.inj h
      simp only [hl]
      exact .remapped hpend hl

theorem wrap_effect (hready : Ready q) (h : wrap A s pid q c = some s') : Effect A s pid q c s' := by
  unfold wrap at h
  cases hpend : q.pending with
  | none =>
    rw [hpend] at h
    exact wrapIn_effect hpend h
  | some pending =>
    rw [hpend] at h
    cases c with
    | out rv secret => exact wrapOut_effect hpend hready h
    | exit => exact exit_effect h
    | mmap a => simp at h
    | munmap start len ok => simp at h
    | mremap start len len' rv => simp at h
    | clone cloneVm => simp at h

structure Fetched.Spec (s t : State) (r : Request) (id : Nat) : Prop where
  counts : Counts t.file s.refs
  keeps : Keeps s.file t.file s.refs
  procs : t.procs = s.procs
  vms : t.vms = s.vms
  maps : t.maps = s.maps
  stores : t.stores = s.stores
  chunk : ∀ e, t.file.chunk id = some e →
    e ∈ t.file.chunks ∧ e.id = id ∧ e.path = some r.path ∧ r.pgsize ≤ e.pgsize

theorem Fetched.spec {a : MmapArgs} {r : Request} {t : State} {id : Nat}
    (h : Fetched A s a r t id) (hc : Counts s.file s.refs) : Fetched.Spec s t r id := by
  cases h with
  | found hf =>
    have hc' := hc.find hf
    refine ⟨hc',keeps_find hf,rfl,rfl,rfl,rfl,fun e he => ?_⟩
    obtain ⟨hmem,hid⟩ := (chunk_eq_some hc'.distinct).mp he
    obtain ⟨hl,hfound⟩ := mmapSfFind_spec hf
    obtain ⟨e₀,he₀,hid₀,hpath,-,-,hsize⟩ := hfound _ rfl
    obtain ⟨e',he',x,rfl⟩ := exists_forall₂ hl he₀
    obtain rfl := hc'.distinct.eq_of_id he' hmem (hid₀.trans hid.symm)
    exact ⟨hmem,hid,hpath,hsize⟩
  | loaded hf ha he hk =>
    have hc' := hc.find hf
    obtain ⟨hc'',-⟩ := hc'.allocated ha
    refine ⟨hc'',(keeps_find hf).trans (keeps_allocated hc' ha),rfl,rfl,rfl,rfl,fun e he => ?_⟩
    obtain ⟨hmem,hid⟩ := (chunk_eq_some hc''.distinct).mp he
    obtain ⟨e₀,hid₀,hsize,hmem₀,-⟩ := ha.taken
    obtain rfl := hc''.distinct.eq_of_id hmem₀ hmem (hid₀.trans hid.symm)
    exact ⟨hmem,hid,rfl,hsize.ge⟩

theorem Effect.keeps (h : Effect A s pid q c s') (hc : Counts s.file s.refs) :
    Keeps s.file s'.file s.refs := by
  cases h with
  | unread hidle hstat hf ha => exact (keeps_find hf).trans (keeps_allocated (hc.find hf) ha)
  | mmap hidle hstat ht he => exact (ht.spec hc).keeps.trans (keeps_setCounter _ _)
  | unmapped hpend hl he => exact keeps_setCounter _ _
  | failed hpend hrv hl he => exact keeps_setCounter _ _
  | exit hf => exact keeps_recdelproc hf
  | clone cloneVm hidle =>
    unfold Mmap.clone
    split_ifs <;> exact .refl _ _
  | _ => exact .refl _ _

theorem Effect.counts (h : Effect A s pid q c s') (hq : s.proc pid = some q)
    (hc : Counts s.file s.refs) : Counts s'.file s'.refs := by
  obtain ⟨r,hr,hset⟩ := refs_split hq
  cases h with
  | idle => exact hc
  | unread hidle hstat hf ha => exact ((hc.find hf).allocated ha).1
  | @mmap a mtime size id t e hidle hstat ht he =>
    obtain ⟨hct,-,hprocs,-,-,-,hchunk⟩ := ht.spec hc
    obtain ⟨hmem,rfl,hpath,-⟩ := hchunk e he
    have hnew := hct.retain hmem (by simp [hpath])
    rw [hr,← add_assoc] at hnew
    rw [hset _ (some _) (congrArg (List.set · pid _) hprocs),procRefs,sfs_cons]
    exact hnew
  | search hidle hkey hperm hcall => exact counts_put hc hq (sfs_perm hperm)
  | unmap hidle => exact hc
  | remap hidle hnone => exact hc
  | mapped hpend hl => exact counts_put hc hq (by rw [hl,sfs_cons,sfs_cons])
  | unmapped hpend hl he =>
    rw [hr,hl,sfs_cons,add_assoc] at hc
    obtain ⟨e',he',-,-,hnew⟩ := hc.release
    obtain rfl := Option.some.inj (he.symm.trans he')
    rw [hset _ (some _) rfl]
    exact hnew
  | failed hpend hrv hl he =>
    rw [hr,hl,sfs_cons,add_assoc] at hc
    obtain ⟨e',he',-,-,hnew⟩ := hc.release
    obtain rfl := Option.some.inj (he.symm.trans he')
    rw [hset _ (some _) rfl]
    exact hnew
  | remapped hpend hl => exact counts_put hc hq (by rw [hl,sfs_cons,sfs_cons])
  | undone hpend hne => exact counts_put hc hq rfl
  | clone cloneVm hidle =>
    unfold Mmap.clone
    split_ifs <;> simpa [State.refs,procRefs] using hc
  | exit hf =>
    rw [hr] at hc
    obtain ⟨f',hf',hnew⟩ := hc.recdelproc
    obtain rfl := Option.some.inj (hf.symm.trans hf')
    rw [hset _ none rfl,procRefs,zero_add]
    exact hnew

theorem clone_proc {cloneVm : Bool} {p : Nat} {q' : Proc}
    (hq' : (Mmap.clone s q cloneVm).proc p = some q') :
    s.proc p = some q' ∨ p = s.procs.length ∧
      q' = ⟨[], if cloneVm then q.vm else s.vms.length, none⟩ := by
  have hnew : ∀ vm, ((s.procs ++ [some (⟨[],vm,none⟩ : Proc)])[p]?).join = some q' →
      s.proc p = some q' ∨ p = s.procs.length ∧ q' = ⟨[],vm,none⟩ := by
    intro vm hp
    rw [Option.join_eq_some_iff,List.getElem?_append] at hp
    split_ifs at hp with hlt
    · exact .inl (proc_eq_some.mpr hp)
    · obtain ⟨hz,hx⟩ := List.getElem?_eq_some_iff.mp hp
      simp only [List.length_singleton] at hz
      simp only [List.getElem_singleton] at hx
      exact .inr ⟨by omega,(Option.some.inj hx).symm⟩
  unfold Mmap.clone at hq'
  split_ifs at hq' ⊢
  · exact hnew _ hq'
  · exact hnew _ hq'

theorem Effect.others (h : Effect A s pid q c s') (hq : s.proc pid = some q)
    (hc : Counts s.file s.refs) {p : Nat} {q' : Proc} (hp : p ≠ pid) (hq' : s'.proc p = some q') :
    s.proc p = some q' ∨ q'.umMmap = [] ∧ q'.pending = none := by
  have hset : ∀ x, s'.procs = s.procs.set pid x → s.proc p = some q' :=
    fun x hx => ((proc_set hq hx).2 p hp).symm.trans hq'
  cases h with
  | mmap hidle hstat ht he => exact .inl (hset _ (congrArg (List.set · pid _) (ht.spec hc).procs))
  | idle => exact .inl hq'
  | unread => exact .inl hq'
  | unmap => exact .inl hq'
  | remap => exact .inl hq'
  | clone cloneVm hidle =>
    rcases clone_proc hq' with h | ⟨-,rfl⟩
    · exact .inl h
    · exact .inr ⟨rfl,rfl⟩
  | _ => exact .inl (hset _ rfl)

theorem Effect.ready (h : Effect A s pid q c s') (hq : s.proc pid = some q)
    (hc : Counts s.file s.refs) (hr : ∀ p q', s.proc p = some q' → Ready q') :
    ∀ p q', s'.proc p = some q' → Ready q' := by
  intro p q' hq'
  by_cases hp : p = pid
  · subst hp
    have hset : ∀ x, s'.procs = s.procs.set p x → x = some q' := fun x hx =>
      (proc_set hq hx).1.symm.trans hq'
    cases h with
    | idle => exact hr p q' hq'
    | unread => exact hr p q' hq'
    | unmap => exact hr p q' hq'
    | remap => exact hr p q' hq'
    | mmap hidle hstat ht he =>
      obtain rfl := Option.some.inj (hset (some _) (congrArg (List.set · p _) (ht.spec hc).procs))
      exact ⟨_,_,rfl,rfl,rfl⟩
    | search hidle hkey hperm hcall =>
      obtain rfl := Option.some.inj (hset (some _) rfl)
      rcases hcall with ⟨-,rfl⟩ | ⟨len',rv,-,rfl⟩
      · exact ⟨_,_,rfl,hkey⟩
      · exact ⟨_,_,rfl,hkey⟩
    | clone cloneVm hidle =>
      rcases clone_proc hq' with h | ⟨-,rfl⟩
      · exact hr p q' h
      · trivial
    | exit hf => exact absurd (hset none rfl) nofun
    | _ =>
      obtain rfl := Option.some.inj (hset (some _) rfl)
      trivial
  · rcases h.others hq hc hp hq' with h | ⟨-,h⟩
    · exact hr p q' h
    · simp [Ready,h]

theorem Effect.pending (h : Effect A s pid q c s') (hq : s.proc pid = some q)
    (hc : Counts s.file s.refs) {p : Nat} {q' : Proc} {map : Mapping} {page : Option Nat}
    (hq' : s'.proc p = some q') (hpend : q'.pending = some (.mmap map page)) :
    s.proc p = some q' ∨ ∃ a mtime size t e, c = .mmap a ∧ a.stat = some (mtime, size) ∧
      Fetched A s a (a.request A mtime size) t e.id ∧ t.file.chunk e.id = some e ∧
      { e with counter := e.counter + 1 } ∈ s'.file.chunks ∧
      map = ⟨e.id,a.prot,a.pageOffset A,a.length,size⟩ ∧
      page = kernelPage A e.pgoffset (a.pageOffset A) (a.pgsize A size) := by
  by_cases hp : p = pid
  · subst hp
    have hset : ∀ x, s'.procs = s.procs.set p x → x = some q' := fun x hx =>
      (proc_set hq hx).1.symm.trans hq'
    cases h with
    | idle => exact .inl hq'
    | unread => exact .inl hq'
    | unmap => exact .inl hq'
    | remap => exact .inl hq'
    | mmap hidle hstat ht he =>
      obtain ⟨-,-,hprocs,-,-,-,hchunk⟩ := ht.spec hc
      obtain rfl := Option.some.inj (hset (some _) (congrArg (List.set · p _) hprocs))
      obtain ⟨rfl,rfl⟩ := Pending.mmap.inj (Option.some.inj hpend)
      obtain ⟨hmem,rfl,-⟩ := hchunk _ he
      exact .inr ⟨_,_,_,_,_,rfl,hstat,ht,he,
        mem_setCounter.mpr ⟨_,hmem,(if_pos rfl).symm⟩,rfl,rfl⟩
    | search hidle hkey hperm hcall =>
      obtain rfl := Option.some.inj (hset (some _) rfl)
      rcases hcall with ⟨-,rfl⟩ | ⟨len',rv,-,rfl⟩ <;> cases hpend
    | clone cloneVm hidle =>
      rcases clone_proc hq' with h₀ | ⟨-,rfl⟩
      · exact .inl h₀
      · cases hpend
    | exit hf => exact absurd (hset none rfl) nofun
    | _ =>
      obtain rfl := Option.some.inj (hset (some _) rfl)
      cases hpend
  · rcases h.others hq hc hp hq' with h₀ | ⟨-,h₀⟩
    · exact .inl h₀
    · simp [h₀] at hpend

structure Booked (s : State) : Prop where
  counts : Counts s.file s.refs
  ready : ∀ p q, s.proc p = some q → Ready q

theorem not_pending_init {p : Nat} {q : Proc} {pending : Pending} (hq : State.init.proc p = some q) :
    q.pending ≠ some pending := by
  obtain ⟨hlt,hq⟩ := List.getElem?_eq_some_iff.mp (proc_eq_some.mp hq)
  obtain rfl : p = 0 := by simpa [State.init] using hlt
  obtain rfl := Option.some.inj hq
  nofun

theorem booked_init : Booked .init := by
  refine ⟨⟨distinct_empty,by simp [State.refs,State.init,procRefs],by simp [State.init,SecretFile.empty]⟩,
    fun p q hq => ?_⟩
  cases hpend : q.pending with
  | none => simp [Ready,hpend]
  | some pending => exact absurd hpend (not_pending_init hq)

theorem perform_effect {o : SysOp} (hb : Booked s) (h : perform A s o = some s') :
    ∃ q t, s.proc o.pid = some q ∧ Effect A s o.pid q o.call t ∧ s' = t.forget := by
  obtain ⟨q,hq,h⟩ := Option.bind_eq_some_iff.mp h
  obtain ⟨t,ht,h⟩ := Option.bind_eq_some_iff.mp h
  exact ⟨q,t,hq,wrap_effect (hb.ready _ q hq) ht,(Option.some.inj h).symm⟩

theorem Booked.perform {o : SysOp} (hb : Booked s) (h : perform A s o = some s') : Booked s' := by
  obtain ⟨q,t,hq,he,rfl⟩ := perform_effect hb h
  exact ⟨he.counts hq hb.counts,he.ready hq hb.counts hb.ready⟩

end Effect

end ViewOS.Mmap
