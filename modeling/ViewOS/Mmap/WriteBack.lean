import ViewOS.Mmap.Coverage

namespace ViewOS.Mmap
open Transition

def Mapping.writable (m : Mapping) : Bool := m.prot &&& protWrite != 0

def Mapping.reach (A : Arch) (m : Mapping) : Nat :=
  if m.offset * A.pagesize < m.size ∧ 0 < m.length then
    (min (m.offset * A.pagesize + m.length) m.size).toNat
  else 0

def Served (A : Arch) (m : Mapping) (e : Entry) : Prop :=
  (m.writable → e.writable) ∧ m.reach A ≤ e.length

instance (A : Arch) (m : Mapping) (e : Entry) : Decidable (Served A m e) :=
  inferInstanceAs (Decidable (_ ∧ _))

theorem Served.alike {A : Arch} {m : Mapping} {e e' : Entry} (h : Served A m e) (ha : Alike e e') :
    Served A m e' := by
  obtain ⟨x,c,rfl⟩ := ha
  exact h

def MmapArgs.map (A : Arch) (a : MmapArgs) (size id : Nat) : Mapping :=
  ⟨id, a.prot, a.pageOffset A, a.length, size⟩

def Recorded (A : Arch) (a : MmapArgs) (size : Nat) : Option Entry → Prop
  | some e => Served A (a.map A size e.id) e
  | none => InRange A a size ∧ (a.map A size 0).reach A ≤ a.length

def SpareOut (s : State) (q : Proc) (rv : Option Nat) : Option Pending → Prop
  | some (.mmap _ page) => page ≠ none ∧ rv ≠ none ∨ ∀ h ∈ q.umMmap.head?, ∀ m ∈ s.maps,
      m.writable → m.sf = h.sf → ∀ e ∈ s.file.chunks, e.id = m.sf → e.counter ≠ 1
  | some (.munmap _ _) => True
  | some (.mremap _ _ _) => True
  | none => True

def SpareCall (A : Arch) (s : State) (q : Proc) : Call → Prop
  | .mmap a => ∀ x ∈ a.stat,
      Recorded A a x.2 (s.file.chunks.find? (Matches (a.request A x.1 x.2)))
  | .out rv _ => SpareOut s q rv q.pending
  | .exit => ∀ m ∈ s.maps, m.writable → ∀ e ∈ s.file.chunks, e.id = m.sf →
      e.counter ≠ q.umMmap.countP (·.sf = m.sf)
  | .mremap _ length newLength _ => newLength ≤ length
  | .munmap _ _ _ => True
  | .clone _ => True

def Spare (A : Arch) (s : State) (o : SysOp) : Prop :=
  ∀ q ∈ s.proc o.pid, SpareCall A s q o.call

def Noted (s : State) (m : Mapping) : Prop :=
  m ∈ s.maps ∨ ∃ p q page, s.proc p = some q ∧ q.pending = some (.mmap m page)

def Sized (A : Arch) (f : SecretFile) : Prop :=
  ∀ e ∈ f.chunks, e.path ≠ none → e.length ≤ e.pgsize * A.pagesize

section Sized

variable {A : Arch} {f f' : SecretFile} {r : Request}

theorem Sized.find {l : List Entry} {found : Option Nat} (h : Sized A f)
    (hf : mmapSfFind A r f.chunks = some (found, l)) : Sized A { f with chunks := l } := by
  intro e he hpath
  obtain ⟨e',he',x,rfl⟩ := exists_forall₂ (mmapSfFind_spec hf).1.flip he
  exact h e' he' hpath

theorem Sized.allocated {l : List Entry} {n id : Nat} (h : Sized A f)
    (ha : Allocated A r f.next (mmapCompact A f.chunks) l n id)
    (hr : r.length ≤ r.pgsize * A.pagesize) : Sized A ⟨l, n⟩ := by
  intro e he hpath
  obtain ⟨e₀,-,hsize,-,hold⟩ := ha.taken
  rcases hold e he hpath with rfl | hmem
  · exact hsize.symm ▸ hr
  · obtain ⟨e',he',rfl⟩ := used_of_mem_compact hmem hpath
    exact h e' he' hpath

theorem Sized.setCounter (h : Sized A f) (id counter : Nat) : Sized A (f.setCounter id counter) := by
  intro e he hpath
  obtain ⟨e',he',rfl⟩ := mem_setCounter.mp he
  split_ifs at hpath ⊢
  · exact h e' he' hpath
  · exact h e' he' hpath

theorem InRange.length_le {a : MmapArgs} {size : Nat} (h : InRange A a size) :
    a.length ≤ a.pgsize A size * A.pagesize := by
  have hle : a.length / A.pagesize + 1 ≤ a.pgsize A size := by
    have h1 := h.pgsize_le.1
    have h0 := h.1
    generalize a.length / A.pagesize = k at h1 ⊢
    omega
  calc a.length ≤ (a.length / A.pagesize + 1) * A.pagesize := by
        rw [Nat.mul_comm]
        exact (Nat.lt_mul_div_succ _ A.pagesize_pos).le
    _ ≤ a.pgsize A size * A.pagesize := Nat.mul_le_mul_right _ hle

end Sized

structure Kept (A : Arch) (s : State) : Prop where
  booked : Booked s
  sized : Sized A s.file
  noted : ∀ m, Noted s m → m.sf ∈ s.refs ∧ ∀ e ∈ s.file.chunks, e.id = m.sf → Served A m e

section Steps

variable {A : Arch} {s s' : State} {pid : Nat} {q : Proc} {c : Call}

theorem Fetched.served {a : MmapArgs} {mtime : Int} {size id : Nat} {t : State} {e : Entry}
    (h : Fetched A s a (a.request A mtime size) t id) (hc : Counts s.file s.refs)
    (hr : Recorded A a size (s.file.chunks.find? (Matches (a.request A mtime size))))
    (he : t.file.chunk id = some e) : Served A (a.map A size id) e := by
  cases h with
  | found hf =>
    obtain ⟨e₀,hfind,hid₀⟩ := Option.map_eq_some_iff.mp (mmapSfFind_eq hf).symm
    rw [hfind] at hr
    obtain ⟨e',he',x,rfl⟩ :=
      exists_forall₂ (mmapSfFind_spec hf).1 (List.mem_of_find?_eq_some hfind)
    have hd := (hc.find hf).distinct
    obtain ⟨hmem,hid⟩ := (chunk_eq_some hd).mp he
    obtain rfl := hd.eq_of_id he' hmem (hid₀.trans hid.symm)
    subst hid₀
    exact hr
  | loaded hf ha he₁ hk =>
    have hnone := Option.map_eq_none_iff.mp (mmapSfFind_eq hf).symm
    rw [hnone] at hr
    have hd := ((hc.find hf).allocated ha).1.distinct
    obtain ⟨hmem,hid⟩ := (chunk_eq_some hd).mp he
    obtain ⟨e₀,hid₀,-,hmem₀,-⟩ := ha.taken
    obtain rfl := hd.eq_of_id hmem₀ hmem (hid₀.trans hid.symm)
    exact ⟨fun hw => hw,hr.2⟩

theorem Fetched.sized {a : MmapArgs} {mtime : Int} {size id : Nat} {t : State}
    (h : Fetched A s a (a.request A mtime size) t id) (hs : Sized A s.file)
    (hr : Recorded A a size (s.file.chunks.find? (Matches (a.request A mtime size)))) :
    Sized A t.file := by
  cases h with
  | found hf => exact hs.find hf
  | loaded hf ha he₁ hk =>
    rw [Option.map_eq_none_iff.mp (mmapSfFind_eq hf).symm] at hr
    exact (hs.find hf).allocated ha hr.1.length_le

theorem Effect.sized (h : Effect A s pid q c s') (hz : Sized A s.file) (hs : SpareCall A s q c) :
    Sized A s'.file := by
  cases h with
  | unread hidle hstat hf ha =>
    have hr := hs _ hstat
    rw [Option.map_eq_none_iff.mp (mmapSfFind_eq hf).symm] at hr
    exact (hz.find hf).allocated ha hr.1.length_le
  | mmap hidle hstat ht he => exact (ht.sized hz (hs _ hstat)).setCounter _ _
  | unmapped hpend hl he => exact hz.setCounter _ _
  | failed hpend hrv hl he => exact hz.setCounter _ _
  | exit hf => exact recdelproc_induct (fun _ id n h => h.setCounter id n) hz hf
  | clone cloneVm hidle =>
    unfold Mmap.clone
    split_ifs <;> exact hz
  | _ => exact hz

theorem Effect.noted (h : Effect A s pid q c s') (hq : s.proc pid = some q) (hk : Kept A s)
    (hs : SpareCall A s q c) {m : Mapping} (hm : Noted s' m) :
    Noted s m ∨ ∃ e ∈ s'.file.chunks, e.id = m.sf ∧ Served A m e := by
  have hc := hk.booked.counts
  have hmaps : s'.maps = s.maps ∨ ∃ map page, q.pending = some (.mmap map page) ∧
      s'.maps = s.maps ++ [map] := by
    cases h with
    | mmap hidle hstat ht he => exact .inl (ht.spec hc).maps
    | mapped hpend hl => exact .inr ⟨_,_,hpend,rfl⟩
    | clone cloneVm hidle =>
      unfold Mmap.clone
      split_ifs <;> exact .inl rfl
    | _ => exact .inl rfl
  rcases hm with hm | ⟨p,q',page,hq',hpend⟩
  · rcases hmaps with heq | ⟨map,page,hpend,heq⟩
    · exact .inl (.inl (heq ▸ hm))
    · rw [heq] at hm
      rcases List.mem_append.mp hm with hm | hm
      · exact .inl (.inl hm)
      · obtain rfl := List.mem_singleton.mp hm
        exact .inl (.inr ⟨pid,q,page,hq,hpend⟩)
  · rcases h.pending hq hc hq' hpend with hold | ⟨a,mtime,size,t,e,rfl,hstat,ht,he,hmem,rfl,-⟩
    · exact .inl (.inr ⟨p,q',page,hold,hpend⟩)
    · have hserved := ht.served hc (hs _ hstat) he
      exact .inr ⟨_,hmem,rfl,hserved⟩

theorem mem_forget {m : Mapping} (hm : m ∈ s.forget.maps) :
    m ∈ s.maps ∧ ∃ e, s.file.chunk m.sf = some e ∧ 0 < e.counter := by
  obtain ⟨hm,hany⟩ := List.mem_filter.mp hm
  obtain ⟨e,he,hpos⟩ := (Option.any_eq_true _ _).mp hany
  exact ⟨hm,e,he,by simpa using hpos⟩

theorem Kept.perform {o : SysOp} (h : Kept A s) (ho : Spare A s o) (hs : perform A s o = some s') :
    Kept A s' := by
  have hb := h.booked.perform hs
  obtain ⟨q,t,hq,he,rfl⟩ := perform_effect h.booked hs
  have hcall := ho q hq
  refine ⟨hb,he.sized h.sized hcall,fun m hm => ?_⟩
  constructor
  · rcases hm with hm | ⟨p,q',page,hq',hpend⟩
    · obtain ⟨-,e,hchunk,hpos⟩ := mem_forget hm
      obtain ⟨hmem,hid⟩ := (chunk_eq_some hb.counts.distinct).mp hchunk
      by_contra hrefs
      exact hpos.ne' (hb.counts.dead e hmem (hid ▸ hrefs))
    · have hready := hb.ready p q' hq'
      simp only [Ready,hpend] at hready
      obtain ⟨m',rest,hl,-,hsf⟩ := hready
      exact hsf ▸ mem_refs hq' (hl ▸ List.mem_cons_self)
  · have hnoted : Noted t m := hm.imp_left fun hm => (mem_forget hm).1
    obtain ⟨e,hmem,hid,hserved⟩ : ∃ e ∈ t.file.chunks, e.id = m.sf ∧ Served A m e := by
      rcases he.noted hq h hcall hnoted with hold | hnew
      · obtain ⟨hrefs,hserved⟩ := h.noted m hold
        obtain ⟨e,hmem,hid,-⟩ := h.booked.counts.live _ hrefs
        obtain ⟨e',he',halike⟩ := he.keeps h.booked.counts e hmem (hid ▸ hrefs)
        refine ⟨e',he',?_,(hserved e hmem hid).alike halike⟩
        obtain ⟨_,_,rfl⟩ := halike
        exact hid
      · exact hnew
    intro e' he' hid'
    obtain rfl := hb.counts.distinct.eq_of_id hmem he' (hid.trans hid'.symm)
    exact hserved

inductive Last (A : Arch) (s : State) (q : Proc) (i : Nat) (s' : State) : Call → Prop
  | unmapped {rv : Nat} {secret : List UInt8} {e : Entry} (he : s.file.chunk i = some e)
      (hc : e.counter = 1) (hstores : s'.stores = s.stores ++ written A e false secret) :
      Last A s q i s' (.out (some rv) secret)
  | failed {map : Mapping} {page rv : Option Nat} {secret : List UInt8} {m : MapEntry} {e : Entry}
      (hpend : q.pending = some (.mmap map page)) (hrv : page = none ∨ rv = none)
      (hm : q.umMmap.head? = some m) (hi : m.sf = i) (he : s.file.chunk i = some e)
      (hc : e.counter = 1) : Last A s q i s' (.out rv secret)
  | exit (hc : s.refs.count i = q.umMmap.countP (·.sf = i)) : Last A s q i s' .exit

theorem count_sfs (l : List MapEntry) (i : Nat) : (sfs l).count i = l.countP (·.sf = i) := by
  rw [sfs,Multiset.coe_count,List.count,List.countP_map]
  rfl

theorem Effect.last (h : Effect A s pid q c s') (hq : s.proc pid = some q)
    (hc : Counts s.file s.refs) {i : Nat} (hin : i ∈ s.refs) (hout : i ∉ s'.refs) :
    Last A s q i s' c := by
  have hsame : s'.refs ≠ s.refs := fun heq => hout (heq ▸ hin)
  obtain ⟨r,hr,hset⟩ := refs_split hq
  have hput : ∀ q', s'.procs = s.procs.set pid (some q') → sfs q'.umMmap ≠ sfs q.umMmap :=
    fun q' hprocs heq => hsame (by rw [hset _ _ hprocs,hr,procRefs,heq])
  have hdrop : ∀ {m : MapEntry} {rest : List MapEntry} {e : Entry}, q.umMmap = m :: rest →
      (∃ q' : Proc, q'.umMmap = rest ∧ s'.procs = s.procs.set pid (some q')) →
      s.file.chunk m.sf = some e → m.sf = i ∧ e.counter = 1 := by
    rintro m rest e hl ⟨q',rfl,hprocs⟩ he
    rw [hset _ _ hprocs,procRefs] at hout
    rw [hr,hl,sfs_cons,add_assoc] at hin hc
    have hi : i = m.sf := by simpa [hout] using hin
    obtain ⟨e',he',-,hcount,-⟩ := hc.release
    obtain rfl := Option.some.inj (he.symm.trans he')
    rw [← hi,Multiset.count_eq_zero_of_notMem hout] at hcount
    exact ⟨hi.symm,hcount⟩
  cases h with
  | idle => exact absurd rfl hsame
  | unread => exact absurd rfl hsame
  | unmap => exact absurd rfl hsame
  | remap => exact absurd rfl hsame
  | mmap hidle hstat ht he =>
    have hprocs := (ht.spec hc).procs
    rw [hset _ (some _) (congrArg (List.set · pid _) hprocs),procRefs,sfs_cons,add_assoc,← hr] at hout
    exact absurd (Multiset.mem_add.mpr (.inr hin)) hout
  | search hidle hkey hperm hcall => exact absurd (sfs_perm hperm) (hput _ rfl)
  | mapped hpend hl => exact absurd (by rw [hl,sfs_cons,sfs_cons]) (hput _ rfl)
  | unmapped hpend hl he =>
    obtain ⟨rfl,hcount⟩ := hdrop hl ⟨_,rfl,rfl⟩ he
    exact .unmapped he hcount rfl
  | failed hpend hrv hl he =>
    obtain ⟨rfl,hcount⟩ := hdrop hl ⟨_,rfl,rfl⟩ he
    exact .failed hpend hrv (by rw [hl]; rfl) rfl he hcount
  | remapped hpend hl => exact absurd (by rw [hl,sfs_cons,sfs_cons]) (hput _ rfl)
  | undone hpend hne => exact absurd rfl (hput { q with pending := none } rfl)
  | clone cloneVm hidle =>
    refine absurd ?_ hsame
    unfold Mmap.clone
    split_ifs <;> simp [State.refs,procRefs]
  | exit hf =>
    rw [hset _ none rfl,procRefs,zero_add] at hout
    refine .exit ?_
    rw [hr,Multiset.count_add,Multiset.count_eq_zero_of_notMem hout,count_sfs,add_zero]

end Steps

instance (A : Arch) (a : MmapArgs) (size : Nat) : (e : Option Entry) → Decidable (Recorded A a size e)
  | some _ => inferInstanceAs (Decidable (Served _ _ _))
  | none => inferInstanceAs (Decidable (_ ∧ _))

instance (s : State) (q : Proc) (rv : Option Nat) :
    (pending : Option Pending) → Decidable (SpareOut s q rv pending)
  | some (.mmap _ _) => inferInstanceAs (Decidable (_ ∨ ∀ h ∈ _, ∀ m ∈ _, _ → _ → ∀ e ∈ _, _))
  | some (.munmap _ _) => inferInstanceAs (Decidable True)
  | some (.mremap _ _ _) => inferInstanceAs (Decidable True)
  | none => inferInstanceAs (Decidable True)

instance (A : Arch) (s : State) (q : Proc) : (c : Call) → Decidable (SpareCall A s q c)
  | .mmap _ => inferInstanceAs (Decidable (∀ x ∈ _, Recorded _ _ _ _))
  | .out _ _ => inferInstanceAs (Decidable (SpareOut _ _ _ _))
  | .exit => inferInstanceAs (Decidable (∀ m ∈ _, _ → ∀ e ∈ _, _))
  | .munmap _ _ _ => inferInstanceAs (Decidable True)
  | .mremap _ _ _ _ => inferInstanceAs (Decidable (_ ≤ _))
  | .clone _ => inferInstanceAs (Decidable True)

instance (A : Arch) (s : State) (o : SysOp) : Decidable (Spare A s o) :=
  inferInstanceAs (Decidable (∀ q ∈ _, _))

def part (prot size length : Nat) (offset : Int) : Call :=
  .mmap ⟨['a'], 5, 1, some (7, size), some size, prot, length, offset, false⟩

end ViewOS.Mmap
