import ViewOS.Mmap.Effect

namespace ViewOS.Mmap
open Tiling Transition

def Holds (e : Entry) (page : Nat) : Prop := e.pgoffset ≤ page ∧ page < e.pgoffset + e.pgsize

theorem Alike.holds {e e' : Entry} (h : Alike e e') {page : Nat} (hp : Holds e page) : Holds e' page := by
  obtain ⟨x,c,rfl⟩ := h
  exact hp

def settled (q : Proc) : List MapEntry :=
  match q.pending with
  | some (.mmap _ _) => q.umMmap.tail
  | _ => q.umMmap

theorem mem_of_mem_settled {q : Proc} {m : MapEntry} (h : m ∈ settled q) : m ∈ q.umMmap := by
  unfold settled at h
  split at h
  · exact List.mem_of_mem_tail h
  · exact h

structure Covers (A : Arch) (f : SecretFile) (m : MapEntry) (x : Nat × Nat) : Prop where
  range : m.start ≤ x.1 ∧ x.1 < m.start + pages A m.len
  chunk : ∃ e ∈ f.chunks, e.id = m.sf ∧ Holds e x.2

def Cover (A : Arch) (s : State) : Prop :=
  ∀ p q, s.proc p = some q → ∀ x ∈ s.vm q.vm, ∃ p' q' m, s.proc p' = some q' ∧ q'.vm = q.vm ∧
    m ∈ settled q' ∧ Covers A s.file m x

def Aimed (A : Arch) (s : State) : Prop :=
  ∀ p q map page, s.proc p = some q → q.pending = some (.mmap map (some page)) →
    ∃ e ∈ s.file.chunks, e.id = map.sf ∧ e.pgoffset ≤ page ∧
      page + pages A map.length ≤ e.pgoffset + e.pgsize

section Pages

variable {s s' : State} {vm : List (Nat × Nat)} {start n page : Nat} {x : Nat × Nat}

theorem mem_unmapPages : x ∈ unmapPages vm start n ↔ x ∈ vm ∧ ¬(start ≤ x.1 ∧ x.1 < start + n) := by
  simp only [unmapPages,List.mem_filter,decide_eq_true_eq]

theorem mem_mapPages :
    x ∈ mapPages vm start n page ↔
      (∃ i < n, x = (start + i, page + i)) ∨ x ∈ unmapPages vm start n := by
  simp [mapPages,eq_comm]

theorem mem_remapPages {start' n' : Nat} (hx : x ∈ remapPages vm start n start' n') :
    (∃ page ∈ secretAt vm start, ∃ i < n', x = (start' + i, page + i)) ∨
      x ∈ vm ∧ ¬(start ≤ x.1 ∧ x.1 < start + n) := by
  unfold remapPages at hx
  cases hp : secretAt vm start with
  | none =>
    rw [hp] at hx
    exact .inr (mem_unmapPages.mp (mem_unmapPages.mp hx).1)
  | some page =>
    rw [hp] at hx
    rcases mem_mapPages.mp hx with hnew | hold
    · exact .inl ⟨page,rfl,hnew⟩
    · exact .inr (mem_unmapPages.mp (mem_unmapPages.mp hold).1)

theorem vm_congr (h : s'.vms = s.vms) (v : Nat) : s'.vm v = s.vm v := by
  rw [State.vm,h,State.vm]

theorem vm_putVm_of_ne {v w : Nat} (h : w ≠ v) (l : List (Nat × Nat)) :
    (s.putVm v l).vm w = s.vm w := by
  simp [State.vm,State.putVm,List.getElem?_set_ne h.symm]

theorem mem_of_mem_putVm {v : Nat} {l : List (Nat × Nat)} (h : x ∈ (s.putVm v l).vm v) : x ∈ l := by
  unfold State.vm State.putVm at h
  dsimp only at h
  rw [List.getElem?_set_self'] at h
  cases hv : s.vms[v]? with
  | none => simp [hv] at h
  | some l' => simpa [hv] using h

end Pages

section Cover

variable {A : Arch} {s s' : State} {pid : Nat} {q q' : Proc}

theorem Covers.keeps {f f' : SecretFile} {refs : Multiset Nat} {m : MapEntry} {x : Nat × Nat}
    (h : Covers A f m x) (hk : Keeps f f' refs) (hm : m.sf ∈ refs) : Covers A f' m x := by
  obtain ⟨hrange,e,he,hid,hholds⟩ := h
  obtain ⟨e',he',halike⟩ := hk e he (hid ▸ hm)
  refine ⟨hrange,e',he',?_,halike.holds hholds⟩
  obtain ⟨_,_,rfl⟩ := halike
  exact hid

theorem Cover.put (h : Cover A s) (hq : s.proc pid = some q) (hk : Keeps s.file s'.file s.refs)
    (hprocs : s'.procs = s.procs.set pid (some q')) (hvm : q'.vm = q.vm)
    (hother : ∀ v, v ≠ q.vm → s'.vm v = s.vm v)
    (hmine : ∀ x ∈ s'.vm q.vm, (∃ m ∈ settled q', Covers A s'.file m x) ∨
      x ∈ s.vm q.vm ∧ ∀ m ∈ settled q, Covers A s.file m x → m ∈ settled q') : Cover A s' := by
  obtain ⟨hpid,hrest⟩ := proc_set hq hprocs
  intro p q₁ hq₁ x hx
  obtain ⟨p₀,q₀,hq₀,hv⟩ : ∃ p₀ q₀, s.proc p₀ = some q₀ ∧ q₀.vm = q₁.vm := by
    by_cases hp : p = pid
    · subst hp
      obtain rfl := Option.some.inj (hpid.symm.trans hq₁)
      exact ⟨p,q,hq,hvm.symm⟩
    · exact ⟨p,q₁,(hrest p hp).symm.trans hq₁,rfl⟩
  have hkeep : x ∈ s.vm q₁.vm → (∀ m ∈ settled q, q₁.vm = q.vm → Covers A s.file m x → m ∈ settled q') →
      ∃ p' q'' m, s'.proc p' = some q'' ∧ q''.vm = q₁.vm ∧ m ∈ settled q'' ∧ Covers A s'.file m x := by
    intro hx hm
    obtain ⟨p',q'',m,hp',hv',hm',hcov⟩ := h p₀ q₀ hq₀ x (hv.symm ▸ hx)
    have hcov' := hcov.keeps hk (mem_refs hp' (mem_of_mem_settled hm'))
    by_cases hpp : p' = pid
    · subst hpp
      obtain rfl := Option.some.inj (hq.symm.trans hp')
      exact ⟨p',q',m,hpid,hvm.trans (hv'.trans hv),hm m hm' (hv'.trans hv).symm hcov,hcov'⟩
    · exact ⟨p',q'',m,(hrest p' hpp).trans hp',hv'.trans hv,hm',hcov'⟩
  by_cases hmy : q₁.vm = q.vm
  · rw [hmy] at hx
    rcases hmine x hx with ⟨m,hm,hcov⟩ | ⟨hold,hm⟩
    · exact ⟨pid,q',m,hpid,hvm.trans hmy.symm,hm,hcov⟩
    · exact hkeep (hmy ▸ hold) fun m hm' _ => hm m hm'
  · exact hkeep (hother _ hmy ▸ hx) fun m _ hv => absurd hv hmy

theorem set_self (hq : s.proc pid = some q) : s.procs = s.procs.set pid (some q) := by
  obtain ⟨hlt,hp⟩ := List.getElem?_eq_some_iff.mp (proc_eq_some.mp hq)
  rw [← hp,List.set_getElem_self]

end Cover

section Fits

variable {A : Arch} {f : SecretFile} {a : MmapArgs} {mtime : Int} {size : Nat}

def InRange (A : Arch) (a : MmapArgs) (size : Nat) : Prop :=
  0 ≤ a.pageOffset A ∧ a.pageOffset A + (a.length / A.pagesize + 1 : Nat) < A.ulong ∧
  size / A.pagesize + 1 < A.ulong

instance (A : Arch) (a : MmapArgs) (size : Nat) : Decidable (InRange A a size) :=
  inferInstanceAs (Decidable (_ ∧ _))

theorem Arch.pagesize_pos (A : Arch) : 0 < A.pagesize := Nat.two_pow_pos _

theorem pages_le (A : Arch) (len : Nat) : pages A len ≤ len / A.pagesize + 1 := by
  have hpos := A.pagesize_pos
  unfold pages
  rw [← Nat.add_div_right _ hpos]
  exact Nat.div_le_div_right (by omega)

theorem InRange.pgsize_le (h : InRange A a size) :
    a.pageOffset A + (a.length / A.pagesize + 1 : Nat) ≤ a.pgsize A size ∧ 1 ≤ a.pgsize A size := by
  obtain ⟨h0,h1,h2⟩ := h
  unfold MmapArgs.pgsize
  generalize a.length / A.pagesize = k at h1 ⊢
  generalize size / A.pagesize = n at h2 ⊢
  have hmod : (a.pageOffset A + k + 1) % (A.ulong : Int) = a.pageOffset A + k + 1 :=
    Int.emod_eq_of_lt (by omega) (by omega)
  simp only [hmod,Nat.mod_eq_of_lt h2]
  split_ifs <;> omega

def Fits (A : Arch) (f : SecretFile) (a : MmapArgs) (mtime : Int) (size : Nat) : Prop :=
  InRange A a size ∧
  ((∃ e ∈ f.chunks, Matches (a.request A mtime size) e) ∨ Room A f (a.pgsize A size)) ∧
  (A.mmap2 ∨ a.pgsize A size = A.pagesize ∧
    (extent Entry.pgsize f.chunks + A.pagesize) * A.pagesize ≤ A.ulong) ∧
  ∀ n ∈ a.loaded, n ≤ a.pgsize A size * A.pagesize

theorem Fits.kernelPage_eq (h : Fits A f a mtime size) {pgoffset page : Nat} {bound : Nat}
    (hend : pgoffset + a.pgsize A size ≤ bound) (hbound : bound < A.ulong)
    (hle : bound ≤ extent Entry.pgsize f.chunks + a.pgsize A size)
    (hpage : kernelPage A pgoffset (a.pageOffset A) (a.pgsize A size) = some page) :
    page = pgoffset + (a.pageOffset A).toNat := by
  have hsize := h.1.pgsize_le.1
  obtain ⟨⟨h0,-⟩,-,hmul,-⟩ := h
  obtain ⟨off,hoff⟩ := Int.eq_ofNat_of_zero_le h0
  rw [hoff] at hsize hpage ⊢
  generalize a.length / A.pagesize = k at hsize
  unfold kernelPage at hpage
  split_ifs at hpage with h2
  · have hmod : ((pgoffset : Int) + off) % (A.ulong : Int) = pgoffset + off :=
      Int.emod_eq_of_lt (by omega) (by omega)
    rw [hmod] at hpage
    have := Option.some.inj hpage
    omega
  · obtain ⟨hps,hfit⟩ := hmul.resolve_left h2
    rw [hps] at hpage hsize hend hle
    have hlt : (pgoffset + off) * A.pagesize < A.ulong := by
      refine lt_of_lt_of_le ?_ hfit
      exact Nat.mul_lt_mul_of_pos_right (by omega) A.pagesize_pos
    have hbytes : (((pgoffset : Int) + off) * (A.pagesize : Nat) % (A.ulong : Int)).toNat =
        (pgoffset + off) * A.pagesize := by
      have hcast : ((pgoffset : Int) + off) * (A.pagesize : Nat) =
          (((pgoffset + off) * A.pagesize : Nat) : Int) := by push_cast; rfl
      rw [hcast,← Int.natCast_emod,Nat.mod_eq_of_lt hlt,Int.toNat_natCast]
    simp only [hbytes,Nat.mul_mod_left,if_true] at hpage
    rw [Nat.mul_div_cancel _ A.pagesize_pos] at hpage
    simpa using (Option.some.inj hpage).symm

theorem extent_allocated {r : Request} {n n' id : Nat} {l l' : List Entry}
    (ha : Allocated A r n l l' n' id) :
    extent Entry.pgsize l' ≤ extent Entry.pgsize l + r.pgsize := by
  cases ha with
  | exact hl hfree hsize => simp [hl,take]
  | split hl hfree hsize =>
    simp only [hl,take,unused,extent_append,extent_cons]
    omega
  | grow hl hfree hfull =>
    simp only [hl,take,extent_append,extent_cons,extent_nil]
    omega
  | extend hfull => simp [take,unused]

theorem reused_same {l l' : List Entry} (h : List.Forall₂ Reused l l') :
    List.Forall₂ (fun e e' => e'.pgoffset = e.pgoffset ∧ e'.pgsize = e.pgsize) l l' := by
  refine h.imp ?_
  rintro e e' ⟨x,rfl⟩
  exact ⟨rfl,rfl⟩

theorem Fits.allocated {chunks l : List Entry} {n id : Nat} (h : Fits A f a mtime size)
    (hf : mmapSfFind A (a.request A mtime size) f.chunks = some (none, chunks))
    (ha : Allocated A (a.request A mtime size) f.next (mmapCompact A chunks) l n id)
    (hinv : Inv A f) :
    Inv A ⟨l, n⟩ ∧ extent Entry.pgsize l ≤ extent Entry.pgsize f.chunks + a.pgsize A size := by
  have hreused := (mmapSfFind_spec hf).1
  have hext := extent_of_forall₂ (reused_same hreused)
  have hinv' := hinv.find hf
  have hroom : Room A { f with chunks := chunks } (a.pgsize A size) := by
    have hnone := List.find?_eq_none.mp (Option.map_eq_none_iff.mp (mmapSfFind_eq hf).symm)
    rcases h.2.1 with ⟨e,he,hm⟩ | ⟨e,he,hfree,hle⟩ | hroom
    · exact absurd hm (by simpa using hnone e he)
    · obtain ⟨e',he',x,rfl⟩ := exists_forall₂ hreused he
      exact .inl ⟨_,he',hfree,hle⟩
    · exact .inr (hext.symm ▸ hroom)
  refine ⟨hinv'.allocated (r := a.request A mtime size) h.1.pgsize_le.2 hroom ha,?_⟩
  have hle := extent_allocated ha
  rw [(laid_compact hinv'.laid).2,hext] at hle
  exact hle

end Fits

end ViewOS.Mmap
