import ViewOS.Mmap.Coverage

namespace ViewOS.Mmap
open Tiling Transition

def SoundOut (A : Arch) (s : State) (q : Proc) (rv : Option Nat) : Option Pending → Prop
  | none => True
  | some (.mmap _ _) => True
  | some (.munmap _ _) => True
  | some (.mremap start _ len') =>
    rv = none ∨ ∀ page ∈ secretAt (s.vm q.vm) start, ∃ m ∈ q.umMmap.head?,
      ∃ e ∈ s.file.chunks, e.id = m.sf ∧ e.pgoffset ≤ page ∧
        page + pages A len' ≤ e.pgoffset + e.pgsize

def SoundCall (A : Arch) (s : State) (pid : Nat) (q : Proc) : Call → Prop
  | .mmap a => ∀ x ∈ a.stat, Fits A s.file a x.1 x.2
  | .munmap _ _ _ => True
  | .mremap start len _ rv =>
    rv = none ∨ (∃ m ∈ q.umMmap, m.start = start ∧ m.len = len) ∨ secretAt (s.vm q.vm) start = none
  | .out rv _ => SoundOut A s q rv q.pending
  | .clone cloneVm => cloneVm ∨ s.vm q.vm = []
  | .exit => q.umMmap = [] ∨
      ∀ p < s.procs.length, p ≠ pid → ∀ q' ∈ s.proc p, q'.vm ≠ q.vm

def Sound (A : Arch) (s : State) (o : SysOp) : Prop :=
  ∀ q ∈ s.proc o.pid, SoundCall A s o.pid q o.call

section Steps

variable {A : Arch} {s s' : State} {pid : Nat} {q : Proc} {c : Call}

theorem settled_idle {q : Proc} (h : q.pending = none) : settled q = q.umMmap := by
  simp [settled,h]

theorem settled_undone {q : Proc} {pending : Pending} (h : q.pending = some pending)
    (hne : ∀ map page, pending ≠ .mmap map page) : settled q = q.umMmap := by
  unfold settled
  rw [h]
  cases pending with
  | mmap map page => exact absurd rfl (hne map page)
  | munmap start len => rfl
  | mremap start len len' => rfl

theorem settled_mmap {q : Proc} {map : Mapping} {page : Option Nat} {m : MapEntry}
    {rest : List MapEntry} (h : q.pending = some (.mmap map page)) (hl : q.umMmap = m :: rest) :
    settled q = rest := by
  simp [settled,h,hl]

theorem Cover.clone (h : Cover A s) (hq : s.proc pid = some q) {cloneVm : Bool}
    (hs : cloneVm ∨ s.vm q.vm = []) : Cover A (clone s q cloneVm) := by
  have hfile : (Mmap.clone s q cloneVm).file = s.file := by
    unfold Mmap.clone
    split_ifs <;> rfl
  have hold : ∀ p q', s.proc p = some q' → (Mmap.clone s q cloneVm).proc p = some q' := by
    intro p q' hp
    have hlt := lt_of_proc hp
    unfold Mmap.clone
    split_ifs <;> simpa [State.proc,List.getElem?_append_left hlt] using hp
  have hvm : ∀ v x, x ∈ (Mmap.clone s q cloneVm).vm v → x ∈ s.vm v := by
    intro v x hx
    unfold Mmap.clone at hx
    split_ifs at hx with hshare
    · exact hx
    · rw [hs.resolve_left hshare] at hx
      simp only [State.vm,List.getElem?_append] at hx
      split_ifs at hx with hlt
      · exact hx
      · cases hv : ([[]] : List (List (Nat × Nat)))[v - s.vms.length]? with
        | none => simp [hv] at hx
        | some l =>
          obtain ⟨_,rfl⟩ := List.getElem?_eq_some_iff.mp hv
          simp [hv] at hx
  intro p q₁ hq₁ x hx
  obtain ⟨p₀,q₀,hq₀,hv⟩ : ∃ p₀ q₀, s.proc p₀ = some q₀ ∧ (x ∈ s.vm q₁.vm → q₀.vm = q₁.vm) := by
    rcases clone_proc hq₁ with h₀ | ⟨-,rfl⟩
    · exact ⟨p,q₁,h₀,fun _ => rfl⟩
    · refine ⟨pid,q,hq,fun hx' => ?_⟩
      split_ifs at hx' ⊢ with hshare
      · rfl
      · simp [State.vm] at hx'
  have hx' := hvm _ x hx
  obtain ⟨p',q',m,hp',hv',hm,hcov⟩ := h p₀ q₀ hq₀ x ((hv hx').symm ▸ hx')
  exact ⟨p',q',m,hold p' q' hp',hv'.trans (hv hx'),hm,hfile.symm ▸ hcov⟩

theorem Cover.exit (h : Cover A s) (hq : s.proc pid = some q) (hk : Keeps s.file s'.file s.refs)
    (hprocs : s'.procs = s.procs.set pid none) (hvms : s'.vms = s.vms)
    (hs : SoundCall A s pid q .exit) : Cover A s' := by
  obtain ⟨hpid,hrest⟩ := proc_set hq hprocs
  intro p q₁ hq₁ x hx
  have hp : p ≠ pid := by
    rintro rfl
    simp [hpid] at hq₁
  rw [hrest p hp] at hq₁
  obtain ⟨p',q',m,hp',hv',hm,hcov⟩ := h p q₁ hq₁ x (vm_congr hvms _ ▸ hx)
  have hne : p' ≠ pid := by
    rintro rfl
    obtain rfl := Option.some.inj (hq.symm.trans hp')
    rcases hs with hnil | hother
    · exact absurd (mem_of_mem_settled hm) (by simp [hnil])
    · exact hother p (lt_of_proc hq₁) hp q₁ hq₁ hv'.symm
  exact ⟨p',q',m,(hrest p' hne).trans hp',hv',hm,hcov.keeps hk (mem_refs hp' (mem_of_mem_settled hm))⟩

theorem Effect.cover (h : Effect A s pid q c s') (hq : s.proc pid = some q) (hb : Booked s)
    (hc : Cover A s) (ha : Aimed A s) (hs : SoundCall A s pid q c) : Cover A s' := by
  have hk := h.keeps hb.counts
  cases h with
  | idle => exact hc
  | unread hidle hstat hf halloc =>
    exact hc.put hq hk (set_self hq) rfl (fun _ _ => rfl) fun x hx => .inr ⟨hx,fun m hm _ => hm⟩
  | mmap hidle hstat ht he =>
    obtain ⟨-,-,hprocs,hvms,-⟩ := ht.spec hb.counts
    refine hc.put hq hk (congrArg (List.set · pid _) hprocs) rfl (fun v _ => vm_congr hvms v)
      fun x hx => .inr ⟨vm_congr hvms q.vm ▸ (hx : x ∈ State.vm _ _),fun m hm _ => ?_⟩
    rwa [settled_idle hidle] at hm
  | search hidle hkey hperm hcall =>
    refine hc.put hq hk rfl rfl (fun _ _ => rfl) fun x hx => .inr ⟨hx,fun m hm _ => ?_⟩
    rw [settled_idle hidle] at hm
    rcases hcall with ⟨-,rfl⟩ | ⟨len',rv,-,rfl⟩
    · exact hperm.mem_iff.mpr hm
    · exact hperm.mem_iff.mpr hm
  | unmap hidle =>
    refine hc.put hq hk (set_self hq) rfl (fun v hv => vm_putVm_of_ne hv _) fun x hx => ?_
    exact .inr ⟨(mem_unmapPages.mp (mem_of_mem_putVm hx)).1,fun m hm _ => hm⟩
  | remap hidle hnone =>
    have hfree := (hs.resolve_left (by simp)).resolve_left
      fun hkey => hkey.elim fun m hm => hnone m hm.1 hm.2
    refine hc.put hq hk (set_self hq) rfl (fun v hv => vm_putVm_of_ne hv _) fun x hx => ?_
    rcases mem_remapPages (mem_of_mem_putVm hx) with ⟨page,hpage,-⟩ | hold
    · rw [hfree] at hpage
      simp at hpage
    · exact .inr ⟨hold.1,fun m hm _ => hm⟩
  | @mapped map page rv secret m rest hpend hl =>
    have hready := hb.ready pid q hq
    simp only [Ready,hpend,hl,List.cons.injEq] at hready
    obtain ⟨_,_,⟨rfl,rfl⟩,hlen,hsf⟩ := hready
    refine hc.put hq hk rfl rfl (fun v hv => vm_putVm_of_ne hv _) fun x hx => ?_
    rcases mem_mapPages.mp (mem_of_mem_putVm hx) with ⟨i,hi,rfl⟩ | hold
    · obtain ⟨e,he,hid,h1,h2⟩ := ha pid q map page hq hpend
      refine .inl ⟨_,List.mem_cons_self,⟨Nat.le_add_right _ _,?_⟩,e,he,hid.trans hsf.symm,?_⟩
      · simp only [hlen]
        omega
      · exact ⟨by simp only; omega,by simp only; omega⟩
    · refine .inr ⟨(mem_unmapPages.mp hold).1,fun m' hm' _ => ?_⟩
      rw [settled_mmap hpend hl] at hm'
      exact List.mem_cons_of_mem _ hm'
  | @unmapped start len rv secret m rest e hpend hl he =>
    have hready := hb.ready pid q hq
    simp only [Ready,hpend,hl,List.cons.injEq] at hready
    obtain ⟨_,_,⟨rfl,rfl⟩,rfl,rfl⟩ := hready
    refine hc.put hq hk rfl rfl (fun v hv => vm_putVm_of_ne hv _) fun x hx => ?_
    obtain ⟨hold,hout⟩ := mem_unmapPages.mp (mem_of_mem_putVm hx)
    refine .inr ⟨hold,fun m' hm' hcov => ?_⟩
    rw [settled_undone hpend (by simp),hl] at hm'
    rcases List.mem_cons.mp hm' with rfl | hm'
    · exact absurd hcov.range hout
    · exact hm'
  | failed hpend hrv hl he =>
    refine hc.put hq hk rfl rfl (fun _ _ => rfl) fun x hx => .inr ⟨hx,fun m hm _ => ?_⟩
    rwa [settled_mmap hpend hl] at hm
  | @remapped start len len' rv secret m rest hpend hl =>
    have hready := hb.ready pid q hq
    simp only [Ready,hpend,hl,List.cons.injEq] at hready
    obtain ⟨_,_,⟨rfl,rfl⟩,rfl,rfl⟩ := hready
    simp only [SoundCall,SoundOut,hpend,hl] at hs
    refine hc.put hq hk rfl rfl (fun v hv => vm_putVm_of_ne hv _) fun x hx => ?_
    rcases mem_remapPages (mem_of_mem_putVm hx) with ⟨page,hpage,i,hi,rfl⟩ | ⟨hold,hout⟩
    · obtain ⟨m',hm',e,he,hid,h1,h2⟩ := hs.resolve_left (by simp) page hpage
      obtain rfl : m = m' := by simpa using hm'
      refine .inl ⟨_,List.mem_cons_self,⟨Nat.le_add_right _ _,?_⟩,e,he,hid,?_⟩
      · simp only
        omega
      · exact ⟨by simp only; omega,by simp only; omega⟩
    · refine .inr ⟨hold,fun m' hm' hcov => ?_⟩
      rw [settled_undone hpend (by simp),hl] at hm'
      rcases List.mem_cons.mp hm' with rfl | hm'
      · exact absurd hcov.range hout
      · exact List.mem_cons_of_mem _ hm'
  | undone hpend hne =>
    refine hc.put hq hk rfl rfl (fun _ _ => rfl) fun x hx => .inr ⟨hx,fun m hm _ => ?_⟩
    rwa [settled_undone hpend hne] at hm
  | clone cloneVm hidle => exact hc.clone hq hs
  | exit hf => exact hc.exit hq hk rfl rfl hs

theorem Fetched.laid {a : MmapArgs} {mtime : Int} {size id : Nat} {t : State}
    (h : Fetched A s a (a.request A mtime size) t id) (hfits : Fits A s.file a mtime size)
    (hinv : Inv A s.file) :
    Inv A t.file ∧ extent Entry.pgsize t.file.chunks ≤
      extent Entry.pgsize s.file.chunks + a.pgsize A size := by
  cases h with
  | found hf =>
    have hext := extent_of_forall₂ (reused_same (mmapSfFind_spec hf).1)
    exact ⟨hinv.find hf,hext.le.trans (Nat.le_add_right _ _)⟩
  | loaded hf halloc he hk => exact hfits.allocated hf halloc hinv

theorem Effect.laid (h : Effect A s pid q c s') (hb : Booked s) (hl : Laid A s.file.chunks)
    (hs : SoundCall A s pid q c) : Laid A s'.file.chunks := by
  have hinv : Inv A s.file := ⟨hl,hb.counts.distinct⟩
  cases h with
  | unread hidle hstat hf ha => exact ((hs _ hstat).allocated hf ha hinv).1.laid
  | mmap hidle hstat ht he =>
    obtain ⟨hinv',-⟩ := ht.laid (hs _ hstat) hinv
    exact (hinv'.setCounter _ _).laid
  | unmapped hpend hl' he => exact (hinv.setCounter _ _).laid
  | failed hpend hrv hl' he => exact (hinv.setCounter _ _).laid
  | exit hf => exact (recdelproc_induct (fun _ id n h => h.setCounter id n) hinv hf).laid
  | clone cloneVm hidle =>
    unfold Mmap.clone
    split_ifs <;> exact hl
  | _ => exact hl

theorem Fetched.aimed {a : MmapArgs} {mtime : Int} {size id page : Nat} {t : State} {e : Entry}
    (h : Fetched A s a (a.request A mtime size) t id) (hb : Booked s)
    (hfits : Fits A s.file a mtime size) (hl : Laid A s.file.chunks) (he : t.file.chunk id = some e)
    (hpage : kernelPage A e.pgoffset (a.pageOffset A) (a.pgsize A size) = some page) :
    e.pgoffset ≤ page ∧ page + pages A a.length ≤ e.pgoffset + e.pgsize := by
  obtain ⟨hinv,hext⟩ := h.laid hfits ⟨hl,hb.counts.distinct⟩
  obtain ⟨hmem,-,-,hsize⟩ := (h.spec hb.counts).chunk e he
  have hend := (hinv.laid.tiles.bounds hmem).2
  rw [Nat.zero_add] at hend
  have hsize : a.pgsize A size ≤ e.pgsize := hsize
  have hfit := hfits.1.pgsize_le.1
  have hlen := pages_le A a.length
  have h0 := hfits.1.1
  obtain rfl := hfits.kernelPage_eq (by omega) hinv.laid.bound hext hpage
  generalize a.length / A.pagesize = k at hfit hlen
  omega

theorem Effect.aimed (h : Effect A s pid q c s') (hq : s.proc pid = some q) (hb : Booked s)
    (ha : Aimed A s) (hl : Laid A s.file.chunks) (hs : SoundCall A s pid q c) : Aimed A s' := by
  have hkept : ∀ p q' map page, s.proc p = some q' → q'.pending = some (.mmap map (some page)) →
      ∃ e ∈ s'.file.chunks, e.id = map.sf ∧ e.pgoffset ≤ page ∧
        page + pages A map.length ≤ e.pgoffset + e.pgsize := by
    intro p q' map page hq' hpend
    have hready := hb.ready p q' hq'
    simp only [Ready,hpend] at hready
    obtain ⟨m,rest,hm,-,hsf⟩ := hready
    obtain ⟨e,he,hid,hpage⟩ := ha p q' map page hq' hpend
    have hrefs : m.sf ∈ s.refs := mem_refs hq' (hm ▸ List.mem_cons_self)
    obtain ⟨_,he',x,k,rfl⟩ := h.keeps hb.counts e he (hid.trans hsf.symm ▸ hrefs)
    exact ⟨_,he',hid,hpage⟩
  intro p q' map page hq' hpend
  rcases h.pending hq hb.counts hq' hpend with hold | ⟨a,mtime,size,t,e,rfl,hstat,ht,he,hmem,rfl,hpage⟩
  · exact hkept p q' map page hold hpend
  · have haim := ht.aimed hb (hs _ hstat) hl he hpage.symm
    exact ⟨_,hmem,rfl,haim⟩

structure Safe (A : Arch) (s : State) : Prop where
  booked : Booked s
  laid : Laid A s.file.chunks
  cover : Cover A s
  aimed : Aimed A s

theorem safe_init (A : Arch) : Safe A .init := by
  refine ⟨booked_init,(inv_empty A).laid,fun p q hq x hx => ?_,fun p q map page hq hpend => ?_⟩
  · have hnil : ∀ v, State.vm .init v = [] := by
      intro v
      cases v <;> rfl
    simp [hnil] at hx
  · exact absurd hpend (not_pending_init hq)

theorem Safe.perform {o : SysOp} (h : Safe A s) (ho : Sound A s o) (hs : perform A s o = some s') :
    Safe A s' := by
  obtain ⟨q,t,hq,he,rfl⟩ := perform_effect h.booked hs
  have hcall := ho q hq
  exact ⟨h.booked.perform hs,he.laid h.booked h.laid hcall,
    he.cover hq h.booked h.cover h.aimed hcall,he.aimed hq h.booked h.aimed h.laid hcall⟩

theorem Safe.holds (h : Safe A s) (hq : s.proc pid = some q) {page sp : Nat}
    (hx : (page, sp) ∈ s.vm q.vm) :
    ∃ e ∈ s.file.chunks, e.id ∈ s.refs ∧ Live e ∧ Holds e sp := by
  obtain ⟨p',q',m,hp',-,hm,-,e,he,hid,hholds⟩ := h.cover pid q hq _ hx
  have hrefs : e.id ∈ s.refs := hid ▸ mem_refs hp' (mem_of_mem_settled hm)
  exact ⟨e,he,hrefs,h.booked.counts.used he hrefs,hholds⟩

theorem Safe.unique (h : Safe A s) {e e' : Entry} (he : e ∈ s.file.chunks) (he' : e' ∈ s.file.chunks)
    {page : Nat} (hp : Holds e page) (hp' : Holds e' page) : e = e' :=
  h.laid.tiles.unique he he' hp hp'

def Overwrites (A : Arch) (w : Nat × Nat) (page : Nat) : Prop :=
  w.1 * A.pagesize < (page + 1) * A.pagesize ∧ page * A.pagesize < w.1 * A.pagesize + w.2

theorem holds_of_overwrites {e : Entry} {k page : Nat} (hk : k ≤ e.pgsize * A.pagesize)
    (h : Overwrites A (e.pgoffset, k) page) : Holds e page := by
  have h1 := Nat.lt_of_mul_lt_mul_right h.1
  have h2 : page * A.pagesize < (e.pgoffset + e.pgsize) * A.pagesize := by
    rw [Nat.add_mul]
    exact h.2.trans_le (Nat.add_le_add_left hk _)
  have h3 := Nat.lt_of_mul_lt_mul_right h2
  exact ⟨by simp only at h1; omega,h3⟩

theorem Effect.written (h : Effect A s pid q c s') (hsafe : Safe A s) (hs : SoundCall A s pid q c)
    {e : Entry} (he : e ∈ s.file.chunks) (hrefs : e.id ∈ s.refs) {page : Nat} (hpage : Holds e page) :
    ∀ w ∈ s'.written.drop s.written.length, ¬Overwrites A w page := by
  have hnone : ∀ w ∈ s.written.drop s.written.length, ¬Overwrites A w page := by simp
  cases h with
  | @mmap a mtime size id t e₁ hidle hstat ht he₁ =>
    have hb := hsafe.booked
    have hspec := ht.spec hb.counts
    have hlaid := (ht.laid (hs _ hstat) ⟨hsafe.laid,hb.counts.distinct⟩).1.laid
    cases ht with
    | found hf => exact hnone
    | @loaded chunks l n id k e₂ hf halloc he₂ hk =>
      intro w hw hover
      obtain rfl : w = (e₂.pgoffset, k) := by simpa [State.put] using hw
      obtain ⟨hmem,hid,-,hsize⟩ := hspec.chunk e₂ he₂
      have hle : k ≤ e₂.pgsize * A.pagesize :=
        ((hs _ hstat).2.2.2 k hk).trans (Nat.mul_le_mul_right _ hsize)
      obtain ⟨e',he',halike⟩ := hspec.keeps e he hrefs
      have heq := hlaid.tiles.unique he' hmem (halike.holds hpage) (holds_of_overwrites hle hover)
      obtain ⟨x,c,rfl⟩ := halike
      obtain rfl : e.id = id := (congrArg Entry.id heq).trans hid
      exact ((hb.counts.find hf).allocated halloc).2 hrefs
  | clone cloneVm hidle =>
    unfold Mmap.clone
    split_ifs <;> exact hnone
  | _ => exact hnone

end Steps

theorem mapped_chunk_kept (A : Arch) {s : State} (hrun : Run (perform A) (Sound A) .init s) :
    ∀ pid q, s.proc pid = some q → ∀ page sp, (page, sp) ∈ s.vm q.vm →
      ∃ e ∈ s.file.chunks, e.path ≠ none ∧ 0 < e.counter ∧ Holds e sp ∧
        (∀ e' ∈ s.file.chunks, Holds e' sp → e' = e) ∧
        ∀ o s', Sound A s o → perform A s o = some s' →
          (∃ e' ∈ s'.file.chunks, Alike e e' ∧ ∀ e'' ∈ s'.file.chunks, Holds e'' sp → e'' = e') ∧
          ∀ w ∈ s'.written.drop s.written.length, ¬Overwrites A w sp := by
  have h : Safe A s := hrun.invariant (fun _ _ _ hi ho hs => hi.perform ho hs) (safe_init A)
  intro pid q hq page sp hx
  obtain ⟨e,he,hrefs,hlive,hholds⟩ := h.holds hq hx
  refine ⟨e,he,hlive.1,hlive.2,hholds,fun e' he' hp' => h.unique he' he hp' hholds,
    fun o s' ho hs => ?_⟩
  have hsafe := h.perform ho hs
  obtain ⟨q',t,hq',heff,rfl⟩ := perform_effect h.booked hs
  obtain ⟨e',he',halike⟩ := heff.keeps h.booked.counts e he hrefs
  refine ⟨⟨e',he',halike,fun e'' he'' hp'' => ?_⟩,heff.written h (ho q' hq') he hrefs hholds⟩
  exact hsafe.unique he'' he' hp'' (halike.holds hholds)

instance (A : Arch) (f : SecretFile) (a : MmapArgs) (mtime : Int) (size : Nat) :
    Decidable (Fits A f a mtime size) :=
  inferInstanceAs (Decidable (_ ∧ ((∃ e ∈ _, _) ∨ (∃ e ∈ _, _) ∨ _) ∧ _ ∧ ∀ n ∈ _, _))

instance (A : Arch) (s : State) (q : Proc) (rv : Option Nat) :
    (pending : Option Pending) → Decidable (SoundOut A s q rv pending)
  | none => inferInstanceAs (Decidable True)
  | some (.mmap _ _) => inferInstanceAs (Decidable True)
  | some (.munmap _ _) => inferInstanceAs (Decidable True)
  | some (.mremap _ _ _) => inferInstanceAs (Decidable (_ ∨ ∀ page ∈ _, ∃ m ∈ _, ∃ e ∈ _, _))

instance (A : Arch) (s : State) (pid : Nat) (q : Proc) : (c : Call) → Decidable (SoundCall A s pid q c)
  | .mmap _ => inferInstanceAs (Decidable (∀ x ∈ _, Fits _ _ _ _ _))
  | .munmap _ _ _ => inferInstanceAs (Decidable True)
  | .mremap _ _ _ _ => inferInstanceAs (Decidable (_ ∨ (∃ m ∈ _, _) ∨ _))
  | .out _ _ => inferInstanceAs (Decidable (SoundOut _ _ _ _ _))
  | .clone _ => inferInstanceAs (Decidable (_ ∨ _))
  | .exit => inferInstanceAs (Decidable (_ ∨ ∀ p < _, _ → ∀ q' ∈ _, _))

instance (A : Arch) (s : State) (o : SysOp) : Decidable (Sound A s o) :=
  inferInstanceAs (Decidable (∀ q ∈ _, _))

def whole (path : Char) (size : Nat) (prot : Nat) : Call :=
  .mmap ⟨[path], 5, 1, some (7, size), some size, prot, size, 0, false⟩

def threadMaps : List SysOp :=
  [⟨0, whole 'a' 9000 1⟩, ⟨0, .out (some 100) []⟩, ⟨0, .clone true⟩, ⟨1, whole 'a' 9000 1⟩,
    ⟨1, .out (some 200) []⟩, ⟨0, .munmap 100 9000 true⟩, ⟨0, .out (some 0) []⟩,
    ⟨1, .mremap 200 9000 4096 (some 200)⟩, ⟨1, .out (some 200) []⟩, ⟨0, whole 'b' 5000 1⟩,
    ⟨0, .out (some 300) []⟩]

theorem threadMaps_kept :
    ∃ s, exec (perform i386) .init threadMaps = some s ∧ s.vm 0 = [(300, 3), (301, 4), (200, 0)] ∧
      ∃ e ∈ s.file.chunks, e.path ≠ none ∧ 0 < e.counter ∧ Holds e 0 := by
  have hok : Meets (perform i386) (Sound i386) .init threadMaps := by decide +kernel
  have hsome : (exec (perform i386) .init threadMaps).any fun s =>
      s.vm 0 = [(300, 3),(301, 4),(200, 0)] ∧ (s.proc 0).map Proc.vm = some 0 := by decide +kernel
  obtain ⟨s,hs,hvm⟩ := (Option.any_eq_true _ _).mp hsome
  obtain ⟨hvm,hp⟩ := of_decide_eq_true hvm
  obtain ⟨q,hq,hv⟩ := Option.map_eq_some_iff.mp hp
  obtain ⟨e,he,hpath,hc,hholds,-⟩ :=
    mapped_chunk_kept i386 (Run.of_exec hs hok) 0 q hq 200 0 (by rw [hv,hvm]; decide)
  exact ⟨s,hs,hvm,e,he,hpath,hc,hholds⟩

def forkMaps : List SysOp :=
  [⟨0, whole 'a' 5000 1⟩, ⟨0, .out (some 100) []⟩, ⟨0, .clone false⟩, ⟨0, .munmap 100 5000 true⟩,
    ⟨0, .out (some 0) []⟩]

theorem child_mapping_overwritten : ¬∀ (A : Arch) (s : State),
    Run (perform A) (fun _ _ => True) .init s →
      ∀ pid q, s.proc pid = some q → ∀ page sp, (page, sp) ∈ s.vm q.vm →
        (∃ e ∈ s.file.chunks, 0 < e.counter ∧ Holds e sp) ∧
        ∀ o s', perform A s o = some s' → ∀ w ∈ s'.written.drop s.written.length,
          ¬Overwrites A w sp := by
  intro h
  have hlost : (exec (perform i386) .init forkMaps).any fun s => ∃ q ∈ s.proc 1,
      (100, 0) ∈ s.vm q.vm ∧ ∃ s' ∈ perform i386 s ⟨0, whole 'b' 6000 1⟩,
        (0, 6000) ∈ s'.written.drop s.written.length := by
    decide +kernel
  obtain ⟨s,hrun,hstate⟩ := Run.of_any hlost
  obtain ⟨q,hq,hvm,s',hs',hw⟩ := of_decide_eq_true hstate
  exact (h i386 s hrun 1 q hq 100 0 hvm).2 _ s' hs' _ hw ⟨by decide,by decide⟩

end ViewOS.Mmap
