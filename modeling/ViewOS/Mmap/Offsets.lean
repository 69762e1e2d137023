import ViewOS.Mmap.Coverage

namespace ViewOS.Mmap

open Transition

-- The values of a call of mmap, which are those of long, unsigned long and off_t.
structure Representable (A : Arch) (a : MmapArgs) (size : Nat) : Prop where
  pageshift : 2 ≤ A.pageshift
  nonneg : 0 ≤ a.offset
  offset : a.offset < (A.ulong / 2 : Nat)
  length : a.length < A.ulong
  size : size < A.ulong / 2
  isMmap : a.isMmap2 = false
  aligned : (A.pagesize : Int) ∣ a.offset

-- page is where the kernel maps the secret file, if the offset it gets is one of a page.
structure Translated (A : Arch) (a : MmapArgs) (e : Entry) (page : Option Nat) : Prop where
  start : page = some (e.pgoffset + a.offset.toNat / A.pagesize)
  bytes : ∀ (secret file : Nat → UInt8) (size : Nat),
    (∀ k < size, secret (e.pgoffset * A.pagesize + k) = file k) →
      ∀ p ∈ page, ∀ i < a.length, a.offset.toNat + i < size →
        secret (p * A.pagesize + i) = file (a.offset.toNat + i)
  room : a.offset.toNat / A.pagesize + pages A a.length ≤ e.pgsize

def Multiplied (A : Arch) (page pgsize : Nat) : Prop :=
  page * A.pagesize < A.ulong ∧ page * pgsize % A.ulong = page * A.pagesize % A.ulong

section

variable {A : Arch} {s s' : State} {pid : Nat} {q q' : Proc} {a : MmapArgs} {mtime : Int}
  {size : Nat} {map : Mapping} {page : Option Nat} {e : Entry}

theorem Representable.pageOffset (h : Representable A a size) :
    a.pageOffset A = (a.offset.toNat / A.pagesize : Nat) := by
  rw [MmapArgs.pageOffset,h.isMmap,if_neg Bool.false_ne_true,Int.natCast_ediv,
    Int.toNat_of_nonneg h.nonneg]

theorem Representable.inRange (h : Representable A a size) : InRange A a size := by
  have hps : 4 ≤ A.pagesize := Nat.pow_le_pow_right (Nat.succ_pos 1) h.pageshift
  have hnon := h.nonneg
  have hoff := h.offset
  have hlen := h.length
  have hsize := h.size
  have h1 : a.offset.toNat / A.pagesize ≤ a.offset.toNat / 4 :=
    Nat.div_le_div_left hps (by decide)
  have h2 : a.length / A.pagesize ≤ a.length / 4 := Nat.div_le_div_left hps (by decide)
  have h3 : size / A.pagesize ≤ size / 4 := Nat.div_le_div_left hps (by decide)
  rw [InRange,h.pageOffset]
  refine ⟨Int.natCast_nonneg _,?_,by omega⟩
  omega

theorem Representable.whole (h : Representable A a size) :
    a.offset.toNat / A.pagesize * A.pagesize = a.offset.toNat :=
  Nat.div_mul_cancel (Int.natCast_dvd_natCast.mp
    (by rw [Int.toNat_of_nonneg h.nonneg]; exact h.aligned))

theorem kernelPage_eq_iff (hA : A.mmap2 = false) (pgoffset off pgsize : Nat) :
    kernelPage A pgoffset (off : Nat) pgsize = some (pgoffset + off) ↔
      Multiplied A (pgoffset + off) pgsize := by
  have hpos := A.pagesize_pos
  have hulong : 0 < A.ulong := Nat.two_pow_pos _
  have hcast : (((pgoffset : Int) + (off : Nat)) * pgsize % (A.ulong : Nat)).toNat =
      (pgoffset + off) * pgsize % A.ulong := by
    rw [← Nat.cast_add,← Nat.cast_mul,← Int.natCast_emod,Int.toNat_natCast]
  rw [kernelPage,hA,if_neg Bool.false_ne_true,hcast,Multiplied]
  dsimp only
  have hlt := Nat.mod_lt ((pgoffset + off) * pgsize) hulong
  constructor
  · intro h
    split_ifs at h with hmod
    have hmul := Nat.div_mul_cancel (Nat.dvd_of_mod_eq_zero hmod)
    rw [Option.some.inj h] at hmul
    rw [hmul]
    exact ⟨hlt,(Nat.mod_eq_of_lt hlt).symm⟩
  · rintro ⟨hfit,hmod⟩
    rw [Nat.mod_eq_of_lt hfit] at hmod
    rw [hmod,Nat.mul_mod_left,if_pos rfl,Nat.mul_div_cancel _ hpos]

theorem issued_spec (hb : Booked s) (hq : s.proc pid = some q) (hidle : q.pending = none)
    (hstat : a.stat = some (mtime, size)) (h : wrapInMmap A s pid q a = some s')
    (hq' : s'.proc pid = some q') (hpend : q'.pending = some (.mmap map page))
    (he : s'.file.chunk map.sf = some e) :
    page = kernelPage A e.pgoffset (a.pageOffset A) (a.pgsize A size) ∧
      a.pgsize A size ≤ e.pgsize := by
  have hsame : s'.procs = s.procs → False := fun hp => by
    rw [State.proc,hp,← State.proc,hq] at hq'
    rw [← Option.some.inj hq',hidle] at hpend
    cases hpend
  cases wrapInMmap_effect hidle h with
  | idle _ _ => exact (hsame rfl).elim
  | unread _ _ _ _ => exact (hsame rfl).elim
  | @mmap _ mtime' size' id t e' _ hstat' ht he' =>
    rw [hstat] at hstat'
    cases hstat'
    have hspec := ht.spec hb.counts
    have hset := proc_eq_some.mp hq'
    change (t.procs.set pid (some _))[pid]? = _ at hset
    rw [hspec.procs,List.getElem?_set_self (lt_of_proc hq)] at hset
    cases hset
    cases hpend
    have hd := hspec.counts.distinct
    obtain ⟨hmem,hid⟩ := (chunk_eq_some (hd.setCounter _ _)).mp he
    obtain ⟨e₀,he₀,rfl⟩ := mem_setCounter.mp hmem
    obtain ⟨hmem',hid',-,hsize⟩ := hspec.chunk e' he'
    have hsame₀ := setCounter_same id (e'.counter + 1) e₀
    obtain rfl := hd.eq_of_id he₀ hmem' (hsame₀.1.symm.trans (hid.trans hid'.symm))
    exact ⟨congrArg (kernelPage A · _ _) hsame₀.2.1.symm,hsize.trans hsame₀.2.2.ge⟩
  | search _ _ _ hc =>
    rcases hc with ⟨⟨_,hc⟩,-⟩ | ⟨_,_,hc,-⟩ <;> cases hc

end

theorem booked_of_run {A : Arch} {s : State} (hrun : Run (perform A) (fun _ _ => True) .init s) :
    Booked s :=
  hrun.invariant (fun _ _ _ hb _ hs => hb.perform hs) booked_init

theorem mmap_translated_iff (A : Arch) (s s' : State) (pid : Nat) (q q' : Proc) (a : MmapArgs)
    (mtime : Int) (size : Nat) (map : Mapping) (page : Option Nat) (e : Entry)
    (hA : A.mmap2 = false) (hrun : Run (perform A) (fun _ _ => True) .init s)
    (hq : s.proc pid = some q) (hidle : q.pending = none) (hstat : a.stat = some (mtime, size))
    (hrep : Representable A a size) (h : wrapInMmap A s pid q a = some s')
    (hq' : s'.proc pid = some q') (hpend : q'.pending = some (.mmap map page))
    (he : s'.file.chunk map.sf = some e) :
    Translated A a e page ↔
      Multiplied A (e.pgoffset + a.offset.toNat / A.pagesize) (a.pgsize A size) := by
  obtain ⟨hpage,hsize⟩ := issued_spec (booked_of_run hrun) hq hidle hstat h hq' hpend he
  have hroom := hrep.inRange.pgsize_le.1
  have hpages := pages_le A a.length
  rw [hrep.pageOffset] at hroom hpage
  rw [← kernelPage_eq_iff hA,← hpage]
  refine ⟨fun h => h.start,fun h => ⟨h,fun secret file n hload p hp i _ hi => ?_,by omega⟩⟩
  have hp' : p = e.pgoffset + a.offset.toNat / A.pagesize := Option.some.inj (hp.symm.trans h)
  rw [hp',Nat.add_mul,hrep.whole,Nat.add_assoc]
  exact hload _ hi

def onePage (offset : Int) (size : Nat) : MmapArgs :=
  ⟨['f'], 1, 0, some (7, size), some size, 1, 4096, offset, false⟩

def idleProc : Proc := ⟨[], 0, none⟩

def mappedChunk (pgsize : Nat) : Entry := ⟨0, some ['f'], 1, 7, 0, 1, 4096, 0, pgsize, 1, 0⟩

def mappingProc (offset : Int) (size : Nat) (page : Option Nat) : Proc :=
  ⟨[⟨0, 4096, 0⟩], 0, some (.mmap ⟨0, 1, offset, 4096, size⟩ page)⟩

def mappingState (pgsize : Nat) (offset : Int) (size : Nat) (page : Option Nat) : State :=
  ⟨⟨[mappedChunk pgsize], 1⟩, [[]], [some (mappingProc offset size page)], [(0, size)], [], []⟩

theorem onePage_representable (offset : Int) (size : Nat) (h0 : 0 ≤ offset)
    (h1 : offset < 2 ^ 63) (hsize : size < 2 ^ 63) (h : (4096 : Int) ∣ offset) :
    Representable x86_64 (onePage offset size) size :=
  ⟨by decide,h0,h1,(by decide : 4096 < x86_64.ulong),hsize,rfl,h⟩

theorem first_page_translated : Translated x86_64 (onePage 0 100) (mappedChunk 2) (some 0) := by
  have hcall : wrapInMmap x86_64 .init 0 idleProc (onePage 0 100) =
      some (mappingState 2 0 100 (some 0)) := by decide +kernel
  refine (mmap_translated_iff x86_64 .init _ 0 idleProc (mappingProc 0 100 (some 0)) (onePage 0 100)
    7 100 _ _ (mappedChunk 2) rfl (.refl _) rfl rfl rfl ?_ hcall rfl rfl rfl).mpr ?_
  · exact onePage_representable 0 100 (by decide) (by decide) (by decide) (by decide)
  · exact ⟨by decide,by decide⟩

theorem second_page_missed :
    Representable x86_64 (onePage 4096 8192) 8192 ∧
      wrapInMmap x86_64 .init 0 idleProc (onePage 4096 8192) =
        some (mappingState 3 1 8192 none) ∧
      ¬Translated x86_64 (onePage 4096 8192) (mappedChunk 3) none := by
  refine ⟨?_,by decide +kernel,fun h => ?_⟩
  · exact onePage_representable 4096 8192 (by decide) (by decide) (by decide) (by decide)
  · cases h.start

end ViewOS.Mmap
