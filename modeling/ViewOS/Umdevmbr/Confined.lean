import ViewOS.Umdevmbr.Device

namespace ViewOS.Umdevmbr

def Moved.Within (x : Moved) (p : Partition) : Prop :=
  ∀ k < x.bytes.length, p.begin ≤ x.offset + k ∧ x.offset + k < p.begin + p.length

def Inside (p : Partition) (len : Nat) (pos : Int) : Prop := 0 ≤ pos ∧ pos + len ≤ p.length

def Straddles (p : Partition) (len : Nat) (pos : Int) : Prop :=
  0 ≤ pos ∧ pos < p.length ∧ p.length < pos + len

def Outside (p : Partition) (pos : Int) : Prop := pos < 0 ∨ p.length ≤ pos

structure Confined (p : Partition) (len : Nat) (pos : Int) (cut r : Except Errno Moved) : Prop where
  within : ∀ x, r = .ok x → x.Within p
  shortened : Straddles p len pos → r = cut
  nothing : p.length ≤ pos → ∀ x, r = .ok x → x.bytes = []

def ReadConfined (m : Mbr) (partno : Nat) (p : Partition) (img : List UInt8) (len : Nat)
    (pos : Int) : Prop :=
  Confined p len pos (pread64 img (p.length - pos).toNat (pos + p.begin))
    (hdmbrRead m partno img len pos)

def WriteConfined (m : Mbr) (partno : Nat) (p : Partition) (buf : List UInt8) (pos : Int) : Prop :=
  Confined p buf.length pos (pwrite64 (buf.take (p.length - pos).toNat) (pos + p.begin))
    (hdmbrWrite m partno buf pos)

def ReadSafe (p : Partition) (img : List UInt8) (len : Nat) (pos : Int) : Prop :=
  p.starts pos = false ∨ Inside p len pos ∨
  (Straddles p len pos ∧ rwVerify len (pos + p.begin) ∧
    (maxRwCount + pos ≤ p.length ∨ img.length ≤ p.begin + p.length)) ∨
  (Outside p pos ∧ (rwVerify len (pos + p.begin) = false ∨ len = 0 ∨ img.length ≤ pos + p.begin))

def WriteSafe (p : Partition) (len : Nat) (pos : Int) : Prop :=
  p.starts pos = false ∨ Inside p len pos ∨
  (Straddles p len pos ∧ rwVerify len (pos + p.begin) ∧ maxRwCount + pos ≤ p.length) ∨
  (Outside p pos ∧ (rwVerify len (pos + p.begin) = false ∨ len = 0))

section Transfers

variable {p : Partition} {len : Nat} {pos : Int} {cut r : Except Errno Moved}

theorem rwVerify_iff : rwVerify len pos = true ↔ 0 ≤ pos ∧ pos + len < 2 ^ 63 := by
  simp [rwVerify]

theorem within_of_le {x : Moved} (h : x.bytes = [] ∨
    p.begin ≤ x.offset ∧ x.offset + x.bytes.length ≤ p.begin + p.length) : x.Within p := by
  intro k hk
  rcases h with h | h
  · rw [h] at hk
    exact absurd hk (Nat.not_lt_zero k)
  · omega

def Transfers (p : Partition) (len : Nat) (pos : Int) (r : Except Errno Moved) : Prop :=
  ∀ x, r = .ok x → x.bytes = [] ∨
    x.bytes.length ≤ len ∧ 0 ≤ pos + p.begin ∧ x.offset = (pos + p.begin).toNat

theorem confined_of_none (h : ∀ x, r = .ok x → x.bytes = []) (hs : ¬ Straddles p len pos) :
    Confined p len pos cut r :=
  ⟨fun x hx => within_of_le (Or.inl (h x hx)),fun hstr => absurd hstr hs,fun _ => h⟩

theorem confined_of_inside (hr : Transfers p len pos r) (h : Inside p len pos) :
    Confined p len pos cut r := by
  obtain ⟨h0,h1⟩ := h
  refine ⟨fun x hx => within_of_le ?_,fun hstr => ?_,fun hend x hx => ?_⟩
  · rcases hr x hx with hnil | ⟨hlen,-,hoff⟩
    · exact Or.inl hnil
    · exact Or.inr (by omega)
  · exact absurd hstr.2.2 (by omega)
  · rcases hr x hx with hnil | ⟨hlen,-,-⟩
    · exact hnil
    · exact List.eq_nil_of_length_eq_zero (by omega)

theorem confined_of_straddles (hcut : Transfers p (p.length - pos).toNat pos cut)
    (h : Straddles p len pos) : Confined p len pos cut r ↔ r = cut := by
  refine ⟨fun hc => hc.shortened h,fun hr => ?_⟩
  have hin : Inside p (p.length - pos).toNat pos := ⟨h.1,by have := h.2.1; omega⟩
  have hwithin : Confined p (p.length - pos).toNat pos cut cut := confined_of_inside hcut hin
  rw [hr]
  exact ⟨hwithin.within,fun _ => rfl,
    fun hend => absurd hend (not_le.mpr h.2.1)⟩

theorem confined_of_outside (hr : Transfers p len pos r) (h : Outside p pos) :
    Confined p len pos cut r ↔ ∀ x, r = .ok x → x.bytes = [] := by
  refine ⟨fun hc x hx => ?_,fun hnone => confined_of_none hnone ?_⟩
  · rcases h with hneg | hend
    · rcases hr x hx with hnil | ⟨-,hstart,hoff⟩
      · exact hnil
      · apply List.eq_nil_of_length_eq_zero
        by_contra hpos
        have := (hc.within x hx 0 (Nat.pos_of_ne_zero hpos)).1
        omega
    · exact hc.nothing hend x hx
  · rintro ⟨h0,h1,-⟩
    rcases h with hneg | hend <;> omega

theorem inside_or (p : Partition) (len : Nat) (pos : Int) :
    Inside p len pos ∨ Straddles p len pos ∨ Outside p pos := by
  unfold Inside Straddles Outside
  omega

theorem straddles_starts (h : Straddles p len pos) : p.starts pos = true := by
  obtain ⟨h0,h1,-⟩ := h
  apply decide_eq_true
  simp only [Partition.length,ideBlocksize] at h1 ⊢
  omega

theorem confined_iff {safeS safeO : Prop} (hr : Transfers p len pos r)
    (hcut : Transfers p (p.length - pos).toNat pos cut)
    (hS : Straddles p len pos → (r = cut ↔ safeS))
    (hO : (∀ x, r = .ok x → x.bytes = []) ↔ safeO) :
    Confined p len pos cut r ↔ Inside p len pos ∨ Straddles p len pos ∧ safeS ∨
      Outside p pos ∧ safeO := by
  constructor
  · intro hc
    rcases inside_or p len pos with h | h | h
    · exact Or.inl h
    · exact Or.inr (Or.inl ⟨h,(hS h).mp ((confined_of_straddles hcut h).mp hc)⟩)
    · exact Or.inr (Or.inr ⟨h,hO.mp ((confined_of_outside hr h).mp hc)⟩)
  · rintro (h | ⟨h,hs⟩ | ⟨h,hs⟩)
    · exact confined_of_inside hr h
    · exact (confined_of_straddles hcut h).mpr ((hS h).mpr hs)
    · exact (confined_of_outside hr h).mpr (hO.mpr hs)

end Transfers

section Calls

variable {p : Partition} {pos : Int}

theorem pread64_transfers (p : Partition) (img : List UInt8) (len : Nat) (pos : Int) :
    Transfers p len pos (pread64 img len (pos + p.begin)) := by
  intro x hx
  unfold pread64 at hx
  split_ifs at hx with hv
  obtain rfl := Except.ok.inj hx
  refine Or.inr ⟨?_,(rwVerify_iff.mp hv).1,rfl⟩
  simp only [List.length_take]
  omega

theorem pwrite64_transfers (p : Partition) (buf : List UInt8) {len : Nat} (pos : Int)
    (hlen : buf.length ≤ len) : Transfers p len pos (pwrite64 buf (pos + p.begin)) := by
  intro x hx
  unfold pwrite64 at hx
  split_ifs at hx with hv
  obtain rfl := Except.ok.inj hx
  refine Or.inr ⟨?_,(rwVerify_iff.mp hv).1,rfl⟩
  simp only [List.length_take]
  omega

theorem rwVerify_cut (h0 : 0 ≤ pos) (h1 : pos < p.length) :
    rwVerify (p.length - pos).toNat (pos + p.begin) = true := by
  have hbegin := p.lbaBegin.toNat_lt
  have hblocks := p.lbaNoblocks.toNat_lt
  rw [rwVerify_iff]
  simp only [Partition.length,Partition.begin,ideBlocksize] at h1 ⊢
  omega

theorem take_eq_take_of_lt {l : List UInt8} {a b : Nat} (hab : b < a) :
    l.take a = l.take b ↔ l.length ≤ b := by
  rw [List.take_eq_take_iff]
  omega

theorem pread64_cut {img : List UInt8} {len : Nat} (h : Straddles p len pos) :
    pread64 img len (pos + p.begin) = pread64 img (p.length - pos).toNat (pos + p.begin) ↔
      rwVerify len (pos + p.begin) ∧
        (maxRwCount + pos ≤ p.length ∨ img.length ≤ p.begin + p.length) := by
  obtain ⟨h0,h1,h2⟩ := h
  unfold pread64
  rw [if_pos (rwVerify_cut h0 h1)]
  by_cases hv : rwVerify len (pos + p.begin) = true
  · simp only [hv,if_true,Except.ok.injEq,Moved.mk.injEq,true_and]
    rcases le_or_gt (maxRwCount + pos) p.length with hmax | hmax
    · simp only [hmax,true_or,iff_true]
      rw [min_eq_right (by omega),min_eq_right (by omega)]
    · have hcut : min (p.length - pos).toNat maxRwCount = (p.length - pos).toNat := by omega
      rw [hcut,take_eq_take_of_lt (by omega),List.length_drop]
      omega
  · simp [hv]

theorem pwrite64_cut {buf : List UInt8} (h : Straddles p buf.length pos) :
    pwrite64 buf (pos + p.begin) =
        pwrite64 (buf.take (p.length - pos).toNat) (pos + p.begin) ↔
      rwVerify buf.length (pos + p.begin) ∧ maxRwCount + pos ≤ p.length := by
  obtain ⟨h0,h1,h2⟩ := h
  have hlen : (buf.take (p.length - pos).toNat).length = (p.length - pos).toNat := by
    rw [List.length_take]
    omega
  unfold pwrite64
  rw [hlen,if_pos (rwVerify_cut h0 h1)]
  by_cases hv : rwVerify buf.length (pos + p.begin) = true
  · simp only [hv,if_true,Except.ok.injEq,Moved.mk.injEq,true_and,List.take_take]
    rcases le_or_gt (maxRwCount + pos) p.length with hmax | hmax
    · simp only [hmax,iff_true]
      rw [min_eq_left (by omega)]
    · rw [min_eq_right (by omega),take_eq_take_of_lt (by omega)]
      omega
  · simp [hv]

theorem pread64_none (p : Partition) (img : List UInt8) (len : Nat) (pos : Int) :
    (∀ x, pread64 img len (pos + p.begin) = .ok x → x.bytes = []) ↔
      rwVerify len (pos + p.begin) = false ∨ len = 0 ∨ img.length ≤ pos + p.begin := by
  unfold pread64
  by_cases hv : rwVerify len (pos + p.begin) = true
  · have hstart := (rwVerify_iff.mp hv).1
    have hmax : maxRwCount ≠ 0 := by decide
    simp only [hv,if_true,Except.ok.injEq,forall_eq',List.take_eq_nil_iff,List.drop_eq_nil_iff,
      Bool.true_eq_false,false_or]
    omega
  · simp [hv]

theorem pwrite64_none (p : Partition) (buf : List UInt8) (pos : Int) :
    (∀ x, pwrite64 buf (pos + p.begin) = .ok x → x.bytes = []) ↔
      rwVerify buf.length (pos + p.begin) = false ∨ buf.length = 0 := by
  unfold pwrite64
  by_cases hv : rwVerify buf.length (pos + p.begin) = true
  · have hmax : maxRwCount ≠ 0 := by decide
    simp [hv,hmax]
  · simp [hv]

theorem hdmbrRead_starts (img : List UInt8) {m : Mbr} {partno : Nat} (len : Nat)
    (hpart : 0 < partno) (hp : m.partition partno = some p) (hs : p.starts pos = true) :
    hdmbrRead m partno img len pos = pread64 img len (pos + p.begin) := by
  simp [hdmbrRead,hpart.ne',hp,hs]

theorem hdmbrWrite_starts (buf : List UInt8) {m : Mbr} {partno : Nat} (hpart : 0 < partno)
    (hp : m.partition partno = some p) (hs : p.starts pos = true) :
    hdmbrWrite m partno buf pos = pwrite64 buf (pos + p.begin) := by
  simp [hdmbrWrite,hpart.ne',hp,hs]

theorem read_refused (img : List UInt8) {m : Mbr} {partno len : Nat} (hpart : 0 < partno)
    (hp : m.partition partno = some p) (hs : p.starts pos = false) :
    ReadConfined m partno p img len pos := by
  have hread : hdmbrRead m partno img len pos = .ok .none := by
    simp [hdmbrRead,hpart.ne',hp,hs]
  unfold ReadConfined
  rw [hread]
  refine confined_of_none (fun x hx => ?_) fun hstr => ?_
  · obtain rfl := Except.ok.inj hx
    rfl
  · rw [straddles_starts hstr] at hs
    cases hs

theorem write_refused (buf : List UInt8) {m : Mbr} {partno : Nat} (hpart : 0 < partno)
    (hp : m.partition partno = some p) (hs : p.starts pos = false) :
    WriteConfined m partno p buf pos := by
  have hwrite : hdmbrWrite m partno buf pos = .error .einval := by
    simp [hdmbrWrite,hpart.ne',hp,hs]
  unfold WriteConfined
  rw [hwrite]
  refine confined_of_none (fun x hx => by cases hx) fun hstr => ?_
  rw [straddles_starts hstr] at hs
  cases hs

end Calls

theorem partition_confined_iff (m : Mbr) (partno : Nat) (hpart : 0 < partno) (p : Partition)
    (hp : m.partition partno = some p) (pos : Int) :
    (∀ img len, ReadConfined m partno p img len pos ↔ ReadSafe p img len pos) ∧
      ∀ buf, WriteConfined m partno p buf pos ↔ WriteSafe p buf.length pos := by
  constructor
  · intro img len
    rcases Bool.eq_false_or_eq_true (p.starts pos) with hs | hs
    · unfold ReadConfined ReadSafe
      rw [hdmbrRead_starts img len hpart hp hs,confined_iff (pread64_transfers p img len pos) (pread64_transfers p img _ pos)
        pread64_cut (pread64_none p img len pos)]
      simp [hs]
    · exact iff_of_true (read_refused img hpart hp hs) (Or.inl hs)
  · intro buf
    rcases Bool.eq_false_or_eq_true (p.starts pos) with hs | hs
    · unfold WriteConfined WriteSafe
      rw [hdmbrWrite_starts buf hpart hp hs,confined_iff (pwrite64_transfers p buf pos le_rfl)
        (pwrite64_transfers p _ pos (List.length_take_le _ _)) pwrite64_cut (pwrite64_none p buf pos)]
      simp [hs]
    · exact iff_of_true (write_refused buf hpart hp hs) (Or.inl hs)

def smallPart : Partition := ⟨0, 0x83, 1, 2⟩

def smallDisk : Mbr := ⟨2048, ⟨255, 63, 0⟩, fun k => if k.val = 0 then some smallPart else none⟩

def smallImage : List UInt8 := List.replicate 2048 7

theorem smallDisk_confined : ReadConfined smallDisk 1 smallPart smallImage 24 1000 ∧
    WriteConfined smallDisk 1 smallPart [1, 2, 3] 1021 := by
  have h := partition_confined_iff smallDisk 1 (by decide) smallPart (by rfl)
  constructor
  · exact ((h 1000).1 smallImage 24).mpr (Or.inr (Or.inl (by unfold Inside; decide)))
  · exact ((h 1021).2 [1,2,3]).mpr (Or.inr (Or.inl (by unfold Inside; decide)))

theorem next_block_read : ¬ ReadConfined smallDisk 1 smallPart smallImage 30 1000 ∧
    ¬ WriteConfined smallDisk 1 smallPart [1, 2, 3] 1024 := by
  constructor
  · have hread : ∀ img : List UInt8, img.length = 2048 →
        ¬ ReadConfined smallDisk 1 smallPart img 30 1000 := by
      intro img hlen h
      have hstr : Straddles smallPart 30 1000 := by unfold Straddles; decide
      have hcut := h.shortened hstr
      rw [hdmbrRead_starts img 30 (by decide) (p := smallPart) rfl (straddles_starts hstr)] at hcut
      rcases (pread64_cut hstr).mp hcut with ⟨-,hmax | himg⟩
      · exact absurd hmax (by decide +kernel)
      · rw [hlen] at himg
        exact absurd himg (by decide +kernel)
    exact hread smallImage List.length_replicate
  · intro h
    have hnone := h.nothing (by decide) ⟨1536,[1,2,3]⟩ (by decide)
    exact absurd hnone (by decide)

end ViewOS.Umdevmbr
