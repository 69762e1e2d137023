import ViewOS.Fat.Table

namespace ViewOS.Fat

namespace Table

def reservedBits : Table → Nat → Nat → Option (BitVec 32)
  | fat32 copies, n, fatNum =>
    copies[fatNum]?.bind fun copy => copy[n]?.map fun entry => entry &&& 0xF0000000
  | _, _, _ => none

-- Only FAT32 has copies; the tables of the other types are in memory.
def HasCopy : Table → Nat → Prop
  | fat32 copies, fatNum => fatNum < copies.length
  | _, _ => True

def EntryLaw (l : Layout) (t : Table) (n val : Nat) : Prop :=
  ∃ t', t.fatWritenEntry l n val = some t' ∧ ∀ k, t.HasCopy k →
    t'.fatReadEntry l n k = some (val % 2 ^ t.type.bits) ∧
    (∀ m ≠ n, t'.fatReadEntry l m k = t.fatReadEntry l m k) ∧
    t'.reservedBits n k = t.reservedBits n k

def EntryOk (l : Layout) (t : Table) (n : Nat) : Prop :=
  ∀ k, t.HasCopy k → ∀ bits, t.reservedBits n k = some bits →
    bits = 0 ∧ seekOk (fat32ClusterOff l n k) = true

variable {l : Layout} {t t' : Table} {n size val k : Nat}

theorem reserved_write (v entry : BitVec 32) :
    (v &&& 0x0FFFFFFF ||| (entry &&& 0x0FFFFFFF) &&& 0xF0000000) &&& 0xF0000000 = 0 := by
  rw [BitVec.and_assoc entry]
  change (_ ||| entry &&& 0#32) &&& _ = _
  rw [BitVec.and_zero,BitVec.or_zero,BitVec.and_assoc]
  exact BitVec.and_zero

section Fat32

variable {copies copies' : List (List (BitVec 32))} {copy : List (BitVec 32)}

theorem fat32_copy {entry : BitVec 32}
    (h : (copies.mapM fun copy => fat32WriteEntry copy n (.ofNat 32 val)) = some copies') (hk : copies[k]? = some copy)
    (hentry : copy[n]? = some entry) : copies'[k]? = some (copy.set n
      (.ofNat 32 val &&& 0x0FFFFFFF ||| (entry &&& 0x0FFFFFFF) &&& 0xF0000000)) := by
  rw [mapM_getElem? h k,hk,Option.bind_some,fat32WriteEntry,hentry,Option.map_some]

theorem Covers.entry (hc : (fat32 copies).Covers size) (hn : n < size) (hk : k < copies.length) :
    ∃ copy entry, copies[k]? = some copy ∧ copy[n]? = some entry := by
  have hcopy := List.getElem?_eq_getElem hk
  have hlen := hc.2 _ (List.mem_of_getElem? hcopy)
  exact ⟨_,_,hcopy,List.getElem?_eq_getElem (by omega)⟩

theorem EntryOk.entry {entry : BitVec 32} (hok : EntryOk l (fat32 copies) n)
    (hcopy : copies[k]? = some copy) (hentry : copy[n]? = some entry) :
    entry &&& 0xF0000000 = 0 ∧ seekOk (fat32ClusterOff l n k) = true := by
  apply hok k (List.getElem?_eq_some_iff.mp hcopy).1
  rw [reservedBits,hcopy,Option.bind_some,hentry,Option.map_some]

theorem EntryLaw.ok (hc : (fat32 copies).Covers size) (hn : n < size)
    (hlaw : EntryLaw l (fat32 copies) n val) : EntryOk l (fat32 copies) n := by
  obtain ⟨t',hw,hlaw⟩ := hlaw
  intro k hk bits hbits
  obtain ⟨copies',hcopies,rfl⟩ := Option.map_eq_some_iff.mp hw
  rw [fat32WritenEntry] at hcopies
  split_ifs at hcopies with hseek
  obtain ⟨copy,entry,hcopy,hentry⟩ := hc.entry hn hk
  have hres := (hlaw k hk).2.2
  rw [hbits,reservedBits,fat32_copy hcopies hcopy hentry,Option.bind_some,
    List.getElem?_set_self (List.getElem?_eq_some_iff.mp hentry).1,Option.map_some,
    reserved_write] at hres
  exact ⟨(Option.some.inj hres).symm,hseek k hk⟩

theorem EntryOk.law (hc : (fat32 copies).Covers size) (hn : n < size)
    (hok : EntryOk l (fat32 copies) n) : EntryLaw l (fat32 copies) n val := by
  have hseek : ∀ i < copies.length, seekOk (fat32ClusterOff l n i) = true := by
    intro i hi
    obtain ⟨copy,entry,hcopy,hentry⟩ := hc.entry hn hi
    exact (hok.entry hcopy hentry).2
  have hwrite : ∀ copy ∈ copies, (fat32WriteEntry copy n (.ofNat 32 val)).isSome = true := by
    intro copy hcopy
    rw [fat32WriteEntry,List.getElem?_eq_getElem (Nat.lt_of_lt_of_le hn (hc.2 copy hcopy))]
    rfl
  obtain ⟨copies',hcopies⟩ := mapM_isSome hwrite
  refine ⟨_,by rw [fatWritenEntry,fat32WritenEntry,if_pos hseek,hcopies]; rfl,?_⟩
  intro k hk
  obtain ⟨copy,entry,hcopy,hentry⟩ := hc.entry hn hk
  have hnew := fat32_copy hcopies hcopy hentry
  have hlt := (List.getElem?_eq_some_iff.mp hentry).1
  refine ⟨?_,fun m hm => ?_,?_⟩
  · rw [fatReadEntry,fat32ReadEntry,if_pos (hseek k hk),hnew,Option.bind_some,List.getElem?_set_self hlt,
      Option.map_some,toNat_and_entry]
    rfl
  · rw [fatReadEntry,fatReadEntry,fat32ReadEntry,fat32ReadEntry,hnew,hcopy,Option.bind_some,Option.bind_some,
      List.getElem?_set_ne hm.symm]
  · rw [reservedBits,reservedBits,hnew,hcopy,Option.bind_some,Option.bind_some,
      List.getElem?_set_self hlt,hentry,Option.map_some,Option.map_some,reserved_write,
      (hok.entry hcopy hentry).1]

end Fat32

theorem fatWritenEntry_law_iff (l : Layout) (t : Table) (size : Nat) (hc : t.Covers size) (n : Nat)
    (hn : n < size) (val : Nat) : EntryLaw l t n val ↔ EntryOk l t n := by
  cases t with
  | fat12 bytes =>
    refine iff_of_true ?_ (fun _ _ _ hbits => nomatch hbits)
    have hlt := hc n hn
    obtain ⟨bytes',hb⟩ : ∃ bytes', fat12WriteEntry bytes n (.ofNat 16 val) = some bytes' := by
      rw [fat12WriteEntry,List.getElem?_eq_getElem (by omega),List.getElem?_eq_getElem hlt]
      exact ⟨_,rfl⟩
    have hread := fat12_read_write hb
    exact ⟨fat12 bytes',congrArg (Option.map fat12) hb,fun k _ => ⟨(hread n).trans (if_pos rfl),
      fun m hm => (hread m).trans (if_neg hm),rfl⟩⟩
  | fat16 words =>
    refine iff_of_true ?_ (fun _ _ _ hbits => nomatch hbits)
    have hw : fat16WriteEntry words n (.ofNat 16 val) = some (words.set n (.ofNat 16 val)) :=
      if_pos (Nat.lt_of_lt_of_le hn hc)
    have hread := fat16_read_write hw
    exact ⟨_,congrArg (Option.map fat16) hw,fun k _ => ⟨(hread n).trans (if_pos rfl),
      fun m hm => (hread m).trans (if_neg hm),rfl⟩⟩
  | fat32 copies => exact ⟨EntryLaw.ok hc hn,EntryOk.law hc hn⟩

theorem fatWritenEntry_law_clear : (fat32 [[0, 0, 5], [0, 0, 7]]).Covers 3 ∧
    (EntryLaw ⟨16384, 512⟩ (fat32 [[0, 0, 5], [0, 0, 7]]) 2 9 ↔
      EntryOk ⟨16384, 512⟩ (fat32 [[0, 0, 5], [0, 0, 7]]) 2) :=
  ⟨by decide,fatWritenEntry_law_iff _ _ 3 (by decide) 2 (by decide) 9⟩

theorem fatWritenEntry_reserved_lost : ¬∀ (l : Layout) (t : Table) (size : Nat), t.Covers size →
    ∀ n < size, ∀ val, EntryLaw l t n val := by
  intro hall
  have hc : (fat32 [[0, 0, 0x10000005]]).Covers 3 := by decide
  have hlaw := hall ⟨16384, 512⟩ _ 3 hc 2 (by decide) 9
  have hok := EntryLaw.ok hc (by decide) hlaw 0 (Nat.zero_lt_one) 0x10000000 rfl
  exact absurd hok.1 (by decide)

end Table

end ViewOS.Fat
