import ViewOS.Lwip.Frag6

namespace ViewOS.Lwip

def fillIndices (off fin : Nat) : List Nat :=
  off / 64 :: (List.range' (1 + off / 64) (fin / 64 - (1 + off / 64)) ++ [fin / 64])

def markIndices (off fin : Nat) : List Nat :=
  if off / 64 = fin / 64 then [off / 64] else fillIndices off fin

-- The scan reads up to the first byte that is not full; past the array it is not followed.
def scanIndices (size tested last : Nat) (bit : Bitmap) : List Nat :=
  match (List.range (min tested size)).find? (bit · ≠ 0xff) with
  | some i => List.range (i + 1)
  | none => if size < tested then List.range (size + 1) else List.range tested ++ [last]

def testIndices (bit : Bitmap) (len : Nat) : List Nat :=
  scanIndices ip4ReassBitmapSize (testedBytes len) (len / 64) bit

-- One fragment: head bytes are copied and marked when an entry is opened, len bytes go to offset;
-- bit is the bitmap after the marking, total the length of the packet once it is known.
structure InBounds (head offset len : Nat) (bit : Bitmap) (total : Option Nat) : Prop where
  opening : head ≤ ipReassBufsize ∧ ∀ i ∈ fillIndices 0 head, i < ip4ReassBitmapSize
  copy : offset + len % 65536 ≤ ipReassBufsize
  mark : ∀ i ∈ markIndices offset ((offset + len) % 4294967296), i < ip4ReassBitmapSize
  test : ∀ t ∈ total, ∀ i ∈ testIndices bit t, i < ip4ReassBitmapSize

def Entry.total (e : Entry) : Option Nat := if e.lastfrag then some e.len else none

def Entry6.total (e : Entry6) : Option Nat := if e.lastfrag then some e.len else none

def InBounds4 (e : Entry) (hdr : Ip4Hdr) (bytes : List UInt8) : Prop :=
  InBounds ip4Hlen (fragOffset hdr) (fragLen hdr) (storeBytes e hdr bytes).bitmap
    (storeBytes e hdr bytes).total

def InBounds6 (e : Entry6) (f : Fragment6) (bytes : List UInt8) : Prop :=
  InBounds f.unfragpartLen (fragOffset6 f) (fragLen6 f) (storeBytes6 e f bytes).bitmap
    (storeBytes6 e f bytes).total

-- The last byte that is looked at is in the array, or a unit that neither the entry nor the
-- fragment has marked stops the scan before.
def ScanStops (bit : Bitmap) (offset len t : Nat) : Prop :=
  testedBytes t ≤ ip4ReassBitmapSize ∧ t / 64 < ip4ReassBitmapSize ∨
    ∃ u, u / 8 < testedBytes t ∧ u / 8 < ip4ReassBitmapSize ∧ ¬ bit.Marked u ∧
      ¬ (offset / 8 ≤ u ∧ u < (offset + len) / 8)

def Fits (bit : Bitmap) (offset len : Nat) (total : Option Nat) : Prop :=
  offset + len < ip4ReassBitmapSize * 64 ∧ ∀ t ∈ total, ScanStops bit offset len t

theorem fillIndices_lt {off fin : Nat} (h : off ≤ fin) :
    (∀ i ∈ fillIndices off fin, i < ip4ReassBitmapSize) ↔ fin / 64 < ip4ReassBitmapSize := by
  have hdiv : off / 64 ≤ fin / 64 := Nat.div_le_div_right h
  simp only [fillIndices,List.forall_mem_cons,List.forall_mem_append,List.mem_range'_1,
    List.mem_singleton,forall_eq]
  constructor
  · rintro ⟨-,-,hfin⟩
    exact hfin
  · intro hfin
    exact ⟨by omega,fun i hi => by omega,hfin⟩

theorem markIndices_lt {off fin : Nat} (h : off ≤ fin) :
    (∀ i ∈ markIndices off fin, i < ip4ReassBitmapSize) ↔ fin / 64 < ip4ReassBitmapSize := by
  rw [markIndices]
  split_ifs with heq
  · simp [heq]
  · exact fillIndices_lt h

theorem scanIndices_lt (size tested last : Nat) (bit : Bitmap) :
    (∀ i ∈ scanIndices size tested last bit, i < size) ↔
      tested ≤ size ∧ last < size ∨ ∃ i < min tested size, bit i ≠ 0xff := by
  rw [scanIndices]
  split
  next i hfind =>
    have hmem := List.mem_range.mp (List.mem_of_find?_eq_some hfind)
    have hgap : bit i ≠ 0xff := by simpa using List.find?_some hfind
    refine iff_of_true (fun j hj => ?_) (Or.inr ⟨i,hmem,hgap⟩)
    rw [List.mem_range] at hj
    omega
  next hfind =>
    have hfull : ¬ ∃ i < min tested size, bit i ≠ 0xff := by
      rintro ⟨i,hi,hgap⟩
      exact absurd (decide_eq_true hgap) (List.find?_eq_none.mp hfind i (List.mem_range.mpr hi))
    rw [or_iff_left hfull]
    split_ifs with hbig
    · refine iff_of_false (fun h => ?_) (fun h => absurd h.1 (Nat.not_le.mpr hbig))
      exact Nat.lt_irrefl size (h size List.self_mem_range_succ)
    · simp only [List.forall_mem_append,List.mem_range,List.mem_singleton,forall_eq]
      exact and_congr ⟨fun _ => Nat.le_of_not_lt hbig,fun hle i hi => by omega⟩ Iff.rfl

theorem scanStops_iff (bit : Bitmap) (offset len t : Nat) :
    (∀ i ∈ testIndices (updateBitmap bit offset len) t, i < ip4ReassBitmapSize) ↔
      ScanStops bit offset len t := by
  rw [testIndices,scanIndices_lt,ScanStops]
  apply or_congr_right
  constructor
  · rintro ⟨i,hi,hgap⟩
    rw [Ne,full_iff] at hgap
    obtain ⟨u,hu,hmark⟩ : ∃ u, u / 8 = i ∧ ¬ (updateBitmap bit offset len).Marked u := by
      simpa using hgap
    rw [marked_updateBitmap,not_or] at hmark
    exact ⟨u,by omega,by omega,hmark⟩
  · rintro ⟨u,htested,hsize,hmark⟩
    refine ⟨u / 8,by omega,fun hfull => ?_⟩
    have := full_iff.mp hfull u rfl
    rw [marked_updateBitmap] at this
    exact (not_or.mpr hmark) this

theorem inBounds_iff {head offset len : Nat} (bit : Bitmap) (total : Option Nat)
    (hhead : head ≤ offset) (hoff : offset ≤ ipReassBufsize) (hlen : len < 4294967296)
    (hacc : (offset + len) % 4294967296 ≤ ipReassBufsize) :
    InBounds head offset len (updateBitmap bit offset len) total ↔ Fits bit offset len total := by
  have htests : (∀ t ∈ total, ∀ i ∈ testIndices (updateBitmap bit offset len) t,
      i < ip4ReassBitmapSize) ↔ ∀ t ∈ total, ScanStops bit offset len t :=
    forall₂_congr fun t _ => scanStops_iff bit offset len t
  have hsize : ip4ReassBitmapSize = 1023 := rfl
  rw [ipReassBufsize] at hoff hacc
  constructor
  · intro h
    have hcopy := h.copy
    rw [ipReassBufsize] at hcopy
    -- A length that wraps round is a copy of nearly 65536 bytes.
    have hnowrap : offset + len < 4294967296 := by omega
    rw [Nat.mod_eq_of_lt hnowrap] at hacc
    have hmark := h.mark
    rw [Nat.mod_eq_of_lt hnowrap,markIndices_lt (by omega)] at hmark
    exact ⟨by omega,htests.mp h.test⟩
  · rintro ⟨hfits,hstop⟩
    have hnowrap : (offset + len) % 4294967296 = offset + len := Nat.mod_eq_of_lt (by omega)
    refine ⟨⟨by rw [ipReassBufsize]; omega,?_⟩,by rw [ipReassBufsize]; omega,?_,htests.mpr hstop⟩
    · rw [fillIndices_lt (Nat.zero_le _)]
      omega
    · rw [hnowrap,markIndices_lt (by omega)]
      omega

def totalAfter (last lastfrag : Bool) (fin len : Nat) : Option Nat :=
  if last then some fin else if lastfrag then some len else none

theorem storeBytes_total (e : Entry) (hdr : Ip4Hdr) (bytes : List UInt8) :
    (storeBytes e hdr bytes).total =
      totalAfter (!moreFragments hdr) e.lastfrag (fragOffset hdr + fragLen hdr) e.len := by
  rw [storeBytes,totalAfter]
  cases moreFragments hdr <;> rfl

theorem storeBytes6_total (e : Entry6) (f : Fragment6) (bytes : List UInt8) :
    (storeBytes6 e f bytes).total =
      totalAfter (f.ext.m = 0) e.lastfrag (fragOffset6 f + fragLen6 f) e.len := by
  rw [storeBytes6,totalAfter]
  by_cases hm : f.ext.m = 0
  · rw [if_pos hm,if_pos (decide_eq_true hm)]
    rfl
  · rw [if_neg hm,if_neg (by simpa using hm)]
    rfl

theorem storeBytes6_bitmap (e : Entry6) (f : Fragment6) (bytes : List UInt8) :
    (storeBytes6 e f bytes).bitmap = updateBitmap e.bitmap (fragOffset6 f) (fragLen6 f) := by
  rw [storeBytes6]
  split_ifs <;> rfl

theorem reass_in_bounds_iff (e : Entry) (hdr : Ip4Hdr) (e6 : Entry6) (f : Fragment6)
    (bytes : List UInt8) :
    (outside hdr = false →
      (InBounds4 e hdr bytes ↔ Fits e.bitmap (fragOffset hdr) (fragLen hdr)
        (totalAfter (!moreFragments hdr) e.lastfrag (fragOffset hdr + fragLen hdr) e.len))) ∧
    (outside6 f = false →
      (InBounds6 e6 f bytes ↔ Fits e6.bitmap (fragOffset6 f) (fragLen6 f)
        (totalAfter (f.ext.m = 0) e6.lastfrag (fragOffset6 f + fragLen6 f) e6.len))) := by
  constructor
  · intro hacc
    rw [outside,decide_eq_false_iff_not,not_or,Nat.not_lt,Nat.not_lt] at hacc
    rw [InBounds4,storeBytes_bitmap,storeBytes_total]
    exact inBounds_iff _ _ (Nat.le_add_right _ _) hacc.1 (Nat.mod_lt _ (by decide)) hacc.2
  · intro hacc
    rw [outside6,decide_eq_false_iff_not,not_or,Nat.not_lt,Nat.not_lt] at hacc
    rw [InBounds6,storeBytes6_bitmap,storeBytes6_total]
    exact inBounds_iff _ _ (Nat.le_add_right _ _) hacc.1 (Nat.mod_lt _ (by decide)) hacc.2

def lowHdr : Ip4Hdr := ⟨0x4500, 28, 1, 0x2000, 0x4011, 0, 1, 2⟩

def highHdr : Ip4Hdr := ⟨0x4500, 23, 1, 0x3ffd, 0x4011, 0, 1, 2⟩

def freshEntry (hdr : Ip4Hdr) : Entry :=
  openEntry ⟨0, 0, 0, false, false, 0, hdr, fun _ => 0, fun _ => 0⟩ hdr

def lowFrag : Fragment6 := fragHdr6 ⟨0x6000, 0, 0, 0x2c40, ipAddrAny, ipAddrAny⟩ 17 1 0 8 false []

def freshEntry6 (f : Fragment6) : Entry6 :=
  openEntry6 ⟨0, 0, 0, false, false, 0, f.hdr, fun _ => 0, fun _ => 0⟩ f

-- The last fragment is there and ends past the bitmap; the scan stops at the first gap.
def knownEntry : Entry := { freshEntry lowHdr with lastfrag := true, len := 65500 }

def knownEntry6 : Entry6 := { freshEntry6 lowFrag with lastfrag := true, len := 65500 }

theorem lowHdr_in_bounds : InBounds4 knownEntry lowHdr [] ∧ InBounds6 knownEntry6 lowFrag [] := by
  have h := reass_in_bounds_iff knownEntry lowHdr knownEntry6 lowFrag []
  refine ⟨(h.1 (by decide)).mpr ⟨by decide,fun t ht => ?_⟩,
    (h.2 (by decide)).mpr ⟨by decide,fun t ht => ?_⟩⟩
  · obtain rfl : 65500 = t := Option.some.inj ht
    exact Or.inr ⟨8,by decide,by decide,by decide,by decide⟩
  · obtain rfl : 65500 = t := Option.some.inj ht
    exact Or.inr ⟨8,by decide,by decide,by decide,by decide⟩

theorem highHdr_marks_past_the_bitmap :
    ¬ ((∀ (e : Entry) (hdr : Ip4Hdr) (bytes : List UInt8), outside hdr = false →
        InBounds4 e hdr bytes) ∧
      ∀ (e : Entry6) (f : Fragment6) (bytes : List UInt8), outside6 f = false →
        InBounds6 e f bytes) := by
  rintro ⟨h,-⟩
  have hmark := (h (freshEntry highHdr) highHdr [] (by decide)).mark 1023 (by decide +kernel)
  exact absurd hmark (by decide)

end ViewOS.Lwip
