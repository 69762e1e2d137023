import ViewOS.Lwip.Reass

namespace ViewOS.Lwip

def Pbuf4.piece (p : Pbuf4) : List UInt8 := (p.bytes.drop (p.hdr.hl * 4)).take (fragLen p.hdr)

def Pbuf4.byteAt (p : Pbuf4) (j : Nat) : Option UInt8 :=
  if fragStart p.hdr ≤ j then p.piece[j - fragStart p.hdr]? else none

def fragEnd (hdr : Ip4Hdr) : Nat := fragOffset hdr + fragLen hdr

def Covered (log : List Pbuf4) (j : Nat) : Prop := ∃ g ∈ log, (g.byteAt j).isSome = true

instance {log : List Pbuf4} {j : Nat} : Decidable (Covered log j) :=
  inferInstanceAs (Decidable (∃ g ∈ log, (g.byteAt j).isSome = true))

structure Tracks (e : Entry) (log : List Pbuf4) : Prop where
  id : e.id = e.hdr.id.toNat
  key : ∀ g ∈ log, entryMatches e g.hdr = true
  held : ∀ g ∈ log, g.piece.length = fragLen g.hdr
  marked : ∀ u, e.bitmap.Marked u ↔
    u < 8 ∨ ∃ g ∈ log, fragOffset g.hdr / 8 ≤ u ∧ u < fragEnd g.hdr / 8
  data : ∀ j b, log.findSome? (fun g => g.byteAt j) = some b → e.data j = b
  last : e.lastfrag = true → ∃ g ∈ log, moreFragments g.hdr = false ∧ e.len = fragEnd g.hdr
  unknown : e.lastfrag = false → ∀ g ∈ log, moreFragments g.hdr = true

theorem storeFragment_eq_some {e e' : Entry} {p : Pbuf4} (h : storeFragment e p = some e') :
    p.piece.length = fragLen p.hdr ∧ fragEnd p.hdr / 64 < ip4ReassBitmapSize ∧
      e' = storeBytes e p.hdr p.piece := by
  obtain ⟨r,hr,he⟩ := Option.bind_eq_some_iff.mp h
  obtain ⟨hlen,hdata⟩ := copyFromPbuf_eq_some hr
  split_ifs at he with hout
  rw [not_or,Nat.not_lt,Nat.not_le] at hout
  have hmod : fragLen p.hdr % 65536 = fragLen p.hdr := by
    rw [ip4ReassBitmapSize,ipReassBufsize] at hout
    omega
  rw [p.chain_flatten,hmod] at hlen hdata
  have hpiece : r.data = p.piece := hdata
  refine ⟨?_,hout.2,?_⟩
  · rw [Pbuf4.piece,List.length_take,Nat.min_eq_left hlen]
  · rw [← Option.some.inj he,hpiece]

section Entries

variable {e : Entry} {p : Pbuf4} {hdr : Ip4Hdr} {bytes : List UInt8} {log : List Pbuf4}

theorem storeBytes_id : (storeBytes e hdr bytes).id = e.id := by
  rw [storeBytes]
  split_ifs <;> rfl

theorem storeBytes_hdr : (storeBytes e hdr bytes).hdr = e.hdr := by
  rw [storeBytes]
  split_ifs <;> rfl

theorem storeBytes_data : (storeBytes e hdr bytes).data = overwrite e.data (fragStart hdr) bytes := by
  rw [storeBytes]
  split_ifs <;> rfl

theorem storeBytes_more (h : moreFragments hdr = true) :
    (storeBytes e hdr bytes).lastfrag = e.lastfrag ∧ (storeBytes e hdr bytes).len = e.len := by
  rw [storeBytes,if_pos h]
  exact ⟨rfl,rfl⟩

theorem storeBytes_last (h : moreFragments hdr = false) :
    (storeBytes e hdr bytes).lastfrag = true ∧ (storeBytes e hdr bytes).len = fragEnd hdr := by
  rw [storeBytes,h,if_neg (by decide)]
  exact ⟨rfl,rfl⟩

theorem entryMatches_storeBytes (hdr' : Ip4Hdr) :
    entryMatches (storeBytes e hdr bytes) hdr' = entryMatches e hdr' := by
  rw [storeBytes]
  split_ifs <;> rfl

theorem overwrite_eq {data : Nat → UInt8} {j : Nat} :
    overwrite data (fragStart p.hdr) p.piece j = (p.byteAt j).getD (data j) := by
  rw [overwrite,Pbuf4.byteAt]
  split_ifs <;> rfl

theorem tracks_openEntry : Tracks (openEntry e hdr) [] where
  id := rfl
  key := by simp
  held := by simp
  marked u := by
    rw [openEntry,marked_fillBitmap_header (by decide)]
    simp
  data := by simp
  last h := by cases h
  unknown := by simp

theorem Tracks.store (h : Tracks e log) (hkey : entryMatches e p.hdr = true)
    (hlen : p.piece.length = fragLen p.hdr) : Tracks (storeBytes e p.hdr p.piece) (p :: log) where
  id := by rw [storeBytes_id,storeBytes_hdr,h.id]
  key := by
    rw [List.forall_mem_cons]
    simp only [entryMatches_storeBytes]
    exact ⟨hkey,h.key⟩
  held := by
    rw [List.forall_mem_cons]
    exact ⟨hlen,h.held⟩
  marked u := by
    rw [storeBytes_bitmap,marked_updateBitmap,h.marked,or_assoc]
    simp only [List.mem_cons,exists_eq_or_imp]
    exact or_congr_right or_comm
  data j b hb := by
    rw [storeBytes_data,overwrite_eq]
    rw [List.findSome?_cons] at hb
    cases hp : p.byteAt j with
    | none =>
      rw [hp] at hb
      exact h.data j b hb
    | some c =>
      rw [hp] at hb
      exact Option.some.inj hb
  last hlast := by
    simp only [List.mem_cons,exists_eq_or_imp]
    cases hm : moreFragments p.hdr with
    | true =>
      rw [(storeBytes_more hm).1] at hlast
      rw [(storeBytes_more hm).2]
      exact .inr (h.last hlast)
    | false => exact .inl ⟨rfl,(storeBytes_last hm).2⟩
  unknown hno := by
    rw [List.forall_mem_cons]
    cases hm : moreFragments p.hdr with
    | true =>
      rw [(storeBytes_more hm).1] at hno
      exact ⟨rfl,h.unknown hno⟩
    | false =>
      rw [(storeBytes_last hm).1] at hno
      cases hno

theorem byteAt_isSome {j : Nat} : (p.byteAt j).isSome = true ↔
    fragStart p.hdr ≤ j ∧ j < fragStart p.hdr + p.piece.length := by
  rw [Pbuf4.byteAt]
  split_ifs with h
  · have hlt : (p.piece[j - fragStart p.hdr]?).isSome = true ↔
        j - fragStart p.hdr < p.piece.length := by simp
    rw [hlt]
    omega
  · simp [h]

theorem Covered.findSome? {j : Nat} (h : Covered log j) :
    ∃ b, log.findSome? (fun g => g.byteAt j) = some b := by
  obtain ⟨g,hg,hj⟩ := h
  exact Option.isSome_iff_exists.mp (List.findSome?_isSome_iff.mpr ⟨g,hg,hj⟩)

theorem Tracks.reassembled_payload (h : Tracks e log) {j : Nat} {b : UInt8}
    (hcov : Covered log j) (hj : (reassembled e).payload[j]? = some b) :
    ∃ g ∈ log, g.byteAt j = some b := by
  obtain ⟨c,hc⟩ := hcov.findSome?
  have hb : e.data j = b := by
    rw [reassembled,List.getElem?_map,Option.map_eq_some_iff] at hj
    obtain ⟨i,hi,rfl⟩ := hj
    obtain ⟨hlt,rfl⟩ := List.getElem?_eq_some_iff.mp hi
    rw [List.getElem_range]
  rw [← hb,h.data j c hc]
  exact List.exists_of_findSome?_eq_some hc

end Entries

def Untested (len j : Nat) : Prop := (j / 8 + 2) / 8 = 0 ∨ (j / 8 + 2) / 8 + 1 = len / 64

instance {len j : Nat} : Decidable (Untested len j) := inferInstanceAs (Decidable (_ ∨ _))

structure Regular (log : List Pbuf4) : Prop where
  whole : ∀ g ∈ log, moreFragments g.hdr = true → fragLen g.hdr % 8 < 4
  agree : ∀ g ∈ log, ∀ g' ∈ log, moreFragments g.hdr = false → moreFragments g'.hdr = false →
    fragEnd g.hdr = fragEnd g'.hdr

def Filled (log : List Pbuf4) : Prop :=
  ∀ g ∈ log, moreFragments g.hdr = false →
    (∀ j < fragEnd g.hdr - ip4Hlen, ¬ Untested (fragEnd g.hdr) j → Covered log j) →
      ∀ j < fragEnd g.hdr - ip4Hlen, Untested (fragEnd g.hdr) j → Covered log j

instance {log : List Pbuf4} : Decidable (Regular log) :=
  decidable_of_iff
    ((∀ g ∈ log, moreFragments g.hdr = true → fragLen g.hdr % 8 < 4) ∧
      ∀ g ∈ log, ∀ g' ∈ log, moreFragments g.hdr = false → moreFragments g'.hdr = false →
        fragEnd g.hdr = fragEnd g'.hdr)
    ⟨fun h => ⟨h.1, h.2⟩, fun h => ⟨h.whole, h.agree⟩⟩

instance {log : List Pbuf4} : Decidable (Filled log) :=
  inferInstanceAs (Decidable (∀ g ∈ log, _ → _))

section Complete

variable {e : Entry} {log : List Pbuf4}

theorem Tracks.covered_of_marked (h : Tracks e log) (hreg : Regular log) {last : Pbuf4}
    (hlast : last ∈ log) (hmf : moreFragments last.hdr = false) {j : Nat}
    (hj : j < fragEnd last.hdr - ip4Hlen) (hu : 8 ≤ j / 8 + 2)
    (hm : e.bitmap.Marked (j / 8 + 2)) : Covered log j := by
  obtain hlt | ⟨g,hg,hlo,hhi⟩ := (h.marked _).mp hm
  · omega
  have hlen := h.held g hg
  refine ⟨g,hg,byteAt_isSome.mpr ?_⟩
  rw [fragEnd,fragOffset,ip4Hlen] at hhi
  rw [fragOffset,ip4Hlen] at hlo
  have h8 : fragStart g.hdr % 8 = 0 := Nat.mul_mod_left _ _
  cases hg' : moreFragments g.hdr with
  | true =>
    have hwhole := hreg.whole g hg hg'
    omega
  | false =>
    have hagree := hreg.agree g hg last hlast hg' hmf
    rw [fragEnd,fragOffset] at hagree
    omega

theorem Tracks.covered (h : Tracks e log) (hreg : Regular log) (hfill : Filled log)
    (hlast : e.lastfrag = true) (hc : complete e.bitmap e.len = some true) {j : Nat} (hj : j < e.len - ip4Hlen) :
    Covered log j := by
  obtain ⟨last,hmem,hmf,hlen⟩ := h.last hlast
  obtain ⟨h64,hfull,hend⟩ := complete_eq_true hc
  rw [hlen] at hj h64 hfull hend
  have htested : ∀ j < fragEnd last.hdr - ip4Hlen, ¬ Untested (fragEnd last.hdr) j →
      Covered log j := by
    intro j hj hun
    rw [Untested,not_or] at hun
    have hu : 8 ≤ j / 8 + 2 := by omega
    by_cases htail : j / 8 + 2 < fragEnd last.hdr / 8
    · refine h.covered_of_marked hreg hmem hmf hj hu ?_
      by_cases hi : (j / 8 + 2) / 8 + 1 < fragEnd last.hdr / 64
      · exact full_iff.mp (hfull _ hi) _ rfl
      · have hidx : (j / 8 + 2) / 8 = fragEnd last.hdr / 64 := by omega
        rw [(upTo_iff (Nat.mod_lt _ (by decide))).mp hend _ hidx]
        omega
    · refine ⟨last,hmem,byteAt_isSome.mpr ?_⟩
      have h8 : fragStart last.hdr % 8 = 0 := Nat.mul_mod_left _ _
      rw [h.held last hmem]
      rw [fragEnd,fragOffset,ip4Hlen] at hj htail
      omega
  by_cases hun : Untested (fragEnd last.hdr) j
  · exact hfill last hmem hmf htested j hj hun
  · exact htested j hj hun

end Complete

end ViewOS.Lwip
