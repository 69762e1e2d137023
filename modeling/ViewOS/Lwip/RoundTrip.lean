import ViewOS.Lib.Run
import ViewOS.Lwip.Frag
import ViewOS.Lwip.Received

namespace ViewOS.Lwip

open Transition

structure Built (p : Pbuf4) : Prop where
  hl : p.hdr.hl = 5
  len : p.hdr.len.toNat = p.totLen
  offset : p.hdr.offset = ipDf

structure Carries (q : Pbuf4) (f : Fragment) : Prop where
  hdr : q.hdr = f.hdr
  payload : q.payload = f.data ++ f.pad

def Idle (pool : Pool) : Prop := ∀ pos, entryEmpty (pool pos) = true

def offerAll : Pool → List Pbuf4 → Option (Pool × List (Option Reassembled)) :=
  feed (ip4Reass true)

structure Offers (fs : List Fragment) (last : Fragment) (others : List Pbuf4) (final : Pbuf4) :
    Prop where
  only : ∀ q ∈ others, ∃ f ∈ fs, Carries q f
  every : ∀ f ∈ fs, ∃ q ∈ others, Carries q f
  final : Carries final last

structure Restores (p : Pbuf4) (q : Reassembled) : Prop where
  payload : q.payload = p.payload
  src : q.hdr.src = p.hdr.src
  dest : q.hdr.dest = p.hdr.dest
  proto : q.hdr.proto = p.hdr.proto
  id : q.hdr.id = p.hdr.id
  len : q.hdr.len.toNat = p.totLen
  offset : q.hdr.offset = 0
  chksum : inetChksum .big q.hdr.bytes = 0

section Headers

variable {hdr : Ip4Hdr} {ofo cop : Nat} {last : Bool}

theorem fragHdr_offset : (fragHdr hdr 0 ofo cop last).offset =
    (ipOffmask &&& BitVec.ofNat 16 ofo) ||| (if last then 0 else ipMf) := by
  cases last <;> simp [fragHdr,Ip4Hdr.summed]

theorem fragHdr_offset_and (m : BitVec 16) : (fragHdr hdr 0 ofo cop last).offset &&& m =
    ((ipOffmask &&& m) &&& BitVec.ofNat 16 ofo) ||| ((if last then 0 else ipMf) &&& m) := by
  rw [fragHdr_offset,BitVec.and_comm,BitVec.and_or_distrib_left,← BitVec.and_assoc,
    BitVec.and_comm m ipOffmask,BitVec.and_comm m]

theorem fragHdr_start (h : ofo < 8192) : fragStart (fragHdr hdr 0 ofo cop last) = ofo * 8 := by
  have hoff : (fragHdr hdr 0 ofo cop last).offset &&& ipOffmask =
      ipOffmask &&& BitVec.ofNat 16 ofo := by
    rw [fragHdr_offset_and,BitVec.and_self]
    cases last <;> exact BitVec.or_zero
  rw [fragStart,hoff,BitVec.toNat_and,BitVec.toNat_ofNat,Nat.and_comm,
    show ipOffmask.toNat = 2 ^ 13 - 1 from rfl,Nat.and_two_pow_sub_one_eq_mod]
  omega

theorem fragHdr_more : moreFragments (fragHdr hdr 0 ofo cop last) = !last := by
  have hmf : (fragHdr hdr 0 ofo cop last).offset &&& ipMf = if last then 0 else ipMf := by
    rw [fragHdr_offset_and,show ipOffmask &&& ipMf = 0#16 from rfl,BitVec.zero_and,BitVec.zero_or]
    cases last <;> rfl
  rw [moreFragments,hmf]
  cases last <;> rfl

theorem fragHdr_len (hhl : hdr.hl = 5) (h : cop + ip4Hlen < 65536) :
    fragLen (fragHdr hdr 0 ofo cop last) = cop := by
  have hl : (fragHdr hdr 0 ofo cop last).hl = 5 := hhl
  have hlen : (fragHdr hdr 0 ofo cop last).len.toNat = cop + ip4Hlen := by
    show (BitVec.ofNat 16 (cop + ip4Hlen)).toNat = _
    rw [BitVec.toNat_ofNat,Nat.mod_eq_of_lt h]
  rw [fragLen,hl,hlen,ip4Hlen]
  rw [ip4Hlen] at h
  omega

theorem fragHdr_piece {q : Pbuf4} {data pad : List UInt8} (hhl : hdr.hl = 5)
    (hq : q.hdr = fragHdr hdr 0 ofo data.length last) (hpay : q.payload = data ++ pad)
    (h : data.length + ip4Hlen < 65536) : q.piece = data := by
  have hl : q.hdr.hl = 5 := by rw [hq]; exact hhl
  rw [Pbuf4.piece,hl,Pbuf4.bytes,hpay,show 5 * 4 = ip4Hlen from rfl,
    List.drop_left' q.hdr.bytes_length,hq,fragHdr_len hhl h,List.take_left]

end Headers

structure Alike (h k : Ip4Hdr) : Prop where
  id : h.id = k.id
  ttlProto : h.ttlProto = k.ttlProto
  src : h.src = k.src
  dest : h.dest = k.dest

structure Slice (p q : Pbuf4) : Prop where
  alike : Alike q.hdr p.hdr
  hl : q.hdr.hl = 5
  pos : 0 < fragLen q.hdr
  inside : fragStart q.hdr + fragLen q.hdr ≤ p.payload.length
  held : q.piece.length = fragLen q.hdr
  piece : q.piece = (p.payload.drop (fragStart q.hdr)).take (fragLen q.hdr)

section Slices

variable {p q : Pbuf4} {f : Fragment} {mtu start : Nat}

theorem alike_fragHdr {hdr : Ip4Hdr} {ofo cop : Nat} {last : Bool} :
    Alike (fragHdr hdr 0 ofo cop last) hdr := ⟨rfl,rfl,rfl,rfl⟩

theorem Carries.slice (hp : Built p) {last : Bool} (hc : Carries q f) (haligned : start % 8 = 0)
    (hhdr : f.hdr = fragHdr p.hdr 0 (start / 8) f.data.length last) (hpos : 0 < f.data.length)
    (hdata : f.data = (p.payload.drop start).take f.data.length)
    (hroom : start + f.data.length ≤ p.payload.length) :
    Slice p q ∧ fragStart q.hdr = start ∧ fragLen q.hdr = f.data.length ∧
      moreFragments q.hdr = !last := by
  have hlt := p.totLen_lt
  rw [Pbuf4.totLen,ip4Hlen] at hlt
  have hq := hc.hdr.trans hhdr
  have hstart : fragStart q.hdr = start := by
    rw [hq,fragHdr_start (by omega)]
    omega
  have hlen : fragLen q.hdr = f.data.length := by
    rw [hq,fragHdr_len hp.hl (by rw [ip4Hlen]; omega)]
  have hpiece : q.piece = f.data :=
    fragHdr_piece hp.hl hq hc.payload (by rw [ip4Hlen]; omega)
  refine ⟨⟨hq ▸ alike_fragHdr,hq ▸ hp.hl,by omega,by omega,by rw [hpiece,hlen],?_⟩,hstart,
    hlen,hq ▸ fragHdr_more⟩
  rw [hpiece,hstart,hlen]
  exact hdata

theorem Carries.middle (hp : Built p) (hmtu : 28 ≤ mtu) (hc : Carries q f)
    (h : Middle p.hdr p.payload mtu f start) :
    Slice p q ∧ fragStart q.hdr = start ∧ fragLen q.hdr = nfbOf mtu * 8 ∧
      moreFragments q.hdr = true := by
  have hroom := h.room
  have hnfb : nfbOf mtu = (mtu - ip4Hlen) / 8 := if_pos (by rw [ip4Hlen]; omega)
  have hlen : f.data.length = nfbOf mtu * 8 := by
    rw [h.data,List.length_take,List.length_drop]
    omega
  rw [ip4Hlen] at hnfb
  have hs := hc.slice hp h.aligned (hlen ▸ h.hdr) (by omega) (hlen ▸ h.data) (by omega)
  rwa [hlen] at hs

theorem Carries.final (hp : Built p) (hc : Carries q f) (h : Final p.hdr p.payload f start) :
    Slice p q ∧ fragStart q.hdr = start ∧ fragEnd q.hdr = p.totLen ∧
      moreFragments q.hdr = false := by
  have hroom := h.room
  have hlen : f.data.length = p.payload.length - start := by rw [h.data,List.length_drop]
  have hdata : f.data = (p.payload.drop start).take f.data.length := by
    rw [hlen,h.data,List.take_of_length_le (by rw [List.length_drop])]
  obtain ⟨hs,hstart,hflen,hmore⟩ :=
    hc.slice hp h.aligned (hlen ▸ h.hdr) (by omega) hdata (by omega)
  refine ⟨hs,hstart,?_,hmore⟩
  rw [fragEnd,fragOffset,hstart,hflen,hlen,Pbuf4.totLen]
  omega

theorem Slice.byteAt (h : Slice p q) {j : Nat} {b : UInt8} (hb : q.byteAt j = some b) :
    p.payload[j]? = some b := by
  rw [Pbuf4.byteAt] at hb
  split_ifs at hb with hj
  rw [h.piece,List.getElem?_take,List.getElem?_drop] at hb
  split_ifs at hb
  rwa [Nat.add_sub_cancel' hj] at hb

theorem Slice.outside (h : Slice p q) : outside q.hdr = false := by
  have hlt := p.totLen_lt
  have hin := h.inside
  rw [Pbuf4.totLen,ip4Hlen] at hlt
  rw [ViewOS.Lwip.outside,decide_eq_false_iff_not,fragOffset,ip4Hlen,ipReassBufsize]
  omega

theorem Slice.storeFragment (h : Slice p q) (hend : fragEnd q.hdr < 65472) (e : Entry) :
    storeFragment e q = some (storeBytes e q.hdr q.piece) := by
  rw [fragEnd] at hend
  have hmod : fragLen q.hdr % 65536 = fragLen q.hdr := by omega
  have hle : fragLen q.hdr ≤ q.payload.length := by
    have hheld := h.held
    rw [Pbuf4.piece,h.hl,Pbuf4.bytes,show 5 * 4 = ip4Hlen from rfl,
      List.drop_left' q.hdr.bytes_length,List.length_take] at hheld
    omega
  obtain ⟨r,hr,-,-⟩ := q.stands.copy h.pos hle
  have hstore : ViewOS.Lwip.storeFragment e q = some (storeBytes e q.hdr r.data) := by
    rw [ViewOS.Lwip.storeFragment,hmod,h.hl,show 5 * 4 = ip4Hlen from rfl,hr,Option.bind_some,if_neg]
    rw [ip4ReassBitmapSize,ipReassBufsize]
    omega
  rw [hstore,(storeFragment_eq_some hstore).2.2]

end Slices

def firstSlot : Fin ipReassPoolSize := ⟨0, by decide⟩

def Ready (p : Pbuf4) (pool : Pool) (log : List Pbuf4) : Prop :=
  ∀ hdr, Alike hdr p.hdr → ∃ e, chooseEntry pool hdr = some (firstSlot, e) ∧ entryMatches e hdr = true ∧
    Tracks e log ∧ e.lastfrag = false ∧ Alike e.hdr p.hdr

section Offering

variable {p q : Pbuf4} {pool : Pool} {log : List Pbuf4}

theorem finRange_firstSlot : ∃ slots, List.finRange ipReassPoolSize = firstSlot :: slots := ⟨_,rfl⟩

theorem chooseEntry_update {e : Entry} {hdr : Ip4Hdr} (h : entryMatches e hdr = true) :
    chooseEntry (Function.update pool firstSlot e) hdr = some (firstSlot, e) := by
  have hfind : (List.finRange ipReassPoolSize).find?
      (fun pos => entryMatches (Function.update pool firstSlot e pos) hdr) = some firstSlot := by
    obtain ⟨slots,hslots⟩ := finRange_firstSlot
    rw [hslots,List.find?_cons,Function.update_self,h]
  rw [chooseEntry,hfind]
  simp only [Function.update_self]

theorem Idle.ready (h : Idle pool) : Ready p pool [] := by
  intro hdr halike
  have hnone : (List.finRange ipReassPoolSize).find?
      (fun pos => entryMatches (pool pos) hdr) = none := by
    rw [List.find?_eq_none]
    intro pos _ hm
    have he := h pos
    rw [entryEmpty,decide_eq_true_iff] at he
    rw [entryMatches,decide_eq_true_iff,he.1] at hm
    exact absurd hm.1 (by decide)
  have hempty : (List.finRange ipReassPoolSize).find? (fun pos => entryEmpty (pool pos)) =
      some firstSlot := by
    obtain ⟨slots,hslots⟩ := finRange_firstSlot
    rw [hslots,List.find?_cons,h firstSlot]
  refine ⟨openEntry (pool firstSlot) hdr,?_,?_,tracks_openEntry,rfl,halike⟩
  · rw [chooseEntry,hnone,hempty]
    rfl
  · simp [entryMatches,openEntry]

theorem Alike.entryMatches {e : Entry} {hdr hdr' : Ip4Hdr} (h : Alike hdr p.hdr)
    (h' : Alike hdr' p.hdr) (hm : entryMatches e hdr = true) : entryMatches e hdr' = true := by
  rw [ViewOS.Lwip.entryMatches,decide_eq_true_iff] at hm ⊢
  rw [h'.id,h'.src,h'.dest,← h.id,← h.src,← h.dest]
  exact hm

theorem Ready.middle (h : Ready p pool log) (hs : Slice p q) (hm : moreFragments q.hdr = true)
    {r : Pool × Option Reassembled} (hr : ip4Reass true pool q = some r) :
    r.2 = none ∧ Ready p r.1 (q :: log) := by
  obtain ⟨e,hc,hkey,htr,hlast,halike⟩ := h q.hdr hs.alike
  rw [ip4Reass,hc] at hr
  obtain ⟨r',hr',rfl⟩ := Option.map_eq_some_iff.mp hr
  rw [receive,hs.outside,if_neg (by decide)] at hr'
  obtain ⟨e',he',hr'⟩ := Option.bind_eq_some_iff.mp hr'
  obtain ⟨-,-,rfl⟩ := storeFragment_eq_some he'
  have hl : (storeBytes e q.hdr q.piece).lastfrag = false := by rw [(storeBytes_more hm).1,hlast]
  rw [hl,if_neg (by decide)] at hr'
  obtain rfl := Option.some.inj hr'
  refine ⟨rfl,fun hdr hhdr => ?_⟩
  have hmatch : ViewOS.Lwip.entryMatches (storeBytes e q.hdr q.piece) hdr = true := by
    rw [entryMatches_storeBytes]
    exact hs.alike.entryMatches hhdr hkey
  refine ⟨_,chooseEntry_update hmatch,hmatch,htr.store hkey hs.held,hl,?_⟩
  rw [storeBytes_hdr]
  exact halike

theorem Ready.middle_some (h : Ready p pool log) (hs : Slice p q) (hm : moreFragments q.hdr = true)
    (hend : fragEnd q.hdr < 65472) : ∃ r, ip4Reass true pool q = some r := by
  obtain ⟨e,hc,-,-,hlast,-⟩ := h q.hdr hs.alike
  have hl : (storeBytes e q.hdr q.piece).lastfrag = false := by rw [(storeBytes_more hm).1,hlast]
  rw [ip4Reass,hc]
  simp only [receive,hs.outside,hs.storeFragment hend,Option.bind_some,hl,Bool.false_eq_true,
    if_false,Option.map_some]
  exact ⟨_,rfl⟩

theorem Ready.offered {others : List Pbuf4} {r : Pool × List (Option Reassembled)}
    (h : Ready p pool log) (hs : ∀ q ∈ others, Slice p q ∧ moreFragments q.hdr = true)
    (hr : offerAll pool others = some r) :
    r.2 = others.map (fun _ => none) ∧ Ready p r.1 (others.reverse ++ log) := by
  induction others generalizing pool log r with
  | nil =>
    obtain rfl := Option.some.inj hr
    exact ⟨rfl,h⟩
  | cons q others ih =>
    rw [List.forall_mem_cons] at hs
    obtain ⟨r1,hr1,hr⟩ := Option.bind_eq_some_iff.mp hr
    obtain ⟨rs,hrs,rfl⟩ := Option.map_eq_some_iff.mp hr
    obtain ⟨hnone,hready⟩ := h.middle hs.1.1 hs.1.2 hr1
    obtain ⟨hall,hready'⟩ := ih hready hs.2 hrs
    refine ⟨by rw [hnone,hall]; rfl,?_⟩
    rw [List.reverse_cons,List.append_assoc]
    exact hready'

theorem Ready.offered_some {others : List Pbuf4} (h : Ready p pool log)
    (hs : ∀ q ∈ others, Slice p q ∧ moreFragments q.hdr = true)
    (hend : ∀ q ∈ others, fragEnd q.hdr < 65472) : ∃ r, offerAll pool others = some r := by
  induction others generalizing pool log with
  | nil => exact ⟨_,rfl⟩
  | cons q others ih =>
    rw [List.forall_mem_cons] at hs hend
    obtain ⟨r1,hr1⟩ := h.middle_some hs.1.1 hs.1.2 hend.1
    obtain ⟨rs,hrs⟩ := ih (h.middle hs.1.1 hs.1.2 hr1).2 hs.2 hend.2
    exact ⟨_,by rw [offerAll,feed,hr1,Option.bind_some,← offerAll,hrs]; rfl⟩

structure Spans (p final : Pbuf4) (log : List Pbuf4) : Prop where
  slices : ∀ q ∈ final :: log, Slice p q
  last : moreFragments final.hdr = false
  total : fragEnd final.hdr = p.totLen
  whole : ∀ q ∈ log, fragLen q.hdr % 8 = 0
  covers : ∀ j < p.payload.length, ∃ q ∈ final :: log,
    fragStart q.hdr ≤ j ∧ j < fragStart q.hdr + fragLen q.hdr

theorem Slice.fragEnd_le (h : Slice p q) : fragEnd q.hdr ≤ p.totLen := by
  have hin := h.inside
  rw [fragEnd,fragOffset,Pbuf4.totLen]
  omega

theorem Spans.units {final : Pbuf4} (h : Spans p final log) {u : Nat} (hu : 8 ≤ u)
    (hlt : u < p.totLen / 8) :
    ∃ q ∈ final :: log, fragOffset q.hdr / 8 ≤ u ∧ u < fragEnd q.hdr / 8 := by
  have htot : p.totLen = 20 + p.payload.length := rfl
  obtain ⟨q,hq,hlo,hhi⟩ := h.covers (8 * (u - 2)) (by omega)
  have h8 : fragStart q.hdr % 8 = 0 := Nat.mul_mod_left _ _
  refine ⟨q,hq,?_,?_⟩
  · rw [fragOffset,ip4Hlen]
    omega
  · rcases List.mem_cons.mp hq with rfl | hlog
    · rw [h.total]
      exact hlt
    · have hwhole := h.whole q hlog
      rw [fragEnd,fragOffset,ip4Hlen]
      omega

theorem Spans.marked {final : Pbuf4} {e : Entry} (h : Spans p final log)
    (htr : Tracks e (final :: log)) {u : Nat} (hu : 8 ≤ u) :
    e.bitmap.Marked u ↔ u < p.totLen / 8 := by
  rw [htr.marked]
  constructor
  · rintro (hlt | ⟨q,hq,-,hhi⟩)
    · omega
    · have := (h.slices q hq).fragEnd_le
      omega
  · exact fun hlt => .inr (h.units hu hlt)

theorem Spans.complete {final : Pbuf4} {e : Entry} (h : Spans p final log)
    (htr : Tracks e (final :: log)) (hlen : e.len = p.totLen) (hlow : 64 ≤ p.totLen)
    (hhigh : p.totLen < 65472) : complete e.bitmap e.len = some true := by
  have htested : testedBytes e.len = p.totLen / 64 - 1 := by
    rw [testedBytes,hlen]
    omega
  have hmark : ∀ u, u < p.totLen / 8 → e.bitmap.Marked u := fun u hu => by
    by_cases h8 : u < 8
    · exact (htr.marked u).mpr (.inl h8)
    · exact (h.marked htr (by omega)).mpr hu
  have hfull : ¬ ∃ i < min (testedBytes e.len) ip4ReassBitmapSize, e.bitmap i ≠ 0xff := by
    rintro ⟨i,hi,hne⟩
    refine hne (full_iff.mpr fun u hu => hmark u ?_)
    rw [htested] at hi
    omega
  have hin : ¬ (ip4ReassBitmapSize < testedBytes e.len ∨ ip4ReassBitmapSize ≤ e.len / 64) := by
    rw [htested,hlen,ip4ReassBitmapSize,ipReassBufsize]
    omega
  rw [ViewOS.Lwip.complete,if_neg hfull,if_neg hin,Option.some.injEq,decide_eq_true_iff,
    upTo_iff (Nat.mod_lt _ (by decide)),hlen]
  intro u hu
  rw [h.marked htr (by omega)]
  omega

theorem Spans.covered {final : Pbuf4} (h : Spans p final log) {j : Nat}
    (hj : j < p.payload.length) : Covered (final :: log) j := by
  obtain ⟨q,hq,hlo,hhi⟩ := h.covers j hj
  refine ⟨q,hq,byteAt_isSome.mpr ⟨hlo,?_⟩⟩
  rw [(h.slices q hq).held]
  exact hhi

theorem Spans.payload {final : Pbuf4} {e : Entry} (h : Spans p final log)
    (htr : Tracks e (final :: log)) (hlen : e.len = p.totLen) :
    (reassembled e).payload = p.payload := by
  have hlength : (reassembled e).payload.length = p.payload.length := by
    rw [reassembled,List.length_map,List.length_range,hlen,Pbuf4.totLen]
    omega
  apply List.ext_getElem?
  intro j
  by_cases hj : j < p.payload.length
  · have hget := List.getElem?_eq_getElem (hlength ▸ hj : j < (reassembled e).payload.length)
    obtain ⟨q,hq,hb⟩ := htr.reassembled_payload (h.covered hj) hget
    rw [hget,(h.slices q hq).byteAt hb]
  · rw [List.getElem?_eq_none (by omega),List.getElem?_eq_none (by omega)]

theorem Spans.restores {final : Pbuf4} {e : Entry} (h : Spans p final log)
    (htr : Tracks e (final :: log)) (hlen : e.len = p.totLen) (halike : Alike e.hdr p.hdr) :
    Restores p (reassembled e) where
  payload := h.payload htr hlen
  src := halike.src
  dest := halike.dest
  proto := congrArg (· &&& 0xff) halike.ttlProto
  id := halike.id
  len := by
    show (BitVec.ofNat 16 e.len).toNat = p.totLen
    rw [BitVec.toNat_ofNat,hlen,Nat.mod_eq_of_lt p.totLen_lt]
  offset := rfl
  chksum := inetChksum_summed _

theorem Ready.final {final : Pbuf4} (h : Ready p pool log) (hsp : Spans p final log)
    (hlow : 64 ≤ p.totLen) (hhigh : p.totLen < 65472) :
    ∃ pool' out, ip4Reass true pool final = some (pool', some out) ∧ Restores p out := by
  have hs := hsp.slices final List.mem_cons_self
  obtain ⟨e,hc,hkey,htr,-,halike⟩ := h final.hdr hs.alike
  obtain ⟨hl,hlen⟩ : (storeBytes e final.hdr final.piece).lastfrag = true ∧
      (storeBytes e final.hdr final.piece).len = fragEnd final.hdr := storeBytes_last hsp.last
  have htr' := htr.store hkey hs.held
  have hcomplete := hsp.complete htr' (hlen.trans hsp.total) hlow hhigh
  have halike' : Alike (storeBytes e final.hdr final.piece).hdr p.hdr := by
    rw [storeBytes_hdr]
    exact halike
  refine ⟨Function.update pool firstSlot (clearEntry (storeBytes e final.hdr final.piece)),
    reassembled (storeBytes e final.hdr final.piece),?_,
    hsp.restores htr' (hlen.trans hsp.total) halike'⟩
  rw [ip4Reass,hc]
  simp only [receive,hs.outside,hs.storeFragment (hsp.total ▸ hhigh),Option.bind_some,hl,
    hcomplete,Bool.false_eq_true,if_false,if_true,Option.map_some]

theorem Ready.final_lt {final : Pbuf4} (h : Ready p pool log) (hsp : Spans p final log)
    {r : Pool × Option Reassembled} (hr : ip4Reass true pool final = some r) :
    p.totLen < 65472 := by
  have hs := hsp.slices final List.mem_cons_self
  obtain ⟨e,hc,-,-,-,-⟩ := h final.hdr hs.alike
  rw [ip4Reass,hc] at hr
  obtain ⟨r',hr',-⟩ := Option.map_eq_some_iff.mp hr
  rw [receive,hs.outside,if_neg (by decide)] at hr'
  obtain ⟨e',he',-⟩ := Option.bind_eq_some_iff.mp hr'
  have hend := (storeFragment_eq_some he').2.1
  rw [hsp.total,ip4ReassBitmapSize,ipReassBufsize] at hend
  omega

end Offering

theorem Cut.spans {p final : Pbuf4} {mtu : Nat} {fs : List Fragment} {last : Fragment}
    {others : List Pbuf4} (hp : Built p) (hmtu : 28 ≤ mtu) (h : Cut p.hdr p.payload mtu 0 fs last)
    (ho : Offers fs last others final) : Spans p final others.reverse := by
  obtain ⟨s,hfinal,hcover⟩ := h.final
  obtain ⟨hslice,hstart,hend,hlast⟩ := ho.final.final hp hfinal
  have hmiddle : ∀ q ∈ others, Slice p q ∧ fragLen q.hdr = nfbOf mtu * 8 := fun q hq => by
    obtain ⟨f,hf,hc⟩ := ho.only q hq
    obtain ⟨t,ht⟩ := h.middle f hf
    obtain ⟨hs,-,hlen,-⟩ := hc.middle hp hmtu ht
    exact ⟨hs,hlen⟩
  refine ⟨?_,hlast,hend,fun q hq => ?_,fun j hj => ?_⟩
  · rw [List.forall_mem_cons]
    exact ⟨hslice,fun q hq => (hmiddle q (List.mem_reverse.mp hq)).1⟩
  · rw [(hmiddle q (List.mem_reverse.mp hq)).2]
    omega
  · by_cases hjs : j < s
    · obtain ⟨f,hf,t,ht,hlo,hhi⟩ := hcover j (Nat.zero_le j) hjs
      obtain ⟨q,hq,hc⟩ := ho.every f hf
      obtain ⟨-,hqs,hql,-⟩ := hc.middle hp hmtu ht
      exact ⟨q,List.mem_cons_of_mem _ (List.mem_reverse.mpr hq),by omega,by omega⟩
    · refine ⟨final,List.mem_cons_self,by omega,?_⟩
      have htot : p.totLen = 20 + p.payload.length := rfl
      rw [fragEnd,fragOffset,ip4Hlen] at hend
      omega

theorem Cut.reassemble_iff {p final : Pbuf4} {mtu : Nat} {fs : List Fragment} {last : Fragment}
    {others : List Pbuf4} {pool : Pool} (hp : Built p) (hmtu : 64 ≤ mtu) (hlong : mtu < p.totLen)
    (h : Cut p.hdr p.payload mtu 0 fs last) (hidle : Idle pool)
    (ho : Offers fs last others final) :
    (∃ pool' out, offerAll pool (others ++ [final]) =
        some (pool', others.map (fun _ => none) ++ [some out]) ∧ Restores p out) ↔
      p.totLen < 65472 := by
  have hsp := h.spans hp (by omega) ho
  have hslices : ∀ q ∈ others, Slice p q ∧ moreFragments q.hdr = true := fun q hq => by
    obtain ⟨f,hf,hc⟩ := ho.only q hq
    obtain ⟨t,ht⟩ := h.middle f hf
    obtain ⟨hs,-,-,hmore⟩ := hc.middle hp (by omega) ht
    exact ⟨hs,hmore⟩
  constructor
  · rintro ⟨pool',out,hall,-⟩
    rw [offerAll,feed_concat] at hall
    obtain ⟨r,hr,hall⟩ := Option.bind_eq_some_iff.mp hall
    obtain ⟨r',hr',-⟩ := Option.map_eq_some_iff.mp hall
    have hready := (hidle.ready.offered hslices hr).2
    rw [List.append_nil] at hready
    exact hready.final_lt hsp hr'
  · intro hhigh
    obtain ⟨r,hr⟩ := hidle.ready.offered_some (p := p) hslices
      fun q hq => (hslices q hq).1.fragEnd_le.trans_lt hhigh
    obtain ⟨hnone,hready⟩ := hidle.ready.offered hslices hr
    rw [List.append_nil] at hready
    obtain ⟨pool',out,hout,hrest⟩ := hready.final hsp (by omega) hhigh
    refine ⟨pool',out,?_,hrest⟩
    rw [offerAll,feed_concat,← offerAll,hr,Option.bind_some,hout,Option.map_some,hnone]

theorem Built.cut {p : Pbuf4} (hp : Built p) {mtu : Nat} (hmin : 68 ≤ mtu) (hmax : mtu ≤ maxMtu)
    (hlong : mtu < p.totLen) (buf : Nat → UInt8) :
    ∃ fs last rest, ip4Frag buf mtu p = some (fs ++ [last], rest) ∧
      Cut p.hdr p.payload mtu 0 fs last := by
  have hmf : p.hdr.offset &&& ipMf = 0 := by rw [hp.offset]; rfl
  have hoff : p.hdr.offset &&& ipOffmask = 0 := by rw [hp.offset]; rfl
  exact ip4Frag_cut (by omega) hmax p (by rw [ip4Hlen]; omega) hmf hoff

theorem fragments_reassemble_iff {p : Pbuf4} (hp : Built p) {mtu : Nat} (hmin : 68 ≤ mtu)
    (hmax : mtu ≤ maxMtu) (hlong : mtu < p.totLen) (buf : Nat → UInt8) :
    ∃ fs last rest, ip4Frag buf mtu p = some (fs ++ [last], rest) ∧
      ∀ pool others final, Idle pool → Offers fs last others final →
        ((∃ pool' out, offerAll pool (others ++ [final]) =
            some (pool', others.map (fun _ => none) ++ [some out]) ∧ Restores p out) ↔
          p.totLen < 65472) := by
  obtain ⟨fs,last,rest,heq,hcut⟩ := hp.cut hmin hmax hlong buf
  exact ⟨fs,last,rest,heq,fun pool others final hidle ho =>
    hcut.reassemble_iff hp (by omega) hlong hidle ho⟩

theorem zeros_fit {n : Nat} (h : n < 65516) :
    ip4Hlen + ((List.replicate n (0 : UInt8)).length + ([] : List (List UInt8)).flatten.length) <
      65536 := by
  rw [List.length_replicate,List.flatten_nil,List.length_nil,ip4Hlen]
  omega

def datagram (n : Nat) (h : n < 65516) : Pbuf4 where
  hdr := ⟨0x4500, BitVec.ofNat 16 (20 + n), 7, ipDf, 0x4011, 0, 0x0a000001, 0x0a000002⟩
  head := List.replicate n 0
  next := []
  fits := zeros_fit h

theorem datagram_totLen {n : Nat} (h : n < 65516) : (datagram n h).totLen = 20 + n := by
  rw [Pbuf4.totLen,Pbuf4.payload,datagram,List.flatten_nil,List.append_nil,
    List.length_replicate,ip4Hlen]

theorem datagram_built {n : Nat} (h : n < 65516) : Built (datagram n h) where
  hl := by
    show ((0x4500 : BitVec 16) >>> 8 &&& 0x0f).toNat = 5
    decide
  len := by
    rw [datagram_totLen,datagram,BitVec.toNat_ofNat]
    omega
  offset := rfl

theorem datagram_restored :
    ∃ fs last rest, ip4Frag (fun _ => 0) 68 (datagram 80 (by decide)) =
        some (fs ++ [last], rest) ∧
      ∀ pool others final, Idle pool → Offers fs last others final →
        ∃ pool' out, offerAll pool (others ++ [final]) =
          some (pool', others.map (fun _ => none) ++ [some out]) ∧
            Restores (datagram 80 (by decide)) out := by
  obtain ⟨fs,last,rest,heq,h⟩ := fragments_reassemble_iff (datagram_built (by decide : 80 < 65516))
    (by decide : 68 ≤ 68) (by decide) (by decide) fun _ => 0
  exact ⟨fs,last,rest,heq,fun pool others final hidle ho =>
    (h pool others final hidle ho).mpr (by decide)⟩

def Fragment.pbuf (f : Fragment) (h : f.totLen ≤ maxMtu) : Pbuf4 where
  hdr := f.hdr
  head := f.data ++ f.pad
  next := []
  fits := by
    rw [List.length_append, List.flatten_nil, List.length_nil]
    exact Nat.lt_of_le_of_lt h (by decide)

theorem Fragment.carries (f : Fragment) (h : f.totLen ≤ maxMtu) : Carries (f.pbuf h) f where
  hdr := rfl
  payload := List.append_nil _

theorem Cut.offers {hdr : Ip4Hdr} {payload : List UInt8} {mtu start : Nat} {fs : List Fragment}
    {last : Fragment} (h : Cut hdr payload mtu start fs last) :
    ∃ others final, Offers fs last others final := by
  have hshort : ∀ f ∈ fs, f.totLen ≤ maxMtu := fun f hf => (h.middle f hf).elim fun _ ht => ht.short
  obtain ⟨s,hs,-⟩ := h.final
  refine ⟨fs.attach.map fun f => f.1.pbuf (hshort f.1 f.2),last.pbuf hs.short,?_,?_,
    last.carries hs.short⟩
  · intro q hq
    obtain ⟨f,-,rfl⟩ := List.mem_map.mp hq
    exact ⟨f.1,f.2,f.1.carries _⟩
  · intro f hf
    exact ⟨_,List.mem_map.mpr ⟨⟨f,hf⟩,List.mem_attach _ _,rfl⟩,f.carries _⟩

theorem longest_datagram_lost :
    ¬ ∀ (p : Pbuf4) (mtu : Nat) (buf : Nat → UInt8), Built p → 68 ≤ mtu → mtu ≤ maxMtu →
      mtu < p.totLen → ∃ fs last rest, ip4Frag buf mtu p = some (fs ++ [last], rest) ∧
        ∀ pool others final, Idle pool → Offers fs last others final →
          ∃ pool' out, offerAll pool (others ++ [final]) =
            some (pool', others.map (fun _ => none) ++ [some out]) ∧ Restores p out := by
  intro h
  have hn : 65515 < 65516 := by decide
  have hp := datagram_built hn
  have htot := datagram_totLen hn
  have hlong : 1500 < (datagram 65515 hn).totLen := by omega
  obtain ⟨fs,last,rest,heq,hall⟩ := h _ 1500 (fun _ => 0) hp (by decide) (by decide) hlong
  obtain ⟨fs',last',rest',heq',hcut⟩ := hp.cut (by decide) (by decide) hlong fun _ => 0
  obtain ⟨hfs,-⟩ := Prod.mk.inj (Option.some.inj (heq.symm.trans heq'))
  obtain ⟨rfl,hlast⟩ := List.append_inj' hfs rfl
  obtain rfl := List.singleton_injective hlast
  obtain ⟨others,final,ho⟩ := hcut.offers
  have hidle : Idle fun _ => clearEntry
      ⟨0,0,0,false,false,0,⟨0,0,0,0,0,0,0,0⟩,fun _ => 0,fun _ => 0⟩ := fun _ => rfl
  have := (hcut.reassemble_iff hp (by decide) hlong hidle ho).mp (hall _ others final hidle ho)
  omega

end ViewOS.Lwip
