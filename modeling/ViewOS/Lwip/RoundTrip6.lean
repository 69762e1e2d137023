import ViewOS.Lib.Run
import ViewOS.Lwip.Frag6

namespace ViewOS.Lwip

open Transition

structure Built6 (p : Pbuf6) : Prop where
  len : p.hdr.len.toNat + ipHlen = p.totLen

def offerAll6 (lastext : Bool) :
    Pool6 → List Fragment6 → Option (Pool6 × List (Option Reassembled6)) :=
  feed (ip6Reass true lastext)

structure Restores6 (p : Pbuf6) (q : Reassembled6) : Prop where
  payload : q.payload = p.payload
  len : q.hdr.len = p.hdr.len
  nexthdr : q.hdr.nexthdr = p.hdr.nexthdr

def RoundTrips6 (ipId : BitVec 32) (mtu : Nat) (lastext : Bool) (pool : Pool6) (p : Pbuf6) : Prop :=
  ∃ fs pool' outs out, ip6Frag ipId mtu p = some fs ∧
    offerAll6 lastext pool fs = some (pool', outs) ∧ outs.getLast? = some (some out) ∧
      Restores6 p out

structure Ends6 (f : Fragment6) (total : Nat) : Prop where
  last : f.ext.m = 0
  total : fragOffset6 f + fragLen6 f = ipHlen + total

variable {hdr : Ip6Hdr} {nexthdr : BitVec 16} {id : BitVec 32} {mtu : Nat}

theorem and_ip6Offmask {x : BitVec 16} (h : x.toNat % 8 = 0) : x &&& ip6Offmask = x := by
  have h7 : x &&& 7 = 0#16 := by
    rw [← BitVec.toNat_inj,BitVec.toNat_and]
    exact (Nat.and_two_pow_sub_one_eq_mod x.toNat 3).trans h
  have hsplit : x &&& ip6Offmask ||| x &&& 7 = x := by
    rw [← BitVec.and_or_distrib_left]
    exact BitVec.and_allOnes
  rwa [h7,BitVec.or_zero] at hsplit

theorem and_ip6Mf {x : BitVec 16} (h : x.toNat % 8 = 0) : x &&& ip6Mf = 0 := by
  rw [← BitVec.toNat_inj,BitVec.toNat_and]
  exact (Nat.and_two_pow_sub_one_eq_mod x.toNat 1).trans (show x.toNat % 2 = 0 by omega)

theorem ends6_fragHdr6 {offset ncopy : Nat} {data : List UInt8} (h8 : offset % 8 = 0)
    (hlen : offset + ncopy < 65496) :
    Ends6 (fragHdr6 hdr nexthdr id offset ncopy true data) (offset + ncopy) := by
  have hoff : (fragHdr6 hdr nexthdr id offset ncopy true data).ext.offsetResM =
      BitVec.ofNat 16 offset := by
    rw [fragHdr6,if_pos rfl,Nat.div_mul_cancel (Nat.dvd_of_mod_eq_zero h8)]
  have hnat : (BitVec.ofNat 16 offset).toNat = offset := by
    rw [BitVec.toNat_ofNat]
    omega
  have hlen' : (fragHdr6 hdr nexthdr id offset ncopy true data).hdr.len.toNat = 8 + ncopy := by
    show (BitVec.ofNat 16 (8 + ncopy)).toNat = 8 + ncopy
    rw [BitVec.toNat_ofNat]
    omega
  have hunfrag : (fragHdr6 hdr nexthdr id offset ncopy true data).unfragpartLen = 40 := rfl
  constructor
  · rw [Ip6Fraghdr.m,hoff,and_ip6Mf (by rw [hnat]; exact h8)]
  · rw [fragOffset6,fragLen6,Ip6Fraghdr.offset,hoff,and_ip6Offmask (by rw [hnat]; exact h8),hnat,
      hlen',hunfrag,ipHlen,ipExtfragLen]
    omega

theorem fragLoop6_ends (hmtu : 56 ≤ mtu) {fuel : Nat} {chain : List (List UInt8)}
    {poffset left offset : Nat} {fs : List Fragment6} (h8 : offset % 8 = 0) (hpos : 0 < left)
    (hlen : offset + left < 65496)
    (h : fragLoop6 mtu hdr nexthdr id fuel chain poffset left offset = some fs) :
    ∃ fs' f, fs = fs' ++ [f] ∧ Ends6 f (offset + left) := by
  have hmax : fragMaxlen mtu = (mtu - 48) / 8 * 8 := if_pos (by rw [ipHlen,ipExtfragLen]; omega)
  induction fuel generalizing chain poffset left offset fs with
  | zero =>
    rw [fragLoop6,if_neg (by omega)] at h
    cases h
  | succ fuel ih =>
    rw [fragLoop6,if_neg (by omega)] at h
    by_cases hlast : left ≤ fragMaxlen mtu
    · simp only [hlast,decide_true,if_true,Nat.sub_self] at h
      split_ifs at h
      obtain ⟨r,-,h⟩ := Option.bind_eq_some_iff.mp h
      have hend : ∀ n, fragLoop6 mtu hdr nexthdr id fuel r.chain r.offset 0 n = some [] := fun n => by
        cases fuel <;> simp [fragLoop6]
      rw [hend,Option.map_some,Option.some.injEq] at h
      exact ⟨[],_,h.symm,ends6_fragHdr6 h8 hlen⟩
    · simp only [hlast,decide_false,Bool.false_eq_true,if_false] at h
      split_ifs at h
      obtain ⟨r,-,h⟩ := Option.bind_eq_some_iff.mp h
      obtain ⟨rest,hrest,rfl⟩ := Option.map_eq_some_iff.mp h
      have hmod : (offset + fragMaxlen mtu) % 65536 = offset + fragMaxlen mtu := by omega
      rw [hmod] at hrest
      obtain ⟨fs',f,rfl,hf⟩ := ih (by omega) (by omega) (by omega) hrest
      refine ⟨_ :: fs',f,rfl,?_⟩
      rwa [show offset + fragMaxlen mtu + (left - fragMaxlen mtu) = offset + left by omega] at hf

theorem ip6Frag_ends {p : Pbuf6} {ipId : BitVec 32} {fs : List Fragment6} (hmtu : 56 ≤ mtu)
    (hlong : ipHlen < p.totLen) (h : ip6Frag ipId mtu p = some fs) :
    ∃ fs' f, fs = fs' ++ [f] ∧ fragOffset6 f + fragLen6 f = p.totLen ∧ f.ext.m = 0 := by
  have hfits := p.totLen_lt
  obtain ⟨r,-,h⟩ := Option.bind_eq_some_iff.mp h
  rw [ipHlen] at hlong
  obtain ⟨fs',f,rfl,hf⟩ := fragLoop6_ends hmtu (by rfl) (by rw [ipHlen]; omega)
    (by rw [ipHlen]; omega) h
  refine ⟨fs',f,rfl,?_,hf.last⟩
  rw [hf.total,ipHlen]
  omega

theorem storeFragment6_len {e e' : Entry6} {f : Fragment6} (hm : f.ext.m = 0)
    (h : storeFragment6 e f = some e') : e'.len = fragOffset6 f + fragLen6 f := by
  obtain ⟨r,-,h⟩ := Option.bind_eq_some_iff.mp h
  split_ifs at h
  rw [← Option.some.inj h,storeBytes6,if_pos hm]

theorem reassembled6_len (e : Entry6) (ext : Ip6Fraghdr) (lastext : Bool) :
    (reassembled6 e ext lastext).hdr.len = BitVec.ofNat 16 e.len := by
  cases lastext <;> rfl

theorem ip6Reass_len {alloc lastext : Bool} {pool : Pool6} {f : Fragment6}
    {r : Pool6 × Option Reassembled6} {out : Reassembled6} (hm : f.ext.m = 0)
    (h : ip6Reass alloc lastext pool f = some r) (hout : r.2 = some out) :
    out.hdr.len = BitVec.ofNat 16 (fragOffset6 f + fragLen6 f) := by
  rw [ip6Reass] at h
  split at h
  · obtain rfl := Option.some.inj h
    cases hout
  · obtain ⟨r',hr',rfl⟩ := Option.map_eq_some_iff.mp h
    dsimp only at hout
    by_cases ho : outside6 f = true
    · rw [receive6,if_pos ho] at hr'
      obtain rfl := Option.some.inj hr'
      cases hout
    rw [receive6,if_neg ho] at hr'
    obtain ⟨e',he',hr'⟩ := Option.bind_eq_some_iff.mp hr'
    by_cases hl : e'.lastfrag = true
    · rw [if_pos hl] at hr'
      obtain ⟨full,-,rfl⟩ := Option.map_eq_some_iff.mp hr'
      split_ifs at hout
      rw [← Option.some.inj hout,reassembled6_len,storeFragment6_len hm he']
    · rw [if_neg hl] at hr'
      obtain rfl : (e', none) = r' := by simpa using hr'
      cases hout

theorem RoundTrips6.len {p : Pbuf6} {ipId : BitVec 32} {lastext : Bool} {pool : Pool6}
    (hmtu : 56 ≤ mtu) (hlong : ipHlen < p.totLen) (h : RoundTrips6 ipId mtu lastext pool p) :
    p.hdr.len = BitVec.ofNat 16 p.totLen := by
  obtain ⟨fs,pool',outs,out,hfrag,hoffer,hlast,hrest⟩ := h
  obtain ⟨fs',f,rfl,hend,hm⟩ := ip6Frag_ends hmtu hlong hfrag
  rw [offerAll6,feed_concat] at hoffer
  obtain ⟨r,-,hoffer⟩ := Option.bind_eq_some_iff.mp hoffer
  obtain ⟨r',hr',heq⟩ := Option.map_eq_some_iff.mp hoffer
  obtain ⟨-,rfl⟩ := Prod.mk.inj heq
  rw [List.getLast?_concat] at hlast
  rw [← hrest.len,← hend]
  exact ip6Reass_len hm hr' (Option.some.inj hlast)

theorem Built6.len_ne {p : Pbuf6} (hp : Built6 p) : p.hdr.len ≠ BitVec.ofNat 16 p.totLen := by
  intro h
  have hnat := congrArg BitVec.toNat h
  have hlt := p.totLen_lt
  have hlen := hp.len
  rw [BitVec.toNat_ofNat] at hnat
  rw [ipHlen] at hlen
  omega

theorem ip6_payload_length_never_restored {p : Pbuf6} (hp : Built6 p) {mtu : Nat}
    (hmin : 1280 ≤ mtu) (hlong : mtu < p.totLen) (ipId : BitVec 32) (lastext : Bool)
    (pool : Pool6) : ¬ RoundTrips6 ipId mtu lastext pool p := fun h =>
  hp.len_ne (h.len (by omega) (by rw [ipHlen]; omega))

def packet6 (n : Nat) (h : n < 65496) : Pbuf6 where
  hdr := ⟨0x6000, 0, BitVec.ofNat 16 n, 0x1140, ipAddrAny, ipAddrAny⟩
  head := List.replicate n 0
  next := []
  fits := by
    rw [List.length_replicate, List.flatten_nil, List.length_nil, ipHlen]
    omega

def emptyPool6 : Pool6 := fun _ =>
  ⟨0, 0, 0, false, false, 0, ⟨0, 0, 0, 0, ipAddrAny, ipAddrAny⟩, fun _ => 0, fun _ => 0⟩

theorem packet6_totLen {n : Nat} (h : n < 65496) : (packet6 n h).totLen = 40 + n := by
  rw [Pbuf6.totLen,Pbuf6.payload,packet6,List.flatten_nil,List.append_nil,
    List.length_replicate,ipHlen]

theorem packet6_built {n : Nat} (h : n < 65496) : Built6 (packet6 n h) where
  len := by
    rw [packet6_totLen,packet6,BitVec.toNat_ofNat,ipHlen]
    omega

theorem packet6_length_not_restored :
    ¬ RoundTrips6 1 1280 false emptyPool6 (packet6 1460 (by decide)) :=
  ip6_payload_length_never_restored (packet6_built _) (by decide)
    (by rw [packet6_totLen]; decide) _ _ _

theorem ip6_round_trip_fails :
    ¬ ∀ (p : Pbuf6) (mtu : Nat) (ipId : BitVec 32) (lastext : Bool), Built6 p → 1280 ≤ mtu →
      mtu ≤ maxMtu → mtu < p.totLen → RoundTrips6 ipId mtu lastext emptyPool6 p := by
  intro h
  have hn : 1460 < 65496 := by decide
  have htot := packet6_totLen hn
  have hp := packet6_built hn
  have htrip := h _ 1280 1 false hp (by decide) (by decide) (by omega)
  exact hp.len_ne (htrip.len (by decide) (by rw [ipHlen]; omega))

end ViewOS.Lwip
