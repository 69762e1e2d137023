import ViewOS.Lwip.Pbuf

namespace ViewOS.Lwip

def maxMtu : Nat := 1500

-- What netif->output gets: pad is the part of buf past the data that tot_len still counts.
structure Fragment where
  hdr : Ip4Hdr
  data : List UInt8
  pad : List UInt8
deriving DecidableEq

def Fragment.totLen (f : Fragment) : Nat := ip4Hlen + (f.data.length + f.pad.length)

-- (mtu - IP4_HLEN) / 8 of int, kept in a u16.
def nfbOf (mtu : Nat) : Nat :=
  if ip4Hlen ≤ mtu then (mtu - ip4Hlen) / 8 else (65536 - (ip4Hlen - mtu) / 8) % 65536

def fragHdr (hdr : Ip4Hdr) (omf : BitVec 16) (ofo cop : Nat) (last : Bool) : Ip4Hdr :=
  let tmp := omf ||| (ipOffmask &&& BitVec.ofNat 16 ofo)
  Ip4Hdr.summed
    { hdr with
      offset := if last then tmp else tmp ||| ipMf
      len := BitVec.ofNat 16 (cop + ip4Hlen) }

-- none: buf or the chain is overrun, or nothing is copied and the loop goes on for ever.
def fragLoop (buf : Nat → UInt8) (mtu : Nat) (hdr : Ip4Hdr) (omf : BitVec 16) :
    (fuel : Nat) → (passed chain : List (List UInt8)) → (poff left ofo nfb : Nat) →
      Option (List Fragment × List (List UInt8))
  | 0, passed, chain, _, left, _, _ => if left = 0 then some ([], passed ++ chain) else none
  | fuel + 1, passed, chain, poff, left, ofo, nfb =>
    if left = 0 then
      some ([], passed ++ chain)
    else
      let last := decide (left + ip4Hlen ≤ mtu)
      let ofo := (ofo + nfb) % 65536
      let nfb := nfbOf mtu
      let cop := if last then left else nfb * 8 % 65536
      let totLen := if last then left + ip4Hlen else mtu
      if maxMtu < totLen ∨ totLen < cop + ip4Hlen then
        none
      else
        (copyFromPbuf chain poff cop).bind fun r =>
          let pad := (List.range (totLen - (cop + ip4Hlen))).map fun i => buf (cop + ip4Hlen + i)
          (fragLoop buf mtu hdr omf fuel (passed ++ r.passed) r.chain r.offset (left - cop) ofo
            nfb).map fun rest => (⟨fragHdr hdr omf ofo cop last, r.data, pad⟩ :: rest.1, rest.2)

def ip4Frag (buf : Nat → UInt8) (mtu : Nat) (p : Pbuf4) :
    Option (List Fragment × List (List UInt8)) :=
  fragLoop buf mtu p.hdr (p.hdr.offset &&& ipMf) (p.totLen - ip4Hlen) [] p.chain ip4Hlen
    (p.totLen - ip4Hlen) (p.hdr.offset &&& ipOffmask).toNat 0

section Cut

variable (hdr : Ip4Hdr) (payload : List UInt8) (mtu : Nat)

structure Middle (f : Fragment) (start : Nat) : Prop where
  hdr : f.hdr = fragHdr hdr 0 (start / 8) (nfbOf mtu * 8) false
  data : f.data = (payload.drop start).take (nfbOf mtu * 8)
  aligned : start % 8 = 0
  room : start + nfbOf mtu * 8 < payload.length
  short : f.totLen ≤ maxMtu

structure Final (f : Fragment) (start : Nat) : Prop where
  hdr : f.hdr = fragHdr hdr 0 (start / 8) (payload.length - start) true
  data : f.data = payload.drop start
  aligned : start % 8 = 0
  room : start < payload.length
  short : f.totLen ≤ maxMtu

structure Cut (start : Nat) (fs : List Fragment) (last : Fragment) : Prop where
  middle : ∀ f ∈ fs, ∃ s, Middle hdr payload mtu f s
  final : ∃ s, Final hdr payload last s ∧
    ∀ j, start ≤ j → j < s → ∃ f ∈ fs, ∃ t, Middle hdr payload mtu f t ∧ t ≤ j ∧
      j < t + nfbOf mtu * 8

end Cut

variable {hdr : Ip4Hdr} {payload : List UInt8} {mtu : Nat} {buf : Nat → UInt8}

theorem Cut.cons {f last : Fragment} {fs : List Fragment} {start : Nat}
    (hf : Middle hdr payload mtu f start)
    (h : Cut hdr payload mtu (start + nfbOf mtu * 8) fs last) :
    Cut hdr payload mtu start (f :: fs) last where
  middle := by
    rw [List.forall_mem_cons]
    exact ⟨⟨start,hf⟩,h.middle⟩
  final := by
    obtain ⟨s,hs,hcover⟩ := h.final
    refine ⟨s,hs,fun j hj hjs => ?_⟩
    by_cases hin : j < start + nfbOf mtu * 8
    · exact ⟨f,List.mem_cons_self,start,hf,hj,hin⟩
    · obtain ⟨g,hg,t,ht⟩ := hcover j (by omega) hjs
      exact ⟨g,List.mem_cons_of_mem f hg,t,ht⟩

theorem fragLoop_cut (hmtu : 28 ≤ mtu) (hmax : mtu ≤ maxMtu)
    (hlen : payload.length < 65536 - ip4Hlen)
    {fuel : Nat} (passed : List (List UInt8)) {chain : List (List UInt8)}
    {poff ofo nfb start : Nat}
    (hst : Stands chain poff (payload.drop start)) (hstart : start = 8 * (ofo + nfb))
    (hleft : start < payload.length) (hfuel : payload.length - start ≤ fuel) :
    ∃ fs last rest, fragLoop buf mtu hdr 0 fuel passed chain poff (payload.length - start) ofo nfb =
      some (fs ++ [last], rest) ∧ Cut hdr payload mtu start fs last := by
  have hnfb : nfbOf mtu = (mtu - ip4Hlen) / 8 := if_pos (by rw [ip4Hlen]; omega)
  have hofo : (ofo + nfb) % 65536 = start / 8 := by omega
  induction fuel generalizing passed chain poff ofo nfb start with
  | zero => omega
  | succ fuel ih =>
    rw [fragLoop,if_neg (by omega)]
    simp only [ip4Hlen,maxMtu] at hmax hlen hnfb ⊢
    by_cases hlast : payload.length - start + 20 ≤ mtu
    · obtain ⟨r,hr,hdata,hst'⟩ := hst.copy (by omega : 0 < payload.length - start)
        (by rw [List.length_drop])
      have hroom : ¬(1500 < payload.length - start + 20 ∨
          payload.length - start + 20 < payload.length - start + 20) := by omega
      simp only [hlast,decide_true,if_true,if_neg hroom,hr,Option.bind_some,Nat.sub_self,
        hofo]
      have hend : ∀ n, fragLoop buf mtu hdr 0 fuel (passed ++ r.passed) r.chain r.offset 0
          (start / 8) n = some ([], (passed ++ r.passed) ++ r.chain) := fun n => by
        cases fuel <;> simp [fragLoop]
      rw [hend]
      refine ⟨[],_,_,rfl,by simp,start,⟨rfl,?_,by omega,hleft,?_⟩,
        fun j h1 h2 => by omega⟩
      · rw [hdata,List.take_of_length_le (by rw [List.length_drop])]
      · simp only [Fragment.totLen,hdata,List.length_take,List.length_drop,List.length_map,
          List.length_range,ip4Hlen,maxMtu]
        omega
    · obtain ⟨r,hr,hdata,hst'⟩ := hst.copy (by omega : 0 < nfbOf mtu * 8)
        (by rw [List.length_drop]; omega)
      have hcop : nfbOf mtu * 8 % 65536 = nfbOf mtu * 8 := by omega
      rw [List.drop_drop] at hst'
      obtain ⟨fs,last,rest,heq,hcut⟩ := ih (passed ++ r.passed) hst'
        (by omega : start + nfbOf mtu * 8 = 8 * (start / 8 + nfbOf mtu)) (by omega) (by omega)
        (by omega)
      simp only [hlast,decide_false,Bool.false_eq_true,if_false,hcop,
        if_neg (by omega : ¬(1500 < mtu ∨ mtu < nfbOf mtu * 8 + 20)),hr,Option.bind_some,hofo,
        Nat.sub_sub,heq,Option.map_some]
      refine ⟨_ :: fs,last,rest,rfl,hcut.cons ⟨rfl,hdata,by omega,by omega,?_⟩⟩
      simp only [Fragment.totLen,hdata,List.length_take,List.length_drop,List.length_map,
        List.length_range,ip4Hlen,maxMtu]
      omega

theorem ip4Frag_cut (hmtu : 28 ≤ mtu) (hmax : mtu ≤ maxMtu) (p : Pbuf4) (hlong : ip4Hlen < p.totLen)
    (hmf : p.hdr.offset &&& ipMf = 0) (hoff : p.hdr.offset &&& ipOffmask = 0) :
    ∃ fs last rest, ip4Frag buf mtu p = some (fs ++ [last], rest) ∧
      Cut p.hdr p.payload mtu 0 fs last := by
  have hlt := p.totLen_lt
  have hlen : p.totLen - ip4Hlen = p.payload.length := by rw [Pbuf4.totLen]; omega
  rw [ip4Frag,hlen,hmf,hoff]
  exact fragLoop_cut hmtu hmax (by omega : p.payload.length < 65536 - ip4Hlen) [] p.stands
    (by decide : 0 = 8 * ((0 : BitVec 16).toNat + 0)) (by omega) (le_refl _)

end ViewOS.Lwip
