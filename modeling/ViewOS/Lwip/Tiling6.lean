import ViewOS.Lwip.RoundTrip6

namespace ViewOS.Lwip

def Fragment6.data (f : Fragment6) : List UInt8 := f.head ++ f.next.flatten

def Unfragmentable (nexthdr : BitVec 16) (destextNum : Nat) : Prop :=
  nexthdr = ip6NexthdrHop ∨ nexthdr = ip6NexthdrRouting ∨ nexthdr = ip6NexthdrDest ∧ destextNum < 1

instance (nexthdr : BitVec 16) (destextNum : Nat) : Decidable (Unfragmentable nexthdr destextNum) :=
  inferInstanceAs (Decidable (_ ∨ _ ∨ _))

-- The extension headers that every fragment has to repeat, the last one with the fragment header
-- as its next header, and the next header after them; an extension header has 8 * (len + 1) bytes.
def unfragWalk : Nat → List UInt8 → BitVec 16 → Nat → List UInt8 × BitVec 16
  | 0, _, nexthdr, _ => ([], nexthdr)
  | fuel + 1, payload, nexthdr, destextNum =>
    if Unfragmentable nexthdr destextNum then
      let n := ((payload.getD 1 0).toNat + 1) * 8
      let r := unfragWalk fuel (payload.drop n) (BitVec.ofNat 16 (payload.headD 0).toNat)
        (if nexthdr = ip6NexthdrDest then destextNum + 1 else destextNum)
      (if r.1 = [] then ip6NexthdrFragment.toNat.toUInt8 :: (payload.take n).tail
        else payload.take n ++ r.1, r.2)
    else ([], nexthdr)

def Pbuf6.walk (p : Pbuf6) : List UInt8 × BitVec 16 :=
  unfragWalk p.payload.length p.payload p.hdr.nexthdr 0

def Pbuf6.unfragHdr (p : Pbuf6) : Ip6Hdr :=
  if p.walk.1 = [] then p.hdr.nexthdrSet ip6NexthdrFragment else p.hdr

def Pbuf6.fragmentable (p : Pbuf6) : List UInt8 := p.payload.drop p.walk.1.length

structure Carries6 (hdr : Ip6Hdr) (part : List UInt8) (nexthdr : BitVec 16) (id : BitVec 32)
    (mtu offset : Nat) (f : Fragment6) : Prop where
  header : f.hdr = { hdr with len := BitVec.ofNat 16 (part.length + ipExtfragLen + f.data.length) }
  unfrag : f.unfrag = part
  ext : f.ext.nexthdr = nexthdr ∧ f.ext.id = id
  start : f.ext.offset = offset
  short : ipHlen + part.length + ipExtfragLen + f.data.length ≤ mtu

def Tiles (good : Nat → Fragment6 → Prop) : Nat → List Fragment6 → Prop
  | _, [] => True
  | offset, f :: fs => good offset f ∧
      (if fs = [] then f.ext.m = 0 else f.ext.m ≠ 0 ∧ 0 < f.data.length ∧ f.data.length % 8 = 0) ∧
      Tiles good (offset + f.data.length) fs

def Fragments (ipId : BitVec 32) (mtu : Nat) (p : Pbuf6) : Prop :=
  ∃ fs, ip6Frag ipId mtu p = some fs ∧ (fs.map Fragment6.data).flatten = p.fragmentable ∧
    Tiles (Carries6 p.unfragHdr p.walk.1 p.walk.2 ipId mtu) 0 fs

variable {hdr : Ip6Hdr} {nexthdr : BitVec 16} {id : BitVec 32} {mtu : Nat}

theorem fragHdr6_offset {offset ncopy : Nat} {last : Bool} {data : List UInt8} (h8 : offset % 8 = 0)
    (hlt : offset < 65536) : (fragHdr6 hdr nexthdr id offset ncopy last data).ext.offset = offset := by
  have hnat : (BitVec.ofNat 16 offset).toNat = offset := by
    rw [BitVec.toNat_ofNat]
    omega
  have hmask := and_ip6Offmask (x := BitVec.ofNat 16 offset) (by rw [hnat]; exact h8)
  rw [Ip6Fraghdr.offset,fragHdr6,Nat.div_mul_cancel (Nat.dvd_of_mod_eq_zero h8)]
  cases last with
  | true => rw [if_pos rfl,hmask,hnat]
  | false =>
    have hmf : ip6Mf &&& ip6Offmask = 0#16 := by decide
    rw [if_neg Bool.false_ne_true,BitVec.and_or_distrib_right,hmask,hmf,BitVec.or_zero,hnat]

theorem fragHdr6_m {offset ncopy : Nat} {last : Bool} {data : List UInt8} (h8 : offset % 8 = 0) :
    (fragHdr6 hdr nexthdr id offset ncopy last data).ext.m = 0 ↔ last = true := by
  have hmask := and_ip6Mf (x := BitVec.ofNat 16 offset) (by rw [BitVec.toNat_ofNat]; omega)
  rw [Ip6Fraghdr.m,fragHdr6,Nat.div_mul_cancel (Nat.dvd_of_mod_eq_zero h8)]
  cases last with
  | true => exact iff_of_true (by rw [if_pos rfl,hmask]) rfl
  | false =>
    refine iff_of_false ?_ Bool.false_ne_true
    rw [if_neg Bool.false_ne_true,BitVec.and_or_distrib_right,hmask]
    decide

theorem fragHdr6_carries {offset : Nat} {last : Bool} {data : List UInt8} (h8 : offset % 8 = 0)
    (hlt : offset < 65536) (hshort : ipHlen + ipExtfragLen + data.length ≤ mtu) :
    Carries6 hdr [] nexthdr id mtu offset (fragHdr6 hdr nexthdr id offset data.length last data) where
  header := by simp [fragHdr6,Fragment6.data]
  unfrag := rfl
  ext := ⟨rfl,rfl⟩
  start := fragHdr6_offset h8 hlt
  short := by simpa [fragHdr6,Fragment6.data] using hshort

theorem fragLoop6_tiles (hmtu : 56 ≤ mtu) (hmax : mtu ≤ maxMtu) {fuel : Nat}
    {chain : List (List UInt8)} {poffset offset : Nat} {data : List UInt8}
    (hst : Stands chain poffset data) (hpos : 0 < data.length) (hfuel : data.length ≤ fuel)
    (h8 : offset % 8 = 0) (hlen : offset + data.length < 65536) :
    ∃ fs, fragLoop6 mtu hdr nexthdr id fuel chain poffset data.length offset = some fs ∧ fs ≠ [] ∧
      (fs.map Fragment6.data).flatten = data ∧ Tiles (Carries6 hdr [] nexthdr id mtu) offset fs := by
  have hnum : ipHlen = 40 ∧ ipExtfragLen = 8 ∧ maxMtu = 1500 := ⟨rfl,rfl,rfl⟩
  have hfrag : fragMaxlen mtu = (mtu - 48) / 8 * 8 := if_pos (by omega)
  induction fuel generalizing chain poffset offset data with
  | zero => omega
  | succ fuel ih =>
    rw [fragLoop6,if_neg (by omega)]
    by_cases hlast : data.length ≤ fragMaxlen mtu
    · obtain ⟨r,hr,hdata,-⟩ := hst.copy hpos (le_refl _)
      rw [List.take_length] at hdata
      have hend : ∀ n, fragLoop6 mtu hdr nexthdr id fuel r.chain r.offset 0 n = some [] := fun n => by
        cases fuel <;> simp [fragLoop6]
      simp only [hlast,decide_true,if_true,Nat.sub_self,hend,hr,Option.bind_some,Option.map_some,hdata,
        if_neg (show ¬ maxMtu < ipHlen + ipExtfragLen + data.length by omega)]
      refine ⟨_,rfl,List.cons_ne_nil _ _,by simp [fragHdr6,Fragment6.data],
        fragHdr6_carries h8 (by omega) (by omega),?_,trivial⟩
      rw [if_pos rfl]
      exact (fragHdr6_m h8).mpr rfl
    · obtain ⟨r,hr,hdata,hst'⟩ := hst.copy (show 0 < fragMaxlen mtu by omega) (by omega)
      have htake : (data.take (fragMaxlen mtu)).length = fragMaxlen mtu :=
        List.length_take_of_le (by omega)
      have hmod : (offset + fragMaxlen mtu) % 65536 = offset + fragMaxlen mtu :=
        Nat.mod_eq_of_lt (by omega)
      have hdrop : (data.drop (fragMaxlen mtu)).length = data.length - fragMaxlen mtu :=
        List.length_drop
      obtain ⟨fs,heq,hne,hflat,htiles⟩ := @ih r.chain r.offset (offset + fragMaxlen mtu)
        (data.drop (fragMaxlen mtu)) hst' (by omega) (by omega) (by omega) (by omega)
      rw [hdrop] at heq
      simp only [hlast,decide_false,Bool.false_eq_true,if_false,hr,Option.bind_some,hmod,heq,
        Option.map_some,hdata,
        if_neg (show ¬ maxMtu < ipHlen + ipExtfragLen + fragMaxlen mtu by omega)]
      have hcar := @fragHdr6_carries hdr nexthdr id mtu offset false (data.take (fragMaxlen mtu)) h8
        (by omega) (by omega)
      rw [htake] at hcar
      refine ⟨_,rfl,List.cons_ne_nil _ _,?_,hcar,?_,?_⟩
      · rw [List.map_cons,List.flatten_cons,hflat]
        simp [fragHdr6,Fragment6.data]
      · rw [if_neg hne]
        refine ⟨fun h => Bool.false_ne_true ((fragHdr6_m h8).mp h),?_⟩
        simp only [fragHdr6,Fragment6.data,List.flatten_nil,List.append_nil,htake]
        omega
      · simpa [fragHdr6,Fragment6.data,htake] using htiles

theorem setFirst_length (b : UInt8) (cs : List (List UInt8)) :
    (setFirst b cs).flatten.length = cs.flatten.length := by
  match cs with
  | [] => rfl
  | [] :: _ => rfl
  | (_ :: _) :: _ => rfl

theorem unfragWalk_ne_nil {fuel : Nat} {payload : List UInt8} {nexthdr : BitVec 16}
    {destextNum : Nat} (h : Unfragmentable nexthdr destextNum) :
    (unfragWalk (fuel + 1) payload nexthdr destextNum).1 ≠ [] := by
  rw [unfragWalk,if_pos h]
  dsimp only
  generalize unfragWalk fuel (payload.drop (((payload.getD 1 0).toNat + 1) * 8))
    (BitVec.ofNat 16 (payload.headD 0).toNat)
    (if nexthdr = ip6NexthdrDest then destextNum + 1 else destextNum) = r
  split_ifs with hr
  · exact List.cons_ne_nil _ _
  · exact fun hnil => hr (List.append_eq_nil_iff.mp hnil).2

theorem extLoop_eq_self {exthdr nexthdr : BitVec 16} {rounds : Nat}
    (h : ¬ Unfragmentable nexthdr 0) :
    extLoop exthdr (rounds + 1) nexthdr 0 false = some (nexthdr, false) := by
  obtain ⟨hhop,hrouting,hdest⟩ : nexthdr ≠ ip6NexthdrHop ∧ nexthdr ≠ ip6NexthdrRouting ∧
      nexthdr ≠ ip6NexthdrDest := by simpa [Unfragmentable] using h
  rw [extLoop,if_neg hhop,if_neg (fun hd => hdest hd.1),if_neg hrouting]

-- Without a payload the loop reads a hop-by-hop header again and again.
theorem ip6Frag_bare {p : Pbuf6} {ipId : BitVec 32} (h : Unfragmentable p.hdr.nexthdr 0)
    (hnil : p.payload = []) : ip6Frag ipId mtu p = none := by
  have hloop : extLoop (BitVec.ofNat 16 (p.payload.headD 0).toNat) 3 p.hdr.nexthdr 0 false = none := by
    rw [hnil]
    rcases h with h | h | ⟨h,-⟩ <;> rw [h] <;> decide
  rw [ip6Frag,hloop,Option.bind_none]

section Plain

variable {p : Pbuf6} {mtu : Nat} {ipId : BitVec 32}

theorem Fragments.plain (hmin : 1280 ≤ mtu) (hmax : mtu ≤ maxMtu) (h : Fragments ipId mtu p) :
    ¬ Unfragmentable p.hdr.nexthdr 0 := by
  intro hun
  have hlt := p.totLen_lt
  have hlen : p.totLen - ipHlen = p.payload.length := Nat.add_sub_cancel_left _ _
  have hhlen : ipHlen = 40 := rfl
  have hflat : (p.head :: p.next).flatten = p.payload := rfl
  obtain ⟨fs,hfrag,hpayload,-⟩ := h
  have hpos : 0 < p.payload.length := by
    by_contra hzero
    have hnil : p.payload = [] := List.eq_nil_of_length_eq_zero (by omega)
    cases (ip6Frag_bare hun hnil).symm.trans hfrag
  obtain ⟨r,-,hloop⟩ := Option.bind_eq_some_iff.mp hfrag
  dsimp only at hloop
  generalize hdata : (if r.2 = true then setFirst ip6NexthdrFragment.toNat.toUInt8 (p.head :: p.next)
    else p.head :: p.next) = chain at hloop
  have hchain : chain.flatten.length = p.payload.length := by
    rw [← hdata]
    split_ifs
    · rw [setFirst_length,hflat]
    · rw [hflat]
  obtain ⟨c,cs,hcons⟩ : ∃ c cs, chain = c :: cs := by
    cases chain with
    | nil => rw [List.flatten_nil,List.length_nil] at hchain; omega
    | cons c cs => exact ⟨c,cs,rfl⟩
  rw [hlen,← hchain] at hloop
  obtain ⟨fs',heq,-,hflat',-⟩ := @fragLoop6_tiles _ r.1 ipId mtu (by omega) hmax
    chain.flatten.length chain 0 0 chain.flatten ⟨⟨c,cs,hcons,Nat.zero_le _⟩,List.drop_zero⟩
    (by omega) (le_refl _) rfl (by omega)
  obtain rfl := Option.some.inj (heq.symm.trans hloop)
  rw [hflat'] at hpayload
  have hshort := congrArg List.length hpayload
  rw [hchain,Pbuf6.fragmentable,List.length_drop] at hshort
  obtain ⟨fuel,hfuel⟩ : ∃ fuel, p.payload.length = fuel + 1 := ⟨p.payload.length - 1,by omega⟩
  have hpart : p.walk.1 ≠ [] := by
    rw [Pbuf6.walk,hfuel]
    exact unfragWalk_ne_nil hun
  have := List.length_pos_of_ne_nil hpart
  omega

theorem fragments_of_plain (hmin : 1280 ≤ mtu) (hmax : mtu ≤ maxMtu)
    (hnot : ¬ Unfragmentable p.hdr.nexthdr 0) : Fragments ipId mtu p := by
  have hlt := p.totLen_lt
  have hlen : p.totLen - ipHlen = p.payload.length := Nat.add_sub_cancel_left _ _
  have hhlen : ipHlen = 40 := rfl
  have hwalk : p.walk = ([], p.hdr.nexthdr) := by
    rw [Pbuf6.walk]
    cases p.payload.length with
    | zero => rfl
    | succ fuel => rw [unfragWalk,if_neg hnot]
  have hfrag : ip6Frag ipId mtu p = fragLoop6 mtu (p.hdr.nexthdrSet ip6NexthdrFragment) p.hdr.nexthdr
      ipId p.payload.length (p.head :: p.next) 0 p.payload.length 0 := by
    rw [ip6Frag,extLoop_eq_self hnot,hlen]
    rfl
  rw [Fragments,hfrag,Pbuf6.fragmentable,Pbuf6.unfragHdr,hwalk]
  rcases Nat.eq_zero_or_pos p.payload.length with hzero | hpos
  · rw [hzero,List.eq_nil_of_length_eq_zero hzero]
    exact ⟨[],by simp [fragLoop6],rfl,trivial⟩
  · obtain ⟨fs,heq,-,hpayload,htiles⟩ :=
      @fragLoop6_tiles (p.hdr.nexthdrSet ip6NexthdrFragment) p.hdr.nexthdr ipId mtu (by omega) hmax
        p.payload.length (p.head :: p.next) 0 0 p.payload ⟨⟨_,_,rfl,Nat.zero_le _⟩,List.drop_zero⟩
        hpos (le_refl _) rfl (by omega)
    exact ⟨fs,heq,hpayload,htiles⟩

end Plain

theorem ip6_fragments_iff {mtu : Nat} (hmin : 1280 ≤ mtu) (hmax : mtu ≤ maxMtu) (p : Pbuf6)
    (ipId : BitVec 32) : Fragments ipId mtu p ↔ ¬ Unfragmentable p.hdr.nexthdr 0 :=
  ⟨Fragments.plain hmin hmax,fragments_of_plain hmin hmax⟩

theorem packet6_fragments : Fragments 1 1280 (packet6 1460 (by decide)) :=
  (ip6_fragments_iff (by decide) (by decide) _ 1).mpr (by decide)

def hopPacket : Pbuf6 := (packet6 1460 (by decide)).withHdr ⟨0x6000, 0, 1460, 0x0040, ipAddrAny, ipAddrAny⟩

theorem hopPacket_not_fragmented : ¬ ∀ (mtu : Nat), 1280 ≤ mtu → mtu ≤ maxMtu →
    ∀ (p : Pbuf6) (ipId : BitVec 32), Fragments ipId mtu p :=
  fun h => (h 1280 (by decide) (by decide) hopPacket 1).plain (by decide) (by decide)
    (Or.inl (by decide))

end ViewOS.Lwip
