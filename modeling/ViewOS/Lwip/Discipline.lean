import ViewOS.Lwip.Forward

namespace ViewOS.Lwip

open OnesSum

def ValidChksum (bytes : List UInt8) : Prop :=
  inetChksum .big (bytes.take (4 * ((bytes.headD 0).toNat % 16))) = 0

structure Disciplined4 (mtu : Nat) (p : Pbuf4) (es : List Event) : Prop where
  expired : p.hdr.ttl.toNat ≤ 1 → transmitted es = []
  unfragmented : p.hdr.offset &&& ipDf ≠ 0 → ∀ s ∈ transmitted es, ¬ s.IsFragment
  refused : p.hdr.offset &&& ipDf ≠ 0 → mtu < p.totLen →
    transmitted es = [] ∧ ∃ e ∈ es, e.sent? = none
  fragmented : p.hdr.offset &&& ipDf = 0 → mtu < p.totLen → 2 ≤ p.hdr.ttl.toNat →
    transmitted es ≠ [] ∧ ∀ s ∈ transmitted es, s.IsFragment
  fits : ∀ s ∈ transmitted es, s.totLen ≤ mtu
  chksum : ValidChksum p.bytes → ∀ s ∈ transmitted es, ValidChksum s.bytes

structure Disciplined6 (mtu : Nat) (p : Pbuf6) (es : List Event) : Prop where
  expired : p.hdr.hoplimit.toNat ≤ 1 → transmitted es = []
  refused : mtu < p.totLen → transmitted es = []
  fits : ∀ s ∈ transmitted es, s.totLen ≤ mtu

def Disciplined (mtu : Nat) : Packet → List Event → Prop
  | .v4 p _, es => Disciplined4 mtu p es
  | .v6 p _, es => Disciplined6 mtu p es

def Forwardable4 (mtu : Nat) (p : Pbuf4) : Prop :=
  if mtu < p.totLen then
    if p.hdr.ttl = 1 then ¬ (p.hdr.offset &&& ipDf ≠ 0 ∧ p.hdr.proto = ipProtoIcmp4)
    else p.hdr.offset &&& ipMf ≠ 0 ∧ (p.hdr.offset &&& ipDf ≠ 0 ∨ p.hdr.ttl = 0)
  else p.hdr.ttl ≠ 0

def Forwardable (mtu : Nat) : Packet → Prop
  | .v4 p _ => Forwardable4 mtu p
  | .v6 p _ => mtu < p.totLen ∨ p.hdr.hoplimit ≠ 0

def forwardHdr (bigEndian : Bool) (hdr : Ip4Hdr) : Ip4Hdr :=
  { hdr.ttlSet (hdr.ttl - 1) with chksum := chksumIncr bigEndian hdr.chksum }

theorem sum_take_ttl_chksum (a b c d e f e' f' : Nat) (ws : List Nat) (n : Nat) :
    ((a :: b :: c :: d :: e' :: f' :: ws).take (2 * n)).sum =
        ((a :: b :: c :: d :: e :: f :: ws).take (2 * n)).sum ∨
      ((a :: b :: c :: d :: e' :: f' :: ws).take (2 * n)).sum + (e + f) =
        ((a :: b :: c :: d :: e :: f :: ws).take (2 * n)).sum + (e' + f') := by
  match n with
  | 0 => exact .inl rfl
  | 1 => exact .inl rfl
  | 2 => exact .inl rfl
  | n + 3 =>
    right
    rw [show 2 * (n + 3) = 2 * n + 6 by omega]
    simp only [List.take_succ_cons,List.sum_cons]
    omega

def Pbuf4.headerSum (p : Pbuf4) : Nat :=
  ((p.hdr.words.map BitVec.toNat ++ halfwords p.payload).take
    (2 * (p.hdr.vHlTos.toNat / 256 % 16))).sum

theorem validChksum_iff (p : Pbuf4) :
    ValidChksum p.bytes ↔ p.headerSum ≠ 0 ∧ p.headerSum % 65535 = 0 := by
  have hlt := p.totLen_lt
  have hv := p.hdr.vHlTos.isLt
  have hhead : (p.bytes.headD 0).toNat % 16 = p.hdr.vHlTos.toNat / 256 % 16 := by
    have : (p.bytes.headD 0).toNat = p.hdr.vHlTos.toNat / 256 % 256 := rfl
    omega
  have hw : (halfwords (p.bytes.take (2 * (2 * (p.hdr.vHlTos.toNat / 256 % 16))))).sum =
      p.headerSum := by
    rw [halfwords_take,Pbuf4.bytes,halfwords_bytes,Pbuf4.headerSum]
  have hs := sum_le (halfwords_lt (p.bytes.take (2 * (2 * (p.hdr.vHlTos.toNat / 256 % 16)))))
  rw [halfwords_length,List.length_take,p.bytes_length] at hs
  rw [ValidChksum,hhead,show 4 = 2 * 2 from rfl,Nat.mul_assoc,
    inetChksum_eq_zero_iff (by omega),hw]

theorem headerSum_pos {p : Pbuf4} (hv : p.hdr.v = 4) (hhl : p.hdr.vHlTos.toNat / 256 % 16 ≠ 0) :
    p.headerSum ≠ 0 := by
  have h4 : (p.hdr.vHlTos >>> 12).toNat = 4 := congrArg BitVec.toNat hv
  rw [BitVec.toNat_ushiftRight,Nat.shiftRight_eq_div_pow] at h4
  obtain ⟨n,hn⟩ : ∃ n, 2 * (p.hdr.vHlTos.toNat / 256 % 16) = n + 1 :=
    ⟨_,(Nat.succ_pred (by omega)).symm⟩
  rw [Pbuf4.headerSum,hn,Ip4Hdr.words]
  simp only [List.cons_append,List.map_cons,List.take_succ_cons,List.sum_cons]
  omega

theorem headerSum_forwardHdr (bigEndian : Bool) (p : Pbuf4) :
    let q := p.withHdr (forwardHdr bigEndian p.hdr)
    q.headerSum = p.headerSum ∨
      q.headerSum + (p.hdr.ttlProto.toNat + p.hdr.chksum.toNat) =
        p.headerSum + ((p.hdr.ttlProto - 0x100).toNat +
          (chksumIncr bigEndian p.hdr.chksum).toNat) := by
  have hsum := sum_take_ttl_chksum p.hdr.vHlTos.toNat p.hdr.len.toNat p.hdr.id.toNat
    p.hdr.offset.toNat p.hdr.ttlProto.toNat p.hdr.chksum.toNat (p.hdr.ttlProto - 0x100).toNat
    (chksumIncr bigEndian p.hdr.chksum).toNat
    ((halves p.hdr.src ++ halves p.hdr.dest).map BitVec.toNat ++ halfwords p.payload)
    (p.hdr.vHlTos.toNat / 256 % 16)
  rw [← ttlSet_pred] at hsum ⊢
  exact hsum

theorem validChksum_forwardHdr {bigEndian : Bool} {p : Pbuf4} (hv : p.hdr.v = 4)
    (httl : p.hdr.ttl ≠ 0) (h : ValidChksum p.bytes) :
    ValidChksum (p.withHdr (forwardHdr bigEndian p.hdr)).bytes := by
  have hx := p.hdr.ttlProto.isLt
  have hpos : 256 ≤ p.hdr.ttlProto.toNat := by
    have h0 : (0 : BitVec 16).toNat = 0 := rfl
    rw [Ip4Hdr.ttl,Ne,← BitVec.toNat_inj,toNat_shiftRight_eight,h0] at httl
    omega
  have hdec : (p.hdr.ttlProto - 0x100).toNat = p.hdr.ttlProto.toNat - 256 := by
    have h256 : (0x100 : BitVec 16).toNat = 256 := rfl
    rw [BitVec.toNat_sub,h256]
    omega
  have hck := chksumIncr_mod bigEndian p.hdr.chksum
  rw [validChksum_iff] at h ⊢
  obtain ⟨hne,hmod⟩ := h
  have hhl : p.hdr.vHlTos.toNat / 256 % 16 ≠ 0 := by
    intro hz
    rw [Pbuf4.headerSum,hz] at hne
    exact hne rfl
  have hne' : (p.withHdr (forwardHdr bigEndian p.hdr)).headerSum ≠ 0 := headerSum_pos hv hhl
  refine ⟨hne',?_⟩
  rcases headerSum_forwardHdr bigEndian p with heq | heq
  · rw [heq]
    exact hmod
  · omega

theorem ipForward4_eq (bigEndian : Bool) (buf : Nat → UInt8) (mtu : BitVec 16) (p : Pbuf4) :
    ipForward4 bigEndian buf mtu p =
      if p.hdr.ttl = 1 then
        some (if p.hdr.proto = ipProtoIcmp4 then [] else [.icmpTimeExceeded])
      else
        let q := p.withHdr (forwardHdr bigEndian p.hdr)
        if mtu.toNat < p.totLen then
          if p.hdr.offset &&& ipMf = 0 then
            (ip4Frag buf mtu.toNat q).map fun r =>
              r.1.map (fun f => Event.output (.fragment f)) ++ [.output (.rest p.totLen r.2)]
          else
            some [.icmpDestUnreachFrag]
        else
          some [.output (.whole q)] := by
  simp only [ipForward4,ttlSet_pred_ttl,ttlSet_pred_proto]
  rfl

theorem expired_disciplined_iff {mtu : Nat} {p : Pbuf4} (httl : p.hdr.ttl = 1) :
    Disciplined4 mtu p (if p.hdr.proto = ipProtoIcmp4 then [] else [.icmpTimeExceeded]) ↔
      Forwardable4 mtu p := by
  have h1 : p.hdr.ttl.toNat = 1 := congrArg BitVec.toNat httl
  have h0 : p.hdr.ttl ≠ 0 := by rw [httl]; decide
  have hsent :
      transmitted (if p.hdr.proto = ipProtoIcmp4 then [] else [.icmpTimeExceeded]) = [] := by
    split_ifs <;> rfl
  constructor
  · intro h
    rw [Forwardable4,if_pos httl]
    split_ifs with hlong
    · rintro ⟨hdf,hproto⟩
      have hrefused := (h.refused hdf hlong).2
      rw [if_pos hproto] at hrefused
      simp at hrefused
    · exact h0
  · intro h
    refine ⟨fun _ => hsent,by simp [hsent],fun hdf hlong => ⟨hsent,?_⟩,
      fun _ _ h2 => by omega,by simp [hsent],by simp [hsent]⟩
    rw [Forwardable4,if_pos hlong,if_pos httl] at h
    rw [if_neg fun hproto => h ⟨hdf,hproto⟩]
    exact ⟨_,List.mem_singleton_self _,rfl⟩

theorem rest_not_disciplined {mtu : Nat} {p : Pbuf4} (hlong : mtu < p.totLen) (es : List Event)
    (chain : List (List UInt8)) :
    ¬ Disciplined4 mtu p (es ++ [.output (.rest p.totLen chain)]) := by
  intro h
  have hmem : Sent.rest p.totLen chain ∈
      transmitted (es ++ [.output (.rest p.totLen chain)]) := by
    simp [transmitted,Event.sent?]
  exact absurd (h.fits _ hmem) (Nat.not_le_of_lt hlong)

theorem unreach_disciplined_iff {mtu : Nat} {p : Pbuf4} (httl : p.hdr.ttl ≠ 1)
    (hlong : mtu < p.totLen) (hmf : p.hdr.offset &&& ipMf ≠ 0) :
    Disciplined4 mtu p [.icmpDestUnreachFrag] ↔ Forwardable4 mtu p := by
  have hsent : transmitted [.icmpDestUnreachFrag] = [] := rfl
  have httl' : p.hdr.ttl = 0 ↔ ¬ 2 ≤ p.hdr.ttl.toNat := by
    rw [Ne,← BitVec.toNat_inj] at httl
    rw [← BitVec.toNat_inj]
    have h0 : (0 : BitVec 16).toNat = 0 := rfl
    have h1 : (1 : BitVec 16).toNat = 1 := rfl
    omega
  rw [Forwardable4,if_pos hlong,if_neg httl,httl']
  constructor
  · intro h
    refine ⟨hmf,?_⟩
    by_contra hno
    rw [not_or,not_not,not_not] at hno
    exact (h.fragmented hno.1 hlong hno.2).1 hsent
  · rintro ⟨-,h⟩
    refine ⟨fun _ => hsent,by simp [hsent],
      fun _ _ => ⟨hsent,_,List.mem_singleton_self _,rfl⟩,fun hdf _ h2 => ?_,by simp [hsent],
      by simp [hsent]⟩
    exact absurd h2 (h.resolve_left fun hdf' => hdf' hdf)

theorem whole_disciplined_iff {bigEndian : Bool} {mtu : Nat} {p : Pbuf4} (hv : p.hdr.v = 4)
    (httl : p.hdr.ttl ≠ 1) (hlong : ¬ mtu < p.totLen) :
    Disciplined4 mtu p [.output (.whole (p.withHdr (forwardHdr bigEndian p.hdr)))] ↔
      Forwardable4 mtu p := by
  rw [Forwardable4,if_neg hlong]
  constructor
  · intro h h0
    have hle : p.hdr.ttl.toNat ≤ 1 := by rw [h0]; decide
    exact List.cons_ne_nil _ _ (h.expired hle)
  · intro h
    have hgt : ¬ p.hdr.ttl.toNat ≤ 1 := by
      rw [Ne,← BitVec.toNat_inj] at httl h
      have h0 : (0 : BitVec 16).toNat = 0 := rfl
      have h1 : (1 : BitVec 16).toNat = 1 := rfl
      omega
    have hsent : transmitted [.output (.whole (p.withHdr (forwardHdr bigEndian p.hdr)))] =
      [.whole (p.withHdr (forwardHdr bigEndian p.hdr))] := rfl
    refine ⟨fun hle => absurd hle hgt,fun _ => ?_,fun _ hl => absurd hl hlong,
      fun _ hl => absurd hl hlong,?_,fun hc => ?_⟩
    · rw [hsent,List.forall_mem_singleton]
      exact id
    · rw [hsent,List.forall_mem_singleton]
      exact Nat.le_of_not_lt hlong
    · rw [hsent,List.forall_mem_singleton]
      exact validChksum_forwardHdr hv h hc

theorem forward4_disciplined_iff {bigEndian : Bool} {buf : Nat → UInt8} {mtu : BitVec 16}
    {p : Pbuf4} (hv : p.hdr.v = 4) :
    (∃ es, ipForward4 bigEndian buf mtu p = some es ∧ Disciplined4 mtu.toNat p es) ↔
      Forwardable4 mtu.toNat p := by
  rw [ipForward4_eq]
  by_cases httl : p.hdr.ttl = 1
  · simp only [if_pos httl,Option.some.injEq,exists_eq_left']
    exact expired_disciplined_iff httl
  by_cases hlong : mtu.toNat < p.totLen
  · by_cases hmf : p.hdr.offset &&& ipMf = 0
    · simp only [if_neg httl,if_pos hlong,if_pos hmf,Option.map_eq_some_iff]
      constructor
      · rintro ⟨es,⟨r,-,rfl⟩,h⟩
        exact absurd h (rest_not_disciplined hlong _ _)
      · intro h
        rw [Forwardable4,if_pos hlong,if_neg httl] at h
        exact absurd hmf h.1
    · simp only [if_neg httl,if_pos hlong,if_neg hmf,Option.some.injEq,exists_eq_left']
      exact unreach_disciplined_iff httl hlong hmf
  · simp only [if_neg httl,if_neg hlong,Option.some.injEq,exists_eq_left']
    exact whole_disciplined_iff hv httl hlong

theorem forward6_disciplined_iff {mtu : BitVec 16} {p : Pbuf6} :
    (∃ es, ipForward6 mtu p = some es ∧ Disciplined6 mtu.toNat p es) ↔
      mtu.toNat < p.totLen ∨ p.hdr.hoplimit ≠ 0 := by
  have h0 : (0 : BitVec 16).toNat = 0 := rfl
  have h1 : (1 : BitVec 16).toNat = 1 := rfl
  simp only [ipForward6,hoplimitSet_pred_hoplimit]
  by_cases hhop : p.hdr.hoplimit = 1
  · have hne : p.hdr.hoplimit ≠ 0 := by rw [hhop]; decide
    simp only [if_pos hhop,Option.some.injEq,exists_eq_left']
    refine iff_of_true ?_ (.inr hne)
    split_ifs <;> exact ⟨fun _ => rfl,fun _ => rfl,by simp [transmitted,Event.sent?]⟩
  by_cases hlong : mtu.toNat < p.totLen
  · simp only [if_neg hhop,if_pos hlong,Option.some.injEq,exists_eq_left']
    exact iff_of_true ⟨fun _ => rfl,fun _ => rfl,by simp [transmitted,Event.sent?]⟩ (.inl hlong)
  · simp only [if_neg hhop,if_neg hlong,Option.some.injEq,exists_eq_left']
    constructor
    · intro h
      refine .inr fun hz => ?_
      have hle : p.hdr.hoplimit.toNat ≤ 1 := by rw [hz]; decide
      exact List.cons_ne_nil _ _ (h.expired hle)
    · intro h
      have hgt : ¬ p.hdr.hoplimit.toNat ≤ 1 := by
        have hne := h.resolve_left hlong
        rw [Ne,← BitVec.toNat_inj] at hne
        rw [← BitVec.toNat_inj] at hhop
        omega
      refine ⟨fun hle => absurd hle hgt,fun hl => absurd hl hlong,?_⟩
      show ∀ s ∈ [Sent.whole6 _], s.totLen ≤ mtu.toNat
      rw [List.forall_mem_singleton]
      exact Nat.le_of_not_lt hlong

theorem forward_disciplined_iff (bigEndian : Bool) (buf : Nat → UInt8) (mtu : BitVec 16)
    (packet : Packet) :
    (∃ es, ipForward bigEndian buf mtu packet = some es ∧ Disciplined mtu.toNat packet es) ↔
      Forwardable mtu.toNat packet := by
  cases packet with
  | v4 p version => exact forward4_disciplined_iff version
  | v6 p version => exact forward6_disciplined_iff

def dfDatagram : Pbuf4 where
  hdr := ⟨0x4500, 30, 7, 0x4000, 0x4011, 0, 0x0a000001, 0x0a000002⟩
  head := List.replicate 10 0
  next := []
  fits := by decide

theorem df_fragmented_and_sent_whole :
    ¬ ∀ (bigEndian : Bool) (buf : Nat → UInt8) (mtu : BitVec 16) (packet : Packet),
      ∃ es, ipForward bigEndian buf mtu packet = some es ∧ Disciplined mtu.toNat packet es := by
  intro h
  have hout : ∃ es, ipForward4 true (fun _ => 0) 28 dfDatagram = some es ∧
      Disciplined4 (28 : BitVec 16).toNat dfDatagram es :=
    h true (fun _ => 0) 28 (.v4 dfDatagram (by decide))
  have hforward := (forward4_disciplined_iff (by decide)).mp hout
  rw [Forwardable4] at hforward
  exact absurd hforward (by decide)

end ViewOS.Lwip
