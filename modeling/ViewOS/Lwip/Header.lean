import ViewOS.Lib.OnesSum
import ViewOS.Lwip.Addr

namespace ViewOS.Lwip

open OnesSum

-- Header fields are the values ntohs and ntohl give.
structure Ip4Hdr where
  vHlTos : BitVec 16
  len : BitVec 16
  id : BitVec 16
  offset : BitVec 16
  ttlProto : BitVec 16
  chksum : BitVec 16
  src : BitVec 32
  dest : BitVec 32
deriving DecidableEq

def ip4Hlen : Nat := 20

def ipDf : BitVec 16 := 0x4000

def ipMf : BitVec 16 := 0x2000

def ipOffmask : BitVec 16 := 0x1fff

def ipProtoIcmp4 : BitVec 16 := 1

def Ip4Hdr.v (hdr : Ip4Hdr) : BitVec 16 := hdr.vHlTos >>> 12

def Ip4Hdr.hl (hdr : Ip4Hdr) : Nat := ((hdr.vHlTos >>> 8) &&& 0x0f).toNat

def Ip4Hdr.ttl (hdr : Ip4Hdr) : BitVec 16 := hdr.ttlProto >>> 8

def Ip4Hdr.proto (hdr : Ip4Hdr) : BitVec 16 := hdr.ttlProto &&& 0xff

def Ip4Hdr.ttlSet (hdr : Ip4Hdr) (ttl : BitVec 16) : Ip4Hdr :=
  { hdr with ttlProto := hdr.proto ||| ttl <<< 8 }

structure Ip6Hdr where
  vClFl : BitVec 16
  flow2 : BitVec 16
  len : BitVec 16
  nextHop : BitVec 16
  src : IpAddr
  dest : IpAddr
deriving DecidableEq

def ipHlen : Nat := 40

def ipProtoIcmp : BitVec 16 := 58

def Ip6Hdr.v (hdr : Ip6Hdr) : BitVec 16 := hdr.vClFl >>> 12

def Ip6Hdr.nexthdr (hdr : Ip6Hdr) : BitVec 16 := hdr.nextHop >>> 8

def Ip6Hdr.hoplimit (hdr : Ip6Hdr) : BitVec 16 := hdr.nextHop &&& 0xff

def Ip6Hdr.nexthdrSet (hdr : Ip6Hdr) (nexthdr : BitVec 16) : Ip6Hdr :=
  { hdr with nextHop := nexthdr <<< 8 ||| hdr.hoplimit }

def Ip6Hdr.hoplimitSet (hdr : Ip6Hdr) (hop : BitVec 16) : Ip6Hdr :=
  { hdr with nextHop := hdr.nexthdr <<< 8 ||| hop }

def octets (w : BitVec 16) : List UInt8 := [UInt8.ofNat (w.toNat / 256), UInt8.ofNat w.toNat]

def halves (a : BitVec 32) : List (BitVec 16) := [a.extractLsb' 16 16, a.extractLsb' 0 16]

def Ip4Hdr.words (hdr : Ip4Hdr) : List (BitVec 16) :=
  [hdr.vHlTos, hdr.len, hdr.id, hdr.offset, hdr.ttlProto, hdr.chksum] ++ halves hdr.src ++
    halves hdr.dest

def Ip4Hdr.bytes (hdr : Ip4Hdr) : List UInt8 := hdr.words.flatMap octets

def Ip6Hdr.words (hdr : Ip6Hdr) : List (BitVec 16) :=
  [hdr.vClFl, hdr.flow2, hdr.len, hdr.nextHop] ++
    (List.finRange 4).flatMap (fun i => halves (hdr.src i)) ++
    (List.finRange 4).flatMap fun i => halves (hdr.dest i)

def Ip6Hdr.bytes (hdr : Ip6Hdr) : List UInt8 := hdr.words.flatMap octets

def halfwords : List UInt8 → List Nat
  | hi :: lo :: data => (hi.toNat * 256 + lo.toNat) :: halfwords data
  | [last] => [last.toNat * 256]
  | [] => []

inductive HostOrder where
  | little
  | big
  deriving DecidableEq

def HostOrder.htons (o : HostOrder) (w : Nat) : Nat :=
  match o with
  | .little => swap w
  | .big => w

def HostOrder.weight (o : HostOrder) : Nat :=
  match o with
  | .little => 256
  | .big => 1

def HostOrder.bytes (o : HostOrder) (v : BitVec 16) : List UInt8 :=
  match o with
  | .little => (octets v).reverse
  | .big => octets v

-- The words are read as the host stores them, the odd byte is padded.
def chksum (o : HostOrder) (data : List UInt8) : Nat :=
  ((halfwords data).map o.htons).sum % 4294967296

def inetChksum (o : HostOrder) (data : List UInt8) : BitVec 16 :=
  ~~~ BitVec.ofNat 16 (fold (chksum o data))

theorem Ip4Hdr.bytes_length (hdr : Ip4Hdr) : hdr.bytes.length = ip4Hlen := rfl

theorem halfwords_octets (w : BitVec 16) (data : List UInt8) :
    halfwords (octets w ++ data) = w.toNat :: halfwords data := by
  have hw := w.isLt
  have hv : w.toNat / 256 % 256 * 256 + w.toNat % 256 = w.toNat := by omega
  simpa [octets,halfwords] using hv

theorem halfwords_flatMap_octets (ws : List (BitVec 16)) (data : List UInt8) :
    halfwords (ws.flatMap octets ++ data) = ws.map BitVec.toNat ++ halfwords data := by
  induction ws with
  | nil => rfl
  | cons w ws ih => rw [List.flatMap_cons,List.append_assoc,halfwords_octets,ih]; rfl

theorem halfwords_take (data : List UInt8) (n : Nat) :
    halfwords (data.take (2 * n)) = (halfwords data).take n := by
  induction n generalizing data with
  | zero => simp [halfwords]
  | succ n ih =>
    match data with
    | [] => simp [halfwords]
    | [last] => rw [Nat.mul_succ]; simp [halfwords]
    | hi :: lo :: data => rw [Nat.mul_succ]; simp [halfwords,ih]

theorem halfwords_lt (data : List UInt8) : ∀ w ∈ halfwords data, w < 65536 := by
  induction data using halfwords.induct with
  | case1 hi lo data ih =>
    have hhi := hi.toNat_lt
    have hlo := lo.toNat_lt
    rw [halfwords,List.forall_mem_cons]
    exact ⟨by omega,ih⟩
  | case2 last =>
    have hlast := last.toNat_lt
    rw [halfwords,List.forall_mem_singleton]
    omega
  | case3 => simp [halfwords]

theorem halfwords_length (data : List UInt8) : (halfwords data).length = (data.length + 1) / 2 := by
  induction data using halfwords.induct with
  | case1 hi lo data ih =>
    rw [halfwords,List.length_cons,ih,List.length_cons,List.length_cons]
    omega
  | case2 last => simp [halfwords]
  | case3 => simp [halfwords]

theorem inetChksum_toNat {data : List UInt8} (h : (halfwords data).sum < 4294967296) :
    (inetChksum .big data).toNat = 65535 - fold (halfwords data).sum := by
  have hsum : chksum .big data = (halfwords data).sum := by
    have hid : (halfwords data).map HostOrder.big.htons = halfwords data := List.map_id _
    rw [chksum,hid,Nat.mod_eq_of_lt h]
  have hlt : fold (halfwords data).sum < 65536 := Nat.mod_lt _ (by decide)
  rw [inetChksum,hsum,BitVec.toNat_not,BitVec.toNat_ofNat,Nat.mod_eq_of_lt hlt]

theorem inetChksum_eq_zero_iff {data : List UInt8} (h : (halfwords data).sum < 4294967296) :
    inetChksum .big data = 0 ↔ (halfwords data).sum ≠ 0 ∧ (halfwords data).sum % 65535 = 0 := by
  have hlt : fold (halfwords data).sum < 65536 := Nat.mod_lt _ (by decide)
  have hz : inetChksum .big data = 0 ↔ (inetChksum .big data).toNat = 0 := BitVec.toNat_inj.symm
  rw [hz,inetChksum_toNat h,← fold_eq_ones_iff h]
  omega

def Ip4Hdr.summed (hdr : Ip4Hdr) : Ip4Hdr :=
  { hdr with chksum := inetChksum .big { hdr with chksum := 0 }.bytes }

theorem halfwords_bytes (hdr : Ip4Hdr) (data : List UInt8) :
    halfwords (hdr.bytes ++ data) = hdr.words.map BitVec.toNat ++ halfwords data :=
  halfwords_flatMap_octets hdr.words data

theorem inetChksum_summed (hdr : Ip4Hdr) : inetChksum .big hdr.summed.bytes = 0 := by
  have hw : ∀ h : Ip4Hdr, halfwords h.bytes = h.words.map BitVec.toNat := fun h => by
    simpa [halfwords] using halfwords_bytes h []
  have hsum : ∀ c : BitVec 16, (halfwords { hdr with chksum := c }.bytes).sum =
      (halfwords { hdr with chksum := 0 }.bytes).sum + c.toNat := fun c => by
    rw [hw,hw]
    simp only [Ip4Hdr.words,List.map_cons,List.map_append,List.sum_cons,List.sum_append,
      List.map_nil,List.sum_nil]
    have h0 : (0 : BitVec 16).toNat = 0 := rfl
    omega
  have hle := sum_le (halfwords_lt { hdr with chksum := 0 }.bytes)
  have hlen : (halfwords { hdr with chksum := 0 }.bytes).length = 10 := by
    rw [halfwords_length,Ip4Hdr.bytes_length,ip4Hlen]
  have hzero := @inetChksum_toNat { hdr with chksum := 0 }.bytes (by omega)
  have hfull : (halfwords hdr.summed.bytes).sum < 4294967296 := by
    rw [Ip4Hdr.summed,hsum]
    omega
  rw [← BitVec.toNat_inj,inetChksum_toNat hfull,Ip4Hdr.summed,hsum,hzero,fold_fill (by omega)]
  rfl

theorem toNat_and_ff (x : BitVec 16) : (x &&& 0xff).toNat = x.toNat % 256 := by
  rw [BitVec.toNat_and]
  exact Nat.and_two_pow_sub_one_eq_mod x.toNat 8

theorem toNat_shiftRight_eight (x : BitVec 16) : (x >>> 8).toNat = x.toNat / 256 := by
  rw [BitVec.toNat_ushiftRight,Nat.shiftRight_eq_div_pow]

theorem toNat_shiftLeft_eight (x : BitVec 16) : (x <<< 8).toNat = 2 ^ 8 * (x.toNat % 256) := by
  rw [BitVec.toNat_shiftLeft,Nat.shiftLeft_eq]
  omega

theorem ttlSet_pred (hdr : Ip4Hdr) :
    (hdr.ttlSet (hdr.ttl - 1)).ttlProto = hdr.ttlProto - 0x100 := by
  have hx := hdr.ttlProto.isLt
  have hlo : (hdr.ttlProto &&& 0xff).toNat < 2 ^ 8 := by
    rw [toNat_and_ff]
    exact Nat.mod_lt _ (by decide)
  have h1 : (1 : BitVec 16).toNat = 1 := rfl
  have h256 : (0x100 : BitVec 16).toNat = 256 := rfl
  apply BitVec.eq_of_toNat_eq
  rw [Ip4Hdr.ttlSet,Ip4Hdr.proto,Ip4Hdr.ttl,BitVec.toNat_or,Nat.or_comm,toNat_shiftLeft_eight,
    ← Nat.two_pow_add_eq_or_of_lt hlo,toNat_and_ff,BitVec.toNat_sub,BitVec.toNat_sub,
    toNat_shiftRight_eight,h1,h256]
  omega

theorem ttlSet_pred_ttl (hdr : Ip4Hdr) : (hdr.ttlSet (hdr.ttl - 1)).ttl = 0 ↔ hdr.ttl = 1 := by
  have hx := hdr.ttlProto.isLt
  have h1 : (1 : BitVec 16).toNat = 1 := rfl
  have h0 : (0 : BitVec 16).toNat = 0 := rfl
  have h256 : (0x100 : BitVec 16).toNat = 256 := rfl
  rw [Ip4Hdr.ttl,ttlSet_pred,Ip4Hdr.ttl,← BitVec.toNat_inj,← BitVec.toNat_inj,
    toNat_shiftRight_eight,toNat_shiftRight_eight,BitVec.toNat_sub,h0,h1,h256]
  omega

theorem hoplimitSet_pred_hoplimit (hdr : Ip6Hdr) :
    (hdr.hoplimitSet (hdr.hoplimit - 1)).hoplimit = 0 ↔ hdr.hoplimit = 1 := by
  have h1 : (1 : BitVec 16).toNat = 1 := rfl
  have h0 : (0 : BitVec 16).toNat = 0 := rfl
  have hhi : (hdr.nexthdr <<< 8) &&& 0xff = 0 := by
    rw [← BitVec.toNat_inj,toNat_and_ff,toNat_shiftLeft_eight]
    exact Nat.mul_mod_right _ _
  have hlo : (hdr.hoplimitSet (hdr.hoplimit - 1)).hoplimit = (hdr.hoplimit - 1) &&& 0xff := by
    rw [Ip6Hdr.hoplimitSet,Ip6Hdr.hoplimit,BitVec.and_comm,BitVec.and_or_distrib_left,
      BitVec.and_comm 0xff,hhi,BitVec.and_comm 0xff]
    exact BitVec.zero_or
  rw [hlo,← BitVec.toNat_inj,← BitVec.toNat_inj,toNat_and_ff,BitVec.toNat_sub,
    Ip6Hdr.hoplimit,toNat_and_ff,h0,h1]
  omega

theorem ttlSet_pred_proto (hdr : Ip4Hdr) : (hdr.ttlSet (hdr.ttl - 1)).proto = hdr.proto := by
  have hx := hdr.ttlProto.isLt
  have h256 : (0x100 : BitVec 16).toNat = 256 := rfl
  rw [Ip4Hdr.proto,ttlSet_pred,Ip4Hdr.proto,← BitVec.toNat_inj,toNat_and_ff,toNat_and_ff,
    BitVec.toNat_sub,h256]
  omega

end ViewOS.Lwip
