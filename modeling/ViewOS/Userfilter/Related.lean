import Mathlib.Algebra.BigOperators.Intervals
import Mathlib.Algebra.Order.BigOperators.Group.Finset
import ViewOS.Userfilter.Admission

namespace ViewOS.Userfilter

open Lwip OnesSum Transition

def Payload.term (p : Payload) (i : Nat) : Nat :=
  if 2 * i + 1 < p.totLen then (p.word i).toNat else (p.word i).toNat / 256 * 256

def Payload.sum (p : Payload) (i j : Nat) : Nat := ∑ n ∈ Finset.Ico i j, p.term n

def Ip4Sound (p : Payload) (o : Nat) : Prop := fold (p.sum o (o + 2 * iph4Hl p o)) = 65535

def manipAddr (nat : NatManip) (p : Payload) : BitVec 32 :=
  match nat with
  | .dst => ip4Dest p 0
  | .src => ip4Src p 0

def inverseAddr (nat : NatManip) (inverse : IpTuple) : BitVec 32 :=
  match nat with
  | .dst => inverse.src.ip w3
  | .src => inverse.dst.ip w3

structure RelatedMessage (s : StackNat) (p : Pbuf) (k : Nat) (pcb : NatPcb) : Prop where
  protocol : ipProtocol p.payload 0 = some 1
  error : icmp4IsError (icmpType p.payload (dataoff p.payload 0)) = true
  classified : (trackIcmp4Error s p).failed = false
  track : (trackIcmp4Error s p).pbuf.track = some k
  cell : (trackIcmp4Error s p).nat.pcbs.cell k = some pcb
  confirmed : pcb.status.confirmed = true
  natted : pcb.natType = .snat ∨ pcb.natType = .dnat

structure ErrorTranslated (s : StackNat) (p : Pbuf) (pcb : NatPcb) (hook : UfHook) (netif : Netif) :
    Prop where
  passed : (natPerform s p hook netif).1 ≠ .drop
  outer : manipAddr (natTodo pcb p.dir) (natPerform s p hook netif).2.2.payload =
    inverseAddr (natTodo pcb p.dir) (pcb.tuple p.dir.other)
  inner : insideTuple (natPerform s p hook netif).2.2.payload = some (pcb.tuple p.dir.other)
  outerSum : Ip4Sound (natPerform s p hook netif).2.2.payload 0
  innerSum : Ip4Sound (natPerform s p hook netif).2.2.payload
    (dataoff (natPerform s p hook netif).2.2.payload 0 + 4)
  icmpSum : fold ((natPerform s p hook netif).2.2.payload.sum
    (dataoff (natPerform s p hook netif).2.2.payload 0)
    (natPerform s p hook netif).2.2.payload.words.length) = 65535

section Dropped

variable {s : StackNat} {p : Pbuf} {k : Nat} {pcb : NatPcb}

theorem errorMessage_related (h : (errorMessage s p).failed = false) :
    (errorMessage s p).pbuf.payload = p.payload ∧
      ((errorMessage s p).pbuf.info = .related ∨ (errorMessage s p).pbuf.info = .relatedReply) := by
  rw [errorMessage] at h ⊢
  cases hi : (insideTuple p.payload).bind tupleInverse with
  | none =>
    rw [hi] at h
    cases h
  | some inverse =>
    rw [hi] at h
    dsimp only at h ⊢
    cases hf : connFindTrack s inverse with
    | none =>
      rw [hf] at h
      cases h
    | some found =>
      obtain ⟨j,d⟩ := found
      cases d with
      | original => exact ⟨rfl,.inl rfl⟩
      | reply => exact ⟨rfl,.inr rfl⟩

theorem RelatedMessage.eq_errorMessage (h : RelatedMessage s p k pcb) :
    trackIcmp4Error s p = errorMessage s p := by
  have hfailed := h.classified
  rw [trackIcmp4Error] at hfailed ⊢
  split_ifs at hfailed ⊢ with hv ht he
  · rfl
  · exact absurd h.error he

theorem natPerform_related (hook : UfHook) (netif : Netif) (ht : p.track = some k)
    (hc : s.pcbs.cell k = some pcb) (hp : ipProtocol p.payload 0 = some 1)
    (hi : p.info = .related ∨ p.info = .relatedReply) :
    natPerform s p hook netif = (.drop, s, p) := by
  have htrans : icmpReplyTranslation pcb p (hook2manip hook) = (false, p) := if_pos hi
  rw [natPerform,ht]
  dsimp only
  rw [hc,hp]
  dsimp only
  rcases hi with hi | hi
  · rw [hi]
    dsimp only
    rw [if_pos (.inr rfl),htrans]
  · rw [hi]
    dsimp only
    rw [if_pos (.inr rfl),htrans]

theorem related_error_dropped (h : RelatedMessage s p k pcb) (hook : UfHook) (netif : Netif) :
    ¬ ErrorTranslated (trackIcmp4Error s p).nat (trackIcmp4Error s p).pbuf pcb hook netif := by
  intro ht
  have heq := h.eq_errorMessage
  obtain ⟨hpay,hinfo⟩ := errorMessage_related (heq ▸ h.classified)
  have hdrop : natPerform (trackIcmp4Error s p).nat (trackIcmp4Error s p).pbuf hook netif =
      (.drop, (trackIcmp4Error s p).nat, (trackIcmp4Error s p).pbuf) :=
    natPerform_related hook netif h.track h.cell (by rw [heq,hpay,h.protocol])
      (by rw [heq]; exact hinfo)
  refine ht.passed ?_
  rw [hdrop]

end Dropped

def unreachableWords : List (BitVec 16) :=
  [0x4500, 56, 0, 0, 0x4001, 0x1487, 0xcb00, 0x7109, 0xc633, 0x6401, 0x0301, 0xf4c6, 0, 0,
    0x4500, 40, 0, 0, 0x3f06, 0x8f9a, 0xc633, 0x6401, 0xc000, 0x0201, 1024, 80, 0, 1000]

theorem unreachable_fits : unreachableWords.length = (56 + 1) / 2 := rfl

theorem unreachable_bound : 56 < 65536 := by decide

def unreachable : Payload := ⟨unreachableWords, 56, unreachable_fits, unreachable_bound⟩

def everything : RuleMatches := ⟨none, 4, ipAddrAny, ipAddrAny, 0xffff, 0, 0⟩

def snatRule : NatRule := ⟨everything, .snat, ⟨0x02, ip64Conv 0xc6336401, 1024, 1034⟩⟩

def uplink : Netif := ⟨1, [ip64Conv 0xc6336401]⟩

def forwardTrace (rule : NatRule) : List Event :=
  [.addRule .postRouting rule, .alloc (segment 0x02) false, .track 0 plenty,
    .perform 0 .preRouting uplink, .perform 0 .postRouting uplink, .confirm 0 plenty]

def Unreachable (σ : System) (pcb : NatPcb) : Prop :=
  exec step natInit (forwardTrace snatRule) = some σ ∧
    RelatedMessage σ.nat (natPbufInit unreachable false) 0 pcb ∧
    natTodo pcb (trackIcmp4Error σ.nat (natPbufInit unreachable false)).pbuf.dir =
      hook2manip .preRouting

theorem unreachable_related : ∃ σ pcb, Unreachable σ pcb :=
  ⟨_,_,rfl,⟨by decide,by decide,by decide,by decide,rfl,rfl,.inl rfl⟩,rfl⟩

theorem unreachable_not_translated :
    ∃ σ pcb, Unreachable σ pcb ∧
      ¬ ErrorTranslated (trackIcmp4Error σ.nat (natPbufInit unreachable false)).nat
        (trackIcmp4Error σ.nat (natPbufInit unreachable false)).pbuf pcb .preRouting uplink := by
  obtain ⟨σ,pcb,h⟩ := unreachable_related
  exact ⟨σ,pcb,h,related_error_dropped h.2.1 .preRouting uplink⟩

theorem unreachable_dropped :
    ∃ σ pcb, Unreachable σ pcb ∧
      (natTrack plenty σ.nat (natPbufInit unreachable false)).1 = .drop ∧
      (natPerform (trackIcmp4Error σ.nat (natPbufInit unreachable false)).nat
        (trackIcmp4Error σ.nat (natPbufInit unreachable false)).pbuf .preRouting uplink).1 = .drop ∧
      ¬ ErrorTranslated (trackIcmp4Error σ.nat (natPbufInit unreachable false)).nat
        (trackIcmp4Error σ.nat (natPbufInit unreachable false)).pbuf pcb .preRouting uplink :=
  ⟨_,_,⟨rfl,⟨by decide,by decide,by decide,by decide,rfl,rfl,.inl rfl⟩,rfl⟩,by decide,rfl,
    fun h => h.passed rfl⟩

end ViewOS.Userfilter
