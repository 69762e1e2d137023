import ViewOS.Lwip.Header

namespace ViewOS.Userfilter

open Lwip

inductive UfHook where
  | preRouting
  | localIn
  | forward
  | localOut
  | postRouting
deriving DecidableEq

inductive UfVerdict where
  | drop
  | accept
  | again
  | stolen
deriving DecidableEq

-- A contiguous packet as the 16-bit words ntohs reads; a word past the end reads as zero.
structure Payload where
  words : List (BitVec 16)
  totLen : Nat
  fits : words.length = (totLen + 1) / 2
  bound : totLen < 65536

def Payload.word (p : Payload) (i : Nat) : BitVec 16 := p.words.getD i 0

theorem Payload.put_fits (p : Payload) (i : Nat) (w : BitVec 16) :
    (p.words.set i w).length = (p.totLen + 1) / 2 := by
  rw [List.length_set]
  exact p.fits

def Payload.put (p : Payload) (i : Nat) (w : BitVec 16) : Payload where
  words := p.words.set i w
  totLen := p.totLen
  fits := p.put_fits i w
  bound := p.bound

def Payload.putAll (p : Payload) (i : Nat) : List (BitVec 16) → Payload
  | [] => p
  | w :: ws => (p.put i w).putAll (i + 1) ws

def Payload.byte (p : Payload) (i : Nat) : BitVec 8 :=
  if i % 2 = 0 then (p.word (i / 2)).extractLsb' 8 8 else (p.word (i / 2)).extractLsb' 0 8

def Payload.long (p : Payload) (i : Nat) : BitVec 32 := p.word i ++ p.word (i + 1)

section Header

variable (p : Payload) (o : Nat)

def iphV : Nat := (p.word o >>> 12).toNat

def iph4Hl : Nat := ((p.word o >>> 8) &&& 0x0f).toNat

def iph4Proto : Nat := (p.word (o + 4) &&& 0xff).toNat

def iphNexthdr : Nat := (p.word (o + 3) >>> 8).toNat

def ip64Conv (ip4 : BitVec 32) : IpAddr := fun i =>
  if i = w3 then ip4 else if i = w2 then ip64Prefix else 0

def ipAt (i : Nat) : IpAddr := fun j => p.long (i + 2 * j.val)

def ip4Src : BitVec 32 := p.long (o + 6)

def ip4Dest : BitVec 32 := p.long (o + 8)

def ip6Src : IpAddr := ipAt p (o + 4)

def ip6Dest : IpAddr := ipAt p (o + 12)

end Header

def ipAddrWords (a : IpAddr) : List (BitVec 16) := (List.finRange 4).flatMap fun i => halves (a i)

def ipAddrIsV4multicast (addr : IpAddr) : Bool :=
  addr w0 = 0 ∧ addr w1 = 0 ∧ addr w2 = ip64Prefix ∧ addr w3 &&& 0xf0000000 = 0xe0000000

inductive TrackProtocol where
  | tcp
  | udp
  | icmp4
  | icmp6
  | unknown
deriving DecidableEq

def trackProtoFind (protocol : Nat) : TrackProtocol :=
  if protocol = 6 then .tcp
  else if protocol = 17 then .udp
  else if protocol = 1 then .icmp4
  else if protocol = 58 then .icmp6
  else .unknown

def ipProtocol (p : Payload) (o : Nat) : Option Nat :=
  if iphV p o = 6 then some (iphNexthdr p o)
  else if iphV p o = 4 then some (iph4Proto p o)
  else none

def dataoff (p : Payload) (o : Nat) : Nat :=
  if iphV p o = 6 then o + 20 else o + 2 * iph4Hl p o

def connNeedTrack (p : Payload) : Bool :=
  if iphV p 0 = 6 then
    !(ipAddrIsmulticast (ip6Dest p 0) || ipAddrIsmulticast (ip6Src p 0) ||
      ipAddrIslinkscope (ip6Dest p 0) || ipAddrIslinkscope (ip6Src p 0))
  else if iphV p 0 = 4 then !ipAddrIsV4multicast (ip64Conv (ip4Dest p 0))
  else true

end ViewOS.Userfilter
