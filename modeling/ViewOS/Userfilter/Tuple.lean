import ViewOS.Userfilter.Packet

namespace ViewOS.Userfilter

open Lwip

inductive ConnDir where
  | original
  | reply
deriving DecidableEq

def ConnDir.other : ConnDir → ConnDir
  | .original => .reply
  | .reply => .original

-- The union upi: a port is its first half, an ICMP type and code its first half and the
-- identifier its second.
structure Upi where
  lo : BitVec 16
  hi : BitVec 16
deriving DecidableEq

def Upi.zero : Upi := ⟨0, 0⟩

def Upi.port (upi : Upi) : BitVec 16 := upi.lo

def Upi.type (upi : Upi) : Nat := (upi.lo >>> 8).toNat

def Upi.code (upi : Upi) : BitVec 16 := upi.lo &&& 0xff

def Upi.id (upi : Upi) : BitVec 16 := upi.hi

structure ProtoInfo where
  protonum : Nat
  upi : Upi
deriving DecidableEq

structure IpPair where
  ip : IpAddr
  proto : ProtoInfo
deriving DecidableEq

structure IpTuple where
  ipv : Nat
  src : IpPair
  dst : IpPair
deriving DecidableEq

def IpTuple.zero : IpTuple where
  ipv := 0
  src := ⟨ipAddrAny, 0, Upi.zero⟩
  dst := ⟨ipAddrAny, 0, Upi.zero⟩

def IpTuple.setSrcUpi (t : IpTuple) (upi : Upi) : IpTuple :=
  { t with src := { t.src with proto := { t.src.proto with upi := upi } } }

def IpTuple.setDstUpi (t : IpTuple) (upi : Upi) : IpTuple :=
  { t with dst := { t.dst with proto := { t.dst.proto with upi := upi } } }

def portTuple (tuple : IpTuple) (p : Payload) (h : Nat) : IpTuple :=
  (tuple.setSrcUpi ⟨p.word h, 0⟩).setDstUpi ⟨p.word (h + 1), 0⟩

def icmpTuple (tuple : IpTuple) (p : Payload) (h : Nat) : IpTuple :=
  tuple.setSrcUpi ⟨p.word h, p.word (h + 2)⟩

def trackTcpTuple : IpTuple → Payload → Nat → IpTuple := portTuple

def trackUdpTuple : IpTuple → Payload → Nat → IpTuple := portTuple

def trackIcmp4Tuple : IpTuple → Payload → Nat → IpTuple := icmpTuple

def trackIcmp6Tuple : IpTuple → Payload → Nat → IpTuple := icmpTuple

def TrackProtocol.tuple (proto : TrackProtocol) (tuple : IpTuple) (p : Payload) (h : Nat) :
    Option IpTuple :=
  match proto with
  | .tcp => some (trackTcpTuple tuple p h)
  | .udp => some (trackUdpTuple tuple p h)
  | .icmp4 => some (trackIcmp4Tuple tuple p h)
  | .icmp6 => some (trackIcmp6Tuple tuple p h)
  | .unknown => none

def tupleCreate (p : Payload) (o : Nat) (proto : TrackProtocol) : Option IpTuple :=
  if iphV p o = 6 then
    let tuple : IpTuple :=
      ⟨6, ⟨ip6Src p o, iphNexthdr p o, Upi.zero⟩, ⟨ip6Dest p o, 0, Upi.zero⟩⟩
    proto.tuple tuple p (dataoff p o)
  else if iphV p o = 4 then
    let tuple : IpTuple :=
      ⟨4, ⟨ip64Conv (ip4Src p o), iph4Proto p o, Upi.zero⟩,
        ⟨ip64Conv (ip4Dest p o), 0, Upi.zero⟩⟩
    proto.tuple tuple p (dataoff p o)
  else none

def portInverse (reply tuple : IpTuple) : IpTuple :=
  (reply.setSrcUpi ⟨tuple.dst.proto.upi.port, 0⟩).setDstUpi ⟨tuple.src.proto.upi.port, 0⟩

def icmpInverse (invmap : Nat → Option (BitVec 16)) (reply tuple : IpTuple) : Option IpTuple :=
  (invmap tuple.src.proto.upi.type).map fun (type : BitVec 16) =>
    reply.setSrcUpi ⟨type <<< 8 ||| tuple.src.proto.upi.code, tuple.src.proto.upi.id⟩

def invmap (type : Nat) : Option (BitVec 16) :=
  if type = 8 then some 0 else if type = 0 then some 8 else none

def invmap6 (type : Nat) : Option (BitVec 16) :=
  if type = 128 then some 129 else if type = 129 then some 128 else none

def trackTcpInverse (reply tuple : IpTuple) : Option IpTuple := some (portInverse reply tuple)

def trackUdpInverse (reply tuple : IpTuple) : Option IpTuple := some (portInverse reply tuple)

def trackIcmp4Inverse : IpTuple → IpTuple → Option IpTuple := icmpInverse invmap

def trackIcmp6Inverse : IpTuple → IpTuple → Option IpTuple := icmpInverse invmap6

def TrackProtocol.inverse (proto : TrackProtocol) (reply tuple : IpTuple) : Option IpTuple :=
  match proto with
  | .tcp => trackTcpInverse reply tuple
  | .udp => trackUdpInverse reply tuple
  | .icmp4 => trackIcmp4Inverse reply tuple
  | .icmp6 => trackIcmp6Inverse reply tuple
  | .unknown => none

-- What tuple_inverse leaves in the reply before the protocol fills in its part.
def IpTuple.swapped (tuple : IpTuple) : IpTuple where
  ipv := tuple.ipv
  src := ⟨tuple.dst.ip, tuple.src.proto.protonum, Upi.zero⟩
  dst := ⟨tuple.src.ip, 0, Upi.zero⟩

def tupleInverse (tuple : IpTuple) : Option IpTuple :=
  (trackProtoFind tuple.src.proto.protonum).inverse tuple.swapped tuple

end ViewOS.Userfilter
