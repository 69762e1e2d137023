import ViewOS.Lib.Slab
import ViewOS.Userfilter.Tcp

namespace ViewOS.Userfilter

open Lwip

inductive NatType where
  | none
  | snat
  | dnat
  | masquerade
deriving DecidableEq

structure Netif where
  id : Nat
  addrs : List IpAddr
deriving DecidableEq

structure RuleMatches where
  iface : Option Nat
  ipv : Nat
  srcIp : IpAddr
  dstIp : IpAddr
  protocol : Nat
  srcPort : BitVec 16
  dstPort : BitVec 16
deriving DecidableEq

-- The port values are the numbers the u16 fields hold; DNAT copies them as they stand into a
-- header field, SNAT counts with them.
structure ManipRange where
  flag : BitVec 8
  ipmin : IpAddr
  protomin : BitVec 16
  protomax : BitVec 16
deriving DecidableEq

structure NatRule where
  rule : RuleMatches
  type : NatType
  manip : ManipRange
deriving DecidableEq

structure TrackStatus where
  seenReply : Bool
  confirmed : Bool
  natTry : Bool
  masquerade : Bool
deriving DecidableEq

structure TrackData where
  tcp : IpCtTcp
  isstream : Bool
  count : BitVec 32
deriving DecidableEq

structure NatPcb where
  refcount : Nat
  status : TrackStatus
  original : IpTuple
  reply : IpTuple
  timeout : Nat
  proto : TrackData
  natType : NatType
  iface : Option Nat
deriving DecidableEq

def NatPcb.zero : NatPcb where
  refcount := 0
  status := ⟨false, false, false, false⟩
  original := IpTuple.zero
  reply := IpTuple.zero
  timeout := 0
  proto := ⟨IpCtTcp.zero, false, 0⟩
  natType := .none
  iface := none

def NatPcb.tuple (pcb : NatPcb) : ConnDir → IpTuple
  | .original => pcb.original
  | .reply => pcb.reply

-- A rule in a list is of a type nat_add_rule lets into it.
structure NatRules where
  inRules : List NatRule
  outRules : List NatRule
  inDnat : ∀ rule ∈ inRules, rule.type = .dnat
  outSnat : ∀ rule ∈ outRules, rule.type = .masquerade ∨ rule.type = .snat

-- The port tables lie one after the other and a set bit is a free port; timers holds the sessions
-- whose close_timeout is pending.
structure StackNat where
  pcbs : Slab NatPcb
  tentative : List Nat
  active : List Nat
  timers : List Nat
  rules : NatRules
  ports : Nat → Bool

inductive PortTable where
  | tcp
  | udp
  | icmp
deriving DecidableEq

def portsTableBits : Nat := 8 * (65535 / 8)

def PortTable.base : PortTable → Nat
  | .tcp => 0
  | .udp => portsTableBits
  | .icmp => 2 * portsTableBits

def natPortsTable : TrackProtocol → Option PortTable
  | .tcp => some .tcp
  | .udp => some .udp
  | .icmp4 | .icmp6 => some .icmp
  | .unknown => none

def getnewRange (ports : Nat → Bool) (base : Nat) (i : Nat) : Nat → Option Nat
  | 0 => none
  | n + 1 => if ports (base + i) then some i else getnewRange ports base (i + 1) n

def natPortsGetnew (ports : Nat → Bool) (proto : TrackProtocol) (min max : Nat) :
    Option (Nat × (Nat → Bool)) :=
  match natPortsTable proto with
  | none => none
  | some table =>
    (getnewRange ports table.base min (max - min)).map fun port =>
      (port, Function.update ports (table.base + port) false)

def natPortsFree (ports : Nat → Bool) (proto : TrackProtocol) (port : Nat) : Nat → Bool :=
  match natPortsTable proto with
  | none => ports
  | some table => Function.update ports (table.base + port) true

def natTcpFree (pcb : NatPcb) (ports : Nat → Bool) : Nat → Bool :=
  if pcb.natType = .snat then natPortsFree ports .tcp pcb.reply.dst.proto.upi.port.toNat else ports

def natUdpFree (pcb : NatPcb) (ports : Nat → Bool) : Nat → Bool :=
  if pcb.natType = .snat then natPortsFree ports .udp pcb.reply.dst.proto.upi.port.toNat else ports

def natIcmp4Free (pcb : NatPcb) (ports : Nat → Bool) : Nat → Bool :=
  if pcb.natType = .snat then natPortsFree ports .icmp4 pcb.reply.src.proto.upi.id.toNat else ports

def natIcmp6Free (pcb : NatPcb) (ports : Nat → Bool) : Nat → Bool :=
  if pcb.natType = .snat then natPortsFree ports .icmp6 pcb.reply.src.proto.upi.id.toNat else ports

def TrackProtocol.natFree : TrackProtocol → NatPcb → (Nat → Bool) → (Nat → Bool)
  | .tcp => natTcpFree
  | .udp => natUdpFree
  | .icmp4 => natIcmp4Free
  | .icmp6 => natIcmp6Free
  | .unknown => fun _ ports => ports

def StackNat.modify (s : StackNat) (k : Nat) (f : NatPcb → NatPcb) : StackNat :=
  { s with pcbs := s.pcbs.modify k f }

def natSessionGet (s : StackNat) (k : Nat) : StackNat :=
  s.modify k fun pcb => { pcb with refcount := pcb.refcount + 1 }

def natSessionRelease (s : StackNat) (k : Nat) (pcb : NatPcb) : StackNat where
  pcbs := s.pcbs.free k
  tentative := if pcb.status.confirmed then s.tentative else s.tentative.erase k
  active := s.active
  timers := s.timers
  rules := s.rules
  ports :=
    if pcb.natType = .none then s.ports
    else (trackProtoFind pcb.original.src.proto.protonum).natFree pcb s.ports

def natSessionPut (s : StackNat) (k : Nat) : StackNat :=
  match s.pcbs.cell k with
  | none => s
  | some pcb =>
    let s := s.modify k fun pcb => { pcb with refcount := pcb.refcount - 1 }
    if pcb.refcount - 1 = 0 then natSessionRelease s k pcb else s

def closeTimeout (s : StackNat) (k : Nat) : StackNat :=
  natSessionPut { s with active := s.active.erase k } k

def connRemoveTimer (s : StackNat) (k : Nat) : Bool × StackNat :=
  (decide (k ∈ s.timers), { s with timers := s.timers.erase k })

def connForceTimeout : StackNat → Nat → StackNat := closeTimeout

-- sys_timeout returns silently when it gets no memory.
def sysTimeout (mem : Bool) (s : StackNat) (k : Nat) : StackNat :=
  if mem then { s with timers := k :: s.timers } else s

def connRefreshTimer (mem : Bool) (timeout : Nat) (s : StackNat) (k : Nat) : StackNat :=
  match connRemoveTimer (s.modify k fun pcb => { pcb with timeout := timeout }) k with
  | (false, s) => s
  | (true, s) => sysTimeout mem s k

def connKill (s : StackNat) (k : Nat) : StackNat :=
  match connRemoveTimer s k with
  | (true, s) => connForceTimeout s k
  | (false, s) => s

inductive ConnInfo where
  | established
  | related
  | new
  | establishedReply
  | relatedReply
deriving DecidableEq

-- chained: the packet is not in one piece, len < tot_len.
structure Pbuf where
  payload : Payload
  chained : Bool
  track : Option Nat
  dir : ConnDir
  info : ConnInfo

def natPbufInit (payload : Payload) (chained : Bool) : Pbuf :=
  ⟨payload, chained, none, .original, .established⟩

def natPbufPut (s : StackNat) (p : Pbuf) : StackNat × Pbuf :=
  match p.track with
  | none => (s, p)
  | some k => (natSessionPut s k, { p with track := none, dir := .original, info := .established })

def natPbufClone (s : StackNat) (r p : Pbuf) : StackNat × Pbuf :=
  match p.track with
  | none => (s, r)
  | some k => (natSessionGet s k, { r with track := some k, dir := p.dir, info := p.info })

end ViewOS.Userfilter
