import ViewOS.Userfilter.Rules

namespace ViewOS.Userfilter

open Lwip

-- Which allocations of a hook succeed: a clone of the packet, a session, a timer.
structure Memory where
  pbuf : Bool
  pcb : Bool
  timer : Bool
deriving DecidableEq

def natIdleIcmpTimeout : Nat := 30000

def natIdleUdpTimeout : Nat := 30000

def natIdleUdpStreamTimeout : Nat := 180000

def trackUdpNew (pcb : NatPcb) : Int × NatPcb :=
  (1, { pcb with proto := { pcb.proto with isstream := false }, timeout := natIdleUdpTimeout })

def trackIcmpNew (pcb : NatPcb) : Int × NatPcb :=
  (1, { pcb with proto := { pcb.proto with count := 0 }, timeout := natIdleIcmpTimeout })

def trackTcpNew (pcb : NatPcb) (p : Payload) (th : Nat) : Int × NatPcb :=
  let r := trackTcpNew2 pcb.proto.tcp p th
  (r.1, { pcb with proto := { pcb.proto with tcp := r.2 } })

def TrackProtocol.new (proto : TrackProtocol) (pcb : NatPcb) (p : Payload) (h : Nat) :
    Int × NatPcb :=
  match proto with
  | .tcp => trackTcpNew pcb p h
  | .udp => trackUdpNew pcb
  | .icmp4 | .icmp6 => trackIcmpNew pcb
  | .unknown => (1, pcb)

def trackUdpHandle (pcb : NatPcb) (dir : ConnDir) : Handled TrackData :=
  match dir with
  | .reply => ⟨{ pcb.proto with isstream := true }, false, some natIdleUdpStreamTimeout, false, .accept⟩
  | .original => ⟨pcb.proto, false, some pcb.timeout, false, .accept⟩

def trackIcmpHandle (pcb : NatPcb) (dir : ConnDir) : Handled TrackData :=
  match dir with
  | .original =>
    ⟨{ pcb.proto with count := pcb.proto.count + 1 }, false, some pcb.timeout, false, .accept⟩
  | .reply =>
    ⟨{ pcb.proto with count := pcb.proto.count - 1 }, pcb.proto.count - 1 = 0, some pcb.timeout,
      false, .accept⟩

def trackTcpHandle (pcb : NatPcb) (dir : ConnDir) (p : Payload) : Handled TrackData :=
  let r := trackTcpHandle2 pcb.proto.tcp pcb.status.seenReply dir p
  ⟨{ pcb.proto with tcp := r.data }, r.kill, r.refresh, r.invalid, r.verdict⟩

def TrackProtocol.handle (proto : TrackProtocol) (pcb : NatPcb) (dir : ConnDir) (p : Payload) :
    Handled TrackData :=
  match proto with
  | .tcp => trackTcpHandle pcb dir p
  | .udp => trackUdpHandle pcb dir
  | .icmp4 | .icmp6 => trackIcmpHandle pcb dir
  | .unknown => ⟨pcb.proto, false, none, true, .drop⟩

def applyHandled (mem : Memory) (s : StackNat) (k : Nat) (h : Handled TrackData) : StackNat :=
  let s := s.modify k fun pcb => { pcb with proto := h.data }
  let s := if h.kill then connKill s k else s
  match h.refresh with
  | none => s
  | some timeout => connRefreshTimer mem.timer timeout s k

def connFindTrack (s : StackNat) (tuple : IpTuple) : Option (Nat × ConnDir) :=
  s.active.findSome? fun k => (s.pcbs.cell k).bind fun pcb =>
    if pcb.original = tuple then some (k, .original)
    else if pcb.reply = tuple then some (k, .reply)
    else none

-- Whether error returned a value below zero, its verdict, and what it did to the packet.
structure Checked where
  failed : Bool
  verdict : UfVerdict
  nat : StackNat
  pbuf : Pbuf

-- The embedded packet begins after the eight bytes of the ICMP header. The handler of its
-- protocol is chosen by the version of the outer header.
def insideTuple (p : Payload) : Option IpTuple :=
  let inside := dataoff p 0 + 4
  let innerproto :=
    if iphV p 0 = 4 then trackProtoFind (iph4Proto p inside)
    else trackProtoFind (iphNexthdr p inside)
  tupleCreate p inside innerproto

def errorMessage (s : StackNat) (p : Pbuf) : Checked :=
  match (insideTuple p.payload).bind tupleInverse with
  | none => ⟨true, .accept, s, p⟩
  | some inverse =>
    match connFindTrack s inverse with
    | none => ⟨true, .drop, s, p⟩
    | some (k, dir) =>
      ⟨false, .accept, natSessionGet s k,
        { p with
          track := some k
          dir := dir
          info := if dir = .reply then .relatedReply else .related }⟩

def icmpType (p : Payload) (h : Nat) : Nat := (p.word h >>> 8).toNat

def icmp4IsError (type : Nat) : Bool := type = 3 ∨ type = 4 ∨ type = 11 ∨ type = 12 ∨ type = 5

def icmp6IsError (type : Nat) : Bool := type = 1 ∨ type = 2 ∨ type = 3 ∨ type = 12 ∨ type = 5

def icmp6IsDiscovery (type : Nat) : Bool := type = 133 ∨ type = 134 ∨ type = 135 ∨ type = 136

def trackIcmp4Error (s : StackNat) (p : Pbuf) : Checked :=
  let type := icmpType p.payload (dataoff p.payload 0)
  if iphV p.payload 0 ≠ 4 then ⟨true, .drop, s, p⟩
  else if 16 < type then ⟨true, .drop, s, p⟩
  else if icmp4IsError type then errorMessage s p
  else ⟨false, .accept, s, p⟩

def trackIcmp6Error (s : StackNat) (p : Pbuf) : Checked :=
  let type := icmpType p.payload (dataoff p.payload 0)
  if iphV p.payload 0 ≠ 6 then ⟨true, .drop, s, p⟩
  else if icmp6IsDiscovery type then ⟨true, .accept, s, p⟩
  else if icmp6IsError type then errorMessage s p
  else ⟨false, .accept, s, p⟩

def TrackProtocol.error (proto : TrackProtocol) (s : StackNat) (p : Pbuf) : Checked :=
  match proto with
  | .tcp | .udp => ⟨false, .accept, s, p⟩
  | .icmp4 => trackIcmp4Error s p
  | .icmp6 => trackIcmp6Error s p
  | .unknown => ⟨true, .drop, s, p⟩

def newPcb (original reply : IpTuple) : NatPcb :=
  { NatPcb.zero with original := original, reply := reply }

-- A session whose tuple has no inverse is left allocated, outside both lists.
def newTrack (mem : Memory) (proto : TrackProtocol) (s : StackNat) (p : Payload)
    (tuple : IpTuple) : StackNat × Option Nat :=
  if mem.pcb then
    let k := s.pcbs.fresh
    match tupleInverse tuple with
    | none => ({ s with pcbs := s.pcbs.alloc (newPcb tuple tuple.swapped) }, none)
    | some reply =>
      if tuple.ipv = 6 ∨ tuple.ipv = 4 then
        let r := proto.new (newPcb tuple reply) p (dataoff p 0)
        if r.1 < 0 then ({ s with pcbs := (s.pcbs.alloc r.2).free k }, none)
        else
          ({ s with
              pcbs := s.pcbs.alloc { r.2 with refcount := 1 }
              tentative := k :: s.tentative }, some k)
      else ({ s with pcbs := s.pcbs.alloc (newPcb tuple reply) }, none)
  else (s, none)

def trackInfo (s : StackNat) (k : Nat) (dir : ConnDir) : ConnInfo :=
  match dir with
  | .reply => .establishedReply
  | .original =>
    if ((s.pcbs.cell k).map fun pcb => pcb.status.seenReply) = some true then .established else .new

def attach (s : StackNat) (p : Pbuf) (k : Nat) (dir : ConnDir) : Pbuf :=
  { p with track := some k, dir := dir, info := trackInfo s k dir }

def connTrack (mem : Memory) (proto : TrackProtocol) (s : StackNat) (p : Pbuf) :
    StackNat × Option (Pbuf × Nat × ConnDir) :=
  match tupleCreate p.payload 0 proto with
  | none => (s, none)
  | some tuple =>
    match connFindTrack s tuple with
    | some (k, dir) => (natSessionGet s k, some (attach s p k dir, k, dir))
    | none =>
      match newTrack mem proto s p.payload tuple with
      | (s, none) => (s, none)
      | (s, some k) => (s, some (attach s p k .original, k, .original))

def pbufMakeWritable (mem : Memory) (p : Pbuf) : Option Pbuf :=
  if p.chained then (if mem.pbuf then some (natPbufInit p.payload false) else none) else some p

def trackHandle (mem : Memory) (proto : TrackProtocol) (s : StackNat) (p : Pbuf) (k : Nat)
    (dir : ConnDir) : UfVerdict × StackNat × Pbuf :=
  match s.pcbs.cell k with
  | none => (.drop, s, p)
  | some pcb =>
    let h := proto.handle pcb dir p.payload
    let s := applyHandled mem s k h
    if h.invalid then (h.verdict, natSessionPut s k, { p with track := none })
    else
      match dir with
      | .reply =>
        (h.verdict,
          s.modify k fun pcb => { pcb with status := { pcb.status with seenReply := true } }, p)
      | .original => (h.verdict, s, p)

def natTrackPacket (mem : Memory) (proto : TrackProtocol) (s : StackNat) (p : Pbuf) :
    UfVerdict × StackNat × Pbuf :=
  let c := proto.error s p
  if c.failed then (c.verdict, c.nat, c.pbuf)
  else if !connNeedTrack p.payload then (.accept, c.nat, c.pbuf)
  else
    match connTrack mem proto c.nat c.pbuf with
    | (s, none) => (.drop, s, c.pbuf)
    | (s, some (p, k, dir)) => trackHandle mem proto s p k dir

def natTrack (mem : Memory) (s : StackNat) (p : Pbuf) : UfVerdict × StackNat × Pbuf :=
  let (s, p) := natPbufPut s p
  match pbufMakeWritable mem p with
  | none => (.accept, s, p)
  | some p =>
    match ipProtocol p.payload 0 with
    | none => (.drop, s, p)
    | some protocol => natTrackPacket mem (trackProtoFind protocol) s p

def natConfirm (mem : Memory) (s : StackNat) (p : Pbuf) : UfVerdict × StackNat × Pbuf :=
  match p.track with
  | none => (.accept, s, p)
  | some k =>
    if ((s.pcbs.cell k).map fun pcb => pcb.status.confirmed) = some false then
      let s := s.modify k fun pcb => { pcb with
        status := { pcb.status with confirmed := true }
        refcount := pcb.refcount + 1 }
      let s := sysTimeout mem.timer s k
      (.accept, { s with tentative := s.tentative.erase k, active := k :: s.active }, p)
    else (.accept, s, p)

end ViewOS.Userfilter
