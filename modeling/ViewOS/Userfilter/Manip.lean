import ViewOS.Userfilter.Track

namespace ViewOS.Userfilter

open Lwip

inductive NatManip where
  | dst
  | src
deriving DecidableEq

def NatManip.other : NatManip → NatManip
  | .dst => .src
  | .src => .dst

def nat2manip (type : NatType) : NatManip := if type = .dnat then .dst else .src

def hook2manip (hook : UfHook) : NatManip := if hook = .preRouting then .dst else .src

def chksumSub (x : Int) (old : BitVec 16) : Int :=
  let x := x - old.toNat
  if x ≤ 0 then (x - 1) % 65536 else x

def chksumAdd (x : Int) (new : BitVec 16) : Int :=
  let x := x + new.toNat
  if 65536 ≤ x then (x + 1) % 65536 else x

def natChksumAdjust (chksum : BitVec 16) (olds news : List (BitVec 16)) : BitVec 16 :=
  ~~~ BitVec.ofInt 16 (news.foldl chksumAdd (olds.foldl chksumSub ((~~~ chksum).toNat)))

def Payload.adjust (p : Payload) (i : Nat) (olds news : List (BitVec 16)) : Payload :=
  p.put i (natChksumAdjust (p.word i) olds news)

structure Changed where
  olds : List (BitVec 16)
  news : List (BitVec 16)

def manipIp4 (p : Payload) (o pos : Nat) (ip : IpAddr) : Payload × Changed :=
  let old := halves (p.long pos)
  let new := halves (ip w3)
  ((p.putAll pos new).adjust (o + 5) old new, ⟨old, new⟩)

def manipIp6 (p : Payload) (pos : Nat) (ip : IpAddr) : Payload × Changed :=
  let old := ipAddrWords (ipAt p pos)
  let new := ipAddrWords ip
  (p.putAll pos new, ⟨old, new⟩)

def manipIp (nat : NatManip) (p : Payload) (o : Nat) (inverse : IpTuple) : Payload × Changed :=
  if inverse.ipv = 4 then
    match nat with
    | .dst => manipIp4 p o (o + 8) inverse.src.ip
    | .src => manipIp4 p o (o + 6) inverse.dst.ip
  else if inverse.ipv = 6 then
    match nat with
    | .dst => manipIp6 p (o + 12) inverse.src.ip
    | .src => manipIp6 p (o + 4) inverse.dst.ip
  else (p, ⟨[], []⟩)

def setPort (p : Payload) (i chk : Nat) (port : BitVec 16) : Payload :=
  (p.put i port).adjust chk [p.word i] [port]

def manipPort (nat : NatManip) (p : Payload) (h chk : Nat) (inverse : IpTuple) : Payload :=
  match nat with
  | .dst => setPort p (h + 1) chk inverse.src.proto.upi.port
  | .src => setPort p h chk inverse.dst.proto.upi.port

def natTcpManip (nat : NatManip) (p : Payload) (h : Nat) (inverse : IpTuple) (c : Changed) :
    Payload :=
  manipPort nat (p.adjust (h + 8) c.olds c.news) h (h + 8) inverse

-- The ports are set inside the test for a checksum.
def natUdpManip (nat : NatManip) (p : Payload) (h : Nat) (inverse : IpTuple) (c : Changed) :
    Payload :=
  if p.word (h + 3) ≠ 0 then
    manipPort nat (p.adjust (h + 3) c.olds c.news) h (h + 3) inverse
  else p

def natIcmp4Manip (p : Payload) (h : Nat) (inverse : IpTuple) : Payload :=
  if icmpType p h = 8 ∨ icmpType p h = 0 then setPort p (h + 2) (h + 1) inverse.src.proto.upi.id
  else p

def natIcmp6Manip (p : Payload) (h : Nat) (inverse : IpTuple) (c : Changed) : Payload :=
  if icmpType p h = 128 ∨ icmpType p h = 129 then
    setPort (p.adjust (h + 1) c.olds c.news) (h + 2) (h + 1) inverse.src.proto.upi.id
  else p

def TrackProtocol.manip (proto : TrackProtocol) (nat : NatManip) (p : Payload) (h : Nat)
    (inverse : IpTuple) (c : Changed) : Payload :=
  match proto with
  | .tcp => natTcpManip nat p h inverse c
  | .udp => natUdpManip nat p h inverse c
  | .icmp4 => natIcmp4Manip p h inverse
  | .icmp6 => natIcmp6Manip p h inverse c
  | .unknown => p

def natModifyIp (nat : NatManip) (p : Payload) (o : Nat) (inverse : IpTuple) (innerproto : Bool) :
    Payload :=
  let (q, c) := manipIp nat p o inverse
  if innerproto then
    let h := if inverse.ipv = 6 then o + 20 else o + 2 * iph4Hl q o
    (trackProtoFind inverse.src.proto.protonum).manip nat q h inverse c
  else q

def natTodo (pcb : NatPcb) (dir : ConnDir) : NatManip :=
  match dir with
  | .original => nat2manip pcb.natType
  | .reply => (nat2manip pcb.natType).other

-- The test is the wrong way round: a message that is related is sent back with -1.
def icmpReplyTranslation (pcb : NatPcb) (p : Pbuf) (natHere : NatManip) : Bool × Pbuf :=
  if p.info = .related ∨ p.info = .relatedReply then (false, p)
  else
    let inverse := pcb.tuple p.dir.other
    match tupleInverse inverse with
    | none => (false, p)
    | some innerInverse =>
      let todo := natTodo pcb p.dir
      if todo ≠ natHere then (true, p)
      else
        let inside := dataoff p.payload 0 + 4
        let payload := natModifyIp todo.other p.payload inside innerInverse true
        (true, { p with payload := natModifyIp todo payload 0 inverse false })

def natDo (s : StackNat) (k : Nat) (p : Pbuf) (natHere : NatManip) : UfVerdict × StackNat × Pbuf :=
  match s.pcbs.cell k with
  | none => (.accept, s, p)
  | some pcb =>
    if pcb.natType = .none then (.accept, s, p)
    else if natTodo pcb p.dir = natHere then
      (.accept, s,
        { p with payload := natModifyIp natHere p.payload 0 (pcb.tuple p.dir.other) true })
    else (.accept, s, p)

def natPerformNew (s : StackNat) (k : Nat) (pcb : NatPcb) (p : Pbuf) (hook : UfHook)
    (netif : Netif) : UfVerdict × StackNat × Pbuf :=
  if pcb.natType = .none ∧ pcb.status.natTry = false then
    match natCheckRule s k pcb hook netif with
    | (false, s) => (.drop, s, p)
    | (true, s) => natDo s k p (hook2manip hook)
  else natDo s k p (hook2manip hook)

-- netif is inif at PRE_ROUTING and outif at POST_ROUTING.
def natPerform (s : StackNat) (p : Pbuf) (hook : UfHook) (netif : Netif) :
    UfVerdict × StackNat × Pbuf :=
  match p.track with
  | none => (.accept, s, p)
  | some k =>
    match s.pcbs.cell k, ipProtocol p.payload 0 with
    | none, _ => (.accept, s, p)
    | some _, none => (.drop, s, p)
    | some pcb, some proto =>
      match p.info with
      | .related | .relatedReply =>
        if proto = 58 ∨ proto = 1 then
          match icmpReplyTranslation pcb p (hook2manip hook) with
          | (false, p) => (.drop, s, p)
          | (true, p) => (.accept, s, p)
        else natPerformNew s k pcb p hook netif
      | .new => natPerformNew s k pcb p hook netif
      | .established | .establishedReply => natDo s k p (hook2manip hook)

end ViewOS.Userfilter
