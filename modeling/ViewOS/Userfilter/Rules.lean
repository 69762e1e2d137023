import ViewOS.Userfilter.Session

namespace ViewOS.Userfilter

open Lwip

def isIgnoreIp (addr : IpAddr) : Bool := addr w3 = 0 ∧ addr w2 = 0 ∧ addr w0 = 0 ∧ addr w1 = 0

def isIgnoreProto (protocol : Nat) : Bool := protocol = 0xffff

def isIgnorePort (port : BitVec 16) : Bool := port = 0

-- ip_addr_cmp is true for equal addresses, so a rule that names an address refuses exactly the
-- tuples that have it.
def matchIp (wanted addr : IpAddr) : Bool := isIgnoreIp wanted || !ipAddrCmp wanted addr

def matchPort (wanted port : BitVec 16) : Bool := isIgnorePort wanted || wanted = port

def natMatchRule (rule : RuleMatches) (iface : Netif) (tuple : IpTuple) : Bool :=
  (rule.iface.isNone || rule.iface = some iface.id) &&
  rule.ipv = tuple.ipv &&
  matchIp rule.srcIp tuple.src.ip &&
  matchIp rule.dstIp tuple.dst.ip &&
  (isIgnoreProto rule.protocol || rule.protocol = tuple.src.proto.protonum) &&
  (tuple.src.proto.protonum ≠ 6 && tuple.src.proto.protonum ≠ 17 ||
    matchPort rule.srcPort tuple.src.proto.upi.port &&
      matchPort rule.dstPort tuple.dst.proto.upi.port)

def ipAddrListMasquaradeAddr (addrs : List IpAddr) (ipv : Nat) : Option IpAddr :=
  if ipv = 4 then addrs.find? ipAddrIsV4comp
  else if ipv = 6 then
    addrs.find? fun addr => !ipAddrIsmulticast addr && !ipAddrIslinkscope addr
  else none

def ntohs (w : BitVec 16) : BitVec 16 := w.extractLsb' 0 8 ++ w.extractLsb' 8 8

def manipRangeProto (manip : ManipRange) : Bool := manip.flag &&& 0x02 ≠ 0

def protoMin (manip : ManipRange) : Nat := if manipRangeProto manip then manip.protomin.toNat else 0

def protoMax (manip : ManipRange) : Nat :=
  if manipRangeProto manip then manip.protomax.toNat else 0xffff

structure NatInverse where
  failed : Bool
  reply : IpTuple
  ports : Nat → Bool

section TupleInverse

variable (ports : Nat → Bool) (reply tuple : IpTuple) (type : NatType) (manip : ManipRange)

def natPortTupleInverse (proto : TrackProtocol) : NatInverse :=
  match type with
  | .snat =>
    match natPortsGetnew ports proto (protoMin manip) (protoMax manip) with
    | some (port, ports) =>
      ⟨false, reply.setDstUpi { reply.dst.proto.upi with lo := BitVec.ofNat 16 port }, ports⟩
    | none => ⟨true, reply, ports⟩
  | .dnat =>
    if manipRangeProto manip then
      ⟨false, reply.setSrcUpi { reply.src.proto.upi with lo := ntohs manip.protomin }, ports⟩
    else ⟨false, reply, ports⟩
  | .none | .masquerade => ⟨false, reply, ports⟩

def natTcpTupleInverse : NatInverse := natPortTupleInverse ports reply type manip .tcp

def natUdpTupleInverse : NatInverse := natPortTupleInverse ports reply type manip .udp

def natIcmpTupleInverse (proto : TrackProtocol) (allocates : Bool) : NatInverse :=
  if allocates then
    match natPortsGetnew ports proto (protoMin manip) (protoMax manip) with
    | some (id, ports) =>
      ⟨false, reply.setSrcUpi { reply.src.proto.upi with hi := BitVec.ofNat 16 id }, ports⟩
    | none => ⟨true, reply, ports⟩
  else if type = .dnat then
    ⟨false, reply.setSrcUpi { reply.src.proto.upi with hi := tuple.src.proto.upi.id }, ports⟩
  else ⟨false, reply, ports⟩

-- Whatever it has done, the ICMPv4 function ends in return -1.
def natIcmp4TupleInverse : NatInverse :=
  { natIcmpTupleInverse ports reply tuple type manip .icmp4 (type = .snat) with failed := true }

def natIcmp6TupleInverse : NatInverse :=
  natIcmpTupleInverse ports reply tuple type manip .icmp6 (type = .snat ∨ type = .masquerade)

def TrackProtocol.natTupleInverse (proto : TrackProtocol) : NatInverse :=
  match proto with
  | .tcp => natTcpTupleInverse ports reply type manip
  | .udp => natUdpTupleInverse ports reply type manip
  | .icmp4 => natIcmp4TupleInverse ports reply tuple type manip
  | .icmp6 => natIcmp6TupleInverse ports reply tuple type manip
  | .unknown => ⟨true, reply, ports⟩

def natReplyIp (iface : Netif) (ipv : Nat) : Option IpTuple :=
  match type with
  | .masquerade =>
    (ipAddrListMasquaradeAddr iface.addrs ipv).map fun ip =>
      { reply with dst := { reply.dst with ip := ip } }
  | .snat => some { reply with dst := { reply.dst with ip := manip.ipmin } }
  | .dnat => some { reply with src := { reply.src with ip := manip.ipmin } }
  | .none => none

def tupleCreateNatInverse (iface : Netif) : NatInverse :=
  match natReplyIp { reply with ipv := tuple.ipv } type manip iface tuple.ipv with
  | none => ⟨true, { reply with ipv := tuple.ipv }, ports⟩
  | some reply =>
    let reply := { reply with
      src := { reply.src with
        proto := { reply.src.proto with protonum := tuple.src.proto.protonum } } }
    (trackProtoFind tuple.src.proto.protonum).natTupleInverse ports reply tuple type manip

end TupleInverse

def natMark (type : NatType) (pcb : NatPcb) (iface : Netif) : NatPcb :=
  if type = .masquerade then
    { pcb with
      natType := .snat
      status := { pcb.status with masquerade := true }
      iface := some iface.id }
  else { pcb with natType := type }

def natCreateSession (type : NatType) (s : StackNat) (k : Nat) (pcb : NatPcb) (iface : Netif)
    (manip : ManipRange) : Bool × StackNat :=
  let r := tupleCreateNatInverse s.ports pcb.reply pcb.original type manip iface
  (!r.failed,
    { s.modify k fun pcb => { natMark type pcb iface with reply := r.reply } with ports := r.ports })

def ruleList (s : StackNat) : UfHook → Option (List NatRule)
  | .preRouting => some s.rules.inRules
  | .postRouting => some s.rules.outRules
  | .localIn | .forward | .localOut => none

def natCheckRule (s : StackNat) (k : Nat) (pcb : NatPcb) (hook : UfHook) (netif : Netif) :
    Bool × StackNat :=
  match ruleList s hook with
  | none => (false, s)
  | some list =>
    match list.find? fun rule => natMatchRule rule.rule netif pcb.original with
    | none => (true, s)
    | some rule =>
      let s := s.modify k fun pcb => { pcb with status := { pcb.status with natTry := true } }
      natCreateSession rule.type s k pcb netif rule.manip

inductive NatTable where
  | preRouting
  | postRouting
deriving DecidableEq

def natRuleAppend (rule : NatRule) : List NatRule → List NatRule
  | [] => [rule]
  | r :: list => r :: natRuleAppend rule list

-- The loop of nat_del_rule_raw; the element looked at has index i, its successor may be taken out.
def delLoop (pos : Int) : Int → List NatRule → Option NatRule × List NatRule
  | _, [] => (none, [])
  | _, [r] => (none, [r])
  | i, r :: removed :: list =>
    if i + 1 = pos then (some removed, r :: list)
    else
      let rest := delLoop pos (i + 1) (removed :: list)
      (rest.1, r :: rest.2)

def natDelRuleRaw (list : List NatRule) (pos : Int) : Option NatRule × List NatRule :=
  match list with
  | [] => (none, [])
  | removed :: list => if pos = 0 then (some removed, list) else delLoop pos 0 (removed :: list)

theorem natRuleAppend_eq (rule : NatRule) (list : List NatRule) :
    natRuleAppend rule list = list ++ [rule] := by
  induction list with
  | nil => rfl
  | cons r list ih => rw [natRuleAppend,ih,List.cons_append]

theorem delLoop_eq (pos : Int) (i : Int) (r : NatRule) (list : List NatRule) :
    (delLoop pos i (r :: list)).2 =
      r :: if i < pos then list.eraseIdx (pos - i - 1).toNat else list := by
  induction list generalizing i r with
  | nil =>
    rw [delLoop]
    split_ifs <;> rfl
  | cons removed list ih =>
    rw [delLoop]
    rcases eq_or_ne (i + 1) pos with hpos | hpos
    · have hindex : (pos - i - 1).toNat = 0 := by omega
      rw [if_pos hpos,if_pos (by omega),hindex]
      rfl
    · rw [if_neg hpos]
      dsimp only
      rw [ih]
      rcases lt_or_ge i pos with hlt | hge
      · have hindex : (pos - i - 1).toNat = (pos - (i + 1) - 1).toNat + 1 := by omega
        rw [if_pos (by omega),if_pos hlt,hindex]
        rfl
      · rw [if_neg (by omega),if_neg (by omega)]

theorem natDelRuleRaw_eq (list : List NatRule) (pos : Int) :
    (natDelRuleRaw list pos).2 = if 0 ≤ pos then list.eraseIdx pos.toNat else list := by
  cases list with
  | nil => split_ifs <;> rfl
  | cons removed list =>
    rw [natDelRuleRaw]
    rcases eq_or_ne pos 0 with rfl | hpos
    · rfl
    · rw [if_neg hpos,delLoop_eq]
      rcases lt_or_ge 0 pos with hlt | hge
      · have hindex : pos.toNat = (pos - 0 - 1).toNat + 1 := by omega
        rw [if_pos hlt,if_pos hlt.le,hindex]
        rfl
      · rw [if_neg (by omega),if_neg (by omega)]

theorem forall_mem_natRuleAppend {P : NatRule → Prop} {rule : NatRule} {list : List NatRule}
    (h : ∀ x ∈ list, P x) (hrule : P rule) : ∀ x ∈ natRuleAppend rule list, P x := by
  rw [natRuleAppend_eq,List.forall_mem_append,List.forall_mem_singleton]
  exact ⟨h,hrule⟩

theorem forall_mem_natDelRuleRaw {P : NatRule → Prop} {list : List NatRule}
    (h : ∀ x ∈ list, P x) (pos : Int) : ∀ x ∈ (natDelRuleRaw list pos).2, P x := by
  rw [natDelRuleRaw_eq]
  split_ifs
  · exact fun x hx => h x (List.mem_of_mem_eraseIdx hx)
  · exact h

def natAddRule (r : NatRules) (place : NatTable) (rule : NatRule) : NatRules :=
  match place with
  | .postRouting =>
    if h : rule.type = .masquerade ∨ rule.type = .snat then
      { r with
        outRules := natRuleAppend rule r.outRules
        outSnat := forall_mem_natRuleAppend r.outSnat h }
    else r
  | .preRouting =>
    if h : rule.type = .dnat then
      { r with
        inRules := natRuleAppend rule r.inRules
        inDnat := forall_mem_natRuleAppend r.inDnat h }
    else r

def natDelRule (r : NatRules) (place : NatTable) (pos : Int) : NatRules :=
  match place with
  | .postRouting =>
    { r with
      outRules := (natDelRuleRaw r.outRules pos).2
      outSnat := forall_mem_natDelRuleRaw r.outSnat pos }
  | .preRouting =>
    { r with
      inRules := (natDelRuleRaw r.inRules pos).2
      inDnat := forall_mem_natDelRuleRaw r.inDnat pos }

end ViewOS.Userfilter
