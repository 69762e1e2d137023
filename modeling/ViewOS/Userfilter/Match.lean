import ViewOS.Userfilter.Rules

namespace ViewOS.Userfilter

open Lwip

inductive RuleEdit where
  | append (rule : NatRule)
  | delete (pos : Int)

def natEdit (list : List NatRule) : RuleEdit → List NatRule
  | .append rule => natRuleAppend rule list
  | .delete pos => (natDelRuleRaw list pos).2

def listEdit (list : List NatRule) : RuleEdit → List NatRule
  | .append rule => list ++ [rule]
  | .delete pos => if 0 ≤ pos then list.eraseIdx pos.toNat else list

theorem natEdit_eq (list : List NatRule) (edit : RuleEdit) : natEdit list edit = listEdit list edit := by
  cases edit with
  | append rule => exact natRuleAppend_eq rule list
  | delete pos => exact natDelRuleRaw_eq list pos

theorem foldl_natEdit (edits : List RuleEdit) (list : List NatRule) :
    edits.foldl natEdit list = edits.foldl listEdit list := by
  induction edits generalizing list with
  | nil => rfl
  | cons edit edits ih => rw [List.foldl_cons,List.foldl_cons,natEdit_eq,ih]

def applyFirst (s : StackNat) (k : Nat) (pcb : NatPcb) (netif : Netif) :
    List NatRule → Bool × StackNat
  | [] => (true, s)
  | rule :: list =>
    if natMatchRule rule.rule netif pcb.original then
      natCreateSession rule.type
        (s.modify k fun pcb => { pcb with status := { pcb.status with natTry := true } }) k pcb netif
        rule.manip
    else applyFirst s k pcb netif list

theorem natCheckRule_eq (s : StackNat) (k : Nat) (pcb : NatPcb) (hook : UfHook) (netif : Netif)
    {list : List NatRule} (h : ruleList s hook = some list) :
    natCheckRule s k pcb hook netif = applyFirst s k pcb netif list := by
  rw [natCheckRule,h]
  clear h
  dsimp only
  induction list with
  | nil => rfl
  | cons rule list ih =>
    rw [applyFirst,List.find?_cons]
    cases natMatchRule rule.rule netif pcb.original with
    | true => rfl
    | false => exact ih

namespace RuleMatches

variable (rule : RuleMatches) (iface : Netif) (tuple : IpTuple)

-- The significant fields other than the addresses; a tuple has ports for TCP and UDP only.
def AgreesApart : Prop :=
  (∀ i, rule.iface = some i → i = iface.id) ∧ rule.ipv = tuple.ipv ∧
  (isIgnoreProto rule.protocol = false → rule.protocol = tuple.src.proto.protonum) ∧
  (tuple.src.proto.protonum = 6 ∨ tuple.src.proto.protonum = 17 →
    (isIgnorePort rule.srcPort = false → rule.srcPort = tuple.src.proto.upi.port) ∧
    (isIgnorePort rule.dstPort = false → rule.dstPort = tuple.dst.proto.upi.port))

def Agrees : Prop :=
  rule.AgreesApart iface tuple ∧
  (isIgnoreIp rule.srcIp = false → rule.srcIp = tuple.src.ip) ∧
  (isIgnoreIp rule.dstIp = false → rule.dstIp = tuple.dst.ip)

def AddressesTold : Prop :=
  isIgnoreIp rule.srcIp = true ∧ isIgnoreIp rule.dstIp = true ∨
  isIgnoreIp rule.srcIp = false ∧ isIgnoreIp rule.dstIp = false ∧
    ¬(rule.srcIp = tuple.src.ip ↔ rule.dstIp = tuple.dst.ip)

theorem matchIp_iff (wanted addr : IpAddr) :
    matchIp wanted addr = true ↔ (isIgnoreIp wanted = false → wanted ≠ addr) := by
  have hcmp := @ipAddrCmp_iff wanted addr
  rw [matchIp]
  cases isIgnoreIp wanted <;> cases h : ipAddrCmp wanted addr <;> simp_all

theorem natMatchRule_eq_true : natMatchRule rule iface tuple = true ↔
    rule.AgreesApart iface tuple ∧
      (isIgnoreIp rule.srcIp = false → rule.srcIp ≠ tuple.src.ip) ∧
      (isIgnoreIp rule.dstIp = false → rule.dstIp ≠ tuple.dst.ip) := by
  have hport : ∀ wanted port, matchPort wanted port = true ↔
      (isIgnorePort wanted = false → wanted = port) := fun wanted port => by
    rw [matchPort]
    cases isIgnorePort wanted <;> simp
  have hiface : (rule.iface.isNone || decide (rule.iface = some iface.id)) = true ↔
      ∀ i, rule.iface = some i → i = iface.id := by
    cases rule.iface <;> simp
  have hproto : (isIgnoreProto rule.protocol ||
      decide (rule.protocol = tuple.src.proto.protonum)) = true ↔
      (isIgnoreProto rule.protocol = false → rule.protocol = tuple.src.proto.protonum) := by
    cases isIgnoreProto rule.protocol <;> simp
  have hports : (decide (tuple.src.proto.protonum ≠ 6) && decide (tuple.src.proto.protonum ≠ 17) ||
      matchPort rule.srcPort tuple.src.proto.upi.port &&
        matchPort rule.dstPort tuple.dst.proto.upi.port) = true ↔
      (tuple.src.proto.protonum = 6 ∨ tuple.src.proto.protonum = 17 →
        (isIgnorePort rule.srcPort = false → rule.srcPort = tuple.src.proto.upi.port) ∧
        (isIgnorePort rule.dstPort = false → rule.dstPort = tuple.dst.proto.upi.port)) := by
    rw [← hport,← hport,Bool.or_eq_true,Bool.and_eq_true,Bool.and_eq_true,decide_eq_true_eq,
      decide_eq_true_eq,imp_iff_not_or,not_or]
  rw [natMatchRule,Bool.and_eq_true,Bool.and_eq_true,Bool.and_eq_true,Bool.and_eq_true,
    Bool.and_eq_true,hiface,hproto,matchIp_iff,matchIp_iff,hports,decide_eq_true_eq,AgreesApart]
  exact ⟨fun ⟨⟨⟨⟨⟨hi,hv⟩,hs⟩,hd⟩,hp⟩,hq⟩ => ⟨⟨hi,hv,hp,hq⟩,hs,hd⟩,
    fun ⟨⟨hi,hv,hp,hq⟩,hs,hd⟩ => ⟨⟨⟨⟨⟨hi,hv⟩,hs⟩,hd⟩,hp⟩,hq⟩⟩

-- An address tested the wrong way round against the test that was meant.
theorem reversed_iff (apart src dst : Prop) (ignoreSrc ignoreDst : Bool) :
    (apart ∧ (ignoreSrc = false → ¬src) ∧ (ignoreDst = false → ¬dst) ↔
      apart ∧ (ignoreSrc = false → src) ∧ (ignoreDst = false → dst)) ↔
    (apart → ignoreSrc = true ∧ ignoreDst = true ∨
      ignoreSrc = false ∧ ignoreDst = false ∧ ¬(src ↔ dst)) := by
  cases ignoreSrc <;> cases ignoreDst <;> grind

end RuleMatches

theorem natMatchRule_agrees_iff (rule : RuleMatches) (iface : Netif) (tuple : IpTuple) :
    ((natMatchRule rule iface tuple = true ↔ rule.Agrees iface tuple) ↔
      (rule.AgreesApart iface tuple → rule.AddressesTold tuple)) ∧
    ∀ (edits : List RuleEdit) (s : StackNat) (k : Nat) (pcb : NatPcb) (hook : UfHook)
      (netif : Netif), ruleList s hook = some (edits.foldl natEdit []) →
      natCheckRule s k pcb hook netif = applyFirst s k pcb netif (edits.foldl listEdit []) := by
  constructor
  · rw [RuleMatches.natMatchRule_eq_true,RuleMatches.Agrees,RuleMatches.AddressesTold]
    exact RuleMatches.reversed_iff _ _ _ _ _
  · intro edits s k pcb hook netif h
    rw [natCheckRule_eq s k pcb hook netif h,foldl_natEdit]

-- A rule for the packets from fe80::1, and a packet from there.
def fromRule : RuleMatches := ⟨none, 6, ![0xfe800000, 0, 0, 1], ipAddrAny, 0xffff, 0, 0⟩

def fromTuple : IpTuple :=
  ⟨6, ⟨![0xfe800000, 0, 0, 1], 58, Upi.zero⟩, ⟨![0xfe800000, 0, 0, 2], 58, Upi.zero⟩⟩

def anyRule : RuleMatches := { fromRule with srcIp := ipAddrAny }

theorem anyRule_agrees : natMatchRule anyRule ⟨0, []⟩ fromTuple = true ↔
    anyRule.Agrees ⟨0, []⟩ fromTuple :=
  (natMatchRule_agrees_iff anyRule ⟨0, []⟩ fromTuple).1.mpr fun _ => Or.inl ⟨by decide,by decide⟩

theorem fromRule_refuses_its_own : ¬∀ (rule : RuleMatches) (iface : Netif) (tuple : IpTuple),
    natMatchRule rule iface tuple = true ↔ rule.Agrees iface tuple := by
  intro hall
  have hmatch := (hall fromRule ⟨0, []⟩ fromTuple).mpr
    ⟨⟨fun _ h => (nomatch h),rfl,fun h => absurd h (by decide),fun h => absurd h (by decide)⟩,
      fun _ => rfl,fun h => absurd h (by decide)⟩
  exact absurd hmatch (by decide)

end ViewOS.Userfilter
