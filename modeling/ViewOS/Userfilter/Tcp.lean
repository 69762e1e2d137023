import ViewOS.Userfilter.Tuple

namespace ViewOS.Userfilter

inductive TcpConntrack where
  | none
  | synSent
  | synRecv
  | established
  | finWait
  | closeWait
  | lastAck
  | timeWait
  | close
  | listen
  | max
  | ignore
deriving DecidableEq

def TcpConntrack.num : TcpConntrack → Nat
  | .none => 0
  | .synSent => 1
  | .synRecv => 2
  | .established => 3
  | .finWait => 4
  | .closeWait => 5
  | .lastAck => 6
  | .timeWait => 7
  | .close => 8
  | .listen => 9
  | .max => 10
  | .ignore => 11

inductive TcpBitSet where
  | syn
  | synack
  | fin
  | ack
  | rst
  | none
deriving DecidableEq

abbrev sSS := TcpConntrack.synSent
abbrev sSR := TcpConntrack.synRecv
abbrev sES := TcpConntrack.established
abbrev sFW := TcpConntrack.finWait
abbrev sCW := TcpConntrack.closeWait
abbrev sLA := TcpConntrack.lastAck
abbrev sTW := TcpConntrack.timeWait
abbrev sCL := TcpConntrack.close
abbrev sIV := TcpConntrack.max
abbrev sIG := TcpConntrack.ignore

def tcpConntracksRow : ConnDir → TcpBitSet → List TcpConntrack
  -- .                     sNO, sSS, sSR, sES, sFW, sCW, sLA, sTW, sCL, sLI
  | .original, .syn =>    [sSS, sSS, sIG, sIG, sIG, sIG, sIG, sSS, sSS, sIV]
  | .original, .synack => [sIV, sIV, sIV, sIV, sIV, sIV, sIV, sIV, sIV, sIV]
  | .original, .fin =>    [sIV, sIV, sFW, sFW, sLA, sLA, sLA, sTW, sCL, sIV]
  | .original, .ack =>    [sES, sIV, sES, sES, sCW, sCW, sTW, sTW, sCL, sIV]
  | .original, .rst =>    [sIV, sCL, sCL, sCL, sCL, sCL, sCL, sCL, sCL, sIV]
  | .original, .none =>   [sIV, sIV, sIV, sIV, sIV, sIV, sIV, sIV, sIV, sIV]
  | .reply, .syn =>       [sIV, sIV, sIV, sIV, sIV, sIV, sIV, sIV, sIV, sIV]
  | .reply, .synack =>    [sIV, sSR, sSR, sIG, sIG, sIG, sIG, sIG, sIG, sIV]
  | .reply, .fin =>       [sIV, sIV, sFW, sFW, sLA, sLA, sLA, sTW, sCL, sIV]
  | .reply, .ack =>       [sIV, sIV, sSR, sES, sCW, sCW, sTW, sTW, sCL, sIV]
  | .reply, .rst =>       [sIV, sCL, sCL, sCL, sCL, sCL, sCL, sCL, sCL, sIV]
  | .reply, .none =>      [sIV, sIV, sIV, sIV, sIV, sIV, sIV, sIV, sIV, sIV]

def tcpConntracks (dir : ConnDir) (index : TcpBitSet) (state : TcpConntrack) : TcpConntrack :=
  (tcpConntracksRow dir index).getD state.num .max

def tcpTimeouts : TcpConntrack → Nat
  | .synSent => 120000
  | .synRecv => 60000
  | .established => 432000000
  | .finWait => 120000
  | .closeWait => 60000
  | .lastAck => 30000
  | .timeWait => 120000
  | .close => 10000
  | .none | .listen | .max | .ignore => 0

def ipCtTcpTimeoutMaxRetrans : Nat := 300000

def ipCtTcpMaxRetrans : Nat := 3

def ipCtTcpLoose : Nat := 0

def ipCtTcpBeLiberal : Bool := false

def maxackwinconst : BitVec 32 := 66000

def ipCtTcpFlagWindowScale : BitVec 8 := 0x01

def ipCtTcpFlagSackPerm : BitVec 8 := 0x02

def ipCtTcpFlagCloseInit : BitVec 8 := 0x03

structure IpCtTcpState where
  tdEnd : BitVec 32
  tdMaxend : BitVec 32
  tdMaxwin : BitVec 32
  tdScale : BitVec 8
  loose : BitVec 8
  flags : BitVec 8
deriving DecidableEq

structure IpCtTcp where
  seen0 : IpCtTcpState
  seen1 : IpCtTcpState
  state : TcpConntrack
  lastDir : ConnDir
  retrans : BitVec 8
  lastIndex : TcpBitSet
  lastSeq : BitVec 32
  lastAck : BitVec 32
  lastEnd : BitVec 32
deriving DecidableEq

def IpCtTcpState.zero : IpCtTcpState := ⟨0, 0, 0, 0, 0, 0⟩

def IpCtTcp.zero : IpCtTcp :=
  ⟨IpCtTcpState.zero, IpCtTcpState.zero, .none, .original, 0, .syn, 0, 0, 0⟩

def IpCtTcp.seen (tcp : IpCtTcp) : ConnDir → IpCtTcpState
  | .original => tcp.seen0
  | .reply => tcp.seen1

def IpCtTcp.setSeen (tcp : IpCtTcp) (dir : ConnDir) (st : IpCtTcpState) : IpCtTcp :=
  match dir with
  | .original => { tcp with seen0 := st }
  | .reply => { tcp with seen1 := st }

section Segment

variable (p : Payload) (th : Nat)

def tcphHdrlen : Nat := (p.word (th + 6) >>> 12).toNat

def tcphFlags : BitVec 16 := p.word (th + 6) &&& 0x3f

def tcpFin : Bool := tcphFlags p th &&& 0x01 ≠ 0

def tcpSyn : Bool := tcphFlags p th &&& 0x02 ≠ 0

def tcpRst : Bool := tcphFlags p th &&& 0x04 ≠ 0

def tcpAck : Bool := tcphFlags p th &&& 0x10 ≠ 0

def seqno : BitVec 32 := p.long (th + 2)

def ackno : BitVec 32 := p.long (th + 4)

def wnd : BitVec 32 := (p.word (th + 7)).setWidth 32

def getConntrackIndex : TcpBitSet :=
  if tcpRst p th then .rst
  else if tcpSyn p th then (if tcpAck p th then .synack else .syn)
  else if tcpFin p th then .fin
  else if tcpAck p th then .ack
  else .none

def segmentSeqPlusLen (seq : BitVec 32) : BitVec 32 :=
  seq + BitVec.ofNat 32 p.totLen - BitVec.ofNat 32 (2 * dataoff p 0 + tcphHdrlen p th * 4) +
    (if tcpSyn p th then 1 else 0) + (if tcpFin p th then 1 else 0)

def optionLength : Int := tcphHdrlen p th * 4 - 20

def optionBytes : List (BitVec 8) :=
  (List.range (p.totLen - (2 * th + 20))).map fun i => p.byte (2 * th + 20 + i)

end Segment

def before (seq1 seq2 : BitVec 32) : Bool := (seq1 - seq2).msb

def after (seq1 seq2 : BitVec 32) : Bool := (seq2 - seq1).msb

def parseOption (st : IpCtTcpState) (opcode opsize : BitVec 8) (value : List (BitVec 8)) :
    IpCtTcpState :=
  if opcode = 4 ∧ opsize = 2 then { st with flags := st.flags ||| ipCtTcpFlagSackPerm }
  else if opcode = 3 ∧ opsize = 3 then
    let scale := value.headD 0
    { st with
      tdScale := if scale.toNat > 14 then 14 else scale
      flags := st.flags ||| ipCtTcpFlagWindowScale }
  else st

-- The break on a partial option leaves only the switch: the scan goes on two bytes further with
-- the same length. Past the packet the scan reads zeros, the end of the options.
def optionsLoop : List (BitVec 8) → Nat → Int → IpCtTcpState → IpCtTcpState
  | [], _, _, st => st
  | _ :: ptr, skip + 1, length, st => optionsLoop ptr skip length st
  | opcode :: ptr, 0, length, st =>
    if length ≤ 0 then st
    else if opcode = 0 then st
    else if opcode = 1 then optionsLoop ptr 0 (length - 1) st
    else
      match ptr with
      | [] => st
      | opsize :: ptr =>
        if opsize.toNat < 2 then st
        else if (opsize.toNat : Int) > length then optionsLoop ptr 0 length st
        else
          optionsLoop ptr (opsize.toNat - 2) (length - opsize.toNat)
            (parseOption st opcode opsize ptr)

def tcpOptions (p : Payload) (th : Nat) (st : IpCtTcpState) : IpCtTcpState :=
  if optionLength p th = 0 then st
  else
    optionsLoop (optionBytes p th) 0 (optionLength p th)
      { st with tdScale := 0, flags := 0 }

def sackBlocks (ptr : List (BitVec 8)) (blocks : Nat) (sack : BitVec 32) : BitVec 32 :=
  (List.range blocks).foldl (fun sack i =>
    let tmp := ptr.getD (8 * i + 4) 0 ++ ptr.getD (8 * i + 5) 0 ++ ptr.getD (8 * i + 6) 0 ++
      ptr.getD (8 * i + 7) 0
    if after tmp sack then tmp else sack) sack

def sackLoop : List (BitVec 8) → Nat → Int → BitVec 32 → BitVec 32
  | [], _, _, sack => sack
  | _ :: ptr, skip + 1, length, sack => sackLoop ptr skip length sack
  | opcode :: ptr, 0, length, sack =>
    if length ≤ 0 then sack
    else if opcode = 0 then sack
    else if opcode = 1 then sackLoop ptr 0 (length - 1) sack
    else
      match ptr with
      | [] => sack
      | opsize :: ptr =>
        if opsize.toNat < 2 then sack
        else if (opsize.toNat : Int) > length then sackLoop ptr 0 length sack
        else if opcode = 5 ∧ 10 ≤ opsize.toNat ∧ (opsize.toNat - 2) % 8 = 0 then
          sackBlocks ptr ((opsize.toNat - 2) / 8) sack
        else sackLoop ptr (opsize.toNat - 2) (length - opsize.toNat) sack

def tcpSack (p : Payload) (th : Nat) (sack : BitVec 32) : BitVec 32 :=
  if optionLength p th = 0 then sack
  else if optionLength p th = 48 ∧ (optionBytes p th).take 4 = [1, 1, 8, 10] then sack
  else sackLoop (optionBytes p th) 0 (optionLength p th) sack

def tcpMaxwin (p : Payload) (th : Nat) : BitVec 32 := if wnd p th = 0 then 1 else wnd p th

def tcpFirstSeen (tcp : IpCtTcp) (dir : ConnDir) (p : Payload) (th : Nat)
    (segmentEnd : BitVec 32) : IpCtTcp :=
  let sender := tcp.seen dir
  let receiver := tcp.seen dir.other
  let maxwin := tcpMaxwin p th
  if sender.tdEnd = 0 then
    if tcpSyn p th && tcpAck p th then
      let sender := tcpOptions p th
        { sender with tdEnd := segmentEnd, tdMaxend := segmentEnd, tdMaxwin := maxwin }
      if sender.flags &&& ipCtTcpFlagWindowScale ≠ 0 ∧
          receiver.flags &&& ipCtTcpFlagWindowScale ≠ 0 then tcp.setSeen dir sender
      else
        (tcp.setSeen dir { sender with tdScale := 0 }).setSeen dir.other { receiver with tdScale := 0 }
    else
      tcp.setSeen dir
        { sender with tdEnd := segmentEnd, tdMaxwin := maxwin, tdMaxend := segmentEnd + maxwin }
  else if ((tcp.state = .synSent ∧ dir = .original) ∨ (tcp.state = .synRecv ∧ dir = .reply)) ∧
      after segmentEnd sender.tdEnd then
    tcp.setSeen dir (tcpOptions p th
      { sender with tdEnd := segmentEnd, tdMaxend := segmentEnd, tdMaxwin := maxwin })
  else tcp

def maxackwindow (sender : IpCtTcpState) : BitVec 32 :=
  if maxackwinconst < sender.tdMaxwin then sender.tdMaxwin else maxackwinconst

def tcpRetransmission (tcp : IpCtTcp) (dir : ConnDir) (index : TcpBitSet)
    (seq ack segmentEnd : BitVec 32) : IpCtTcp :=
  if index = .ack then
    if tcp.lastDir = dir ∧ tcp.lastSeq = seq ∧ tcp.lastAck = ack ∧ tcp.lastEnd = segmentEnd then
      { tcp with retrans := tcp.retrans + 1 }
    else
      { tcp with lastDir := dir, lastSeq := seq, lastAck := ack, lastEnd := segmentEnd, retrans := 0 }
  else tcp

def tcpInWindow (tcp : IpCtTcp) (dir : ConnDir) (index : TcpBitSet) (p : Payload) (th : Nat) :
    Bool × IpCtTcp :=
  let seq := seqno p th
  let segmentEnd := segmentSeqPlusLen p th seq
  let sack :=
    if (tcp.seen dir.other).flags &&& ipCtTcpFlagSackPerm ≠ 0 then tcpSack p th (ackno p th)
    else ackno p th
  let tcp := tcpFirstSeen tcp dir p th segmentEnd
  let sender := tcp.seen dir
  let receiver := tcp.seen dir.other
  let pretend := !tcpAck p th || (tcpRst p th && ackno p th = 0)
  let ack := if pretend then receiver.tdEnd else ackno p th
  let sack := if pretend then receiver.tdEnd else sack
  let empty := seq = segmentEnd ∧ (tcpRst p th = false ∨ (seq = 0 ∧ tcp.state = .synSent))
  let seq := if empty then sender.tdEnd else seq
  let segmentEnd := if empty then sender.tdEnd else segmentEnd
  if sender.loose ≠ 0 ∨ receiver.loose ≠ 0 ∨
      (before seq (sender.tdMaxend + 1) ∧
        after segmentEnd (sender.tdEnd - receiver.tdMaxwin - 1) ∧
        before sack (receiver.tdEnd + 1) ∧ after ack (receiver.tdEnd - maxackwindow sender)) then
    let win := if tcpSyn p th then wnd p th else wnd p th <<< sender.tdScale.toNat
    let swin := win + (sack - ack)
    let maxend := sender.tdMaxend
    let sender := { sender with
      tdMaxwin := if sender.tdMaxwin < swin then swin else sender.tdMaxwin
      tdEnd := if after segmentEnd sender.tdEnd then segmentEnd else sender.tdEnd
      loose := if sender.loose ≠ 0 then sender.loose - 1 else sender.loose }
    let receiver := { receiver with
      tdMaxwin :=
        if after segmentEnd maxend then receiver.tdMaxwin + (segmentEnd - maxend)
        else receiver.tdMaxwin
      tdMaxend :=
        if after (sack + win) (receiver.tdMaxend - 1) then
          (if win = 0 then sack + win + 1 else sack + win)
        else receiver.tdMaxend }
    let tcp := (tcp.setSeen dir sender).setSeen dir.other receiver
    (true, tcpRetransmission tcp dir index seq ack segmentEnd)
  else (ipCtTcpBeLiberal, tcp)

-- What a protocol's handle does to its session: its own data, whether conn_remove_timer and
-- conn_force_timeout are called, the argument of conn_refresh_timer, a return value below zero.
structure Handled (α : Type) where
  data : α
  kill : Bool
  refresh : Option Nat
  invalid : Bool
  verdict : UfVerdict

def tcpTimeout (tcp : IpCtTcp) (state : TcpConntrack) : Nat :=
  if ipCtTcpMaxRetrans ≤ tcp.retrans.toNat ∧ ipCtTcpTimeoutMaxRetrans < tcpTimeouts state then
    ipCtTcpTimeoutMaxRetrans
  else tcpTimeouts state

def tcpSettle (tcp : IpCtTcp) (seenReply : Bool) (dir : ConnDir) (index : TcpBitSet)
    (oldState newState : TcpConntrack) (rst : Bool) : Handled IpCtTcp :=
  let tcp := { tcp with lastIndex := index, state := newState }
  let tcp :=
    if oldState ≠ newState ∧ (newState = .finWait ∨ newState = .close) then
      tcp.setSeen dir
        { tcp.seen dir with flags := (tcp.seen dir).flags ||| ipCtTcpFlagCloseInit }
    else tcp
  if !seenReply && rst then ⟨tcp, true, none, false, .accept⟩
  else ⟨tcp, false, some (tcpTimeout tcp newState), false, .accept⟩

def tcpWindowed (tcp : IpCtTcp) (seenReply : Bool) (dir : ConnDir) (index : TcpBitSet)
    (oldState newState : TcpConntrack) (p : Payload) (th : Nat) : Handled IpCtTcp :=
  match tcpInWindow tcp dir index p th with
  | (true, tcp) => tcpSettle tcp seenReply dir index oldState newState (tcpRst p th)
  | (false, tcp) => ⟨tcp, false, none, true, .accept⟩

def trackTcpHandle2 (tcp : IpCtTcp) (seenReply : Bool) (dir : ConnDir) (p : Payload) :
    Handled IpCtTcp :=
  let th := dataoff p 0
  let oldState := tcp.state
  let index := getConntrackIndex p th
  let newState := tcpConntracks dir index oldState
  match newState with
  | .ignore =>
    if index = .synack ∧ tcp.lastIndex = .syn ∧ tcp.lastDir ≠ dir ∧ ackno p th = tcp.lastEnd then
      ⟨tcp, true, none, true, .drop⟩
    else
      ⟨{ tcp with
          lastIndex := index
          lastDir := dir
          lastSeq := seqno p th
          lastEnd := segmentSeqPlusLen p th (seqno p th) }, false, none, false, .accept⟩
  | .max => ⟨tcp, false, none, true, .accept⟩
  | .synSent =>
    if oldState.num < TcpConntrack.timeWait.num then
      tcpWindowed tcp seenReply dir index oldState newState p th
    else if (tcp.seen dir).flags &&& ipCtTcpFlagCloseInit ≠ 0 ∨
        after (seqno p th) (tcp.seen dir).tdEnd then
      ⟨tcp, true, none, true, .again⟩
    else ⟨tcp, false, none, true, .accept⟩
  | .close =>
    if index = .rst ∧ seenReply = true ∧ tcp.lastIndex = .syn ∧ ackno p th = tcp.lastEnd then
      tcpSettle tcp seenReply dir index oldState newState (tcpRst p th)
    else tcpWindowed tcp seenReply dir index oldState newState p th
  | _ => tcpWindowed tcp seenReply dir index oldState newState p th

def tcpUntouched (tcp : IpCtTcp) : IpCtTcp :=
  { tcp with
    seen1 := { tcp.seen1 with tdEnd := 0, tdMaxend := 0, tdMaxwin := 1, tdScale := 0 }
    state := .none
    lastIndex := .none }

def trackTcpNew2 (tcp : IpCtTcp) (p : Payload) (th : Nat) : Int × IpCtTcp :=
  let newState := tcpConntracks .original (getConntrackIndex p th) .none
  let segmentEnd := segmentSeqPlusLen p th (seqno p th)
  if TcpConntrack.max.num ≤ newState.num then (0, tcp)
  else if newState = .synSent then
    (1, tcpUntouched { tcp with
      seen0 := { tcpOptions p th
        { tcp.seen0 with tdEnd := segmentEnd, tdMaxwin := tcpMaxwin p th, tdMaxend := segmentEnd } with
          loose := 0 }
      seen1 := { tcp.seen1 with flags := 0, loose := 0 } })
  else if ipCtTcpLoose = 0 then (0, tcp)
  else
    (1, tcpUntouched { tcp with
      seen0 := { tcp.seen0 with
        tdEnd := segmentEnd
        tdMaxwin := tcpMaxwin p th
        tdMaxend := segmentEnd + tcpMaxwin p th
        tdScale := 0
        flags := ipCtTcpFlagSackPerm
        loose := BitVec.ofNat 8 ipCtTcpLoose }
      seen1 := { tcp.seen1 with
        flags := ipCtTcpFlagSackPerm
        loose := BitVec.ofNat 8 ipCtTcpLoose } })

end ViewOS.Userfilter
