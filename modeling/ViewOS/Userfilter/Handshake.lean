import ViewOS.Userfilter.Admission

namespace ViewOS.Userfilter

section States

variable {tcp : IpCtTcp} {dir : ConnDir} {index : TcpBitSet} {p : Payload} {th : Nat}
  {seenReply rst : Bool} {old new : TcpConntrack} {st : IpCtTcpState} {seq ack last : BitVec 32}

theorem setSeen_state : (tcp.setSeen dir st).state = tcp.state := by
  cases dir <;> rfl

theorem tcpFirstSeen_state : (tcpFirstSeen tcp dir p th last).state = tcp.state := by
  simp only [tcpFirstSeen]
  split_ifs <;> simp only [setSeen_state]

theorem tcpRetransmission_state :
    (tcpRetransmission tcp dir index seq ack last).state = tcp.state := by
  rw [tcpRetransmission]
  split_ifs <;> rfl

theorem tcpInWindow_state : (tcpInWindow tcp dir index p th).2.state = tcp.state := by
  rw [tcpInWindow]
  refine ((apply_ite (fun r : Bool × IpCtTcp => r.2.state) _ _ _).trans
    (ite_congr rfl (fun _ => ?_) fun _ => tcpFirstSeen_state)).trans (ite_self tcp.state)
  exact tcpRetransmission_state.trans (setSeen_state.trans (setSeen_state.trans tcpFirstSeen_state))

theorem tcpSettle_state : (tcpSettle tcp seenReply dir index old new rst).data.state = new := by
  simp only [tcpSettle]
  split_ifs <;> simp only [setSeen_state]

theorem tcpWindowed_state :
    (tcpWindowed tcp seenReply dir index old new p th).data.state = tcp.state ∨
      (tcpWindowed tcp seenReply dir index old new p th).data.state = new := by
  have hstate := @tcpInWindow_state tcp dir index p th
  rw [tcpWindowed]
  split
  · exact .inr tcpSettle_state
  · rename_i heq
    rw [heq] at hstate
    exact .inl hstate

theorem trackTcpHandle2_state : (trackTcpHandle2 tcp seenReply dir p).data.state = tcp.state ∨
    (trackTcpHandle2 tcp seenReply dir p).data.state =
      tcpConntracks dir (getConntrackIndex p (dataoff p 0)) tcp.state := by
  rw [trackTcpHandle2]
  split
  · split <;> exact .inl rfl
  · exact .inl rfl
  · split
    · exact tcpWindowed_state
    · split <;> exact .inl rfl
  · split
    · exact .inr tcpSettle_state
    · exact tcpWindowed_state
  · exact tcpWindowed_state

end States

structure Arrival where
  seenReply : Bool
  dir : ConnDir
  payload : Payload

def Arrival.kind (a : Arrival) : ConnDir × TcpBitSet :=
  (a.dir, getConntrackIndex a.payload (dataoff a.payload 0))

def tracked (tcp : IpCtTcp) (l : List Arrival) : IpCtTcp :=
  l.foldl (fun tcp a => (trackTcpHandle2 tcp a.seenReply a.dir a.payload).data) tcp

def needed : TcpConntrack → List (ConnDir × TcpBitSet)
  | .synRecv => [(.reply, .synack)]
  | .established => [(.reply, .synack), (.original, .ack)]
  | _ => []

theorem tcpConntracks_needed (dir : ConnDir) (index : TcpBitSet) {state : TcpConntrack}
    (h : state ≠ .none) : tcpConntracks dir index state ≠ .none ∧
      (needed (tcpConntracks dir index state)).Sublist (needed state ++ [(dir, index)]) := by
  cases dir <;> cases index <;> cases state <;> revert h <;> decide

-- In the state none, the one of a new session, an acknowledgement alone can establish it.
theorem established_after_handshake {tcp : IpCtTcp} (hsyn : tcp.state = .synSent)
    (l : List Arrival) : (tracked tcp l).state ≠ .none ∧
      (needed (tracked tcp l).state).Sublist (l.map Arrival.kind) := by
  induction l using List.reverseRecOn with
  | nil => exact hsyn ▸ ⟨nofun,List.Sublist.refl []⟩
  | append_singleton l a ih =>
    rw [tracked,List.foldl_concat,List.map_append]
    rcases trackTcpHandle2_state with hstate | hstate
    · rw [hstate]
      exact ⟨ih.1,ih.2.trans (List.sublist_append_left _ _)⟩
    · rw [hstate]
      obtain ⟨hne,hsub⟩ := tcpConntracks_needed a.dir a.kind.2 ih.1
      exact ⟨hne,hsub.trans (ih.2.append_right _)⟩

theorem established_after_three : ∃ tcp l, (tracked tcp l).state = .established ∧
    (needed (tracked tcp l).state).Sublist (l.map Arrival.kind) := by
  have h : (tracked ⟨⟨1001, 1001, 8192, 0, 0, 0⟩, ⟨0, 0, 1, 0, 0, 0⟩, .synSent, .original, 0, .syn,
      0, 0, 0⟩ [⟨false, .reply, segment 0x12⟩, ⟨true, .original, segment 0x10⟩]).state =
      .established := by
    decide
  exact ⟨_,_,h,(established_after_handshake rfl _).2⟩

end ViewOS.Userfilter
