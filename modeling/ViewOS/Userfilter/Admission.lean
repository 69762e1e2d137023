import ViewOS.Userfilter.System

namespace ViewOS.Userfilter

def Opener (p : Payload) : Prop :=
  tcpSyn p (dataoff p 0) = true ∧ tcpAck p (dataoff p 0) = false ∧
    tcpRst p (dataoff p 0) = false ∧ tcpFin p (dataoff p 0) = false

instance (p : Payload) : Decidable (Opener p) := inferInstanceAs (Decidable (_ ∧ _ ∧ _ ∧ _))

def Writable (mem : Memory) (p : Pbuf) : Prop := p.chained = true → mem.pbuf = true

structure Admission (mem : Memory) (s : StackNat) (p : Pbuf) : Prop where
  created : (connTrack mem .tcp s p).2 ≠ none → Opener p.payload
  verdict : ¬ Opener p.payload → (natTrack mem s p).1 = .drop
  lists : ¬ Opener p.payload →
    (natTrack mem s p).2.1.tentative = s.tentative ∧ (natTrack mem s p).2.1.active = s.active
  pool : ¬ Opener p.payload → (natTrack mem s p).2.1.pcbs.cell = s.pcbs.cell

section Tuples

variable {p : Payload} {o protocol : Nat} {proto : TrackProtocol} {tuple t : IpTuple}

theorem TrackProtocol.tuple_fields {h : Nat} (ht : proto.tuple tuple p h = some t) :
    t.ipv = tuple.ipv ∧ t.src.proto.protonum = tuple.src.proto.protonum := by
  cases proto <;> cases ht <;> exact ⟨rfl,rfl⟩

theorem ipProtocol_of_v6 (h : iphV p o = 6) : ipProtocol p o = some (iphNexthdr p o) := if_pos h

theorem ipProtocol_of_v4 (h : iphV p o = 4) : ipProtocol p o = some (iph4Proto p o) := by
  rw [ipProtocol,if_neg (by omega),if_pos h]

theorem ipProtocol_isSome_iff : (ipProtocol p o).isSome ↔ iphV p o = 6 ∨ iphV p o = 4 := by
  rw [ipProtocol]
  split_ifs with h6 h4
  · simp [h6]
  · simp [h4]
  · simp [h6,h4]

theorem tupleCreate_fields (h : tupleCreate p o proto = some t) :
    ipProtocol p o = some t.src.proto.protonum ∧ (t.ipv = 6 ∨ t.ipv = 4) := by
  rw [tupleCreate] at h
  split_ifs at h with h6 h4
  · obtain ⟨hv,hn⟩ := TrackProtocol.tuple_fields h
    rw [ipProtocol_of_v6 h6,hn]
    exact ⟨rfl,.inl hv⟩
  · obtain ⟨hv,hn⟩ := TrackProtocol.tuple_fields h
    rw [ipProtocol_of_v4 h4,hn]
    exact ⟨rfl,.inr hv⟩

theorem tupleCreate_isSome (proto : TrackProtocol) (hp : ipProtocol p o = some protocol)
    (hproto : proto ≠ .unknown) : ∃ t, tupleCreate p o proto = some t := by
  have hv : iphV p o = 6 ∨ iphV p o = 4 := ipProtocol_isSome_iff.mp (by rw [hp]; rfl)
  rw [tupleCreate]
  rcases hv with hv | hv
  · rw [if_pos hv]
    cases proto with
    | unknown => exact absurd rfl hproto
    | tcp | udp | icmp4 | icmp6 => exact ⟨_,rfl⟩
  · rw [if_neg (by omega),if_pos hv]
    cases proto with
    | unknown => exact absurd rfl hproto
    | tcp | udp | icmp4 | icmp6 => exact ⟨_,rfl⟩

end Tuples

theorem trackTcpNew2_nonneg (tcp : IpCtTcp) (p : Payload) (th : Nat) :
    0 ≤ (trackTcpNew2 tcp p th).1 := by
  rw [trackTcpNew2]
  split_ifs
  · exact le_rfl
  · exact Int.one_nonneg
  · exact le_rfl
  · exact Int.one_nonneg

theorem TrackProtocol.new_nonneg (proto : TrackProtocol) (pcb : NatPcb) (p : Payload) (h : Nat) :
    0 ≤ (proto.new pcb p h).1 := by
  cases proto with
  | tcp => exact trackTcpNew2_nonneg _ p h
  | udp | icmp4 | icmp6 | unknown => exact Int.one_nonneg

variable {mem : Memory} {s : StackNat} {p : Pbuf} {proto : TrackProtocol} {tuple reply : IpTuple}

theorem newTrack_no_memory (h : mem.pcb = false) :
    newTrack mem proto s p.payload tuple = (s, none) := by
  rw [newTrack,if_neg (by simp [h])]

theorem newTrack_of_inverse (h : mem.pcb = true) (hinv : tupleInverse tuple = some reply)
    (hv : tuple.ipv = 6 ∨ tuple.ipv = 4) (q : Payload) :
    newTrack mem proto s q tuple =
      ({ s with
          pcbs := s.pcbs.alloc
            { (proto.new (newPcb tuple reply) q (dataoff q 0)).2 with refcount := 1 }
          tentative := s.pcbs.fresh :: s.tentative }, some s.pcbs.fresh) := by
  have hnew := proto.new_nonneg (newPcb tuple reply) q (dataoff q 0)
  rw [newTrack,if_pos h,hinv]
  dsimp only
  rw [if_pos hv,if_neg (by omega)]

theorem tupleInverse_of_tcp (h : tuple.src.proto.protonum = 6) :
    tupleInverse tuple = some (portInverse tuple.swapped tuple) := by
  rw [tupleInverse,h]
  rfl

theorem natTrack_of_untracked (ht : p.track = none) {protocol : Nat}
    (hp : ipProtocol p.payload 0 = some protocol) :
    natTrack mem s p =
      if p.chained = true ∧ mem.pbuf = false then (.accept, s, p)
      else natTrackPacket mem (trackProtoFind protocol) s
        (if p.chained then natPbufInit p.payload false else p) := by
  rw [natTrack,natPbufPut,ht]
  dsimp only
  rw [pbufMakeWritable]
  cases hc : p.chained with
  | false => simp [hp]
  | true =>
    cases hm : mem.pbuf with
    | false => simp
    | true => simp [natPbufInit,hp]

theorem connTrack_tcp (hp : ipProtocol p.payload 0 = some 6)
    (hfind : ∀ tuple, tupleCreate p.payload 0 .tcp = some tuple → connFindTrack s tuple = none) :
    (connTrack mem .tcp s p).2 ≠ none ↔ mem.pcb = true := by
  obtain ⟨t,ht⟩ := tupleCreate_isSome .tcp hp (by decide)
  obtain ⟨hnum,hv⟩ := tupleCreate_fields ht
  have hn : t.src.proto.protonum = 6 := by
    rw [hp] at hnum
    exact (Option.some.inj hnum).symm
  rw [connTrack,ht]
  dsimp only
  rw [hfind t ht]
  dsimp only
  cases hm : mem.pcb with
  | false => simp [newTrack_no_memory hm]
  | true => simp [newTrack_of_inverse hm (tupleInverse_of_tcp hn) hv]

theorem connTrack_no_memory (hp : ipProtocol p.payload 0 = some 6)
    (hfind : ∀ tuple, tupleCreate p.payload 0 .tcp = some tuple → connFindTrack s tuple = none)
    (h : mem.pcb = false) : connTrack mem .tcp s p = (s, none) := by
  obtain ⟨t,ht⟩ := tupleCreate_isSome .tcp hp (by decide)
  rw [connTrack,ht]
  dsimp only
  rw [hfind t ht,newTrack_no_memory h]

theorem natTrackPacket_untrackable (h : connNeedTrack p.payload = false) :
    natTrackPacket mem .tcp s p = (.accept, s, p) := by
  rw [natTrackPacket]
  simp [TrackProtocol.error,h]

theorem natTrackPacket_refused (h : connNeedTrack p.payload = true)
    (hc : connTrack mem .tcp s p = (s, none)) :
    natTrackPacket mem .tcp s p = (.drop, s, p) := by
  rw [natTrackPacket]
  simp [TrackProtocol.error,h,hc]

theorem admission_iff (hp : ipProtocol p.payload 0 = some 6) (htrack : p.track = none)
    (hfind : ∀ tuple, tupleCreate p.payload 0 .tcp = some tuple → connFindTrack s tuple = none) :
    Admission mem s p ↔
      Opener p.payload ∨
        (Writable mem p ∧ connNeedTrack p.payload = true ∧ mem.pcb = false) := by
  obtain ⟨q,hq,hnat⟩ : ∃ q : Pbuf, q.payload = p.payload ∧ natTrack mem s p =
      if p.chained = true ∧ mem.pbuf = false then (.accept, s, p)
      else natTrackPacket mem .tcp s q :=
    ⟨_,by cases p.chained <;> rfl,natTrack_of_untracked htrack hp⟩
  rw [← hq] at hp hfind
  constructor
  · intro h
    by_cases ho : Opener p.payload
    · exact .inl ho
    · have hpcb : mem.pcb = false := by
        by_contra hm
        rw [hq] at hp hfind
        exact ho (h.created ((connTrack_tcp hp hfind).mpr (by simpa using hm)))
      have hdrop := h.verdict ho
      rw [hnat] at hdrop
      split_ifs at hdrop with hw
      refine .inr ⟨fun hc => by simpa [hc] using hw,?_,hpcb⟩
      by_contra hn
      rw [← hq,Bool.not_eq_true] at hn
      rw [natTrackPacket_untrackable hn] at hdrop
      cases hdrop
  · rintro (ho | ⟨hw,hn,hpcb⟩)
    · exact ⟨fun _ => ho,fun h => absurd ho h,fun h => absurd ho h,fun h => absurd ho h⟩
    · have hr : natTrack mem s p = (.drop, s, q) := by
        rw [hnat,if_neg (fun h => by simpa [h.2] using hw h.1)]
        exact natTrackPacket_refused (by rw [hq]; exact hn) (connTrack_no_memory hp hfind hpcb)
      rw [hq] at hp hfind
      refine ⟨fun h => absurd (connTrack_tcp hp hfind |>.mp h) (by simp [hpcb]),?_,?_,?_⟩
      · intro _
        rw [hr]
      · intro _
        rw [hr]
        exact ⟨rfl,rfl⟩
      · intro _
        rw [hr]

def segmentWords (flags : BitVec 16) : List (BitVec 16) :=
  [0x4500, 40, 0, 0, 0x4006, 0, 0x0a00, 2, 0xc000, 0x0201,
    5000, 80, 0, 1000, 0, 0, 0x5000 ||| flags, 8192, 0, 0]

theorem segment_fits (flags : BitVec 16) : (segmentWords flags).length = (40 + 1) / 2 := rfl

theorem segment_bound : 40 < 65536 := by decide

def segment (flags : BitVec 16) : Payload := ⟨segmentWords flags, 40, segment_fits flags, segment_bound⟩

def plenty : Memory := ⟨true, true, true⟩

theorem syn_admission :
    Admission plenty natInit.nat (natPbufInit (segment 0x02) false) ∧ Opener (segment 0x02) :=
  ⟨(admission_iff rfl rfl fun _ _ => rfl).mpr (.inl (by decide)),by decide⟩

theorem stray_ack_admitted :
    ∃ (mem : Memory) (s : StackNat) (p : Pbuf),
      ipProtocol p.payload 0 = some 6 ∧ p.track = none ∧
      (∀ tuple, tupleCreate p.payload 0 .tcp = some tuple → connFindTrack s tuple = none) ∧
      (natTrack mem s p).1 = .accept ∧ (natTrack mem s p).2.1.tentative = [0] ∧
      ¬ Admission mem s p := by
  refine ⟨plenty,natInit.nat,natPbufInit (segment 0x10) false,rfl,rfl,fun _ _ => rfl,?_,?_,?_⟩
  · decide
  · decide
  · intro h
    have hdrop : UfVerdict.accept = .drop := h.verdict (by decide)
    cases hdrop

end ViewOS.Userfilter
