import ViewOS.Lib.Run
import ViewOS.Lwip.Received

namespace ViewOS.Lwip

open Transition

structure Delivery where
  packet : Reassembled
  log : List Pbuf4

structure Reassembly where
  pool : Pool
  log : Fin ipReassPoolSize → List Pbuf4
  delivered : List Delivery

inductive Input where
  | fragment (alloc : Bool) (p : Pbuf4)
  | timer

def Reassembly.init : Reassembly where
  pool _ := ⟨0, 0, 0, false, false, 0, ⟨0, 0, 0, 0, 0, 0, 0, 0⟩, fun _ => 0, fun _ => 0⟩
  log _ := []
  delivered := []

def Reassembly.history (s : Reassembly) (pos : Fin ipReassPoolSize) (hdr : Ip4Hdr) : List Pbuf4 :=
  if entryMatches (s.pool pos) hdr then s.log pos else []

def Reassembly.record (s : Reassembly) (p : Pbuf4) (r : Pool × Option Reassembled) : Reassembly :=
  match chooseEntry s.pool p.hdr with
  | none => s
  | some (pos, _) =>
    let log := p :: s.history pos p.hdr
    { pool := r.1
      log := Function.update s.log pos log
      delivered := (r.2.map fun q => ⟨q, log⟩).toList ++ s.delivered }

def Reassembly.step (s : Reassembly) : Input → Option Reassembly
  | .fragment alloc p => (ip4Reass alloc s.pool p).map (s.record p)
  | .timer => some { s with pool := ipReassTmr s.pool }

def Delivery.Received (d : Delivery) : Prop :=
  ∀ j b, d.packet.payload[j]? = some b → ∃ g ∈ d.log, g.hdr.src = d.packet.hdr.src ∧
    g.hdr.dest = d.packet.hdr.dest ∧ g.hdr.id = d.packet.hdr.id ∧ g.byteAt j = some b

def Reassembly.Orderly (s : Reassembly) : Input → Prop
  | .fragment _ p =>
    ∀ c ∈ chooseEntry s.pool p.hdr,
      Regular (p :: s.history c.1 p.hdr) ∧ Filled (p :: s.history c.1 p.hdr)
  | .timer => True

instance {s : Reassembly} : (o : Input) → Decidable (s.Orderly o)
  | .timer => inferInstanceAs (Decidable True)
  | .fragment _ p =>
    inferInstanceAs (Decidable (∀ c ∈ chooseEntry s.pool p.hdr,
      Regular (p :: s.history c.1 p.hdr) ∧ Filled (p :: s.history c.1 p.hdr)))

structure Reassembly.Inv (s : Reassembly) : Prop where
  tracks : ∀ pos, (s.pool pos).used = true → Tracks (s.pool pos) (s.log pos)
  received : ∀ d ∈ s.delivered, d.Received

theorem entryMatches_openEntry (e : Entry) (hdr : Ip4Hdr) :
    entryMatches (openEntry e hdr) hdr = true := by
  simp [entryMatches,openEntry]

theorem entryMatches_key {e : Entry} {hdr : Ip4Hdr} (h : entryMatches e hdr = true) :
    e.used = true ∧ e.id = hdr.id.toNat ∧ e.hdr.src = hdr.src ∧ e.hdr.dest = hdr.dest := by
  rw [entryMatches,decide_eq_true_iff] at h
  exact h.2

theorem Reassembly.Inv.choose {s : Reassembly} (h : s.Inv) {hdr : Ip4Hdr}
    {pos : Fin ipReassPoolSize} {e : Entry} (hc : chooseEntry s.pool hdr = some (pos, e)) :
    entryMatches e hdr = true ∧ Tracks e (s.history pos hdr) := by
  rw [chooseEntry] at hc
  split at hc
  next pos' hf =>
    cases hc
    have hm := (List.find?_eq_some_iff_append.mp hf).1
    rw [Reassembly.history,if_pos hm]
    exact ⟨hm,h.tracks pos (entryMatches_key hm).1⟩
  next hnone =>
    obtain ⟨pos',-,heq⟩ := Option.map_eq_some_iff.mp hc
    cases heq
    have hm := List.find?_eq_none.mp hnone pos (List.mem_finRange pos)
    rw [Reassembly.history,if_neg hm]
    exact ⟨entryMatches_openEntry _ _,tracks_openEntry⟩

theorem Tracks.received {e : Entry} {log : List Pbuf4} (h : Tracks e log)
    (hcov : ∀ j < e.len - ip4Hlen, Covered log j) : Delivery.Received ⟨reassembled e, log⟩ := by
  intro j b hj
  have hlt : j < e.len - ip4Hlen := by
    have := (List.getElem?_eq_some_iff.mp hj).1
    simpa [reassembled] using this
  obtain ⟨g,hg,hb⟩ := h.reassembled_payload (hcov j hlt) hj
  obtain ⟨-,hid,hsrc,hdest⟩ := entryMatches_key (h.key g hg)
  refine ⟨g,hg,hsrc.symm,hdest.symm,?_,hb⟩
  exact BitVec.eq_of_toNat_eq (by rw [← hid,h.id]; rfl)

theorem receive_cases {alloc : Bool} {e : Entry} {p : Pbuf4} {r : Entry × Option Reassembled}
    (h : receive alloc e p = some r) :
    (r.1.used = false ∧ r.2 = none) ∨
      (storeFragment e p = some r.1 ∧ r.2 = none) ∨
      ∃ e', storeFragment e p = some e' ∧ e'.lastfrag = true ∧ complete e'.bitmap e'.len = some true ∧
        r.1.used = false ∧ ∀ q ∈ r.2, q = reassembled e' := by
  by_cases hout : outside p.hdr = true
  · rw [receive,if_pos hout] at h
    cases h
    exact .inl ⟨rfl,rfl⟩
  · right
    rw [receive,if_neg hout] at h
    obtain ⟨e',he',h⟩ := Option.bind_eq_some_iff.mp h
    by_cases hl : e'.lastfrag = true
    · rw [if_pos hl] at h
      obtain ⟨full,hfull,rfl⟩ := Option.map_eq_some_iff.mp h
      cases full with
      | false => exact .inl ⟨he',rfl⟩
      | true => exact .inr ⟨e',he',hl,hfull,rfl,by cases alloc <;> simp⟩
    · rw [if_neg hl] at h
      obtain rfl : (e', none) = r := by simpa using h
      exact .inl ⟨he',rfl⟩

theorem Reassembly.Inv.update {s : Reassembly} (h : s.Inv) {pos : Fin ipReassPoolSize} {e : Entry}
    {log : List Pbuf4} {out : Option Reassembled} (hslot : e.used = true → Tracks e log)
    (hout : ∀ q ∈ out, Delivery.Received ⟨q, log⟩) :
    Reassembly.Inv ⟨Function.update s.pool pos e, Function.update s.log pos log,
      (out.map fun q => ⟨q, log⟩).toList ++ s.delivered⟩ where
  tracks i := by
    dsimp only
    by_cases hi : i = pos
    · rw [hi,Function.update_self,Function.update_self]
      exact hslot
    · rw [Function.update_of_ne hi,Function.update_of_ne hi]
      exact h.tracks i
  received d hd := by
    rw [List.mem_append,Option.mem_toList,Option.map_eq_some_iff] at hd
    obtain ⟨q,hq,rfl⟩ | hd := hd
    · exact hout q hq
    · exact h.received d hd

theorem Reassembly.Inv.fragment {s t : Reassembly} (h : s.Inv) {alloc : Bool} {p : Pbuf4}
    (hok : s.Orderly (.fragment alloc p)) (hstep : s.step (.fragment alloc p) = some t) : t.Inv := by
  obtain ⟨r,hr,rfl⟩ := Option.map_eq_some_iff.mp hstep
  rw [ip4Reass] at hr
  rw [Reassembly.record]
  cases hc : chooseEntry s.pool p.hdr with
  | none => exact h
  | some c =>
    obtain ⟨pos,e⟩ := c
    rw [hc] at hr
    obtain ⟨hreg,hfill⟩ := hok (pos, e) hc
    obtain ⟨hkey,htr⟩ := h.choose hc
    obtain ⟨r',hr',rfl⟩ := Option.map_eq_some_iff.mp hr
    have hstored : ∀ e', storeFragment e p = some e' →
        Tracks e' (p :: s.history pos p.hdr) := fun e' he' => by
      obtain ⟨hlen,-,rfl⟩ := storeFragment_eq_some he'
      exact htr.store hkey hlen
    have hslot : r'.1.used = true → Tracks r'.1 (p :: s.history pos p.hdr) := by
      intro hu
      obtain ⟨hno,-⟩ | ⟨he',-⟩ | ⟨e',-,-,-,hno,-⟩ := receive_cases hr'
      · rw [hno] at hu
        cases hu
      · exact hstored _ he'
      · rw [hno] at hu
        cases hu
    have hout : ∀ q ∈ r'.2, Delivery.Received ⟨q,p :: s.history pos p.hdr⟩ := by
      intro q hq
      obtain ⟨-,hno⟩ | ⟨-,hno⟩ | ⟨e',he',hl,hfull,-,hall⟩ := receive_cases hr'
      · rw [hno] at hq
        cases hq
      · rw [hno] at hq
        cases hq
      · rw [hall q hq]
        exact (hstored e' he').received fun j hj =>
          (hstored e' he').covered hreg hfill hl hfull hj
    exact h.update hslot hout

theorem Reassembly.Inv.timer {s : Reassembly} (h : s.Inv) :
    Reassembly.Inv { s with pool := ipReassTmr s.pool } where
  tracks pos hu := by
    simp only [ipReassTmr] at hu ⊢
    split_ifs at hu ⊢ with h1 h2
    · cases hu
    · exact ⟨(h.tracks pos h1).id,(h.tracks pos h1).key,(h.tracks pos h1).held,
        (h.tracks pos h1).marked,(h.tracks pos h1).data,(h.tracks pos h1).last,
        (h.tracks pos h1).unknown⟩
    · exact absurd hu h1
  received := h.received

theorem orderly_deliveries_received {t : Reassembly}
    (h : Run Reassembly.step Reassembly.Orderly Reassembly.init t) :
    ∀ d ∈ t.delivered, d.Received := by
  have hinit : Reassembly.init.Inv := by
    refine ⟨fun pos hu => ?_,by simp [Reassembly.init]⟩
    cases hu
  have hinv : t.Inv := h.invariant (fun s o u hs hok hstep => by
    cases o with
    | fragment alloc p => exact hs.fragment hok hstep
    | timer =>
      cases hstep
      exact hs.timer) hinit
  exact hinv.received

theorem short_fits {data : List UInt8} (h : data.length < 1000) :
    ip4Hlen + (data.length + ([] : List (List UInt8)).flatten.length) < 65536 := by
  simp only [ip4Hlen,List.flatten_nil,List.length_nil]
  omega

def sampleFragment (offset : BitVec 16) (data : List UInt8) (h : data.length < 1000) : Pbuf4 where
  hdr := ⟨0x4500, BitVec.ofNat 16 (20 + data.length), 7, offset, 0x4011, 0, 0x0a000001, 0x0a000002⟩
  head := data
  next := []
  fits := short_fits h

def firstFragment : Pbuf4 := sampleFragment 0x2000 (List.replicate 48 2) (by decide)

def lastFragment : Pbuf4 := sampleFragment 6 (List.replicate 8 1) (by decide)

theorem two_fragments_delivered :
    ∃ t, Run Reassembly.step Reassembly.Orderly Reassembly.init t ∧ t.delivered.length = 1 ∧
      ∀ d ∈ t.delivered, d.Received := by
  obtain ⟨t,ht,hlen⟩ : ∃ t, exec Reassembly.step Reassembly.init
      [.fragment true firstFragment,.fragment true lastFragment] = some t ∧
        t.delivered.length = 1 := ⟨_,rfl,by decide⟩
  have hrun : Run Reassembly.step Reassembly.Orderly Reassembly.init t := .of_exec ht (by decide)
  exact ⟨t,hrun,hlen,orderly_deliveries_received hrun⟩

theorem lone_last_fragment_delivered :
    ¬ ∀ (ops : List Input) (t : Reassembly), exec Reassembly.step Reassembly.init ops = some t →
      ∀ d ∈ t.delivered, d.Received := by
  intro h
  obtain ⟨t,ht,d,hd,hj,hlog⟩ : ∃ t, exec Reassembly.step Reassembly.init
      [.fragment true lastFragment] = some t ∧ ∃ d ∈ t.delivered,
        d.packet.payload[0]? = some 0 ∧ ∀ g ∈ d.log, g.byteAt 0 = none :=
    ⟨_,rfl,_,List.mem_singleton_self _,by decide,by decide⟩
  obtain ⟨g,hg,-,-,-,hb⟩ := h _ t ht d hd 0 0 hj
  rw [hlog g hg] at hb
  cases hb

end ViewOS.Lwip
