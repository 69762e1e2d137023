import ViewOS.Lib.Run
import ViewOS.Lwip.Icmp6

namespace ViewOS.Lwip.Dad

open Transition Icmp6 Userfilter Inet

-- An element of addrs_tentative; the last two fields are what happened since its detection began.
structure El where
  id : Nat
  ipaddr : IpAddr
  netmask : IpAddr
  dadCounter : Nat
  probes : Nat
  heard : Bool
deriving DecidableEq

-- What was moved to the address list, and what was removed with the target that removed it.
structure State where
  tentative : List El
  moved : List El
  removed : List (El × IpAddr)

inductive Event where
  | start (id : Nat) (ipaddr netmask : IpAddr)
  | timeout (id : Nat)
  | advert (solicited : Bool) (dest target : IpAddr)

def init : State := ⟨[], [], []⟩

def startDadOnAddr (id : Nat) (ipaddr netmask : IpAddr) : El := ⟨id, ipaddr, netmask, 1, 1, false⟩

def El.probe (el : El) : El := { el with dadCounter := el.dadCounter + 1, probes := el.probes + 1 }

def without (els : List El) (id : Nat) : List El := els.filter (·.id ≠ id)

def dadTimeout (duptrans : BitVec 8) (s : State) (el : El) : State :=
  if el.dadCounter < duptrans.toNat then
    { s with tentative := s.tentative.map fun e => if e.id = el.id then e.probe else e }
  else { s with tentative := without s.tentative el.id, moved := el :: s.moved }

def El.hit (target : IpAddr) (el : El) : Bool := maskfindHit target el.ipaddr el.netmask

-- ip_notify calls ip_autoconf_stop, and no tentative address is left.
def removeAutoconfData (s : State) (target : IpAddr) : State :=
  ⟨[], s.moved, s.tentative.map (·, target) ++ s.removed⟩

def ipAutoconfHandleNa (o : HostOrder) (s : State) (solicited : Bool) (dest target : IpAddr) :
    State :=
  if solicited && ipAddrIsallnode o dest then
    match s.tentative.find? (El.hit target) with
    | some ip =>
      let s :=
        { s with tentative := without s.tentative ip.id, removed := (ip, target) :: s.removed }
      if ipAddrIslinkscope ip.ipaddr then removeAutoconfData s target else s
    | none => s
  else s

-- ff01::1 and ff02::1, whatever the byte order of the host.
def allNodes (addr : IpAddr) : Bool := ipAddrIsallnode .big addr

def El.note (solicited : Bool) (dest target : IpAddr) (el : El) : El :=
  { el with heard := el.heard || (solicited && allNodes dest && decide (el.ipaddr = target)) }

def step (o : HostOrder) (duptrans : BitVec 8) (s : State) : Event → Option State
  | .start id ipaddr netmask =>
    if ∃ el ∈ s.tentative, el.id = id then none
    else some { s with tentative := s.tentative ++ [startDadOnAddr id ipaddr netmask] }
  | .timeout id => (s.tentative.find? (·.id = id)).map (dadTimeout duptrans s)
  | .advert solicited dest target =>
    let s := ipAutoconfHandleNa o s solicited dest target
    some { s with tentative := s.tentative.map (El.note solicited dest target) }

-- The element that is found has the target as its address, and so has every element if that is a
-- link-scope address; and a solicited advertisement to all nodes leaves no element with that address.
def Exact (o : HostOrder) (s : State) : Event → Prop
  | .advert true dest target =>
    (ipAddrIsallnode o dest = true → ∀ el, s.tentative.find? (El.hit target) = some el →
      el.ipaddr = target ∧
        (ipAddrIslinkscope target = true → ∀ e ∈ s.tentative, e.ipaddr = target)) ∧
    (allNodes dest = true → ∀ el ∈ s.tentative, el.ipaddr = target →
      ipAddrIsallnode o dest = true ∧ s.tentative.find? (El.hit target) = some el)
  | _ => True

structure Proper (duptrans : BitVec 8) (s : State) : Prop where
  moved : ∀ el ∈ s.moved, duptrans.toNat ≤ el.probes ∧ el.heard = false
  removed : ∀ r ∈ s.removed, r.1.ipaddr = r.2

structure Sound (duptrans : BitVec 8) (s : State) : Prop extends Proper duptrans s where
  tentative : ∀ el ∈ s.tentative, el.dadCounter = el.probes ∧ el.heard = false

variable {o : HostOrder} {duptrans : BitVec 8} {s t : State}

theorem mem_without {els : List El} {id : Nat} {el : El} :
    el ∈ without els id ↔ el ∈ els ∧ el.id ≠ id := by
  simp [without]

theorem Sound.start (h : Sound duptrans s) (id : Nat) (ipaddr netmask : IpAddr) :
    Sound duptrans { s with tentative := s.tentative ++ [startDadOnAddr id ipaddr netmask] } := by
  refine ⟨⟨h.moved,h.removed⟩,fun el hel => ?_⟩
  rcases List.mem_append.mp hel with hel | hel
  · exact h.tentative el hel
  · rw [List.mem_singleton.mp hel]
    exact ⟨rfl,rfl⟩

theorem Sound.timeout (h : Sound duptrans s) {el : El} (hel : el ∈ s.tentative) :
    Sound duptrans (dadTimeout duptrans s el) := by
  rw [dadTimeout]
  split_ifs with hmore
  · refine ⟨⟨h.moved,h.removed⟩,fun e' he' => ?_⟩
    obtain ⟨e,he,rfl⟩ := List.mem_map.mp he'
    have hold := h.tentative e he
    split_ifs
    · exact ⟨congrArg (· + 1) hold.1,hold.2⟩
    · exact hold
  · have hold := h.tentative el hel
    refine ⟨⟨fun e he => ?_,h.removed⟩,fun e he => h.tentative e (mem_without.mp he).1⟩
    rcases List.mem_cons.mp he with rfl | he
    · exact ⟨by omega,hold.2⟩
    · exact h.moved e he

theorem ipAutoconfHandleNa_tentative (solicited : Bool) (dest target : IpAddr) {el : El}
    (hel : el ∈ (ipAutoconfHandleNa o s solicited dest target).tentative) : el ∈ s.tentative ∧
      (solicited = true → ipAddrIsallnode o dest = true →
        s.tentative.find? (El.hit target) ≠ some el) := by
  rw [ipAutoconfHandleNa] at hel
  split_ifs at hel with hcode
  · split at hel
    · next ip hip =>
        have hkept : el ∈ without s.tentative ip.id := by
          split_ifs at hel
          · cases hel
          · exact hel
        refine ⟨(mem_without.mp hkept).1,fun _ _ hfound => ?_⟩
        rw [hip] at hfound
        exact (mem_without.mp hkept).2 (congrArg El.id (Option.some.inj hfound).symm)
    · next hnone => exact ⟨hel,fun _ _ hfound => by rw [hnone] at hfound; cases hfound⟩
  · exact ⟨hel,fun hs hd => absurd (by rw [hs,hd]; rfl) hcode⟩

theorem Sound.handleNa (h : Sound duptrans s) {solicited : Bool} {dest target : IpAddr}
    (hexact : Exact o s (.advert solicited dest target)) :
    Proper duptrans (ipAutoconfHandleNa o s solicited dest target) := by
  rw [ipAutoconfHandleNa]
  split_ifs with hcode
  · split
    · next ip hip =>
        obtain ⟨hs,hd⟩ := Bool.and_eq_true_iff.mp hcode
        subst hs
        obtain ⟨hip,hdown⟩ := hexact.1 hd ip hip
        have hremoved : ∀ r ∈ (ip, target) :: s.removed, r.1.ipaddr = r.2 :=
          List.forall_mem_cons.mpr ⟨hip,h.removed⟩
        split_ifs with hlink
        · refine ⟨h.moved,List.forall_mem_append.mpr ⟨fun r hr => ?_,hremoved⟩⟩
          obtain ⟨e,he,rfl⟩ := List.mem_map.mp hr
          exact hdown (hip ▸ hlink) e (mem_without.mp he).1
        · exact ⟨h.moved,hremoved⟩
    · exact h.toProper
  · exact h.toProper

theorem Sound.advert (h : Sound duptrans s) {solicited : Bool} {dest target : IpAddr}
    (hexact : Exact o s (.advert solicited dest target))
    (ht : step o duptrans s (.advert solicited dest target) = some t) : Sound duptrans t := by
  obtain rfl := Option.some.inj ht
  have hproper := h.handleNa hexact
  refine ⟨⟨hproper.moved,hproper.removed⟩,fun e he => ?_⟩
  obtain ⟨el,hel,rfl⟩ := List.mem_map.mp he
  obtain ⟨hmem,hleft⟩ := ipAutoconfHandleNa_tentative solicited dest target hel
  have hold := h.tentative el hmem
  refine ⟨hold.1,?_⟩
  change (el.heard || (solicited && allNodes dest && decide (el.ipaddr = target))) = false
  rw [hold.2,Bool.false_or]
  -- An element with the target as its address was the one found, and is gone.
  apply Bool.eq_false_of_not_eq_true
  intro hheard
  rw [Bool.and_eq_true,Bool.and_eq_true,decide_eq_true_eq] at hheard
  obtain ⟨⟨rfl,hall⟩,heq⟩ := hheard
  obtain ⟨hcode,hfound⟩ := hexact.2 hall el hmem heq
  exact hleft rfl hcode hfound

theorem Sound.step (h : Sound duptrans s) {e : Event} (hexact : Exact o s e)
    (ht : step o duptrans s e = some t) : Sound duptrans t := by
  cases e with
  | start id ipaddr netmask =>
    rw [Dad.step] at ht
    split_ifs at ht
    obtain rfl := Option.some.inj ht
    exact h.start id ipaddr netmask
  | timeout id =>
    obtain ⟨el,hel,rfl⟩ := Option.map_eq_some_iff.mp ht
    exact h.timeout (List.mem_of_find?_eq_some hel)
  | advert solicited dest target => exact h.advert hexact ht

theorem dad_proper (o : HostOrder) (duptrans : BitVec 8) (s : State)
    (h : Run (step o duptrans) (Exact o) init s) : Proper duptrans s := by
  have hinit : Sound duptrans init :=
    ⟨⟨List.forall_mem_nil _,List.forall_mem_nil _⟩,List.forall_mem_nil _⟩
  exact (h.invariant (fun _ _ _ ht hexact hstep => ht.step hexact hstep) hinit).toProper

-- 2001:db8::n with a netmask of 64 bits.
def global (n : BitVec 32) : IpAddr := ![0x20010db8, 0, 0, n]

def mask64 : IpAddr := ![0xffffffff, 0xffffffff, 0, 0]

def allNodesAddr : IpAddr := ![0xff020000, 0, 0, 1]

def linkAddr : IpAddr := ![0xfe800000, 0, 0, 1]

def linkEl : El := ⟨1, linkAddr, mask64, 1, 1, false⟩

theorem dad_proper_run : Proper 1
    ⟨[], [⟨0, global 1, mask64, 1, 1, false⟩], [(linkEl, linkAddr)]⟩ := by
  have hrun : exec (step .big 1) init [.start 0 (global 1) mask64,.timeout 0,
      .start 1 linkAddr mask64,.advert true allNodesAddr linkAddr] =
      some ⟨[], [⟨0, global 1, mask64, 1, 1, false⟩], [(linkEl, linkAddr)]⟩ := rfl
  refine dad_proper .big 1 _ (Run.of_exec hrun ⟨trivial,fun _ h1 => ⟨trivial,fun _ h2 =>
    ⟨trivial,fun t h3 => ⟨?_,fun _ _ => trivial⟩⟩⟩⟩)
  obtain rfl := Option.some.inj h1
  obtain rfl := Option.some.inj h2
  have ht : t.tentative = [linkEl] := congrArg State.tentative (Option.some.inj h3).symm
  rw [Exact,ht]
  refine ⟨fun _ el hel => ?_,fun _ el hel _ => ?_⟩
  · obtain rfl : linkEl = el := Option.some.inj hel
    exact ⟨rfl,fun _ e he => List.mem_singleton.mp he ▸ rfl⟩
  · rw [List.mem_singleton.mp hel]
    exact ⟨rfl,rfl⟩

theorem advert_removes_another : ¬∀ (o : HostOrder) (duptrans : BitVec 8) (s : State),
    Run (step o duptrans) (fun _ _ => True) init s → Proper duptrans s := by
  intro hall
  have hrun : exec (step .big 1) init [.start 0 (global 1) mask64,
      .advert true allNodesAddr (global 2)] =
      some ⟨[], [], [(⟨0, global 1, mask64, 1, 1, false⟩, global 2)]⟩ := rfl
  have hproper := hall .big 1 _ (Run.of_exec hrun (Meets.of_forall (fun _ _ => trivial) _ _))
  have heq := hproper.removed _ List.mem_cons_self
  exact absurd (congrFun heq w3) (by decide)

end ViewOS.Lwip.Dad
