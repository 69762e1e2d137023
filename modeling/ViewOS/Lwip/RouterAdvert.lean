import Mathlib.Order.Monotone.Basic
import Mathlib.Tactic.Common

namespace ViewOS.Lwip.RouterAdvert

structure Packet where
  bytes : List UInt8
  short : bytes.length < 65536

def icmpRaHdrLen : Nat := 16

def Packet.totLen (p : Packet) : Nat := p.bytes.length

def Packet.byte (p : Packet) (i : Nat) : Nat := (p.bytes.getD i 0).toNat

def Packet.optBytes (p : Packet) (i : Nat) : Nat := p.byte (i + 1) * 8

def Packet.advance (p : Packet) (icmpLen : Nat) : Nat := (icmpLen + p.optBytes icmpLen) % 65536

-- The values of icmp_len at which an option is looked at.
def scanLoop (p : Packet) : Nat → Nat → Option (List Nat)
  | 0, _ => none
  | fuel + 1, icmpLen =>
    if icmpLen < p.totLen then (scanLoop p fuel (p.advance icmpLen)).map (icmpLen :: ·) else some []

def scan (p : Packet) (fuel : Nat) : Option (List Nat) := scanLoop p fuel icmpRaHdrLen

def Packet.start (p : Packet) (n : Nat) : Nat := (fun i => i + p.optBytes i)^[n] icmpRaHdrLen

def Packet.IsOption (p : Packet) (i : Nat) : Prop :=
  ∃ n, p.start n = i ∧ ∀ m ≤ n, p.start m < p.totLen

def ScansOptions (p : Packet) : Prop :=
  ∃ fuel visited, scan p fuel = some visited ∧ ∀ i ∈ visited, p.IsOption i ∧ i + 1 < p.totLen

def WellFormed (p : Packet) : Prop :=
  ∀ i, p.IsOption i → i + 1 < p.totLen ∧ p.optBytes i ≠ 0 ∧ i + p.optBytes i < 65536

variable {p : Packet} {n i : Nat}

theorem start_succ (p : Packet) (n : Nat) : p.start (n + 1) = p.start n + p.optBytes (p.start n) :=
  Function.iterate_succ_apply' _ _ _

theorem start_mono (p : Packet) : Monotone p.start :=
  monotone_nat_of_le_succ fun n => by
    rw [start_succ]
    exact Nat.le_add_right _ _

theorem optBytes_lt (p : Packet) (i : Nat) : p.optBytes i < 2048 := by
  have := (p.bytes.getD (i + 1) 0).toNat_lt
  rw [Packet.optBytes,Packet.byte]
  omega

theorem scanLoop_stuck {S : Nat → Prop} (hlt : ∀ i, S i → i < p.totLen)
    (hclosed : ∀ i, S i → S (p.advance i)) (fuel : Nat) (hi : S i) : scanLoop p fuel i = none := by
  induction fuel generalizing i with
  | zero => rfl
  | succ fuel ih => rw [scanLoop,if_pos (hlt i hi),ih (hclosed i hi),Option.map_none]

theorem advance_start (h : p.start n + p.optBytes (p.start n) < 65536) :
    p.advance (p.start n) = p.start (n + 1) := by
  rw [start_succ,Packet.advance,Nat.mod_eq_of_lt h]

theorem scanLoop_mem {fuel : Nat} {visited : List Nat} (h : scanLoop p fuel i = some visited)
    (hi : i < p.totLen) : i ∈ visited ∧ ∀ j ∈ visited, p.advance j < p.totLen → p.advance j ∈ visited := by
  induction fuel generalizing i visited with
  | zero => cases h
  | succ fuel ih =>
    rw [scanLoop,if_pos hi] at h
    obtain ⟨rest,hrest,rfl⟩ := Option.map_eq_some_iff.mp h
    refine ⟨List.mem_cons_self,?_⟩
    by_cases hnext : p.advance i < p.totLen
    · obtain ⟨hmem,hall⟩ := ih hrest hnext
      intro j hj hlt
      rcases List.mem_cons.mp hj with rfl | hj
      · exact List.mem_cons_of_mem _ hmem
      · exact List.mem_cons_of_mem _ (hall j hj hlt)
    · obtain rfl : [] = rest := by
        cases fuel with
        | zero => cases hrest
        | succ fuel =>
          rw [scanLoop,if_neg hnext] at hrest
          exact Option.some.inj hrest
      intro j hj hlt
      obtain rfl := List.mem_singleton.mp hj
      exact absurd hlt hnext

theorem scanLoop_wellFormed (hw : WellFormed p) (k : Nat) (hk : p.totLen - p.start n ≤ k)
    (hbefore : ∀ m < n, p.start m < p.totLen) : ∃ fuel visited,
      scanLoop p fuel (p.start n) = some visited ∧ ∀ i ∈ visited, p.IsOption i ∧ i + 1 < p.totLen := by
  induction k generalizing n with
  | zero => exact ⟨1,[],if_neg (by omega),nofun⟩
  | succ k ih =>
    by_cases hn : p.start n < p.totLen
    · have hall : ∀ m ≤ n, p.start m < p.totLen := fun m hm =>
        (Nat.lt_or_eq_of_le hm).elim (hbefore m) fun h => h ▸ hn
      have hopt : p.IsOption (p.start n) := ⟨n,rfl,hall⟩
      obtain ⟨hin,hne,hfit⟩ := hw _ hopt
      have hstep := advance_start hfit
      have hsucc := start_succ p n
      obtain ⟨fuel,visited,hscan,hvis⟩ := ih (n := n + 1) (by omega)
        (fun m hm => hall m (Nat.lt_succ_iff.mp hm))
      refine ⟨fuel + 1,p.start n :: visited,?_,List.forall_mem_cons.mpr ⟨⟨hopt,hin⟩,hvis⟩⟩
      rw [scanLoop,if_pos hn,hstep,hscan,Option.map_some]
    · exact ⟨1,[],if_neg hn,nofun⟩

-- An option that leads to itself or back to one before it is looked at for ever.
theorem scan_stuck {N : Nat} (hN : ∀ m ≤ N, p.start m < p.totLen)
    (hfit : ∀ m < N, p.start m + p.optBytes (p.start m) < 65536)
    (hback : ∃ m ≤ N, p.start m = p.advance (p.start N)) (fuel : Nat) : scan p fuel = none := by
  refine scanLoop_stuck (S := fun i => ∃ m ≤ N, p.start m = i) ?_ ?_ fuel ⟨0,Nat.zero_le N,rfl⟩
  · rintro i ⟨m,hm,rfl⟩
    exact hN m hm
  · rintro i ⟨m,hm,rfl⟩
    rcases Nat.lt_or_eq_of_le hm with hlt | rfl
    · exact ⟨m + 1,hlt,(advance_start (hfit m hlt)).symm⟩
    · exact hback

theorem advance_back {N : Nat} (hlt : p.start N < p.totLen)
    (hopt : p.advance (p.start N) < p.totLen → p.IsOption (p.advance (p.start N)))
    (hbad : p.optBytes (p.start N) = 0 ∨ 65536 ≤ p.start N + p.optBytes (p.start N)) :
    ∃ m ≤ N, p.start m = p.advance (p.start N) := by
  have hsmall := optBytes_lt p (p.start N)
  have hshort : p.totLen < 65536 := p.short
  rcases hbad with hz | hover
  · exact ⟨N,Nat.le_refl N,by rw [Packet.advance,hz]; omega⟩
  · have hadv : p.advance (p.start N) < p.start N := by
      rw [Packet.advance]
      omega
    obtain ⟨m,hm,-⟩ := hopt (by omega)
    refine ⟨m,?_,hm⟩
    by_contra hgt
    have := start_mono p (show N ≤ m by omega)
    omega

theorem start_visited {fuel : Nat} {visited : List Nat} (h : scan p fuel = some visited)
    (hvis : ∀ i ∈ visited, p.IsOption i ∧ i + 1 < p.totLen) (N : Nat)
    (hN : ∀ m ≤ N, p.start m < p.totLen) : p.start N ∈ visited ∧ p.optBytes (p.start N) ≠ 0 ∧
      p.start N + p.optBytes (p.start N) < 65536 := by
  have h0 : p.start 0 < p.totLen := hN 0 (Nat.zero_le N)
  obtain ⟨hfirst,hnext⟩ := scanLoop_mem h h0
  induction N using Nat.strongRecOn with
  | ind N ih =>
    have hfit : ∀ m < N, p.start m ∈ visited ∧ p.start m + p.optBytes (p.start m) < 65536 := by
      intro m hm
      obtain ⟨hv,-,hend⟩ := ih m hm fun j hj => hN j (Nat.le_trans hj (Nat.le_of_lt hm))
      exact ⟨hv,hend⟩
    have hmem : p.start N ∈ visited := by
      cases N with
      | zero => exact hfirst
      | succ N =>
        obtain ⟨hv,hend⟩ := hfit N (Nat.lt_succ_self N)
        rw [← advance_start hend]
        exact hnext _ hv (by rw [advance_start hend]; exact hN _ (Nat.le_refl _))
    refine ⟨hmem,?_⟩
    by_contra hbad
    have hback := advance_back (hN N (Nat.le_refl N)) (fun hlt => (hvis _ (hnext _ hmem hlt)).1)
      (by omega)
    cases (scan_stuck hN (fun m hm => (hfit m hm).2) hback fuel).symm.trans h

theorem scansOptions_iff (p : Packet) : ScansOptions p ↔ WellFormed p := by
  constructor
  · rintro ⟨fuel,visited,hscan,hvis⟩ i ⟨N,rfl,hN⟩
    obtain ⟨hmem,hgood⟩ := start_visited hscan hvis N hN
    exact ⟨(hvis _ hmem).2,hgood⟩
  · intro hw
    exact scanLoop_wellFormed (n := 0) hw _ (Nat.le_refl _) nofun

abbrev Octets := Fin 16 → BitVec 8

def wordOctet (g : BitVec 16) (low : Bool) : BitVec 8 :=
  if low then g.extractLsb' 0 8 else g.extractLsb' 8 8

-- IP6_ADDR_LINKSCOPE as it is written: & binds weaker than <<, so the 0x02 bit is never set.
def ip6AddrLinkscope (hwaddr : Fin 6 → BitVec 8) : Octets :=
  let w := fun i => (hwaddr i).zeroExtend 16
  let e := (if w 0 &&& 0x02 ≠ 0 then w 0 &&& ~~~ 0x02 else w 0 &&& (0x02 <<< 8)) ||| w 1
  let groups := [0xfe80, 0, 0, 0, e, w 2 <<< 8 ||| 0xff, 0xfe00 ||| w 3, w 4 <<< 8 ||| w 5]
  fun i => wordOctet (groups.getD (i.val / 2) 0) (i.val % 2 = 1)

def createAddressFromPrefix (hwaddr : Fin 6 → BitVec 8) (netPrefix : Octets) (prefixlen : Nat) : Octets :=
  fun i => if i.val < prefixlen / 8 then netPrefix i else ip6AddrLinkscope hwaddr i

def addrBit (a : Octets) (k : Fin 128) : Bool := (a ⟨k.val / 8, by omega⟩).getLsbD (7 - k.val % 8)

def Combines (hwaddr : Fin 6 → BitVec 8) (netPrefix : Octets) (prefixlen : Nat) : Prop :=
  ∀ k, addrBit (createAddressFromPrefix hwaddr netPrefix prefixlen) k =
    if k.val < prefixlen then addrBit netPrefix k else addrBit (ip6AddrLinkscope hwaddr) k

theorem addrBit_create (hwaddr : Fin 6 → BitVec 8) (netPrefix : Octets) (prefixlen : Nat) (k : Fin 128) :
    addrBit (createAddressFromPrefix hwaddr netPrefix prefixlen) k =
      if k.val / 8 < prefixlen / 8 then addrBit netPrefix k
      else addrBit (ip6AddrLinkscope hwaddr) k := by
  rw [addrBit,createAddressFromPrefix]
  split_ifs <;> rfl

theorem combines_iff (hwaddr : Fin 6 → BitVec 8) (netPrefix : Octets) (prefixlen : Nat) :
    Combines hwaddr netPrefix prefixlen ↔ ∀ k : Fin 128, k.val / 8 = prefixlen / 8 →
      k.val < prefixlen → addrBit netPrefix k = addrBit (ip6AddrLinkscope hwaddr) k := by
  refine forall_congr' fun k => ?_
  rw [addrBit_create]
  by_cases hbyte : k.val / 8 < prefixlen / 8
  · rw [if_pos hbyte,if_pos (by omega)]
    exact iff_of_true rfl fun h => by omega
  · rw [if_neg hbyte]
    by_cases hk : k.val < prefixlen
    · rw [if_pos hk]
      exact ⟨fun h _ _ => h.symm,fun h => (h (by omega) hk).symm⟩
    · rw [if_neg hk]
      exact iff_of_true rfl fun _ h => absurd h hk

theorem router_advertisement_iff (p : Packet) (hwaddr : Fin 6 → BitVec 8) (netPrefix : Octets)
    (prefixlen : Fin 129) :
    ScansOptions p ∧ Combines hwaddr netPrefix prefixlen ↔
      WellFormed p ∧ ∀ k : Fin 128, k.val / 8 = prefixlen.val / 8 → k.val < prefixlen.val →
        addrBit netPrefix k = addrBit (ip6AddrLinkscope hwaddr) k :=
  and_congr (scansOptions_iff p) (combines_iff hwaddr netPrefix prefixlen)

def zeroLength : Packet := ⟨List.replicate 24 0, by decide⟩

theorem zeroLength_scanned_for_ever : (∀ fuel, scan zeroLength fuel = none) ∧
    ¬ ∀ (p : Packet) (hwaddr : Fin 6 → BitVec 8) (netPrefix : Octets) (prefixlen : Fin 129),
      ScansOptions p ∧ Combines hwaddr netPrefix prefixlen := by
  have hstuck : ∀ fuel, scan zeroLength fuel = none := fun fuel =>
    scanLoop_stuck (S := fun i => i = icmpRaHdrLen) (by rintro i rfl; decide)
      (by rintro i rfl; decide) fuel rfl
  refine ⟨hstuck,fun h => ?_⟩
  obtain ⟨⟨fuel,visited,hscan,-⟩,-⟩ := h zeroLength (fun _ => 0) (fun _ => 0) 0
  cases (hstuck fuel).symm.trans hscan

end ViewOS.Lwip.RouterAdvert
