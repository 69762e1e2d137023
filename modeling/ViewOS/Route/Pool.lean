import ViewOS.Lib.Run
import ViewOS.Route.Model

namespace ViewOS.Route

open Lwip Transition

-- The list and the number of MEMP_ROUTE entries that memp_malloc can still give.
structure Tables where
  list : List IpRoute
  avail : Nat
  deriving DecidableEq

structure Args where
  addr : IpAddr
  netmask : IpAddr
  nexthop : Option IpAddr
  netif : Nat

-- The entry taken from the pool is not given back on ERR_CONN.
def Tables.add (r : Tables) (a : Args) (flags : Int) : Option (Err × Tables) :=
  (ipRouteListAdd r.list (0 < r.avail) a.addr a.netmask a.nexthop a.netif flags).map fun x =>
    (x.1, ⟨x.2, r.avail - 1⟩)

def Tables.del (r : Tables) (addr : IpAddr) (netmask nexthop : Option IpAddr) (netif : Nat) :
    Err × Tables :=
  let x := ipRouteListDel r.list addr netmask nexthop netif
  (x.1, ⟨x.2, if x.1 = .ok then r.avail + 1 else r.avail⟩)

inductive PoolOp where
  | add (a : Args) (flags : Int)
  | del (addr : IpAddr) (netmask nexthop : Option IpAddr) (netif : Nat)

def poolStep (r : Tables) : PoolOp → Option Tables
  | .add a flags => (r.add a flags).map Prod.snd
  | .del addr netmask nexthop netif => some (r.del addr netmask nexthop netif).2

def Args.route (a : Args) (flags : Int) : IpRoute :=
  ⟨ipAddrSetMask a.addr a.netmask, a.netmask, ipAddrSet a.nexthop, a.netif, flags⟩

def Args.EqualTo (a : Args) (dp : IpRoute) : Prop :=
  dp.addr = ipAddrSetMask a.addr a.netmask ∧ dp.netmask = a.netmask ∧ dp.nexthop = ipAddrSet a.nexthop ∧
    dp.netif = a.netif

def Refuses (r : Tables) (a : Args) (flags : Int) : Prop :=
  (∃ dp ∈ r.list, a.EqualTo dp) → ∃ e, r.add a flags = some (e, r) ∧ e ≠ .ok

def Restores (r : Tables) (a : Args) (flags : Int) : Prop :=
  0 < r.avail → (∀ dp ∈ r.list, ¬ a.EqualTo dp) → ∃ r', r.add a flags = some (.ok, r') ∧
    r'.del a.addr (some a.netmask) a.nexthop a.netif = (.ok, r)

def Named (addr : IpAddr) (netmask nexthop : Option IpAddr) (netif : Nat) (dp : IpRoute) : Prop :=
  dp.addr = addr ∧ (∀ mask ∈ netmask, dp.netmask = mask) ∧ dp.nexthop = ipAddrSet nexthop ∧ dp.netif = netif

def RemovesNamed (r : Tables) (addr : IpAddr) (netmask nexthop : Option IpAddr) (netif : Nat) : Prop :=
  (∃ l dp l', r.list = l ++ dp :: l' ∧ Named addr netmask nexthop netif dp ∧
    r.del addr netmask nexthop netif = (.ok, ⟨l ++ l', r.avail + 1⟩)) ∨
  ((∀ dp ∈ r.list, ¬ Named addr netmask nexthop netif dp) ∧
    r.del addr netmask nexthop netif = (.conn, r))

def Clashes (a : Args) (dp : IpRoute) : Prop :=
  dp.addr = a.addr ∧ dp.netmask = a.netmask ∧
    (a.nexthop = none ∨ dp.nexthop = ipAddrSet a.nexthop ∨ dp.netif = a.netif)

theorem duplicate_eq_false {a : Args} {l : List IpRoute} :
    duplicate a.addr a.netmask a.nexthop a.netif l = some false ↔ ∀ dp ∈ l, ¬ Clashes a dp := by
  induction l with
  | nil => simp [duplicate]
  | cons dp l ih =>
    rw [List.forall_mem_cons,← ih,duplicate.eq_def]
    dsimp only
    by_cases hsame : dp.addr = a.addr ∧ dp.netmask = a.netmask
    · rw [if_neg (by simp [ipAddrCmp_iff.mpr hsame.1,ipAddrCmp_iff.mpr hsame.2])]
      cases hhop : a.nexthop with
      | none => simp [Clashes,hsame,hhop]
      | some hop =>
        by_cases hcl : dp.nexthop = hop ∨ dp.netif = a.netif
        · have hor : (!ipAddrCmp dp.nexthop hop && dp.netif != a.netif) = false := by
            rcases hcl with h | h
            · simp [ipAddrCmp_iff.mpr h]
            · simp [h]
          simp [hor,Clashes,hsame,hhop,ipAddrSet,hcl]
        · have hor : (!ipAddrCmp dp.nexthop hop && dp.netif != a.netif) = true := by
            rw [not_or] at hcl
            simp [← Bool.not_eq_true,ipAddrCmp_iff,hcl]
          simp [hor,Clashes,hsame,hhop,ipAddrSet,hcl]
    · have hskip : (!ipAddrCmp dp.addr a.addr || !ipAddrCmp dp.netmask a.netmask) = true := by
        simpa [← Bool.not_eq_true,ipAddrCmp_iff,imp_iff_not_or] using hsame
      have hno : ¬ Clashes a dp := fun h => hsame ⟨h.1,h.2.1⟩
      rw [if_pos hskip]
      simp [hno]

theorem add_eq_ok {r r' : Tables} {a : Args} {flags : Int} :
    r.add a flags = some (.ok, r') ↔ 0 < r.avail ∧ (∀ dp ∈ r.list, ¬ Clashes a dp) ∧
      r' = ⟨r.list.orderedInsert (fun el dp => maskWider dp.netmask el.netmask ≠ 0) (a.route flags),
        r.avail - 1⟩ := by
  rw [← duplicate_eq_false,Tables.add,ipRouteListAdd]
  by_cases hpos : 0 < r.avail
  · simp only [hpos,decide_true,Bool.not_true,Bool.false_eq_true,if_false,true_and]
    cases hdup : duplicate a.addr a.netmask a.nexthop a.netif r.list with
    | none => simp
    | some b =>
      cases b with
      | true => simp
      | false => simp [Args.route,eq_comm]
  · simp [hpos]

theorem deletes_iff {addr : IpAddr} {netmask nexthop : Option IpAddr} {netif : Nat} {dp : IpRoute} :
    deletes addr netmask nexthop netif dp = true ↔ dp.addr = addr ∧ (∀ mask ∈ netmask, dp.netmask = mask) ∧
      (dp.nexthop = ipAddrSet nexthop ∨ dp.netif = netif) := by
  rw [deletes,Bool.and_eq_true,Bool.and_eq_true,Bool.or_eq_true,ipAddrCmp_iff,ipAddrCmp_iff,beq_iff_eq]
  cases netmask with
  | none => simp
  | some mask => simp [ipAddrCmp_iff,and_assoc]

theorem Named.deletes {addr : IpAddr} {netmask nexthop : Option IpAddr} {netif : Nat} {dp : IpRoute}
    (h : Named addr netmask nexthop netif dp) : deletes addr netmask nexthop netif dp = true :=
  deletes_iff.mpr ⟨h.1,h.2.1,Or.inl h.2.2.1⟩

theorem eraseP_orderedInsert {α : Type*} {R : α → α → Prop} [DecidableRel R] {p : α → Bool} {x : α}
    {l : List α} (hx : p x = true) (hl : ∀ y ∈ l, ¬ p y = true) :
    (l.orderedInsert R x).eraseP p = l := by
  induction l with
  | nil => simp [hx]
  | cons y l ih =>
    rw [List.forall_mem_cons] at hl
    rw [List.orderedInsert]
    split_ifs
    · rw [List.eraseP_cons_of_pos hx]
    · rw [List.eraseP_cons_of_neg hl.1,ih hl.2]

section Laws

variable {r : Tables} {a : Args} {flags : Int} {addr : IpAddr} {netmask nexthop : Option IpAddr}
  {netif : Nat}

theorem del_inserted {R : IpRoute → IpRoute → Prop} [DecidableRel R] {x : IpRoute} {l : List IpRoute}
    (hother : ∀ dp ∈ l, ¬ deletes addr netmask nexthop netif dp = true) :
    ipRouteListDel (l.orderedInsert R x) addr netmask nexthop netif =
      if deletes addr netmask nexthop netif x then (.ok, l) else (.conn, l.orderedInsert R x) := by
  by_cases hx : Route.deletes addr netmask nexthop netif x = true
  · have hany : (l.orderedInsert R x).any (Route.deletes addr netmask nexthop netif) = true :=
      List.any_eq_true.mpr ⟨x,(List.mem_orderedInsert _).mpr (Or.inl rfl),hx⟩
    rw [ipRouteListDel,if_pos hany,if_pos hx,eraseP_orderedInsert hx hother]
  · have hnone : ¬ (l.orderedInsert R x).any (Route.deletes addr netmask nexthop netif) = true := by
      rw [List.any_eq_true]
      rintro ⟨dp,hdp,hd⟩
      rcases (List.mem_orderedInsert _).mp hdp with rfl | hdp
      · exact hx hd
      · exact hother dp hdp hd
    rw [ipRouteListDel,if_neg hnone,if_neg hx]

theorem refuses_iff : Refuses r a flags ↔ r.avail = 0 ∨ ∀ dp ∈ r.list, ¬ a.EqualTo dp := by
  constructor
  · intro h
    by_contra hnot
    obtain ⟨hpos,hequal⟩ : r.avail ≠ 0 ∧ ∃ dp ∈ r.list, a.EqualTo dp := by simpa using hnot
    obtain ⟨e,hadd,-⟩ := h hequal
    obtain ⟨x,-,hx⟩ := Option.map_eq_some_iff.mp hadd
    have hav : r.avail - 1 = r.avail := congrArg (fun y => y.2.avail) hx
    omega
  · rintro (hzero | hnone) hequal
    · refine ⟨.mem,?_,nofun⟩
      rw [Tables.add,ipRouteListAdd,if_pos (by simp [hzero]),Option.map_some,hzero]
      exact congrArg some (congrArg (Prod.mk _) (congrArg (Tables.mk _) hzero.symm))
    · obtain ⟨dp,hdp,heq⟩ := hequal
      exact absurd heq (hnone dp hdp)

theorem restores_iff : Restores r a flags ↔ r.avail = 0 ∨ (∃ dp ∈ r.list, a.EqualTo dp) ∨
    (∀ dp ∈ r.list, ¬ Clashes a dp) ∧ ipAddrSetMask a.addr a.netmask = a.addr := by
  have hroute : Route.deletes a.addr (some a.netmask) a.nexthop a.netif (a.route flags) = true ↔
      ipAddrSetMask a.addr a.netmask = a.addr := by
    rw [deletes_iff]
    simp [Args.route]
  have hother (hnew : ∀ dp ∈ r.list, ¬ Clashes a dp) : ∀ dp ∈ r.list,
      ¬ Route.deletes a.addr (some a.netmask) a.nexthop a.netif dp = true := by
    intro dp hdp hdel
    obtain ⟨haddr,hmask,hor⟩ := deletes_iff.mp hdel
    exact hnew dp hdp ⟨haddr,hmask _ rfl,Or.inr hor⟩
  rw [← hroute]
  constructor
  · intro h
    by_contra! hnot
    obtain ⟨r',hadd,hdel⟩ := h (Nat.pos_of_ne_zero hnot.1) hnot.2.1
    obtain ⟨hpos,hnew,rfl⟩ := add_eq_ok.mp hadd
    rw [Tables.del,del_inserted (hother hnew),if_neg (hnot.2.2 hnew)] at hdel
    cases congrArg Prod.fst hdel
  · rintro (hz | ⟨dp,hdp,heq⟩ | ⟨hnew,hself⟩) hpos hequal
    · omega
    · exact absurd heq (hequal dp hdp)
    · refine ⟨_,add_eq_ok.mpr ⟨hpos,hnew,rfl⟩,?_⟩
      rw [Tables.del,del_inserted (hother hnew),if_pos hself,if_pos rfl,Nat.sub_add_cancel hpos]

theorem removesNamed_iff : RemovesNamed r addr netmask nexthop netif ↔
    ∀ dp ∈ r.list.find? (deletes addr netmask nexthop netif),
      dp.nexthop = ipAddrSet nexthop ∧ dp.netif = netif := by
  cases hfind : r.list.find? (Route.deletes addr netmask nexthop netif) with
  | none =>
    have hnone := List.find?_eq_none.mp hfind
    have hany : ¬ r.list.any (Route.deletes addr netmask nexthop netif) = true := by simpa using hnone
    refine iff_of_true (Or.inr ⟨fun dp hdp h => hnone dp hdp h.deletes,?_⟩) nofun
    simp only [Tables.del,ipRouteListDel,if_neg hany]
    rfl
  | some dp =>
    obtain ⟨hdel,l,l',hsplit,hbefore⟩ := List.find?_eq_some_iff_append.mp hfind
    have hany : r.list.any (Route.deletes addr netmask nexthop netif) = true := by
      rw [hsplit,List.any_append,List.any_cons,hdel]
      simp
    have herase : r.list.eraseP (Route.deletes addr netmask nexthop netif) = l ++ l' := by
      rw [hsplit,List.eraseP_append_right _ (fun y hy => by simpa using hbefore y hy),
        List.eraseP_cons_of_pos hdel]
    have hres : r.del addr netmask nexthop netif = (.ok, ⟨l ++ l', r.avail + 1⟩) := by
      simp only [Tables.del,ipRouteListDel,if_pos hany,herase,if_true]
    obtain ⟨haddr,hmask,-⟩ := deletes_iff.mp hdel
    simp only [Option.mem_some_iff,forall_eq']
    constructor
    · rintro (⟨l₁,dp₁,l₂,hsplit',hnamed,hres'⟩ | ⟨-,hres'⟩)
      · have hsame : l ++ l' = l₁ ++ l₂ := congrArg (fun x => x.2.list) (hres.symm.trans hres')
        have hperm : (dp :: (l ++ l')).Perm (dp₁ :: (l ++ l')) := by
          rw [hsame]
          exact (hsame ▸ List.perm_middle.symm).trans
            ((List.Perm.of_eq (hsplit.symm.trans hsplit')).trans List.perm_middle)
        obtain rfl : dp₁ = dp := by simpa [List.count_cons] using hperm.count_eq dp
        exact hnamed.2.2
      · cases congrArg Prod.fst (hres.symm.trans hres')
    · rintro ⟨hhop,hif⟩
      exact Or.inl ⟨l,dp,l',hsplit,⟨haddr,hmask,hhop,hif⟩,hres⟩

end Laws

theorem route_table_set_iff (r : Tables) (a : Args) (flags : Int) (addr : IpAddr)
    (netmask nexthop : Option IpAddr) (netif : Nat) :
    Refuses r a flags ∧ Restores r a flags ∧ RemovesNamed r addr netmask nexthop netif ↔
      (r.avail = 0 ∨ ∀ dp ∈ r.list, ¬ a.EqualTo dp) ∧
      (r.avail = 0 ∨ (∃ dp ∈ r.list, a.EqualTo dp) ∨
        (∀ dp ∈ r.list, ¬ Clashes a dp) ∧ ipAddrSetMask a.addr a.netmask = a.addr) ∧
      ∀ dp ∈ r.list.find? (deletes addr netmask nexthop netif),
        dp.nexthop = ipAddrSet nexthop ∧ dp.netif = netif :=
  and_congr refuses_iff (and_congr restores_iff removesNamed_iff)

def defaultRoute : Args := ⟨ipAddrAny, ipAddrAny, some ipAddrAny, 0⟩

theorem repeated_route_leaks : ¬ ∀ (n : Nat) (r : Tables),
    Run poolStep (fun _ _ => True) ⟨[], n⟩ r → ∀ (a : Args) (flags : Int) (addr : IpAddr)
      (netmask nexthop : Option IpAddr) (netif : Nat),
      Refuses r a flags ∧ Restores r a flags ∧ RemovesNamed r addr netmask nexthop netif := by
  intro h
  have hrun : Run poolStep (fun _ _ => True) ⟨[], 2⟩ ⟨[defaultRoute.route 0], 1⟩ :=
    (Run.refl _).tail (o := .add defaultRoute 0) trivial (by decide)
  obtain ⟨href,-⟩ := h 2 _ hrun defaultRoute 0 ipAddrAny none none 0
  rcases refuses_iff.mp href with hzero | hnone
  · cases hzero
  · exact hnone _ List.mem_cons_self ⟨rfl,rfl,rfl,rfl⟩

end ViewOS.Route
