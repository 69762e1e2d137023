import ViewOS.Lib.FirstMatch
import ViewOS.Lib.Run
import ViewOS.Route.Model

namespace ViewOS.Route

open Lwip FirstMatch Transition

def maskBit (m : IpAddr) (j : Fin 128) : Bool :=
  (m ⟨j / 32, by omega⟩).getMsbD (j % 32)

def Contiguous (m : IpAddr) : Prop := ∃ n : Nat, ∀ j : Fin 128, maskBit m j = decide (j < n)

def masklen (m : IpAddr) : Nat := (List.finRange 128).countP (maskBit m)

def IpRoute.Covers (dp : IpRoute) (addr : IpAddr) : Prop :=
  ipAddrMaskcmp addr dp.addr dp.netmask = true

structure Chosen (l : List IpRoute) (addr : IpAddr) (dp : IpRoute) : Prop where
  present : dp ∈ l
  covers : dp.Covers addr
  longest : ∀ dp' ∈ l, dp'.Covers addr → masklen dp'.netmask ≤ masklen dp.netmask

def Routes (l : List IpRoute) (addr : IpAddr) : Prop :=
  match ipRouteFindpath l addr with
  | none => ∀ dp ∈ l, ¬ dp.Covers addr
  | some path => ∃ dp, Chosen l addr dp ∧ path = (dp.netif, dp.hop addr)

section Mask

variable {x y m : IpAddr}

theorem word_diff_eq_zero {a b : BitVec 32} :
    b &&& ~~~a = 0 ↔ ∀ j < 32, b.getMsbD j = true → a.getMsbD j = true := by
  constructor
  · intro h j hj hb
    by_contra ha
    have hbit := congrArg (BitVec.getMsbD · j) h
    simp [hj,hb,ha] at hbit
  · intro h
    ext j hj
    have hbit := h (31 - j) (by omega)
    simp only [BitVec.getMsbD] at hbit
    simp only [show 32 - 1 - (31 - j) = j by omega,show 31 - j < 32 by omega,decide_true,Bool.true_and] at hbit
    cases hb : b.getLsbD j with
    | false => simp [← BitVec.getLsbD_eq_getElem,hb]
    | true => simp [← BitVec.getLsbD_eq_getElem,hb,hbit hb,hj]

theorem maskWider_eq_zero : maskWider x y = 0 ↔ ∀ j, maskBit y j = true → maskBit x j = true := by
  have hor : ∀ a b : BitVec 32, a ||| b = 0 ↔ a = 0 ∧ b = 0 := fun a b => BitVec.or_eq_zero_iff
  rw [maskWider,hor,hor,hor,word_diff_eq_zero,word_diff_eq_zero,word_diff_eq_zero,word_diff_eq_zero]
  constructor
  · rintro ⟨⟨⟨h0,h1⟩,h2⟩,h3⟩ ⟨j,hj⟩ hb
    have hmod : j % 32 < 32 := Nat.mod_lt _ (by decide)
    obtain hw | hw | hw | hw : j / 32 = 0 ∨ j / 32 = 1 ∨ j / 32 = 2 ∨ j / 32 = 3 := by omega
    all_goals simp only [maskBit,hw] at hb ⊢
    · exact h0 _ hmod hb
    · exact h1 _ hmod hb
    · exact h2 _ hmod hb
    · exact h3 _ hmod hb
  · intro h
    have hword : ∀ (w : Fin 4), ∀ j < 32, (y w).getMsbD j = true → (x w).getMsbD j = true := by
      intro w j hj hb
      have hw := w.isLt
      have := h ⟨32 * w + j,by omega⟩
      have e1 : (32 * (w : Nat) + j) / 32 = w := by omega
      have e2 : (32 * (w : Nat) + j) % 32 = j := by omega
      simp only [maskBit,e1,e2] at this
      exact this hb
    exact ⟨⟨⟨hword w0,hword w1⟩,hword w2⟩,hword w3⟩

theorem countP_lt_finRange {N n : Nat} (h : n ≤ N) :
    (List.finRange N).countP (fun j : Fin N => decide (j.val < n)) = n := by
  rw [show (fun j : Fin N => decide (j.val < n)) = (fun j : Nat => decide (j < n)) ∘ Fin.val from rfl,
    ← List.countP_map,List.map_coe_finRange_eq_range]
  obtain ⟨k,rfl⟩ := Nat.exists_eq_add_of_le h
  rw [List.range_add,List.countP_append,List.countP_eq_length.mpr (by simp),List.countP_eq_zero.mpr]
  · simp
  · simp

theorem Contiguous.maskBit_iff (h : Contiguous m) (j : Fin 128) : maskBit m j = true ↔ j < masklen m := by
  obtain ⟨n,hn⟩ := h
  have hlen : masklen m = min n 128 := by
    rw [masklen,← countP_lt_finRange (Nat.min_le_right n 128)]
    refine List.countP_congr fun j _ => ?_
    rw [hn j]
    simp [j.isLt]
  rw [hn j,hlen]
  simp [j.isLt]

theorem masklen_le : masklen m ≤ 128 := by
  simpa [masklen] using List.countP_le_length (l := List.finRange 128) (p := maskBit m)

theorem wider_iff (hx : Contiguous x) (hy : Contiguous y) :
    maskWider x y ≠ 0 ↔ masklen x < masklen y := by
  rw [ne_eq,maskWider_eq_zero,← not_le,not_iff_not]
  constructor
  · intro h
    by_contra hlt
    have hj : masklen x < 128 := (not_le.mp hlt).trans_le masklen_le
    have := h ⟨masklen x,hj⟩ ((hy.maskBit_iff _).mpr (not_le.mp hlt))
    exact absurd ((hx.maskBit_iff _).mp this) (lt_irrefl _)
  · intro hle j hb
    exact (hx.maskBit_iff j).mpr (((hy.maskBit_iff j).mp hb).trans_le hle)

end Mask

def Op.Masked : Op → Prop
  | .add _ _ netmask _ _ _ => Contiguous netmask
  | .del _ netmask _ _ => ∀ m ∈ netmask, Contiguous m
  | .delnetif _ => True

def Fresh (l : List IpRoute) : Op → Prop
  | .add true addr netmask none _ _ => ∀ dp ∈ l, ¬ (dp.addr = addr ∧ dp.netmask = netmask)
  | _ => True

instance (l : List IpRoute) : (op : Op) → Decidable (Fresh l op)
  | .add true addr netmask none _ _ =>
    inferInstanceAs (Decidable (∀ dp ∈ l, ¬ (dp.addr = addr ∧ dp.netmask = netmask)))
  | .add true _ _ (some _) _ _ => isTrue trivial
  | .add false _ _ _ _ _ => isTrue trivial
  | .del _ _ _ _ => isTrue trivial
  | .delnetif _ => isTrue trivial

structure Inv (l : List IpRoute) : Prop where
  masks : ∀ dp ∈ l, Contiguous dp.netmask
  ranked : Ranked (fun dp : IpRoute => masklen dp.netmask) l

section Step

variable {l l' : List IpRoute} {op : Op} {addr netmask : IpAddr}

theorem Inv.nil : Inv [] := ⟨List.forall_mem_nil _,List.Pairwise.nil⟩

theorem Inv.sublist (h : Inv l) (hs : l'.Sublist l) : Inv l' :=
  ⟨fun dp hdp => h.masks dp (hs.subset hdp),h.ranked.sublist hs⟩

theorem Inv.insert (h : Inv l) {el : IpRoute} (hm : Contiguous el.netmask) :
    Inv (l.orderedInsert (fun el dp => maskWider dp.netmask el.netmask ≠ 0) el) := by
  constructor
  · intro dp hdp
    rcases (List.mem_orderedInsert _).mp hdp with rfl | hdp
    · exact hm
    · exact h.masks dp hdp
  · exact h.ranked.orderedInsert fun dp hdp => wider_iff (h.masks dp hdp) hm

theorem duplicate_eq_none (netif : Nat) :
    duplicate addr netmask none netif l = none ↔ ∃ dp ∈ l, dp.addr = addr ∧ dp.netmask = netmask := by
  induction l with
  | nil => simp [duplicate]
  | cons dp l ih =>
    by_cases hdp : dp.addr = addr ∧ dp.netmask = netmask
    · rw [duplicate,ipAddrCmp_iff.mpr hdp.1,ipAddrCmp_iff.mpr hdp.2]
      simp [hdp]
    · have hne : (!ipAddrCmp dp.addr addr || !ipAddrCmp dp.netmask netmask) = true := by
        rw [Bool.or_eq_true,Bool.not_eq_true',Bool.not_eq_true',← Bool.not_eq_true,
          ← Bool.not_eq_true,ipAddrCmp_iff,ipAddrCmp_iff]
        exact not_and_or.mp hdp
      rw [duplicate,if_pos hne,ih]
      simp [hdp]

theorem duplicate_some_isSome (addr netmask hop : IpAddr) (netif : Nat) (l : List IpRoute) :
    (duplicate addr netmask (some hop) netif l).isSome = true := by
  induction l with
  | nil => rfl
  | cons dp l ih =>
    rw [duplicate]
    split_ifs
    · exact ih
    · exact ih
    · rfl

theorem step_isSome_iff (l : List IpRoute) (op : Op) : (step l op).isSome = true ↔ Fresh l op := by
  cases op with
  | add mem addr netmask nexthop netif flags =>
    rw [step,Option.isSome_map,ipRouteListAdd]
    cases mem with
    | false => simp [Fresh]
    | true =>
      rw [if_neg (by simp)]
      cases nexthop with
      | some hop =>
        obtain ⟨b,hb⟩ := Option.isSome_iff_exists.mp (duplicate_some_isSome addr netmask hop netif l)
        rw [hb]
        cases b <;> simp [Fresh]
      | none =>
        cases hd : duplicate addr netmask none netif l with
        | none =>
          obtain ⟨dp,hdp,hsame⟩ := (duplicate_eq_none netif).mp hd
          simpa [Fresh] using ⟨dp,hdp,hsame⟩
        | some b =>
          have hno : ¬ ∃ dp ∈ l, dp.addr = addr ∧ dp.netmask = netmask := by
            rw [← duplicate_eq_none netif,hd]
            simp
          cases b <;> simpa [Fresh] using hno
  | del => simp [step,Fresh]
  | delnetif => simp [step,Fresh]

theorem Inv.step (h : Inv l) (hm : op.Masked) (hs : step l op = some l') : Inv l' := by
  cases op with
  | add mem addr netmask nexthop netif flags =>
    rw [Route.step,ipRouteListAdd] at hs
    split_ifs at hs with hmem
    · obtain rfl : l = l' := by simpa using hs
      exact h
    · split at hs
      · simp at hs
      · obtain rfl : l = l' := by simpa using hs
        exact h
      · obtain rfl := Option.some.inj hs
        exact h.insert hm
  | del addr netmask nexthop netif =>
    obtain rfl := Option.some.inj hs
    rw [ipRouteListDel]
    split_ifs
    · exact h.sublist List.eraseP_sublist
    · exact h
  | delnetif netif =>
    obtain rfl := Option.some.inj hs
    cases netif with
    | none => exact h
    | some netif => exact h.sublist List.filter_sublist

theorem Inv.routes (h : Inv l) (addr : IpAddr) : Routes l addr := by
  rw [Routes,ipRouteFindpath]
  cases hf : l.find? fun dp => ipAddrMaskcmp addr dp.addr dp.netmask with
  | none =>
    intro dp hdp
    simpa [IpRoute.Covers] using List.find?_eq_none.mp hf dp hdp
  | some dp =>
    have hcovers : dp.Covers addr := (List.find?_eq_some_iff_append.mp hf).1
    refine ⟨dp,⟨List.mem_of_find?_eq_some hf,hcovers,fun dp' hdp' hc => ?_⟩,rfl⟩
    exact h.ranked.find?_le hf hdp' hc

end Step

theorem longest_match_iff (ops : List Op) (hm : ∀ op ∈ ops, op.Masked) :
    (∃ l, exec step [] ops = some l ∧ ∀ addr, Routes l addr) ↔ Meets step Fresh [] ops := by
  rw [← exec_isSome_iff step_isSome_iff]
  constructor
  · rintro ⟨l,hl,-⟩
    rw [hl]
    rfl
  · intro h
    obtain ⟨l,hl⟩ := Option.isSome_iff_exists.mp h
    refine ⟨l,hl,Inv.routes ?_⟩
    exact exec_invariant (I := Inv) (fun l op hop l' hi hs => hi.step hop hs) hm hl Inv.nil

def hostMask : IpAddr := fun _ => -1

def home (n : BitVec 32) : IpAddr := ![0, 0, ip64Prefix, n]

theorem hostMask_contiguous : Contiguous hostMask := ⟨128,by decide⟩

def addHost (netif : Nat) : Op := .add true (home 0x0a000001) hostMask none netif 0

def addDefault (netif : Nat) : Op := .add true ipAddrAny ipAddrAny (some (home 0x0a0000fe)) netif 0

theorem host_route_found :
    ∃ l, exec step [] [addDefault 1, addHost 2] = some l ∧ ∀ addr, Routes l addr := by
  refine (longest_match_iff [addDefault 1,addHost 2] ?_).mpr (by decide)
  rw [List.forall_mem_cons,List.forall_mem_singleton]
  exact ⟨⟨0,by decide⟩,hostMask_contiguous⟩

theorem same_host_added_twice :
    (∀ op ∈ [addHost 1, addHost 2], op.Masked) ∧
      ¬ ∃ l, exec step [] [addHost 1, addHost 2] = some l ∧ ∀ addr, Routes l addr := by
  constructor
  · rw [List.forall_mem_cons,List.forall_mem_singleton]
    exact ⟨hostMask_contiguous,hostMask_contiguous⟩
  · have hnone : exec step [] [addHost 1,addHost 2] = none := by decide
    rw [hnone]
    simp

end ViewOS.Route
