import ViewOS.Lib.Run
import ViewOS.Lib.TailRing
import ViewOS.Lwip.Addr

namespace ViewOS.Lwip.AddrRing

open TailRing Transition

-- The next fields of the elements; none is NULL.
abbrev Next := Nat → Option Nat

def ipAddrListAdd (next : Next) (ptail : Option Nat) (el : Nat) : Next × Option Nat :=
  match ptail with
  | none => (Function.update next el (some el), some el)
  | some tail =>
    (Function.update (Function.update next el (next tail)) tail (some el), some el)

def delLoop (next : Next) (tail el : Nat) : Nat → Nat → Nat → Option (Nat × Nat)
  | 0, _, _ => none
  | fuel + 1, prev, p =>
    if p = el ∨ p = tail then some (prev, p)
    else (next p).bind fun q => delLoop next tail el fuel p q

def ipAddrListDel (fuel : Nat) (next : Next) (ptail : Option Nat) (el : Nat) :
    Option (Next × Option Nat) :=
  match ptail with
  | none => some (next, none)
  | some tail => (next tail).bind fun p => (delLoop next tail el fuel tail p).map fun r =>
    if r.2 = el then
      if r.2 = r.1 then (next, none)
      else (Function.update next r.1 (next r.2), some (if tail = r.2 then r.1 else tail))
    else (next, some tail)

def findLoop (next : Next) (hit : Nat → Bool) (tail : Nat) : Nat → Nat → Option (Option Nat)
  | 0, _ => none
  | fuel + 1, el =>
    if hit el then some (some el)
    else (next el).bind fun el => if el = tail then some none else findLoop next hit tail fuel el

def scan (fuel : Nat) (next : Next) (hit : Nat → Bool) (tail : Option Nat) : Option (Option Nat) :=
  match tail with
  | none => some none
  | some tail => (next tail).bind fun tail => findLoop next hit tail fuel tail

structure Fields where
  ipaddr : Nat → IpAddr
  netmask : Nat → IpAddr

def findHit (f : Fields) (addr : IpAddr) (netmask : Option IpAddr) (el : Nat) : Bool :=
  ipAddrCmp (f.ipaddr el) addr && netmask.all (ipAddrCmp (f.netmask el))

def ipAddrListFind (fuel : Nat) (next : Next) (f : Fields) (tail : Option Nat) (addr : IpAddr)
    (netmask : Option IpAddr) : Option (Option Nat) :=
  scan fuel next (findHit f addr netmask) tail

def ipAddrListMaskfind (fuel : Nat) (next : Next) (f : Fields) (tail : Option Nat) (addr : IpAddr) :
    Option (Option Nat) :=
  scan fuel next (fun el => maskfindHit addr (f.ipaddr el) (f.netmask el)) tail

def freeLoop (next : Next) : Nat → Option Nat → List Nat
  | 0, _ => []
  | _ + 1, none => []
  | fuel + 1, some tail => tail :: freeLoop next fuel (next tail)

def ipAddrListFreelist (fuel : Nat) (next : Next) (tail : Option Nat) : List Nat :=
  match tail with
  | none => []
  | some tail => freeLoop (Function.update next tail none) fuel (some tail)

inductive Op where
  | add (el : Nat)
  | del (el : Nat)
  | freelist

-- els are the elements that have been added and not deleted, the oldest first.
structure Ring where
  next : Next
  tail : Option Nat
  els : List Nat

def step (r : Ring) : Op → Option Ring
  | .add el => if el ∈ r.els then none
    else
      let x := ipAddrListAdd r.next r.tail el
      some ⟨x.1, x.2, r.els ++ [el]⟩
  | .del el => if el ∈ r.els then
      (ipAddrListDel r.els.length r.next r.tail el).map fun x => ⟨x.1, x.2, r.els.erase el⟩
    else none
  | .freelist => some ⟨r.next, none, []⟩

def empty : Ring := ⟨fun _ => none, none, []⟩

variable {next : Next} {a t el : Nat} {l m els : List Nat} {hit : Nat → Bool}

theorem delLoop_eq (h : Path next a (l ++ el :: m)) (hl : ∀ x ∈ l, x ≠ el ∧ x ≠ t) {fuel : Nat}
    (hfuel : l.length < fuel) :
    ((l ++ el :: m).head?.bind fun p => delLoop next t el fuel a p) = some (l.getLastD a, el) := by
  induction l generalizing a fuel with
  | nil =>
    obtain ⟨fuel,rfl⟩ := Nat.exists_eq_add_one_of_ne_zero (Nat.ne_zero_of_lt hfuel)
    simp [delLoop]
  | cons b l ih =>
    obtain ⟨fuel,rfl⟩ := Nat.exists_eq_add_one_of_ne_zero (Nat.ne_zero_of_lt hfuel)
    rw [List.forall_mem_cons] at hl
    have hrest := ih h.2 hl.2 (by simpa using hfuel)
    have hnext : next b = (l ++ el :: m).head? := by
      cases l with
      | nil => exact h.2.1
      | cons d l => exact h.2.1
    rw [List.cons_append,List.head?_cons,Option.bind_some,delLoop,if_neg (by simp [hl.1]),hnext,hrest,
      List.getLastD_cons]

theorem del_eq (hr : IsRing next (some t) (l ++ el :: m)) :
    ipAddrListDel (l ++ el :: m).length next (some t) el = some
      (if el = l.getLastD t then (next, none)
        else (Function.update next (l.getLastD t) (next el),
          some (if t = el then l.getLastD t else t))) := by
  have hlast : (l ++ el :: m).getLast? = some t := hr.tail.symm
  have hmem : t ∈ el :: m := by
    rw [List.getLast?_append_of_ne_nil _ (List.cons_ne_nil el m)] at hlast
    exact List.mem_of_getLast? hlast
  have hdisj := (List.nodup_append.mp hr.nodup).2.2
  have hlen : l.length < (l ++ el :: m).length := by simp
  have hloop := delLoop_eq (t := t) (hr.path t hlast)
    (fun x hx => ⟨hdisj x hx el List.mem_cons_self,hdisj x hx t hmem⟩) hlen
  rw [← hr.next_tail] at hloop
  obtain ⟨q,hq,hloop⟩ := Option.bind_eq_some_iff.mp hloop
  rw [ipAddrListDel,hq,Option.bind_some,hloop,Option.map_some,if_pos rfl]

theorem del_ring (hr : IsRing next (some t) els) (hel : el ∈ els) :
    ∃ x, ipAddrListDel els.length next (some t) el = some x ∧ IsRing x.1 x.2 (els.erase el) := by
  obtain ⟨l,m,rfl⟩ := List.append_of_mem hel
  have hout : el ∉ l := fun h =>
    (List.nodup_cons.mp (List.nodup_middle.mp hr.nodup)).1 (List.mem_append_left m h)
  rw [List.erase_append_right _ hout,List.erase_cons_head]
  refine ⟨_,del_eq hr,?_⟩
  by_cases hself : el = l.getLastD t
  · rw [if_pos hself]
    obtain ⟨rfl,rfl⟩ := hr.alone hself
    exact isRing_nil
  · rw [if_neg hself]
    exact hr.remove hself

theorem findLoop_eq (h : Path next a l) (hend : next (l.getLastD a) = some t) (hout : t ∉ l)
    {fuel : Nat} (hfuel : l.length < fuel) :
    findLoop next hit t fuel a = some ((a :: l).find? hit) := by
  induction l generalizing a fuel with
  | nil =>
    obtain ⟨fuel,rfl⟩ := Nat.exists_eq_add_one_of_ne_zero (Nat.ne_zero_of_lt hfuel)
    rw [List.getLastD_nil] at hend
    rw [findLoop,hend,Option.bind_some,if_pos rfl]
    cases hhit : hit a <;> simp [hhit]
  | cons b l ih =>
    obtain ⟨fuel,rfl⟩ := Nat.exists_eq_add_one_of_ne_zero (Nat.ne_zero_of_lt hfuel)
    rw [List.mem_cons,not_or] at hout
    rw [List.getLastD_cons] at hend
    have hrest := ih h.2 hend hout.2 (by simpa using hfuel)
    rw [findLoop,h.1,Option.bind_some,if_neg (Ne.symm hout.1),hrest]
    cases hhit : hit a <;> simp [hhit]

theorem scan_eq {tail : Option Nat} (hr : IsRing next tail els) {fuel : Nat}
    (hfuel : els.length ≤ fuel) : scan fuel next hit tail = some (els.find? hit) := by
  rcases List.eq_nil_or_concat' els with rfl | ⟨l,t,rfl⟩
  · obtain rfl : tail = none := hr.tail
    rfl
  · obtain rfl : tail = some t := hr.tail.trans (by simp)
    have hpath := hr.path t (by simp)
    obtain ⟨b,m,hbm⟩ : ∃ b m, l ++ [t] = b :: m :=
      List.exists_cons_of_ne_nil (List.append_ne_nil_of_right_ne_nil l (List.cons_ne_nil t []))
    have hlast : m.getLastD b = t := by
      rw [← List.getLastD_cons (a := t),← hbm,List.getLastD_concat]
    have hn := hr.nodup
    rw [hbm] at hpath hn hfuel ⊢
    rw [scan,hpath.1,Option.bind_some]
    exact findLoop_eq hpath.2 (hlast ▸ hpath.1) (List.nodup_cons.mp hn).1 hfuel

theorem freed_iff {tail : Option Nat} (hr : IsRing next tail els) {fuel : Nat}
    (hfuel : els.length ≤ fuel) :
    (ipAddrListFreelist fuel next tail).Perm els ↔ els.length ≤ 1 := by
  rcases List.eq_nil_or_concat' els with rfl | ⟨l,t,rfl⟩
  · obtain rfl : tail = none := hr.tail
    simp [ipAddrListFreelist]
  · obtain rfl : tail = some t := hr.tail.trans (by simp)
    have hfreed : ipAddrListFreelist fuel next (some t) = [t] := by
      obtain ⟨fuel,rfl⟩ : ∃ n, fuel = n + 1 := ⟨fuel - 1,by simp at hfuel; omega⟩
      rw [ipAddrListFreelist,freeLoop,Function.update_self]
      cases fuel <;> rfl
    rw [hfreed]
    constructor
    · intro h
      exact h.length_eq ▸ Nat.le_refl _
    · intro h
      obtain rfl : l = [] := by simpa using h
      exact .refl _

theorem step_ring {r r' : Ring} {o : Op} (hr : IsRing r.next r.tail r.els)
    (hstep : step r o = some r') : IsRing r'.next r'.tail r'.els := by
  cases o with
  | add el =>
    rw [step] at hstep
    split_ifs at hstep with hel
    obtain rfl := Option.some.inj hstep
    cases htail : r.tail with
    | none =>
      have hnil : r.els = [] := List.getLast?_eq_none_iff.mp (hr.tail.symm.trans htail)
      rw [hnil]
      exact isRing_singleton
    | some t =>
      rw [htail] at hr
      exact hr.append hel
  | del el =>
    rw [step] at hstep
    split_ifs at hstep with hel
    obtain ⟨x,hx,rfl⟩ := Option.map_eq_some_iff.mp hstep
    obtain ⟨t,ht⟩ := hr.exists_tail hel
    rw [ht] at hr hx
    obtain ⟨y,hy,hring⟩ := del_ring hr hel
    obtain rfl := Option.some.inj (hy.symm.trans hx)
    exact hring
  | freelist =>
    obtain rfl := Option.some.inj hstep
    exact isRing_nil

theorem del_defined {r : Ring} {el : Nat} (hr : IsRing r.next r.tail r.els) (hel : el ∈ r.els) :
    (step r (.del el)).isSome = true := by
  obtain ⟨t,ht⟩ := hr.exists_tail hel
  rw [ht] at hr
  obtain ⟨y,hy,-⟩ := del_ring hr hel
  rw [step,if_pos hel,ht,hy]
  rfl

theorem run_ring {r : Ring} (h : Run step (fun _ _ => True) empty r) : IsRing r.next r.tail r.els :=
  h.invariant (fun _ _ _ hr _ hstep => step_ring hr hstep) isRing_nil

theorem address_ring {r : Ring} (h : Run step (fun _ _ => True) empty r) (f : Fields) {fuel : Nat}
    (hfuel : r.els.length ≤ fuel) :
    IsRing r.next r.tail r.els ∧ (∀ el ∈ r.els, (step r (.del el)).isSome = true) ∧
      (∀ addr netmask, ipAddrListFind fuel r.next f r.tail addr netmask =
        some (r.els.find? (findHit f addr netmask))) ∧
      (∀ addr, ipAddrListMaskfind fuel r.next f r.tail addr = some
        (r.els.find? fun el => maskfindHit addr (f.ipaddr el) (f.netmask el))) ∧
      ((ipAddrListFreelist fuel r.next r.tail).Perm r.els ↔ r.els.length ≤ 1) :=
  ⟨run_ring h,fun _ => del_defined (run_ring h),fun _ _ => scan_eq (run_ring h) hfuel,
    fun _ => scan_eq (run_ring h) hfuel,freed_iff (run_ring h) hfuel⟩

theorem one_element : Run step (fun _ _ => True) empty
      ⟨Function.update (fun _ => none) 7 (some 7), some 7, [7]⟩ ∧
    (ipAddrListFreelist 1 (Function.update (fun _ => none) 7 (some 7)) (some 7)).Perm [7] := by
  have hrun : Run step (fun _ _ => True) empty
      ⟨Function.update (fun _ => none) 7 (some 7), some 7, [7]⟩ :=
    (Run.refl empty).tail (o := .add 7) trivial rfl
  exact ⟨hrun,(address_ring hrun ⟨fun _ => ipAddrAny, fun _ => ipAddrAny⟩
    (Nat.le_refl 1)).2.2.2.2.mpr (Nat.le_refl 1)⟩

theorem two_elements_not_freed : ¬ ∀ (r : Ring) (fuel : Nat), Run step (fun _ _ => True) empty r →
    r.els.length ≤ fuel → (ipAddrListFreelist fuel r.next r.tail).Perm r.els := by
  intro h
  have hone : Run step (fun _ _ => True) empty _ := (Run.refl empty).tail (o := .add 7) trivial rfl
  have htwo := hone.tail (o := .add 8) trivial rfl
  exact absurd ((freed_iff (run_ring htwo) (Nat.le_refl _)).mp (h _ _ htwo (Nat.le_refl _))) (by decide)

end ViewOS.Lwip.AddrRing
