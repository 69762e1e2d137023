import ViewOS.Hashtab.Matches

namespace ViewOS.Hashtab
open HashChain Transition Treepoch

def KeyExact (t : Table) (q : Query) : Prop :=
  ∀ n, ∀ m ∈ considered t q n,
    (t.elem m.2).objlen = m.1 ∧ (t.elem m.2).obj = q.obj.take m.1

structure Collision (t : Table) (q : Query) (len a : Nat) : Prop where
  scanned : 0 < len ∧ len ≤ q.obj.length
  reached : Reached q len
  stop : htScanStop q.type (q.obj.drop len) len q.exact
  visible : Visible t q a
  numbers : ((t.elem a).trailingnumbers || trailnum (q.obj.drop len) == 0) = true
  longer : len < (t.elem a).objlen
  agrees : q.obj.take len <+: (t.elem a).obj
  sum : hashsum q.type (q.obj.take len) = hashsum q.type (t.elem a).obj

section Keys

variable {t : Table} {es : List Entry} {row : HashHead → List Nat} {q : Query} {a : Nat}

theorem considered_iff (hc : Contents t es) (hr : Chains t es row) {n : Nat} {m : Nat × Nat} :
    m ∈ considered t q n ↔ m.1 < n ∧ m.1 ≤ q.obj.length ∧ Reached q m.1 ∧
      Hit t q row (q.obj.take m.1) (q.obj.drop m.1) m.2 :=
  mem_considered (TableRep.laid hc hr)

theorem Collision.considered (hc : Contents t es) (hr : Chains t es row) {len : Nat}
    (h : Collision t q len a) : (len, a) ∈ considered t q (len + 1) := by
  have hlen : (q.obj.take len).length = len := List.length_take_of_le h.scanned.2
  refine (considered_iff hc hr).mpr ⟨Nat.lt_succ_self len,h.scanned.2,h.reached,?_⟩
  refine (hit_key (List.take_append_drop len q.obj).symm hc hr).mpr
    ⟨by rw [hlen]; exact h.stop,h.numbers,h.visible,Or.inr ⟨?_,h.agrees,?_,h.sum⟩⟩
  · intro hnil
    have hzero : len = 0 := hlen.symm.trans (congrArg List.length hnil)
    exact absurd h.scanned.1 (by omega)
  · intro hkey
    have hsame : len = (t.elem a).objlen := hlen.symm.trans (congrArg List.length hkey)
    exact absurd h.longer (by omega)

end Keys

theorem key_exact_iff (ops : List Op) (t : Table) (h : exec step Table.empty ops = some t)
    (q : Query) : KeyExact t q ↔ ∀ len a, ¬ Collision t q len a := by
  obtain ⟨hc,-,row,hr⟩ := rep_exec rep_empty h
  constructor
  · intro hex len a hcol
    have hlen : (t.elem a).objlen = len := (hex (len + 1) (len, a) (hcol.considered hc hr)).1
    exact absurd hcol.longer (by omega)
  · rintro hno n ⟨len,a⟩ hm
    obtain ⟨-,hle,hreach,hit⟩ := (considered_iff hc hr).mp hm
    have hlen : (q.obj.take len).length = len := List.length_take_of_le hle
    obtain ⟨hstop,hnum,hvis,hkey | ⟨hne,hpre,hdiff,hsum⟩⟩ :=
      (hit_key (List.take_append_drop len q.obj).symm hc hr).mp hit
    · exact ⟨by rw [HtElem.objlen,← hkey,hlen],hkey.symm⟩
    · exfalso
      rw [hlen] at hstop
      have hpos : 0 < len := by
        rcases Nat.eq_zero_or_pos len with rfl | hpos
        · simp at hne
        · exact hpos
      have hlonger : len < (t.elem a).objlen := by
        rcases Nat.eq_or_lt_of_le hpre.length_le with heq | hlt
        · exact absurd (hpre.eq_of_length heq) hdiff
        · rwa [hlen] at hlt
      exact hno len a ⟨⟨hpos,hle⟩,hreach,hstop,hvis,hnum,hlonger,hpre,hsum⟩

def nestedQuery : Query := pathQuery rootView [47, 97, 47, 98, 47, 99] ⟨9, some 0⟩ fun _ => true

theorem nested_key_exact : (exec step Table.empty nested).isSome ∧
    ∀ t, exec step Table.empty nested = some t → KeyExact t nestedQuery := by
  have hrun : (exec step Table.empty nested).all fun t => decide (∀ a ∈ t.live, ∀ len < 7,
      len < (t.elem a).objlen →
        hashsum .path (nestedQuery.obj.take len) ≠ hashsum .path (t.elem a).obj) := by
    decide +kernel
  refine ⟨by decide,fun t h => (key_exact_iff nested t h nestedQuery).mpr fun len a hcol => ?_⟩
  have hall := of_decide_eq_true ((Option.all_eq_true _ _).mp hrun t h)
  exact hall a hcol.visible.live len (Nat.lt_succ_of_le hcol.scanned.2) hcol.longer hcol.sum

def shortQuery : Query := pathQuery rootView shortName ⟨9, some 0⟩ fun _ => true

theorem longer_key_considered : ¬ ∀ (ops : List Op) (t : Table),
    exec step Table.empty ops = some t → ∀ q, KeyExact t q := by
  intro hall
  have hrun : (exec step Table.empty [.add 1 (mount .path longName) (some 0)]).any fun t =>
      decide ((14, 1) ∈ considered t shortQuery 15 ∧ (t.elem 1).objlen = 15) := by
    decide +kernel
  obtain ⟨t,ht,h⟩ := (Option.any_eq_true _ _).mp hrun
  obtain ⟨hm,hlen⟩ := of_decide_eq_true h
  have hexact : (t.elem 1).objlen = 14 := (hall _ t ht shortQuery 15 (14, 1) hm).1
  omega

end ViewOS.Hashtab
