import ViewOS.Ghosthash.Filter

namespace ViewOS.Ghosthash
open GapCode

-- The cells of the array; deltalen is an unsigned char.
structure Table where
  cells : List Cell
  length : cells.length = ghSize
  byte : ∀ c ∈ cells, c.1 < 256

def Table.pairs (t : Table) : List (Nat × Hash) := gh2array 0 t.cells

def entry16 (path : Nat → Byte) (len : BitVec 16) : Nat × Hash := entry path len.toNat

def DelUndoes (t : Table) (gh : List Cell) (path : Nat → Byte) (len : BitVec 16) : Prop :=
  ∃ rv gh', ghosthashDel gh path len.toNat = some (rv, gh') ∧ 0 ≤ rv ∧
    (gh2array 0 gh').Perm t.pairs

theorem gh2array_ascending {gh : List Cell} (hbyte : ∀ c ∈ gh, c.1 < 256) {s : Nat}
    (hshort : s + 256 * gh.length < 32768) : Ascending s (gh2array s gh) := by
  induction gh generalizing s with
  | nil => trivial
  | cons c gh ih =>
    have hc := hbyte c List.mem_cons_self
    rw [List.length_cons] at hshort
    have hscan : ((s : Int) + c.1).bmod 65536 = ((s + c.1 : Nat) : Int) := by
      rw [← Int.natCast_add]
      exact Int.bmod_eq_of_le (by omega) (by omega)
    have hlen : (((s + c.1 : Nat) : Int) % 65536).toNat = s + c.1 := by omega
    have hrest : Ascending (s + c.1) (gh2array ((s + c.1 : Nat) : Int) gh) :=
      ih (fun c hc => hbyte c (List.mem_cons_of_mem _ hc)) (by omega)
    rw [gh2array]
    simp only [hscan,hlen]
    split_ifs
    · trivial
    · exact hrest.weaken (by omega)
    · exact ⟨by omega,hrest⟩

theorem Table.ascending (t : Table) : Ascending 0 t.pairs := by
  apply gh2array_ascending t.byte
  rw [t.length]
  decide

theorem array2gh_unchanged {gh gh' : List Cell} {xs : List (Nat × Hash)} {rv : Int}
    (hlen : gh.length = ghSize) (hasc : Ascending 0 xs) (h : array2gh xs gh = some (rv, gh'))
    (hneg : rv < 0) : gh' = gh := by
  rcases array2gh_cases hlen hasc with ⟨-,hres⟩ | ⟨gh'',hres,-⟩
  · exact (Prod.mk.inj (Option.some.inj (hres.symm.trans h))).2.symm
  · obtain ⟨rfl,-⟩ := Prod.mk.inj (Option.some.inj (hres.symm.trans h))
    omega

section Laws

variable {t : Table} {path : Nat → Byte} {len : BitVec 16} {rv : Int} {gh : List Cell}

theorem insert_ascending (t : Table) (x : Nat × Hash) :
    Ascending 0 (t.pairs.takeWhile (fun y => y.1 < x.1) ++ x :: t.pairs.dropWhile fun y => y.1 < x.1) :=
  t.ascending.insert x (Nat.zero_le _)

theorem add_eq (t : Table) (path : Nat → Byte) (len : BitVec 16) :
    ghosthashAdd t.cells path len.toNat =
      if ghSize ≤ t.pairs.length then some (-enomem, t.cells)
      else array2gh (t.pairs.takeWhile (fun y => y.1 < (entry16 path len).1) ++
        entry16 path len :: t.pairs.dropWhile fun y => y.1 < (entry16 path len).1) t.cells := by
  have hnew : (((len.toNat : Int) % 65536).toNat, hashsum 0 path (len.toNat : Int).toNat) =
      entry16 path len := by
    rw [entry16,entry,Int.emod_eq_of_lt (Int.natCast_nonneg _) (by have := len.isLt; omega)]
  have hbefore : (fun y : Nat × Hash => decide ((y.1 : Int) < len.toNat)) =
      fun y => decide (y.1 < (entry16 path len).1) := by
    funext y
    exact decide_eq_decide.mpr (by rw [entry16,entry]; omega)
  simp only [ghosthashAdd,hnew,hbefore]
  rfl

theorem add_unchanged (h : ghosthashAdd t.cells path len.toNat = some (rv, gh)) (hneg : rv < 0) :
    gh = t.cells := by
  rw [add_eq] at h
  split_ifs at h
  · exact (Prod.mk.inj (Option.some.inj h)).2.symm
  · exact array2gh_unchanged t.length (insert_ascending t _) h hneg

theorem add_holds (h : ghosthashAdd t.cells path len.toNat = some (rv, gh)) (hok : 0 ≤ rv) :
    ∃ before after, t.pairs = before ++ after ∧ Holds gh (before ++ entry16 path len :: after) := by
  rw [add_eq] at h
  split_ifs at h
  · obtain ⟨rfl,-⟩ := Prod.mk.inj (Option.some.inj h)
    exact absurd hok (by decide)
  · refine ⟨t.pairs.takeWhile fun y => y.1 < (entry16 path len).1,
      t.pairs.dropWhile fun y => y.1 < (entry16 path len).1,
      List.takeWhile_append_dropWhile.symm,?_⟩
    rcases array2gh_cases t.length (insert_ascending t _) with ⟨-,hres⟩ | ⟨gh',hres,hholds⟩
    · obtain ⟨rfl,-⟩ := Prod.mk.inj (Option.some.inj (hres.symm.trans h))
      exact absurd hok (by decide)
    · obtain ⟨-,rfl⟩ := Prod.mk.inj (Option.some.inj (hres.symm.trans h))
      exact hholds

theorem del_unchanged (h : ghosthashDel t.cells path len.toNat = some (rv, gh)) (hneg : rv < 0) :
    gh = t.cells := by
  have hasc := t.ascending
  rw [Table.pairs] at hasc
  simp only [ghosthashDel] at h
  split at h
  · exact (Prod.mk.inj (Option.some.inj h)).2.symm
  next y after hdrop =>
    split_ifs at h
    · refine array2gh_unchanged t.length (hasc.sublist ?_) h hneg
      refine ((List.sublist_cons_self y after).append_left _).trans ?_
      rw [← hdrop,List.takeWhile_append_dropWhile]
    · exact (Prod.mk.inj (Option.some.inj h)).2.symm

theorem dropWhile_shorter {xs : List (Nat × Hash)} {e y : Nat × Hash} {s : Nat}
    (h : Ascending s xs) (hy : y ∈ xs) (hhash : y.2 = e.2) (hlt : y.1 < e.1) :
    ∃ z after, xs.dropWhile (fun z => z.1 ≤ e.1 ∧ e.2 ≠ z.2) = z :: after ∧ z.1 < e.1 := by
  induction xs generalizing s with
  | nil => cases hy
  | cons z xs ih =>
    have hz : z.1 ≤ y.1 := by
      rcases List.mem_cons.mp hy with rfl | hy
      · exact Nat.le_refl _
      · exact h.2.le hy
    by_cases heq : e.2 = z.2
    · rw [List.dropWhile_cons_of_neg (by simp [heq])]
      exact ⟨z,xs,rfl,by omega⟩
    · rw [List.dropWhile_cons_of_pos (by simp [heq]; omega)]
      refine ih h.2 ((List.mem_cons.mp hy).resolve_left ?_)
      rintro rfl
      exact heq hhash.symm

theorem del_shorter {xs : List (Nat × Hash)} (hx : Holds gh xs)
    (h : ∃ y ∈ xs, y.2 = (entry16 path len).2 ∧ y.1 < (entry16 path len).1) :
    ghosthashDel gh path len.toNat = some (-enoent, gh) := by
  obtain ⟨y,hy,hhash,hlt⟩ := h
  obtain ⟨z,after,hdrop,hz⟩ := dropWhile_shorter hx.ascending hy hhash hlt
  have hbefore : (fun x : Nat × Hash => decide ((x.1 : Int) ≤ len.toNat ∧
      hashsum 0 path (len.toNat : Int).toNat ≠ x.2)) =
      fun x => decide (x.1 ≤ (entry16 path len).1 ∧ (entry16 path len).2 ≠ x.2) := by
    funext x
    exact decide_eq_decide.mpr (by rw [Int.ofNat_le]; rfl)
  simp only [ghosthashDel,hx.gh2array,hbefore,hdrop]
  apply if_neg
  rintro ⟨heq,-⟩
  have : (entry16 path len).1 = len.toNat := rfl
  omega

theorem del_undoes_iff (h : ghosthashAdd t.cells path len.toNat = some (rv, gh)) (hok : 0 ≤ rv) :
    DelUndoes t gh path len ↔
      ∀ y ∈ t.pairs, y.2 = (entry16 path len).2 → (entry16 path len).1 ≤ y.1 := by
  obtain ⟨before,after,hpairs,hholds⟩ := add_holds h hok
  have hmem : ∀ y, y ∈ before ++ entry16 path len :: after ↔ y = entry16 path len ∨ y ∈ t.pairs := by
    intro y
    rw [hpairs]
    simp only [List.mem_append,List.mem_cons]
    tauto
  constructor
  · rintro ⟨rv',gh',hdel,hok',-⟩ y hy hhash
    by_contra hlt
    have hmiss := del_shorter hholds ⟨y,(hmem y).mpr (Or.inr hy),hhash,by omega⟩
    obtain ⟨rfl,-⟩ := Prod.mk.inj (Option.some.inj (hmiss.symm.trans hdel))
    exact absurd hok' (by decide)
  · intro hfirst
    have hleast : ∀ y ∈ before ++ entry16 path len :: after, y.2 = (entry16 path len).2 →
        (entry16 path len).1 ≤ y.1 := by
      intro y hy hhash
      rcases (hmem y).mp hy with rfl | hy
      · exact Nat.le_refl _
      · exact hfirst y hy hhash
    obtain ⟨before',after',hsplit,hdel⟩ := del_found hholds (Int.natCast_nonneg _)
      ((hmem _).mpr (Or.inl rfl)) hleast
    have hsub : (before' ++ after').Sublist (before ++ entry16 path len :: after) :=
      hsplit ▸ (List.sublist_cons_self _ _).append_left before'
    obtain ⟨gh',harr,hholds'⟩ := hholds.shrink hsub
    refine ⟨_,gh',hdel.trans harr,Int.natCast_nonneg _,?_⟩
    rw [hholds'.gh2array,hpairs]
    refine List.Perm.cons_inv (a := entry16 path len) ?_
    refine List.perm_middle.symm.trans (.trans ?_ List.perm_middle)
    exact (List.Perm.of_eq hsplit).symm

end Laws

theorem ghost_table_inverse_laws (t : Table) :
    (∀ (xs : List (Nat × Hash)) (rv : Int) (gh : List Cell), xs.length ≤ ghSize → Ascending 0 xs →
      array2gh xs t.cells = some (rv, gh) → rv ≠ -enomem → gh2array 0 gh = xs) ∧
    ∀ (path : Nat → Byte) (len : BitVec 16),
      (∀ rv gh, ghosthashAdd t.cells path len.toNat = some (rv, gh) → rv < 0 → gh = t.cells) ∧
      (∀ rv gh, ghosthashDel t.cells path len.toNat = some (rv, gh) → rv < 0 → gh = t.cells) ∧
      ∀ rv gh, ghosthashAdd t.cells path len.toNat = some (rv, gh) → 0 ≤ rv →
        (DelUndoes t gh path len ↔
          ∀ y ∈ t.pairs, y.2 = (entry16 path len).2 → (entry16 path len).1 ≤ y.1) := by
  refine ⟨fun xs rv gh _ hasc h hok => ?_,fun path len => ⟨fun rv gh => add_unchanged,
    fun rv gh => del_unchanged,fun rv gh => del_undoes_iff⟩⟩
  rcases array2gh_cases t.length hasc with ⟨-,hres⟩ | ⟨gh',hres,hholds⟩
  · obtain ⟨rfl,-⟩ := Prod.mk.inj (Option.some.inj (hres.symm.trans h))
    exact absurd rfl hok
  · obtain ⟨-,rfl⟩ := Prod.mk.inj (Option.some.inj (hres.symm.trans h))
    exact hholds.gh2array

def ebakb : Nat → Byte := bytesOf [47, 101, 98, 97, 107, 98]

def eftizy : Nat → Byte := bytesOf [47, 101, 102, 116, 105, 122, 121]

def oneTable : Table where
  cells := (6, 1997306853) :: (ghTerminate, 0) :: List.replicate (ghSize - 2) (0, 0)
  length := rfl
  byte := by decide

-- The longer path first.
def longTable : Table where
  cells := (7, 1997306853) :: (ghTerminate, 0) :: List.replicate (ghSize - 2) (0, 0)
  length := rfl
  byte := by decide

theorem longTable_undone : ∃ gh, ghosthashAdd longTable.cells ebakb 6 = some (2, gh) ∧
    DelUndoes longTable gh ebakb 6 := by
  have hadd : ghosthashAdd longTable.cells ebakb 6 = some (2, (6, 1997306853) ::
      (1, 1997306853) :: (ghTerminate, 0) :: List.replicate (ghSize - 3) (0, 0)) := by
    decide +kernel
  exact ⟨_,hadd,(((ghost_table_inverse_laws longTable).2 ebakb 6).2.2 2 _ hadd (by decide)).mpr
    (by decide +kernel)⟩

theorem shorter_hides_longer : ghosthashAdd ghostmounts ebakb 6 = some (1, oneTable.cells) ∧
    ¬ ∀ (t : Table) (path : Nat → Byte) (len : BitVec 16) (rv : Int) (gh : List Cell),
      ghosthashAdd t.cells path len.toNat = some (rv, gh) → 0 ≤ rv → DelUndoes t gh path len := by
  refine ⟨by decide +kernel,fun h => ?_⟩
  obtain ⟨gh,hadd,hdel⟩ : ∃ gh, ghosthashAdd oneTable.cells eftizy 7 = some (2, gh) ∧
      ghosthashDel gh eftizy 7 = some (-enoent, gh) :=
    ⟨(6, 1997306853) :: (1, 1997306853) :: (ghTerminate, 0) :: List.replicate (ghSize - 3) (0, 0),
      by decide +kernel⟩
  obtain ⟨rv,gh',hres,hok,-⟩ := h oneTable eftizy 7 2 gh hadd (by decide)
  obtain ⟨rfl,-⟩ := Prod.mk.inj (Option.some.inj (hdel.symm.trans hres))
  exact absurd hok (by decide)

end ViewOS.Ghosthash
