import Mathlib.Data.List.Basic
import ViewOS.Lib.GapCode
import ViewOS.Lib.Run
import ViewOS.Ghosthash.Model

namespace ViewOS.Ghosthash
open GapCode Transition

def live (gh : List Cell) : List Cell := gh.takeWhile (·.1 ≠ ghTerminate)

abbrev code (s : Nat) (xs : List (Nat × Hash)) : List Cell := encode ghDummy dummyHash s xs

theorem ghDummy_pos : 0 < ghDummy := by decide

theorem live_append {s : Nat} (xs : List (Nat × Hash)) {rest : List Cell}
    (hrest : ∀ c ∈ rest.head?, c.1 = ghTerminate) : live (code s xs ++ rest) = code s xs := by
  have hkeep : ∀ c ∈ code s xs, decide (c.1 ≠ ghTerminate) = true := by
    intro c hc
    have hle : c.1 ≤ 254 := (gap_le_of_mem_encode ghDummy_pos hc).1
    exact decide_eq_true (Nat.ne_of_lt (Nat.lt_succ_of_le hle))
  rw [live,List.takeWhile_append_of_pos hkeep]
  cases rest with
  | nil => exact List.append_nil _
  | cons c rest =>
    rw [List.takeWhile_cons_of_neg (by simpa using hrest c rfl),List.append_nil]

theorem gh2array_eq_decode {gh : List Cell} {s : Nat}
    (hshort : ∀ p ∈ places s (live gh), p.1 < 32768) : gh2array s gh = decode ghDummy s (live gh) := by
  induction gh generalizing s with
  | nil => rfl
  | cons c gh ih =>
    by_cases hend : c.1 = ghTerminate
    · rw [gh2array,if_pos hend,live,List.takeWhile_cons_of_neg (by simpa using hend)]
      rfl
    · rw [live,List.takeWhile_cons_of_pos (by simpa using hend)] at hshort ⊢
      have hlt : s + c.1 < 32768 := hshort (s + c.1, c) List.mem_cons_self
      have hscan : ((s : Int) + c.1).bmod 65536 = ((s + c.1 : Nat) : Int) := by
        rw [← Int.natCast_add]
        exact Int.bmod_eq_of_le (by omega) (by omega)
      have hlen : (((s + c.1 : Nat) : Int) % 65536).toNat = s + c.1 := by omega
      have hrest := ih fun p hp => hshort p (List.mem_cons_of_mem _ hp)
      rw [gh2array,if_neg hend,decode,places]
      simp only [hscan,hlen,hrest]
      by_cases hdummy : c.1 = ghDummy
      · rw [if_pos hdummy,List.filterMap_cons_none (by simp [hdummy])]
        rfl
      · rw [if_neg hdummy,List.filterMap_cons_some (b := (s + c.1, c.2)) (by simp [hdummy])]
        rfl

theorem needed_eq_length {s : Nat} {xs : List (Nat × Hash)} (h : Ascending s xs) :
    needed s xs = (code s xs).length := by
  induction xs generalizing s with
  | nil => rfl
  | cons x xs ih =>
    have hgap : ((x.1 : Int) - s).tdiv ghDummy = ((x.1 - s) / ghDummy : Nat) := by
      rw [← Int.ofNat_sub h.1]
      rfl
    rw [needed,hgap,ih h.2,length_encode_cons]
    push_cast
    rfl

theorem fill_eq {s : Nat} {xs : List (Nat × Hash)} (h : Ascending s xs)
    (hshort : ∀ x ∈ xs, x.1 < 32768) : ∀ gh : List Cell, (code s xs).length ≤ gh.length →
      fill s xs gh = some (code s xs ++ gh.drop (code s xs).length) := by
  revert hshort
  apply encode_induction ghDummy_pos (P := fun s xs => (∀ x ∈ xs, x.1 < 32768) →
    ∀ gh : List Cell, (code s xs).length ≤ gh.length →
      fill s xs gh = some (code s xs ++ gh.drop (code s xs).length)) _ _ _ xs s h
  · intro s _ gh _
    rw [fill]
    rfl
  · intro s x xs hfar _ ih hshort gh hlen
    rw [code,encode_far ghDummy_pos hfar,List.length_cons] at hlen ⊢
    cases gh with
    | nil => cases hlen
    | cons c gh =>
      have hx := hshort x List.mem_cons_self
      have hge : (ghDummy : Int) ≤ x.1 - s := by omega
      have hscan : ((s : Int) + ghDummy).bmod 65536 = ((s + ghDummy : Nat) : Int) := by
        rw [← Int.natCast_add]
        exact Int.bmod_eq_of_le (by omega) (by omega)
      rw [fill,if_pos hge,hscan,ih hshort gh (Nat.le_of_succ_le_succ hlen)]
      rfl
  · intro s x xs hnear h ih hshort gh hlen
    rw [code,encode_near hnear h.1,List.length_cons] at hlen ⊢
    cases gh with
    | nil => cases hlen
    | cons c gh =>
      have hx := hshort x List.mem_cons_self
      have hs := h.1
      have hlt : ¬ (ghDummy : Int) ≤ x.1 - s := by omega
      have hscan : (x.1 : Int).bmod 65536 = x.1 := Int.bmod_eq_of_le (by omega) (by omega)
      have hdummy : ghDummy = 254 := rfl
      have hgap : (((x.1 : Int) - s) % 256).toNat = x.1 - s := by omega
      rw [fill,if_neg hlt,hscan,hgap,
        ih (fun y hy => hshort y (List.mem_cons_of_mem _ hy)) gh (Nat.le_of_succ_le_succ hlen)]
      rfl

structure Holds (gh : List Cell) (xs : List (Nat × Hash)) : Prop where
  length : gh.length = ghSize
  ascending : Ascending 0 xs
  cells : live gh = code 0 xs

theorem ghostmounts_holds : Holds ghostmounts [] := ⟨rfl,trivial,rfl⟩

section Table

variable {gh gh' : List Cell} {xs : List (Nat × Hash)}

theorem Holds.code_length_le (h : Holds gh xs) : (code 0 xs).length ≤ ghSize := by
  rw [← h.cells,← h.length]
  exact (List.takeWhile_sublist _).length_le

theorem lt_short (hasc : Ascending 0 xs) (hsize : (code 0 xs).length ≤ ghSize) :
    ∀ x ∈ xs, x.1 < 32768 := by
  intro x hx
  have hlt : x.1 < 0 + ghDummy * (code 0 xs).length := lt_of_mem_encode ghDummy_pos hasc x hx
  have hroom : ghDummy * (code 0 xs).length ≤ ghDummy * ghSize := Nat.mul_le_mul_left _ hsize
  have hfits : ghDummy * ghSize < 32768 := by decide
  omega

theorem Holds.gh2array (h : Holds gh xs) : gh2array 0 gh = xs := by
  have hshort : ∀ p ∈ places 0 (live gh), p.1 < 32768 := by
    intro p hp
    rw [h.cells] at hp
    obtain ⟨x,hx,hle⟩ := exists_value_of_mem_places ghDummy_pos h.ascending p hp
    exact Nat.lt_of_le_of_lt hle (lt_short h.ascending h.code_length_le x hx)
  rw [← Int.natCast_zero,gh2array_eq_decode hshort,h.cells,decode_encode ghDummy_pos h.ascending]

theorem array2gh_cases (hlen : gh.length = ghSize) (hasc : Ascending 0 xs) :
    (ghSize < (code 0 xs).length ∧ array2gh xs gh = some (-enomem, gh)) ∨
      ∃ gh', array2gh xs gh = some (((code 0 xs).length : Int), gh') ∧ Holds gh' xs := by
  have hneed : needed 0 xs = (code 0 xs).length := needed_eq_length hasc
  by_cases hbig : ghSize < (code 0 xs).length
  · refine Or.inl ⟨hbig,?_⟩
    rw [array2gh,hneed,if_pos (Int.ofNat_lt.mpr hbig)]
  · have hsize := Nat.le_of_not_lt hbig
    have hfill : fill 0 xs gh = some (code 0 xs ++ gh.drop (code 0 xs).length) :=
      fill_eq hasc (lt_short hasc hsize) gh (hlen ▸ hsize)
    have hneg : ¬ ((code 0 xs).length : Int) < 0 := Int.not_lt.mpr (Int.natCast_nonneg _)
    have hnot : ¬ (ghSize : Int) < (code 0 xs).length := by exact_mod_cast hbig
    right
    rw [array2gh,hneed,if_neg hnot,hfill,Option.bind_eq_bind,Option.bind_some,if_neg hneg]
    by_cases hfull : (code 0 xs).length = ghSize
    · have hdrop : gh.drop (code 0 xs).length = [] := List.drop_eq_nil_of_le (Nat.le_of_eq (hlen.trans hfull.symm))
      rw [if_neg (by rw [hfull]; exact Int.lt_irrefl _),hdrop,List.append_nil]
      refine ⟨_,rfl,hfull,hasc,?_⟩
      have hall : live (code 0 xs ++ []) = code 0 xs := live_append xs nofun
      rwa [List.append_nil] at hall
    · have hlt : (code 0 xs).length < ghSize := Nat.lt_of_le_of_ne hsize hfull
      rw [if_pos (Int.ofNat_lt.mpr hlt),Int.toNat_natCast]
      refine ⟨_,rfl,?_,hasc,?_⟩
      · rw [List.length_modify,List.length_append,List.length_drop,hlen]
        omega
      · obtain ⟨c,rest,hdrop⟩ : ∃ c rest, gh.drop (code 0 xs).length = c :: rest :=
          List.exists_cons_of_length_pos (by rw [List.length_drop,hlen]; omega)
        have hset : (code 0 xs ++ c :: rest).modify (code 0 xs).length (fun c => (ghTerminate, c.2)) =
            code 0 xs ++ (ghTerminate, c.2) :: rest := by
          simp [List.modify_eq_take_cons_drop]
        rw [hdrop,hset]
        exact live_append xs (by simp)

theorem Holds.shrink {ys : List (Nat × Hash)} (h : Holds gh xs) (hsub : ys.Sublist xs) :
    ∃ gh', array2gh ys gh = some (((code 0 ys).length : Int), gh') ∧ Holds gh' ys := by
  apply (array2gh_cases h.length (h.ascending.sublist hsub)).resolve_left
  rintro ⟨hbig,-⟩
  have hle : (code 0 ys).length ≤ (code 0 xs).length :=
    length_encode_sublist ghDummy_pos hsub h.ascending
  exact absurd (Nat.le_trans hle h.code_length_le) (Nat.not_le.mpr hbig)

end Table

abbrev Book := List (Nat × Hash)

inductive Op where
  | add (path : Nat → Byte) (len : Int)
  | del (path : Nat → Byte) (len : Int)

def entry (path : Nat → Byte) (len : Int) : Nat × Hash := (len.toNat, hashsum 0 path len.toNat)

def step (x : List Cell × Book) : Op → Option (List Cell × Book)
  | .add path len => (ghosthashAdd x.1 path len).map fun r =>
    (r.2, if 0 ≤ r.1 then entry path len :: x.2 else x.2)
  | .del path len => (ghosthashDel x.1 path len).map fun r =>
    (r.2, if 0 ≤ len then x.2.erase (entry path len) else x.2)

def Orderly (x : List Cell × Book) : Op → Prop
  | .add _ len => 0 ≤ len ∧ len < 65536
  | .del path len => 0 ≤ len → entry path len ∈ x.2 →
      ∀ y ∈ x.2, y.2 = (entry path len).2 → (entry path len).1 ≤ y.1

def Inv (x : List Cell × Book) : Prop := ∃ xs, Holds x.1 xs ∧ xs.Perm x.2

theorem add_inv {gh gh' : List Cell} {b : Book} {path : Nat → Byte} {len rv : Int}
    (h : Inv (gh, b)) (hlen : 0 ≤ len ∧ len < 65536) (hadd : ghosthashAdd gh path len = some (rv, gh')) :
    Inv (gh', if 0 ≤ rv then entry path len :: b else b) := by
  obtain ⟨xs,hx,hperm⟩ := h
  have hnew : ((len % 65536).toNat, hashsum 0 path len.toNat) = entry path len := by
    rw [entry,Int.emod_eq_of_lt hlen.1 hlen.2]
  have hbefore : (fun x : Nat × Hash => decide ((x.1 : Int) < len)) = fun x => decide (x.1 < (entry path len).1) := by
    funext x
    exact decide_eq_decide.mpr (by rw [entry]; omega)
  have hins : Ascending 0 (xs.takeWhile (fun x => x.1 < (entry path len).1) ++
      entry path len :: xs.dropWhile fun x => x.1 < (entry path len).1) :=
    hx.ascending.insert _ (Nat.zero_le _)
  have hsame : (xs.takeWhile (fun x => x.1 < (entry path len).1) ++
      entry path len :: xs.dropWhile fun x => x.1 < (entry path len).1).Perm (entry path len :: b) := by
    refine List.perm_middle.trans (List.Perm.cons _ ?_)
    rw [List.takeWhile_append_dropWhile]
    exact hperm
  have hfail : ¬ (0 : Int) ≤ -enomem := by decide
  simp only [ghosthashAdd,hx.gh2array,hnew,hbefore] at hadd
  split_ifs at hadd with hfull
  · obtain ⟨rfl,rfl⟩ : -enomem = rv ∧ gh = gh' := by simpa using hadd
    rw [if_neg hfail]
    exact ⟨xs,hx,hperm⟩
  · rcases array2gh_cases hx.length hins with ⟨-,hres⟩ | ⟨gh'',hres,hholds⟩
    · obtain ⟨rfl,rfl⟩ : -enomem = rv ∧ gh = gh' := by simpa using hres.symm.trans hadd
      rw [if_neg hfail]
      exact ⟨xs,hx,hperm⟩
    · obtain ⟨rfl,rfl⟩ : ((code 0 _).length : Int) = rv ∧ gh'' = gh' := by
        simpa using hres.symm.trans hadd
      rw [if_pos (Int.natCast_nonneg _)]
      exact ⟨_,hholds,hsame⟩

theorem dropWhile_entry {s : Nat} {xs : List (Nat × Hash)} {e : Nat × Hash} (h : Ascending s xs)
    (he : e ∈ xs) (hfirst : ∀ y ∈ xs, y.2 = e.2 → e.1 ≤ y.1) :
    ∃ after, xs.dropWhile (fun y => y.1 ≤ e.1 ∧ e.2 ≠ y.2) = e :: after := by
  induction xs generalizing s with
  | nil => cases he
  | cons y xs ih =>
    by_cases hy : y.1 ≤ e.1 ∧ e.2 ≠ y.2
    · rw [List.dropWhile_cons_of_pos (by simpa using hy)]
      have hne : e ≠ y := fun heq => hy.2 (congrArg Prod.snd heq)
      exact ih h.2 ((List.mem_cons.mp he).resolve_left hne)
        fun z hz => hfirst z (List.mem_cons_of_mem _ hz)
    · rw [List.dropWhile_cons_of_neg (by simpa using hy)]
      have hle : y.1 ≤ e.1 := by
        rcases List.mem_cons.mp he with rfl | he
        · exact Nat.le_refl _
        · exact h.2.le he
      have hhash : y.2 = e.2 := (not_not.mp (not_and.mp hy hle)).symm
      have hge := hfirst y List.mem_cons_self hhash
      exact ⟨xs,by rw [Prod.ext (Nat.le_antisymm hle hge) hhash]⟩

theorem del_found {gh : List Cell} {xs : List (Nat × Hash)} {path : Nat → Byte} {len : Int}
    (hx : Holds gh xs) (hlen : 0 ≤ len) (he : entry path len ∈ xs)
    (hfirst : ∀ y ∈ xs, y.2 = (entry path len).2 → (entry path len).1 ≤ y.1) :
    ∃ before after, xs = before ++ entry path len :: after ∧
      ghosthashDel gh path len = array2gh (before ++ after) gh := by
  have hcast : (((entry path len).1 : Nat) : Int) = len := Int.toNat_of_nonneg hlen
  have hbefore : (fun x : Nat × Hash => decide ((x.1 : Int) ≤ len ∧ hashsum 0 path len.toNat ≠ x.2)) =
      fun x => decide (x.1 ≤ (entry path len).1 ∧ (entry path len).2 ≠ x.2) := by
    funext x
    exact decide_eq_decide.mpr (by rw [← hcast,Int.ofNat_le]; rfl)
  obtain ⟨after,hafter⟩ := dropWhile_entry hx.ascending he hfirst
  refine ⟨xs.takeWhile fun y => y.1 ≤ (entry path len).1 ∧ (entry path len).2 ≠ y.2,after,?_,?_⟩
  · rw [← hafter,List.takeWhile_append_dropWhile]
  · simp only [ghosthashDel,hx.gh2array,hbefore,hafter]
    exact if_pos ⟨hcast.symm,rfl⟩

theorem del_missing {gh : List Cell} {xs : List (Nat × Hash)} {path : Nat → Byte} {len : Int}
    (hx : Holds gh xs) (hnot : ¬ (0 ≤ len ∧ entry path len ∈ xs)) :
    ghosthashDel gh path len = some (-enoent, gh) := by
  simp only [ghosthashDel,hx.gh2array]
  split
  · rfl
  · rename_i y after hdrop
    apply if_neg
    rintro ⟨hy,hhash⟩
    have hmem : y ∈ xs := (List.dropWhile_sublist _).subset (hdrop ▸ List.mem_cons_self)
    have hentry : entry path len = y := by
      rw [entry,hhash,hy,Int.toNat_natCast]
    exact hnot ⟨hy ▸ Int.natCast_nonneg _,hentry ▸ hmem⟩

theorem del_inv {gh gh' : List Cell} {b : Book} {path : Nat → Byte} {len rv : Int}
    (h : Inv (gh, b)) (ho : Orderly (gh, b) (.del path len))
    (hdel : ghosthashDel gh path len = some (rv, gh')) :
    Inv (gh', if 0 ≤ len then b.erase (entry path len) else b) := by
  obtain ⟨xs,hx,hperm⟩ := h
  dsimp only at hx hperm
  by_cases hstored : 0 ≤ len ∧ entry path len ∈ xs
  · obtain ⟨hlen,hmem⟩ := hstored
    obtain ⟨before,after,rfl,hres⟩ := del_found hx hlen hmem
      fun y hy => ho hlen (hperm.mem_iff.mp hmem) y (hperm.mem_iff.mp hy)
    have hsub : (before ++ after).Sublist (before ++ entry path len :: after) :=
      (List.sublist_cons_self _ _).append_left before
    obtain ⟨gh'',harr,hholds⟩ := hx.shrink hsub
    obtain ⟨-,rfl⟩ : _ ∧ gh'' = gh' := by simpa using (hres.trans harr).symm.trans hdel
    rw [if_pos hlen]
    refine ⟨_,hholds,List.Perm.cons_inv (a := entry path len) ?_⟩
    exact List.perm_middle.symm.trans (hperm.trans (List.perm_cons_erase (hperm.mem_iff.mp hmem)))
  · obtain ⟨-,rfl⟩ : -enoent = rv ∧ gh = gh' := by
      simpa using (del_missing hx hstored).symm.trans hdel
    have hsame : (if 0 ≤ len then b.erase (entry path len) else b) = b := by
      split_ifs with hlen
      · exact List.erase_of_not_mem fun hmem => hstored ⟨hlen,hperm.mem_iff.mpr hmem⟩
      · rfl
    rw [hsame]
    exact ⟨xs,hx,hperm⟩

theorem step_inv {x y : List Cell × Book} {o : Op} (h : Inv x) (ho : Orderly x o)
    (hstep : step x o = some y) : Inv y := by
  cases o with
  | add path len =>
    obtain ⟨⟨rv,gh'⟩,hadd,rfl⟩ := Option.map_eq_some_iff.mp hstep
    exact add_inv h ho hadd
  | del path len =>
    obtain ⟨⟨rv,gh'⟩,hdel,rfl⟩ := Option.map_eq_some_iff.mp hstep
    exact del_inv h ho hdel

theorem run_inv {x : List Cell × Book} (h : Run step Orderly (ghostmounts, []) x) : Inv x :=
  h.invariant (fun _ _ _ hy ho hz => step_inv hy ho hz) ⟨[],ghostmounts_holds,.nil⟩

end ViewOS.Ghosthash
