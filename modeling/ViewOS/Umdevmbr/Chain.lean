import Mathlib.Data.Fintype.EquivFin
import Mathlib.Data.List.TakeWhile
import ViewOS.Umdevmbr.Table

namespace ViewOS.Umdevmbr

def logicals (es : List Ebr) : List Partition :=
  (es.filter Ebr.used).map fun e => logical e.header e.sector

def Whole (img : List UInt8) (sector : UInt32) : Prop :=
  (sector.toNat + 1) * ideBlocksize ≤ img.length

instance (img : List UInt8) (sector : UInt32) : Decidable (Whole img sector) :=
  inferInstanceAs (Decidable (_ ≤ _))

def sectorRead (img : List UInt8) (old : Header) (sector : UInt32) : Header :=
  preadHeader img old (sector.toNat * ideBlocksize)

def ebrAt (img : List UInt8) (sector : UInt32) : Option Ebr :=
  let h := sectorRead img (fun _ => 0) sector
  if Whole img sector ∧ h.signed then some ⟨sector, h⟩ else none

def chain (img : List UInt8) (ext : UInt32) : UInt32 → Nat → Option Ebr
  | offset, 0 => ebrAt img (ext + offset)
  | offset, n + 1 =>
    match ebrAt img (ext + offset) with
    | none => none
    | some e => if e.linked then chain img ext e.link n else none

def Acyclic (img : List UInt8) (ext : UInt32) : Prop :=
  ∀ i j e e', chain img ext 0 i = some e → chain img ext 0 j = some e' → e.sector = e'.sector → i = j

def IsChain (img : List UInt8) (ext offset : UInt32) (es : List Ebr) : Prop :=
  ∀ j, es[j]? = chain img ext offset j

structure Meets (img : List UInt8) (stack : Header) (m : Mbr) : Prop where
  safe : ∃ fuel m', mbrReread fuel img stack m = some (.ok m')
  listed : ∀ ext ∈ extBase (preadHeader img stack 0), Acyclic img ext →
    ∃ es, IsChain img ext 0 es ∧ ((logicals es).length ≤ ideMaxpart - 4 → ∀ fuel m',
      mbrReread fuel img stack m = some (.ok m') →
        ∀ k : Fin ideMaxpart, 4 ≤ k.val → m'.part k = (logicals es)[k.val - 4]?)

inductive Walk (img : List UInt8) (ext : UInt32) : Header → UInt32 → List Ebr → Prop
  | bad {old : Header} {offset : UInt32} (hs : (sectorRead img old (ext + offset)).signed = false) :
      Walk img ext old offset []
  | last {old : Header} {offset : UInt32} {e : Ebr} (hs : e.header.signed = true)
      (he : e = ⟨ext + offset, sectorRead img old (ext + offset)⟩) (hl : e.linked = false) :
      Walk img ext old offset [e]
  | next {old : Header} {offset : UInt32} {e : Ebr} {es : List Ebr} (hs : e.header.signed = true)
      (he : e = ⟨ext + offset, sectorRead img old (ext + offset)⟩) (hl : e.linked = true)
      (hw : Walk img ext e.header e.link es) : Walk img ext old offset (e :: es)

def Ends (img : List UInt8) (h : Header) : Prop :=
  ∀ ext ∈ extBase h, ∃ es, Walk img ext h 0 es ∧ (logicals es).length ≤ ideMaxpart - 4 ∧
    ∀ e ∈ es.dropWhile (fun e => Whole img e.sector), e.used = false

section Runs

variable {img : List UInt8} {ext offset : UInt32} {old : Header} {m m' : Mbr} {i fuel : Nat}

theorem logicals_cons (e : Ebr) (es : List Ebr) : logicals (e :: es) =
    if e.used then logical e.header e.sector :: logicals es else logicals es := by
  unfold logicals
  rw [List.filter_cons]
  split_ifs <;> rfl

theorem logicals_append (es es' : List Ebr) :
    logicals (es ++ es') = logicals es ++ logicals es' := by
  simp [logicals]

theorem logicals_eq_nil {es : List Ebr} : logicals es = [] ↔ ∀ e ∈ es, e.used = false := by
  simp [logicals,List.filter_eq_nil_iff]

def storeAll (m : Mbr) (i : Nat) (ps : List Partition) : Mbr :=
  { m with part := fun k => if i ≤ k.val then (ps[k.val - i]?).or (m.part k) else m.part k }

theorem storeAll_nil (m : Mbr) (i : Nat) : storeAll m i [] = m := by
  simp [storeAll]

theorem storeAll_append (m : Mbr) (i : Nat) (ps qs : List Partition) :
    storeAll (storeAll m i ps) (i + ps.length) qs = storeAll m i (ps ++ qs) := by
  unfold storeAll
  congr 1
  funext k
  dsimp only
  rcases lt_or_ge k.val i with hk | hk
  · rw [if_neg (by omega),if_neg (by omega),if_neg (by omega)]
  · rw [if_pos hk,if_pos hk]
    rcases lt_or_ge k.val (i + ps.length) with hp | hp
    · rw [if_neg (by omega),List.getElem?_append_left (by omega)]
    · have hsub : k.val - i - ps.length = k.val - (i + ps.length) := by omega
      have hnone : ps[k.val - i]? = none := List.getElem?_eq_none (by omega)
      rw [if_pos hp,List.getElem?_append_right (by omega),hnone,hsub,Option.none_or]

theorem storeLogical_eq (e : Ebr) (m : Mbr) {i : Nat} (hi : i ≤ ideMaxpart) :
    storeLogical m i e.header e.sector =
      if i + (logicals [e]).length ≤ ideMaxpart then
        .ok (storeAll m i (logicals [e]), i + (logicals [e]).length)
      else .error .part := by
  have hnil : logicals [] = [] := rfl
  rw [logicals_cons,hnil]
  by_cases hu : (e.header.mbrpart 0).type = 0
  · have hused : e.used = false := by simp [Ebr.used,hu]
    simp [storeLogical,hu,hused,hi,storeAll_nil]
  · have hused : e.used = true := by simp [Ebr.used,hu]
    simp only [storeLogical,ne_eq,hu,not_false_eq_true,if_true,hused,List.length_singleton]
    by_cases hlt : i < ideMaxpart
    · rw [dif_pos hlt,if_pos (Nat.succ_le_of_lt hlt)]
      congr 2
      unfold storeAll
      congr 1
      funext k
      rcases eq_or_ne k ⟨i,hlt⟩ with rfl | hne
      · simp
      · have hk : k.val ≠ i := fun h => hne (Fin.ext h)
        rw [Function.update_of_ne hne]
        split_ifs with hle
        · rw [List.getElem?_eq_none (by rw [List.length_singleton]; omega),Option.none_or]
        · rfl
    · rw [dif_neg hlt,if_neg (fun h => hlt (Nat.lt_of_succ_le h))]

theorem logicals_append_cons (e : Ebr) (es : List Ebr) :
    logicals (e :: es) = logicals [e] ++ logicals es :=
  logicals_append [e] es

theorem readChain_bad (hs : (sectorRead img old (ext + offset)).signed = false) :
    readChain img ext (fuel + 1) old offset i m = some (.ok m) := by
  unfold sectorRead at hs
  simp only [readChain,hs,Bool.false_eq_true,if_false]

theorem readChain_record {e : Ebr} (hs : e.header.signed = true)
    (he : e = ⟨ext + offset, sectorRead img old (ext + offset)⟩) :
    readChain img ext (fuel + 1) old offset i m =
      match storeLogical m i e.header e.sector with
      | .error x => some (.error x)
      | .ok (m, i) =>
        if e.linked then readChain img ext fuel e.header e.link i m else some (.ok m) := by
  subst he
  unfold sectorRead at hs
  rw [readChain,if_pos hs]
  unfold sectorRead
  cases storeLogical m i (preadHeader img old ((ext + offset).toNat * ideBlocksize)) (ext + offset) with
  | error x => rfl
  | ok s => simp only [Ebr.linked,Ebr.link,beq_iff_eq]

theorem walk_run {es : List Ebr} (w : Walk img ext old offset es)
    (hi : i + (logicals es).length ≤ ideMaxpart) :
    ∃ fuel, readChain img ext fuel old offset i m = some (.ok (storeAll m i (logicals es))) := by
  induction w generalizing i m with
  | bad hs =>
    refine ⟨1,?_⟩
    rw [readChain_bad hs]
    exact congrArg _ (congrArg _ (storeAll_nil m i).symm)
  | @last old offset e hs he hl =>
    refine ⟨1,?_⟩
    rw [readChain_record hs he,storeLogical_eq e m (by omega),if_pos hi]
    simp [hl]
  | @next old offset e es hs he hl hw ih =>
    rw [logicals_append_cons,List.length_append,← Nat.add_assoc] at hi
    obtain ⟨fuel,hrun⟩ := ih (m := storeAll m i (logicals [e])) hi
    refine ⟨fuel + 1,?_⟩
    rw [readChain_record hs he,storeLogical_eq e m (by omega),if_pos (by omega)]
    simp only [hl,if_true]
    rw [hrun,storeAll_append,← logicals_append_cons]

theorem run_walk (h : readChain img ext fuel old offset i m = some (.ok m')) (hi : i ≤ ideMaxpart) :
    ∃ es, Walk img ext old offset es ∧ i + (logicals es).length ≤ ideMaxpart ∧
      m' = storeAll m i (logicals es) := by
  induction fuel generalizing old offset i m with
  | zero => cases h
  | succ fuel ih =>
    cases hs : (sectorRead img old (ext + offset)).signed with
    | false =>
      rw [readChain_bad hs] at h
      obtain rfl := Except.ok.inj (Option.some.inj h)
      exact ⟨[],.bad hs,hi,(storeAll_nil m i).symm⟩
    | true =>
      obtain ⟨e,he⟩ : ∃ e : Ebr, e = ⟨ext + offset,sectorRead img old (ext + offset)⟩ := ⟨_,rfl⟩
      have hse : e.header.signed = true := by rw [he]; exact hs
      rw [readChain_record hse he,storeLogical_eq e m hi] at h
      by_cases hroom : i + (logicals [e]).length ≤ ideMaxpart
      · rw [if_pos hroom] at h
        cases hl : e.linked with
        | false =>
          simp only [hl,Bool.false_eq_true,if_false] at h
          exact ⟨[e],.last hse he hl,hroom,(Except.ok.inj (Option.some.inj h)).symm⟩
        | true =>
          simp only [hl,if_true] at h
          obtain ⟨es,hw,hlen,rfl⟩ := ih h hroom
          refine ⟨e :: es,.next hse he hl hw,?_,?_⟩
          · rw [logicals_append_cons,List.length_append]
            omega
          · rw [storeAll_append,← logicals_append_cons]
      · rw [if_neg hroom] at h
        cases h

theorem readChain_mono {r : Except Overrun Mbr} (n : Nat)
    (h : readChain img ext fuel old offset i m = some r) :
    readChain img ext (fuel + n) old offset i m = some r := by
  induction fuel generalizing old offset i m with
  | zero => cases h
  | succ fuel ih =>
    rw [Nat.succ_add]
    cases hs : (sectorRead img old (ext + offset)).signed with
    | false => rwa [readChain_bad hs] at h ⊢
    | true =>
      rw [readChain_record (e := ⟨_,sectorRead img old (ext + offset)⟩) hs rfl] at h ⊢
      split at h
      · exact h
      · split_ifs at h ⊢
        · exact ih h
        · exact h

end Runs

section Chains

variable {img : List UInt8} {ext offset : UInt32} {old : Header}

theorem sectorRead_whole {sector : UInt32} (h : Whole img sector) (old old' : Header) :
    sectorRead img old sector = sectorRead img old' sector := by
  funext k
  have hlt : sector.toNat * ideBlocksize + k.val < img.length := by
    unfold Whole ideBlocksize at h
    unfold ideBlocksize
    omega
  simp only [sectorRead,preadHeader,List.getElem?_eq_getElem hlt,Option.getD_some]

theorem ebrAt_whole {sector : UInt32} (h : Whole img sector) (old : Header) :
    ebrAt img sector = if (sectorRead img old sector).signed then
      some ⟨sector, sectorRead img old sector⟩ else none := by
  simp only [ebrAt,h,true_and,sectorRead_whole h (fun _ => 0) old]

theorem ebrAt_not_whole {sector : UInt32} (h : ¬ Whole img sector) : ebrAt img sector = none := by
  simp [ebrAt,h]

theorem ebrAt_sector {sector : UInt32} {e : Ebr} (h : ebrAt img sector = some e) :
    e.sector = sector := by
  simp only [ebrAt] at h
  split_ifs at h
  obtain rfl := Option.some.inj h
  rfl

theorem chain_none (h : ebrAt img (ext + offset) = none) (n : Nat) :
    chain img ext offset n = none := by
  cases n with
  | zero => exact h
  | succ n => simp only [chain,h]

theorem chain_succ {e : Ebr} (h : ebrAt img (ext + offset) = some e) (n : Nat) :
    chain img ext offset (n + 1) = if e.linked then chain img ext e.link n else none := by
  simp only [chain,h]

theorem isChain_nil (h : ebrAt img (ext + offset) = none) : IsChain img ext offset [] := by
  intro j
  rw [chain_none h]
  rfl

theorem isChain_cons {e : Ebr} {es : List Ebr} (h : ebrAt img (ext + offset) = some e)
    (hes : IsChain img ext e.link es) (hl : e.linked = true) : IsChain img ext offset (e :: es) := by
  intro j
  cases j with
  | zero => exact h.symm
  | succ j => rw [chain_succ h,if_pos hl,List.getElem?_cons_succ,hes j]

theorem isChain_last {e : Ebr} (h : ebrAt img (ext + offset) = some e) (hl : e.linked = false) :
    IsChain img ext offset [e] := by
  intro j
  cases j with
  | zero => exact h.symm
  | succ j =>
    rw [chain_succ h,hl]
    rfl

theorem Walk.isChain {es : List Ebr} (w : Walk img ext old offset es) :
    IsChain img ext offset (es.takeWhile fun e => Whole img e.sector) := by
  induction w with
  | @bad old offset hs =>
    apply isChain_nil
    by_cases hw : Whole img (ext + offset)
    · rw [ebrAt_whole hw old,hs]
      rfl
    · exact ebrAt_not_whole hw
  | @last old offset e hs he hl =>
    have hsec : e.sector = ext + offset := by rw [he]
    by_cases hw : Whole img (ext + offset)
    · rw [List.takeWhile_cons_of_pos (by simpa [hsec] using hw)]
      refine isChain_last ?_ hl
      rw [ebrAt_whole hw old,if_pos (by rw [← hs,he]),he]
    · rw [List.takeWhile_cons_of_neg (by simpa [hsec] using hw)]
      exact isChain_nil (ebrAt_not_whole hw)
  | @next old offset e es hs he hl w ih =>
    have hsec : e.sector = ext + offset := by rw [he]
    by_cases hw : Whole img (ext + offset)
    · rw [List.takeWhile_cons_of_pos (by simpa [hsec] using hw)]
      refine isChain_cons ?_ ih hl
      rw [ebrAt_whole hw old,if_pos (by rw [← hs,he]),he]
    · rw [List.takeWhile_cons_of_neg (by simpa [hsec] using hw)]
      exact isChain_nil (ebrAt_not_whole hw)

theorem exists_isChain {n : Nat} (h : chain img ext offset n = none) :
    ∃ es, IsChain img ext offset es := by
  induction n generalizing offset with
  | zero => exact ⟨[],isChain_nil h⟩
  | succ n ih =>
    cases he : ebrAt img (ext + offset) with
    | none => exact ⟨[],isChain_nil he⟩
    | some e =>
      rw [chain_succ he] at h
      cases hl : e.linked with
      | false => exact ⟨[e],isChain_last he hl⟩
      | true =>
        rw [if_pos hl] at h
        obtain ⟨es,hes⟩ := ih h
        exact ⟨e :: es,isChain_cons he hes hl⟩

theorem Acyclic.finite (h : Acyclic img ext) : ∃ n, chain img ext 0 n = none := by
  by_contra hnone
  have hsome : ∀ n, ∃ e, chain img ext 0 n = some e := fun n =>
    Option.ne_none_iff_exists'.mp fun hn => hnone ⟨n,hn⟩
  choose e he using hsome
  refine not_injective_infinite_finite (fun n => (e n).sector.toFin) fun i j hij => ?_
  exact h i j (e i) (e j) (he i) (he j) (UInt32.toFin_inj.mp hij)

theorem IsChain.walk {es : List Ebr} (h : IsChain img ext offset es)
    (hstart : Whole img (ext + offset)) (hlinks : ∀ e ∈ es, e.linked → Whole img (ext + e.link))
    (old : Header) : Walk img ext old offset es := by
  induction es generalizing offset old with
  | nil =>
    have hnone : none = ebrAt img (ext + offset) := h 0
    rw [ebrAt_whole hstart old] at hnone
    split_ifs at hnone with hs
    exact .bad (Bool.eq_false_iff.mpr hs)
  | cons e es ih =>
    have he : some e = ebrAt img (ext + offset) := h 0
    have hnext : ∀ j, es[j]? = if e.linked then chain img ext e.link j else none := fun j =>
      (h (j + 1)).trans (chain_succ he.symm j)
    rw [ebrAt_whole hstart old] at he
    split_ifs at he with hs
    obtain rfl := Option.some.inj he
    cases hl : Ebr.linked ⟨ext + offset, sectorRead img old (ext + offset)⟩ with
    | true =>
      simp only [hl,if_true] at hnext
      exact .next hs rfl hl (ih hnext (hlinks _ List.mem_cons_self hl)
        (fun e he => hlinks e (List.mem_cons_of_mem _ he)) _)
    | false =>
      simp only [hl] at hnext
      obtain rfl : es = [] := List.ext_getElem? hnext
      exact .last hs rfl hl

theorem isChain_unique {es es' : List Ebr} (h : IsChain img ext offset es)
    (h' : IsChain img ext offset es') : es = es' :=
  List.ext_getElem? fun j => (h j).trans (h' j).symm

theorem chain_step {e : Ebr} {i : Nat} (h : chain img ext offset (i + 1) = some e) :
    ∃ x, ebrAt img (ext + offset) = some x ∧ x.linked = true ∧ chain img ext x.link i = some e := by
  cases hx : ebrAt img (ext + offset) with
  | none =>
    rw [chain_none hx] at h
    cases h
  | some x =>
    rw [chain_succ hx] at h
    split_ifs at h with hl
    exact ⟨x,rfl,hl,h⟩

theorem chain_at {e : Ebr} {i : Nat} (h : chain img ext offset i = some e) :
    ebrAt img e.sector = some e := by
  induction i generalizing offset with
  | zero =>
    have hsec := ebrAt_sector h
    rw [hsec]
    exact h
  | succ i ih =>
    obtain ⟨x,-,-,h⟩ := chain_step h
    exact ih h

theorem chain_add {e : Ebr} {i : Nat} (h : chain img ext offset i = some e) (n : Nat) :
    chain img ext offset (i + (n + 1)) = if e.linked then chain img ext e.link n else none := by
  induction i generalizing offset with
  | zero =>
    rw [Nat.zero_add]
    exact chain_succ h n
  | succ i ih =>
    obtain ⟨x,hx,hl,h⟩ := chain_step h
    rw [Nat.succ_add,chain_succ hx,if_pos hl]
    exact ih h

theorem chain_repeats {e : Ebr} {i d : Nat} (hi : chain img ext offset i = some e)
    (hj : chain img ext offset (i + d) = some e) (k : Nat) :
    (chain img ext offset (i + k * d)).isSome := by
  have hshift : ∀ n, chain img ext offset (i + d + n) = chain img ext offset (i + n) := by
    intro n
    cases n with
    | zero => exact hj.trans hi.symm
    | succ n => rw [chain_add hi,chain_add hj]
  induction k with
  | zero => simp [hi]
  | succ k ih =>
    have hstep : i + (k + 1) * d = i + d + k * d := by rw [Nat.succ_mul]; omega
    rw [hstep,hshift]
    exact ih

theorem ebrAt_eq_some_whole {sector : UInt32} {e : Ebr} (h : ebrAt img sector = some e) :
    Whole img sector := by
  by_contra hw
  rw [ebrAt_not_whole hw] at h
  cases h

-- An acyclic chain with all its sectors in the image and few enough logical partitions.
theorem ends_of_acyclic {hdr : Header} (h : ∀ ext ∈ extBase hdr, Acyclic img ext ∧ Whole img ext ∧
    (∀ i e, chain img ext 0 i = some e → e.linked → Whole img (ext + e.link)) ∧
      ∀ es, IsChain img ext 0 es → (logicals es).length ≤ ideMaxpart - 4) : Ends img hdr := by
  intro ext hext
  obtain ⟨hacyclic,hstart,hlinks,hfew⟩ := h ext hext
  obtain ⟨n,hn⟩ := hacyclic.finite
  obtain ⟨es,hes⟩ := exists_isChain hn
  have hmem : ∀ e ∈ es, ∃ i, chain img ext 0 i = some e := fun e he => by
    obtain ⟨i,hi⟩ := List.mem_iff_getElem?.mp he
    exact ⟨i,(hes i).symm.trans hi⟩
  refine ⟨es,hes.walk (by rwa [UInt32.add_zero]) (fun e he => ?_) hdr,hfew es hes,?_⟩
  · obtain ⟨i,hi⟩ := hmem e he
    exact hlinks i e hi
  · have hall : es.dropWhile (fun e => Whole img e.sector) = [] :=
      List.dropWhile_eq_nil_iff.mpr fun e he => by
        obtain ⟨i,hi⟩ := hmem e he
        exact decide_eq_true (ebrAt_eq_some_whole (chain_at hi))
    rw [hall]
    exact nofun

theorem acyclic_of_isChain {es : List Ebr} (h : IsChain img ext 0 es) : Acyclic img ext := by
  have hlt : ∀ i d e e', chain img ext 0 i = some e → chain img ext 0 (i + (d + 1)) = some e' →
      e.sector ≠ e'.sector := by
    intro i d e e' hi hj hsec
    obtain rfl : e = e' := by
      have he := chain_at hi
      rw [hsec,chain_at hj] at he
      exact (Option.some.inj he).symm
    have hsome := chain_repeats hi hj es.length
    rw [← h,List.getElem?_eq_none] at hsome
    · cases hsome
    · calc es.length ≤ es.length * (d + 1) := Nat.le_mul_of_pos_right _ (Nat.succ_pos d)
        _ ≤ i + es.length * (d + 1) := Nat.le_add_left _ _
  intro i j e e' hi hj hsec
  rcases lt_trichotomy i j with hij | hij | hij
  · obtain ⟨d,rfl⟩ := Nat.exists_eq_add_of_lt hij
    exact absurd hsec (hlt i d e e' hi hj)
  · exact hij
  · obtain ⟨d,rfl⟩ := Nat.exists_eq_add_of_lt hij
    exact absurd hsec.symm (hlt j d e' e hj hi)

end Chains

section Primaries

variable {h : Header} {m : Mbr}

theorem readPrimary_part (s : Mbr × UInt32) (i : Fin 4) {k : Fin ideMaxpart} (hk : 4 ≤ k.val) :
    (readPrimary h s i).1.part k = s.1.part k := by
  unfold readPrimary
  dsimp only
  by_cases ht : (h.mbrpart i).type ≠ 0
  · have hne : k ≠ i.castLE (by decide) := fun e => by
      have hval := congrArg Fin.val e
      rw [Fin.val_castLE] at hval
      omega
    rw [if_pos ht]
    exact Function.update_of_ne hne _ _
  · rw [if_neg ht]

theorem readPrimary_ext (s : Mbr × UInt32) (i : Fin 4) : (readPrimary h s i).2 =
    if (h.mbrpart i).type = 5 ∧ s.2 = 0 then (h.mbrpart i).lbaBegin else s.2 := by
  unfold readPrimary
  dsimp only
  by_cases ht : (h.mbrpart i).type = 0
  · simp [ht]
  · rw [if_pos ht]

theorem readPrimaries_part {k : Fin ideMaxpart} (hk : 4 ≤ k.val) :
    (readPrimaries h m).1.part k = m.part k := by
  have hfold : ∀ (l : List (Fin 4)) (s : Mbr × UInt32),
      (l.foldl (readPrimary h) s).1.part k = s.1.part k := by
    intro l
    induction l with
    | nil => exact fun s => rfl
    | cons i l ih => exact fun s => (ih _).trans (readPrimary_part s i hk)
  exact hfold _ _

theorem readPrimaries_ext : (readPrimaries h m).2 =
    ((([0, 1, 2, 3].map h.mbrpart).find? fun p => p.type = 5 ∧ p.lbaBegin ≠ 0).map
      MbrPart.lbaBegin).getD 0 := by
  have hfold : ∀ (l : List (Fin 4)) (s : Mbr × UInt32), (l.foldl (readPrimary h) s).2 =
      if s.2 = 0 then (((l.map h.mbrpart).find? fun p => p.type = 5 ∧ p.lbaBegin ≠ 0).map
        MbrPart.lbaBegin).getD 0 else s.2 := by
    intro l
    induction l with
    | nil => intro s; by_cases hs : s.2 = 0 <;> simp [hs]
    | cons i l ih =>
      intro s
      rw [List.foldl_cons,ih,readPrimary_ext,List.map_cons,List.find?_cons]
      by_cases hs : s.2 = 0
      · by_cases ht : (h.mbrpart i).type = 5
        · by_cases hb : (h.mbrpart i).lbaBegin = 0 <;> simp [hs,ht,hb]
        · simp [hs,ht]
      · simp [hs]
  exact hfold _ _

end Primaries

section Reads

variable {img : List UInt8} {stack : Header} {m : Mbr}

theorem mbrReread_plain (hx : extBase (preadHeader img stack 0) = none) :
    ∃ m', ∀ fuel, mbrReread fuel img stack m = some (.ok m') := by
  cases hs : (preadHeader img stack 0).signed with
  | false => exact ⟨_,fun fuel => by simp only [mbrReread,mbrRead,hs,Bool.false_eq_true,if_false]; rfl⟩
  | true =>
    rw [extBase,if_pos hs] at hx
    refine ⟨(readPrimaries (preadHeader img stack 0) { m with part := fun _ => none }).1,
      fun fuel => ?_⟩
    simp only [mbrReread,mbrRead,hs,readPrimaries_ext,hx,Option.getD_none,if_true]

theorem extBase_ne_zero {h : Header} {ext : UInt32} (hx : extBase h = some ext) : ext ≠ 0 := by
  unfold extBase at hx
  split_ifs at hx
  obtain ⟨p,hp,rfl⟩ := Option.map_eq_some_iff.mp hx
  have htest := List.find?_some hp
  simp only [decide_eq_true_eq] at htest
  exact htest.2

theorem mbrReread_extended {ext : UInt32} (hx : extBase (preadHeader img stack 0) = some ext) :
    ∃ m', (∀ k : Fin ideMaxpart, 4 ≤ k.val → m'.part k = none) ∧ ∀ fuel,
      mbrReread fuel img stack m = readChain img ext fuel (preadHeader img stack 0) 0 4 m' := by
  have hne := extBase_ne_zero hx
  cases hs : (preadHeader img stack 0).signed with
  | false => simp [extBase,hs] at hx
  | true =>
    rw [extBase,if_pos hs] at hx
    refine ⟨(readPrimaries (preadHeader img stack 0) { m with part := fun _ => none }).1,
      fun k hk => readPrimaries_part hk,fun fuel => ?_⟩
    simp only [mbrReread,mbrRead,hs,readPrimaries_ext,hx,Option.getD_some,if_true,hne,if_false]

theorem storeAll_part {m' : Mbr} (h : ∀ k : Fin ideMaxpart, 4 ≤ k.val → m'.part k = none)
    (ps : List Partition) {k : Fin ideMaxpart} (hk : 4 ≤ k.val) :
    (storeAll m' 4 ps).part k = ps[k.val - 4]? := by
  simp [storeAll,hk,h k hk]

theorem eq_of_part {ps qs : List Partition} (hp : ps.length ≤ ideMaxpart - 4)
    (hq : qs.length ≤ ideMaxpart - 4)
    (h : ∀ k : Fin ideMaxpart, 4 ≤ k.val → ps[k.val - 4]? = qs[k.val - 4]?) : ps = qs := by
  apply List.ext_getElem?
  intro j
  rcases lt_or_ge j (ideMaxpart - 4) with hj | hj
  · exact h ⟨j + 4,by omega⟩ (Nat.le_add_left 4 j)
  · rw [List.getElem?_eq_none (hp.trans hj),List.getElem?_eq_none (hq.trans hj)]

theorem readChain_unique {ext offset : UInt32} {old : Header} {i fuel fuel' : Nat}
    {r r' : Except Overrun Mbr} (h : readChain img ext fuel old offset i m = some r)
    (h' : readChain img ext fuel' old offset i m = some r') : r = r' := by
  have h1 := readChain_mono fuel' h
  have h2 := readChain_mono fuel h'
  rw [Nat.add_comm,h2] at h1
  exact (Option.some.inj h1).symm

end Reads

theorem mbr_read_iff (img : List UInt8) (stack : Header) (m : Mbr) :
    Meets img stack m ↔ Ends img (preadHeader img stack 0) := by
  constructor
  · rintro ⟨⟨fuel,m',hrun⟩,hlisted⟩ ext hext
    obtain ⟨m1,hnone,hread⟩ := mbrReread_extended (m := m) hext
    rw [hread] at hrun
    obtain ⟨es,hw,hlen,hm'⟩ := run_walk hrun (by decide)
    have hroom : (logicals es).length ≤ ideMaxpart - 4 := by omega
    refine ⟨es,hw,hroom,?_⟩
    obtain ⟨es',hchain,hlist⟩ := hlisted ext hext (acyclic_of_isChain hw.isChain)
    obtain rfl := isChain_unique hchain hw.isChain
    have hsplit := logicals_append (es.takeWhile fun e => Whole img e.sector)
      (es.dropWhile fun e => Whole img e.sector)
    rw [List.takeWhile_append_dropWhile] at hsplit
    have hshort : (logicals (es.takeWhile fun e => Whole img e.sector)).length ≤ ideMaxpart - 4 := by
      rw [hsplit,List.length_append] at hroom
      omega
    have hsame := eq_of_part hroom hshort fun k hk => by
      rw [← hlist hshort fuel m' ((hread fuel).trans hrun) k hk,hm',storeAll_part hnone _ hk]
    rw [← logicals_eq_nil]
    rw [hsplit] at hsame
    exact List.append_right_eq_self.mp hsame
  · intro hends
    cases hx : extBase (preadHeader img stack 0) with
    | none =>
      obtain ⟨m',hrun⟩ := mbrReread_plain (m := m) hx
      refine ⟨⟨0,m',hrun 0⟩,fun ext hext => ?_⟩
      rw [hx] at hext
      cases hext
    | some ext =>
      obtain ⟨m1,hnone,hread⟩ := mbrReread_extended (m := m) hx
      obtain ⟨es,hw,hroom,hunused⟩ := hends ext hx
      obtain ⟨fuel,hrun⟩ := walk_run (i := 4) (m := m1) hw
        (by unfold ideMaxpart at *; omega)
      refine ⟨⟨fuel,_,(hread fuel).trans hrun⟩,fun ext' hext _ => ?_⟩
      obtain rfl : ext = ext' := Option.some.inj (hx.symm.trans hext)
      refine ⟨_,hw.isChain,fun _ fuel' m' hrun' k hk => ?_⟩
      have hm' := Except.ok.inj (readChain_unique ((hread fuel').symm.trans hrun') hrun)
      have hsplit := logicals_append (es.takeWhile fun e => Whole img e.sector)
        (es.dropWhile fun e => Whole img e.sector)
      rw [List.takeWhile_append_dropWhile,logicals_eq_nil.mpr hunused,List.append_nil] at hsplit
      rw [hm',storeAll_part hnone _ hk,hsplit]

def loopDisk : List UInt8 :=
  List.replicate 446 0 ++ [0, 0, 0, 0, 5, 0, 0, 0, 1, 0, 0, 0, 1, 0, 0, 0] ++
    List.replicate 48 0 ++ [0x55, 0xaa] ++
  List.replicate 446 0 ++ [0, 0, 0, 0, 0x83, 0, 0, 0, 1, 0, 0, 0, 1, 0, 0, 0] ++
    [0, 0, 0, 0, 5, 0, 0, 0, 0, 0, 0, 0, 1, 0, 0, 0] ++ List.replicate 32 0 ++ [0x55, 0xaa]

def noPart : Mbr := ⟨1024, ⟨0, 0, 0⟩, fun _ => none⟩

theorem linked_to_itself : ¬ Meets loopDisk (fun _ => 0) noPart := by
  rintro ⟨⟨fuel,m',hrun⟩,-⟩
  obtain ⟨ext,hext⟩ : ∃ ext, extBase (preadHeader loopDisk (fun _ => 0) 0) = some ext :=
    ⟨1,by decide +kernel⟩
  obtain ⟨m1,-,hread⟩ := mbrReread_extended (m := noPart) hext
  have hover : (mbrReread 60 loopDisk (fun _ => 0) noPart).map Except.isOk = some false := by
    decide +kernel
  rw [hread] at hrun hover
  obtain ⟨r,hr,hok⟩ := Option.map_eq_some_iff.mp hover
  obtain rfl := readChain_unique hrun hr
  cases hok

end ViewOS.Umdevmbr
