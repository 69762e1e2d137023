import ViewOS.Lwip.Inet
import ViewOS.Userfilter.Manip

namespace ViewOS.Userfilter

open Lwip OnesSum

def pairs : List UInt8 → List (BitVec 16)
  | hi :: lo :: data => BitVec.ofNat 16 (hi.toNat * 256 + lo.toNat) :: pairs data
  | _ => []

def Verifies (data : List UInt8) : Prop := onesSum (halfwords data) = 65535

-- A string in which a region gets new bytes; the checksum field stands before or after it.
structure Edit where
  field : BitVec 16
  old : List UInt8
  new : List UInt8
  head : List UInt8
  middle : List UInt8
  tail : List UInt8
  fieldFirst : Bool
  old_even : old.length % 2 = 0
  new_even : new.length % 2 = 0
  head_even : head.length % 2 = 0
  middle_even : middle.length % 2 = 0

instance (data : List UInt8) : Decidable (Verifies data) :=
  inferInstanceAs (Decidable (onesSum (halfwords data) = 65535))

def Edit.string (e : Edit) (chksum : BitVec 16) (region : List UInt8) : List UInt8 :=
  if e.fieldFirst then e.head ++ (octets chksum ++ (e.middle ++ (region ++ e.tail)))
  else e.head ++ (region ++ (e.middle ++ (octets chksum ++ e.tail)))

def Edit.before (e : Edit) : List UInt8 := e.string e.field e.old

def Edit.after (e : Edit) : List UInt8 :=
  e.string (natChksumAdjust e.field (pairs e.old) (pairs e.new)) e.new

def Edit.rest (e : Edit) : List UInt8 := e.head ++ (e.middle ++ e.tail)

section Adjust

variable {x : Int}

theorem chksumSub_spec (old : BitVec 16) (h0 : 0 ≤ x) (h1 : x ≤ 65535) :
    0 ≤ chksumSub x old ∧ chksumSub x old ≤ 65535 ∧
      (chksumSub x old - (x - old.toNat)) % 65535 = 0 ∧
      (chksumSub x old = 0 ↔ x = 0 ∧ old.toNat = 65535) := by
  have hold := old.isLt
  rw [chksumSub]
  split_ifs <;> omega

theorem chksumAdd_spec (new : BitVec 16) (h0 : 0 ≤ x) (h1 : x ≤ 65535) :
    0 ≤ chksumAdd x new ∧ chksumAdd x new ≤ 65535 ∧
      (chksumAdd x new - (x + new.toNat)) % 65535 = 0 ∧
      (chksumAdd x new = 0 ↔ x = 0 ∧ new.toNat = 0) := by
  have hnew := new.isLt
  rw [chksumAdd]
  split_ifs <;> omega

def wordSum (ws : List (BitVec 16)) : Nat := (ws.map BitVec.toNat).sum

theorem foldl_chksumSub (olds : List (BitVec 16)) (h0 : 0 ≤ x) (h1 : x ≤ 65535) :
    0 ≤ olds.foldl chksumSub x ∧ olds.foldl chksumSub x ≤ 65535 ∧
      (olds.foldl chksumSub x - (x - wordSum olds)) % 65535 = 0 ∧
      (olds.foldl chksumSub x = 0 ↔ x = 0 ∧ ∀ w ∈ olds, w.toNat = 65535) := by
  induction olds generalizing x with
  | nil => simpa [wordSum] using ⟨h0,h1⟩
  | cons w olds ih =>
    obtain ⟨hs0,hs1,hmod,hzero⟩ := chksumSub_spec w h0 h1
    obtain ⟨hr0,hr1,hrmod,hrzero⟩ := ih hs0 hs1
    have hsum : wordSum (w :: olds) = w.toNat + wordSum olds := List.sum_cons
    rw [List.foldl_cons,hsum,hrzero,hzero,List.forall_mem_cons,and_assoc]
    exact ⟨hr0,hr1,by push_cast; omega,Iff.rfl⟩

theorem foldl_chksumAdd (news : List (BitVec 16)) (h0 : 0 ≤ x) (h1 : x ≤ 65535) :
    0 ≤ news.foldl chksumAdd x ∧ news.foldl chksumAdd x ≤ 65535 ∧
      (news.foldl chksumAdd x - (x + wordSum news)) % 65535 = 0 ∧
      (news.foldl chksumAdd x = 0 ↔ x = 0 ∧ wordSum news = 0) := by
  induction news generalizing x with
  | nil => simpa [wordSum] using ⟨h0,h1⟩
  | cons w news ih =>
    obtain ⟨hs0,hs1,hmod,hzero⟩ := chksumAdd_spec w h0 h1
    obtain ⟨hr0,hr1,hrmod,hrzero⟩ := ih hs0 hs1
    have hsum : wordSum (w :: news) = w.toNat + wordSum news := List.sum_cons
    rw [List.foldl_cons,hsum,hrzero,hzero]
    exact ⟨hr0,hr1,by push_cast; omega,by omega⟩

end Adjust

section Words

variable (chksum : BitVec 16) (olds news : List (BitVec 16))

-- The two representations of zero apart, the new field makes up for the change; which of them it
-- is, is told by the words taken out.
theorem natChksumAdjust_spec : ((natChksumAdjust chksum olds news).toNat + wordSum news) % 65535 =
      (chksum.toNat + wordSum olds) % 65535 ∧
    (wordSum news = 0 → (chksum.toNat + wordSum olds) % 65535 = 0 →
      ((natChksumAdjust chksum olds news).toNat = 0 ↔
        ¬(chksum.toNat = 65535 ∧ ∀ w ∈ olds, w.toNat = 65535))) := by
  have hstart : ((~~~ chksum).toNat : Int) = 65535 - chksum.toNat := by
    have hlt := chksum.isLt
    rw [BitVec.toNat_not]
    omega
  have hchk := chksum.isLt
  obtain ⟨hs0,hs1,hsmod,hszero⟩ := @foldl_chksumSub (~~~ chksum).toNat olds (by omega) (by omega)
  obtain ⟨hr0,hr1,hrmod,hrzero⟩ := foldl_chksumAdd news hs0 hs1
  have hvalue : ((natChksumAdjust chksum olds news).toNat : Int) =
      65535 - news.foldl chksumAdd (olds.foldl chksumSub (~~~ chksum).toNat) := by
    rw [natChksumAdjust,BitVec.toNat_not,BitVec.toNat_ofInt]
    omega
  generalize ((~~~ chksum).toNat : Int) = x at *
  subst hstart
  have hfull : (65535 - (chksum.toNat : Int) = 0 ∧ ∀ w ∈ olds, w.toNat = 65535) ↔
      chksum.toNat = 65535 ∧ ∀ w ∈ olds, w.toNat = 65535 := and_congr_left' (by omega)
  rw [hfull] at hszero
  refine ⟨by omega,fun hnew hsum => ?_⟩
  rw [← hszero]
  omega

theorem natChksumAdjust_natChksumAdjust (olds' news' : List (BitVec 16)) :
    (natChksumAdjust (natChksumAdjust chksum olds news) olds' news').toNat % 65535 =
      (natChksumAdjust chksum (olds ++ olds') (news ++ news')).toNat % 65535 := by
  have hfirst := (natChksumAdjust_spec chksum olds news).1
  have hsecond := (natChksumAdjust_spec (natChksumAdjust chksum olds news) olds' news').1
  have hboth := (natChksumAdjust_spec chksum (olds ++ olds') (news ++ news')).1
  have happ : ∀ ws vs, wordSum (ws ++ vs) = wordSum ws + wordSum vs := fun ws vs => by
    rw [wordSum,List.map_append,List.sum_append]
    rfl
  rw [happ,happ] at hboth
  omega

end Words

section Bytes

theorem pairs_toNat {data : List UInt8} (h : data.length % 2 = 0) :
    (pairs data).map BitVec.toNat = halfwords data := by
  induction data using halfwords.induct with
  | case1 hi lo data ih =>
    rw [List.length_cons,List.length_cons] at h
    have hhi := hi.toNat_lt
    have hlo := lo.toNat_lt
    rw [pairs,halfwords,List.map_cons,ih (by omega),BitVec.toNat_ofNat,Nat.mod_eq_of_lt (by omega)]
  | case2 x => exact absurd h (by simp)
  | case3 => rfl

theorem halfwords_sum_append {a : List UInt8} (h : a.length % 2 = 0) (b : List UInt8) :
    (halfwords (a ++ b)).sum = (halfwords a).sum + (halfwords b).sum := by
  rw [Inet.halfwords_append h,List.sum_append]

theorem Edit.string_sum (e : Edit) (chksum : BitVec 16) {region : List UInt8}
    (h : region.length % 2 = 0) : (halfwords (e.string chksum region)).sum =
      (halfwords e.rest).sum + chksum.toNat + wordSum (pairs region) := by
  have hfield : (octets chksum).length % 2 = 0 := by simp [octets]
  have hword : (halfwords (octets chksum)).sum = chksum.toNat := by
    have hocts := halfwords_octets chksum []
    rw [List.append_nil] at hocts
    rw [hocts]
    exact Nat.add_zero _
  have hhead := halfwords_sum_append e.head_even
  have hmiddle := halfwords_sum_append e.middle_even
  have hregion := halfwords_sum_append h
  have hoctets := halfwords_sum_append hfield
  rw [Edit.string,Edit.rest,wordSum,pairs_toNat h]
  split_ifs <;> simp only [hhead,hmiddle,hregion,hoctets,hword] <;> omega

theorem verifies_iff (data : List UInt8) :
    Verifies data ↔ (halfwords data).sum ≠ 0 ∧ (halfwords data).sum % 65535 = 0 := by
  rw [Verifies,onesSum_eq (halfwords_lt data),canon_eq_ones]

theorem halfwords_sum_eq_zero {data : List UInt8} :
    (halfwords data).sum = 0 ↔ ¬∃ b ∈ data, b ≠ 0 := by
  have hzero := @Inet.total_eq_zero data
  rw [Inet.total] at hzero
  rw [hzero]
  push Not
  exact forall₂_congr fun b _ => by rw [← UInt8.toNat_inj]; rfl

end Bytes

theorem natChksumAdjust_verifies_iff (e : Edit) (h : Verifies e.before) :
    (Verifies e.after ↔ (∃ b ∈ e.rest ++ e.new, b ≠ 0) ∨
      e.field.toNat = 65535 ∧ ∀ w ∈ pairs e.old, w.toNat = 65535) ∧
    ∀ (chksum : BitVec 16) (olds news olds' news' : List (BitVec 16)),
      (natChksumAdjust (natChksumAdjust chksum olds news) olds' news').toNat % 65535 =
        (natChksumAdjust chksum (olds ++ olds') (news ++ news')).toNat % 65535 := by
  refine ⟨?_,natChksumAdjust_natChksumAdjust⟩
  obtain ⟨hmod,hzero⟩ := natChksumAdjust_spec e.field (pairs e.old) (pairs e.new)
  have hrest := @halfwords_sum_eq_zero e.rest
  have hnew := @halfwords_sum_eq_zero e.new
  rw [verifies_iff,Edit.before,e.string_sum _ e.old_even] at h
  rw [verifies_iff,Edit.after,e.string_sum _ e.new_even]
  have hpairs : wordSum (pairs e.new) = (halfwords e.new).sum := by
    rw [wordSum,pairs_toNat e.new_even]
  have hbytes : (∃ b ∈ e.rest ++ e.new, b ≠ 0) ↔
      (halfwords e.rest).sum ≠ 0 ∨ (halfwords e.new).sum ≠ 0 := by
    rw [ne_eq,hrest,not_not,ne_eq,hnew,not_not]
    simp only [List.mem_append,or_and_right,exists_or]
  rw [hbytes]
  rcases Classical.em ((halfwords e.rest).sum ≠ 0 ∨ (halfwords e.new).sum ≠ 0) with hsome | hnone
  · exact iff_of_true ⟨by omega,by omega⟩ (Or.inl hsome)
  · -- Nothing but the field is left; the string verifies unless the field became 0 as well.
    have hnews : wordSum (pairs e.new) = 0 := by omega
    have hfull := not_congr (hzero hnews (by omega))
    rw [not_not] at hfull
    rw [or_iff_right hnone,← hfull]
    omega

theorem natChksumAdjust_verifies_port : Verifies (Edit.before ⟨0xfffd, [0, 1], [0, 9], [], [],
      [0, 1], true, rfl, rfl, rfl, rfl⟩) ∧ Verifies (Edit.after ⟨0xfffd, [0, 1], [0, 9], [], [],
      [0, 1], true, rfl, rfl, rfl, rfl⟩) :=
  ⟨by decide,(natChksumAdjust_verifies_iff _ (by decide)).1.mpr
    (Or.inl ⟨1,by decide,by decide⟩)⟩

theorem natChksumAdjust_zero : ¬∀ e : Edit, Verifies e.before → Verifies e.after := by
  intro hall
  have hzero := hall ⟨0xfffe, [0, 1], [0, 0], [], [], [], true, rfl, rfl, rfl, rfl⟩ (by decide)
  exact absurd hzero (by decide)

end ViewOS.Userfilter
