import Mathlib.Tactic.IntervalCases
import Mathlib.Data.BitVec

namespace ViewOS.Fat

inductive FatType where
  | fat12
  | fat16
  | fat32
  deriving DecidableEq, Repr

namespace FatType

def bits : FatType → Nat
  | fat12 => 12
  | fat16 => 16
  | fat32 => 28

end FatType

inductive Table where
  | fat12 (bytes : List (BitVec 8))
  | fat16 (words : List (BitVec 16))
  | fat32 (copies : List (List (BitVec 32)))
  deriving DecidableEq, Repr

def lowByte (val : BitVec 16) : BitVec 8 :=
  val.setWidth 8

def highByte (val : BitVec 16) : BitVec 8 :=
  (val >>> 8).setWidth 8

def word (lo hi : BitVec 8) : BitVec 16 :=
  lo.setWidth 16 ||| hi.setWidth 16 <<< 8

def evenEntry (lo hi : BitVec 8) : BitVec 16 :=
  word lo (hi &&& 0x0F)

def oddEntry (lo hi : BitVec 8) : BitVec 16 :=
  word (lo >>> 4 ||| hi <<< 4) (hi >>> 4)

def fat12ReadEntry (bytes : List (BitVec 8)) (n : Nat) : Option Nat :=
  bytes[3 * n / 2]?.bind fun lo => bytes[3 * n / 2 + 1]?.map fun hi =>
    (if n % 2 = 0 then evenEntry lo hi else oddEntry lo hi).toNat

def fat12WriteEntry (bytes : List (BitVec 8)) (n : Nat) (val : BitVec 16) :
    Option (List (BitVec 8)) :=
  bytes[3 * n / 2]?.bind fun lo => bytes[3 * n / 2 + 1]?.map fun hi =>
    if n % 2 = 0 then
      (bytes.set (3 * n / 2) (lowByte val)).set (3 * n / 2 + 1)
        (hi &&& 0xF0 ||| highByte val &&& 0x0F)
    else
      (bytes.set (3 * n / 2) (lo &&& 0x0F#8 ||| lowByte val <<< 4)).set (3 * n / 2 + 1)
        (highByte val <<< 4 ||| lowByte val >>> 4)

def fat16ReadEntry (words : List (BitVec 16)) (n : Nat) : Option Nat :=
  words[n]?.map BitVec.toNat

def fat16WriteEntry (words : List (BitVec 16)) (n : Nat) (val : BitVec 16) :
    Option (List (BitVec 16)) :=
  if n < words.length then some (words.set n val) else none

structure Layout where
  rsvdbytecnt : Nat
  fatsz : Nat

def fat32ClusterOff (l : Layout) (n fatNum : Nat) : Nat := l.rsvdbytecnt + fatNum * l.fatsz + n * 4

-- The result of lseek64 is kept in an int and refused when that is negative.
def seekOk (off : Nat) : Bool := off % 4294967296 < 2147483648

def fat32ReadEntry (l : Layout) (copies : List (List (BitVec 32))) (n fatNum : Nat) : Option Nat :=
  if seekOk (fat32ClusterOff l n fatNum) then
    copies[fatNum]?.bind fun copy => copy[n]?.map fun entry => (entry &&& 0x0FFFFFFF).toNat
  else none

def fat32WriteEntry (copy : List (BitVec 32)) (n : Nat) (val : BitVec 32) :
    Option (List (BitVec 32)) :=
  copy[n]?.map fun entry =>
    copy.set n (val &&& 0x0FFFFFFF ||| (entry &&& 0x0FFFFFFF) &&& 0xF0000000)

def fat32WritenEntry (l : Layout) (copies : List (List (BitVec 32))) (n : Nat) (val : BitVec 32) :
    Option (List (List (BitVec 32))) :=
  if ∀ i < copies.length, seekOk (fat32ClusterOff l n i) = true then
    copies.mapM fun copy => fat32WriteEntry copy n val
  else none

namespace Table

def fatReadEntry (l : Layout) : Table → Nat → Nat → Option Nat
  | fat12 bytes, n, _ => fat12ReadEntry bytes n
  | fat16 words, n, _ => fat16ReadEntry words n
  | fat32 copies, n, fatNum => fat32ReadEntry l copies n fatNum

def fatWritenEntry (l : Layout) : Table → Nat → Nat → Option Table
  | fat12 bytes, n, val => (fat12WriteEntry bytes n (.ofNat 16 val)).map fat12
  | fat16 words, n, val => (fat16WriteEntry words n (.ofNat 16 val)).map fat16
  | fat32 copies, n, val => (fat32WritenEntry l copies n (.ofNat 32 val)).map fat32

def type : Table → FatType
  | fat12 _ => .fat12
  | fat16 _ => .fat16
  | fat32 _ => .fat32

def Covers : Table → Nat → Prop
  | fat12 bytes, n => ∀ m < n, 3 * m / 2 + 1 < bytes.length
  | fat16 words, n => n ≤ words.length
  | fat32 copies, n => copies ≠ [] ∧ ∀ copy ∈ copies, n ≤ copy.length

instance : (t : Table) → (n : Nat) → Decidable (t.Covers n)
  | fat12 bytes, n => inferInstanceAs (Decidable (∀ m < n, 3 * m / 2 + 1 < bytes.length))
  | fat16 words, n => inferInstanceAs (Decidable (n ≤ words.length))
  | fat32 copies, n =>
    inferInstanceAs (Decidable (copies ≠ [] ∧ ∀ copy ∈ copies, n ≤ copy.length))

end Table

theorem evenEntry_write (hi : BitVec 8) (val : BitVec 16) :
    evenEntry (lowByte val) (hi &&& 0xF0 ||| highByte val &&& 0x0F) = val &&& 0x0FFF := by
  refine BitVec.eq_of_getLsbD_eq fun i hi => ?_
  interval_cases i <;> simp [evenEntry,word,highByte,lowByte]

theorem oddEntry_write (lo : BitVec 8) (val : BitVec 16) :
    oddEntry (lo &&& 0x0F#8 ||| lowByte val <<< 4) (highByte val <<< 4 ||| lowByte val >>> 4) =
      val &&& 0x0FFF := by
  refine BitVec.eq_of_getLsbD_eq fun i hi => ?_
  interval_cases i <;> simp [oddEntry,word,highByte,lowByte]

theorem oddEntry_low (lo hi x : BitVec 8) :
    oddEntry (lo &&& 0xF0 ||| x &&& 0x0F) hi = oddEntry lo hi := by
  refine BitVec.eq_of_getLsbD_eq fun i hi => ?_
  interval_cases i <;> simp [oddEntry,word]

theorem evenEntry_high (lo hi x : BitVec 8) :
    evenEntry lo (hi &&& 0x0F#8 ||| x <<< 4) = evenEntry lo hi := by
  refine BitVec.eq_of_getLsbD_eq fun i hi => ?_
  interval_cases i <;> simp [evenEntry,word]

theorem toNat_and_low (val : Nat) : (BitVec.ofNat 16 val &&& 0x0FFF).toNat = val % 2 ^ 12 := by
  rw [BitVec.toNat_and,BitVec.toNat_ofNat]
  change val % 2 ^ 16 &&& 2 ^ 12 - 1 = _
  rw [Nat.and_two_pow_sub_one_eq_mod,Nat.mod_mod_of_dvd _ (by decide)]

theorem fat12_read_write {bytes bytes' : List (BitVec 8)} {n val : Nat}
    (h : fat12WriteEntry bytes n (.ofNat 16 val) = some bytes') (m : Nat) :
    fat12ReadEntry bytes' m = if m = n then some (val % 2 ^ 12) else fat12ReadEntry bytes m := by
  obtain ⟨lo,hlo,h⟩ := Option.bind_eq_some_iff.mp h
  obtain ⟨hi,hhi,rfl⟩ := Option.map_eq_some_iff.mp h
  have hlt := (List.getElem?_eq_some_iff.mp hhi).1
  rcases eq_or_ne m n with rfl | hmn
  · rw [if_pos rfl]
    split
    · next hm =>
        simp only [fat12ReadEntry,if_pos hm]
        rw [List.getElem?_set_ne (by omega),List.getElem?_set_self (by omega),
          List.getElem?_set_self (by simpa using hlt),Option.bind_some,Option.map_some,
          evenEntry_write,toNat_and_low]
    · next hm =>
        simp only [fat12ReadEntry,if_neg hm]
        rw [List.getElem?_set_ne (by omega),List.getElem?_set_self (by omega),
          List.getElem?_set_self (by simpa using hlt),Option.bind_some,Option.map_some,
          oddEntry_write,toNat_and_low]
  · rw [if_neg hmn]
    split
    · next hn =>
        rcases eq_or_ne m (n + 1) with rfl | hm
        · have hidx : 3 * (n + 1) / 2 = 3 * n / 2 + 1 := by omega
          simp only [fat12ReadEntry,if_neg (show ¬(n + 1) % 2 = 0 by omega),hidx,hhi]
          rw [List.getElem?_set_self (by simpa using hlt),List.getElem?_set_ne (by omega),
            List.getElem?_set_ne (by omega),Option.bind_some,Option.bind_some]
          simp only [oddEntry_low]
        · simp only [fat12ReadEntry]
          rw [List.getElem?_set_ne (by omega),List.getElem?_set_ne (by omega),
            List.getElem?_set_ne (by omega),List.getElem?_set_ne (by omega)]
    · next hn =>
        rcases eq_or_ne (m + 1) n with rfl | hm
        · have hidx : 3 * (m + 1) / 2 = 3 * m / 2 + 1 := by omega
          simp only [fat12ReadEntry,if_pos (show m % 2 = 0 by omega),hidx] at hlo ⊢
          rw [List.getElem?_set_ne (by omega),List.getElem?_set_ne (by omega),
            List.getElem?_set_ne (by omega),
            List.getElem?_set_self (List.getElem?_eq_some_iff.mp hlo).1,hlo]
          simp only [Option.map_some,evenEntry_high]
        · simp only [fat12ReadEntry]
          rw [List.getElem?_set_ne (by omega),List.getElem?_set_ne (by omega),
            List.getElem?_set_ne (by omega),List.getElem?_set_ne (by omega)]

theorem fat16_read_write {words words' : List (BitVec 16)} {n val : Nat}
    (h : fat16WriteEntry words n (.ofNat 16 val) = some words') (m : Nat) :
    fat16ReadEntry words' m = if m = n then some (val % 2 ^ 16) else fat16ReadEntry words m := by
  rw [fat16WriteEntry] at h
  split at h
  · next hn =>
      obtain rfl := Option.some.inj h
      rw [fat16ReadEntry,fat16ReadEntry]
      split
      · next hm => rw [hm,List.getElem?_set_self hn,Option.map_some,BitVec.toNat_ofNat]
      · next hm => rw [List.getElem?_set_ne (Ne.symm hm)]
  · cases h

theorem toNat_and_entry (val : Nat) (entry : BitVec 32) :
    ((BitVec.ofNat 32 val &&& 0x0FFFFFFF ||| (entry &&& 0x0FFFFFFF) &&& 0xF0000000) &&&
      0x0FFFFFFF).toNat = val % 2 ^ 28 := by
  have hbits : (BitVec.ofNat 32 val &&& 0x0FFFFFFF ||| (entry &&& 0x0FFFFFFF) &&& 0xF0000000) &&&
      0x0FFFFFFF = BitVec.ofNat 32 val &&& 0x0FFFFFFF := by
    rw [BitVec.and_assoc entry]
    change (_ ||| entry &&& 0#32) &&& _ = _
    rw [BitVec.and_zero,BitVec.or_zero,BitVec.and_assoc]
    rfl
  rw [hbits,BitVec.toNat_and,BitVec.toNat_ofNat]
  change val % 2 ^ 32 &&& 2 ^ 28 - 1 = _
  rw [Nat.and_two_pow_sub_one_eq_mod,Nat.mod_mod_of_dvd _ (by decide)]

theorem mapM_getElem? {α β : Type*} {f : α → Option β} {l : List α} {l' : List β}
    (h : l.mapM f = some l') (k : Nat) : l'[k]? = l[k]?.bind f := by
  induction l generalizing l' k with
  | nil =>
    obtain rfl : l' = [] := by simpa using h.symm
    rfl
  | cons a l ih =>
    rw [List.mapM_cons] at h
    obtain ⟨b,hb,h⟩ := Option.bind_eq_some_iff.mp h
    obtain ⟨r,hr,h⟩ := Option.bind_eq_some_iff.mp h
    obtain rfl := Option.some.inj h
    cases k with
    | zero => simpa using hb.symm
    | succ k => simpa using ih hr k

theorem mapM_isSome {α β : Type*} {f : α → Option β} {l : List α}
    (h : ∀ a ∈ l, (f a).isSome = true) : ∃ l', l.mapM f = some l' := by
  induction l with
  | nil => exact ⟨[],rfl⟩
  | cons a l ih =>
    obtain ⟨b,hb⟩ := Option.isSome_iff_exists.mp (h a List.mem_cons_self)
    obtain ⟨l',hl'⟩ := ih fun a ha => h a (List.mem_cons_of_mem _ ha)
    exact ⟨b :: l',by simp [List.mapM_cons,hb,hl']⟩

end ViewOS.Fat
