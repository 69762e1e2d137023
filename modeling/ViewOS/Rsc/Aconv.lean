import Mathlib.Algebra.Order.Group.MinMax
import Mathlib.Data.List.Basic
import ViewOS.Lib.ByteOrder

namespace ViewOS.Rsc.Aconv

open ByteOrder

inductive Arch where
  | x86
  | x86_64
  | ppc
  | ppc_64
  deriving DecidableEq

def Arch.endian : Arch → Endian
  | .x86 => .little
  | .x86_64 => .little
  | .ppc => .big
  | .ppc_64 => .big

def Arch.size : Arch → Nat
  | .x86 => 4
  | .x86_64 => 8
  | .ppc => 4
  | .ppc_64 => 8

def bswap32 (x : Nat) : Nat :=
  (x &&& 0xff000000) >>> 24 ||| (x &&& 0x00ff0000) >>> 8 |||
    (x &&& 0x0000ff00) <<< 8 ||| (x &&& 0x000000ff) <<< 24

def bswap64 (x : Nat) : Nat :=
  (x &&& 0xff00000000000000) >>> 56 ||| (x &&& 0x00ff000000000000) >>> 40 |||
    (x &&& 0x0000ff0000000000) >>> 24 ||| (x &&& 0x000000ff00000000) >>> 8 |||
    (x &&& 0x00000000ff000000) <<< 8 ||| (x &&& 0x0000000000ff0000) <<< 24 |||
    (x &&& 0x000000000000ff00) <<< 40 ||| (x &&& 0x00000000000000ff) <<< 56

def bswap (n x : Nat) : Nat := if n = 4 then bswap32 x else bswap64 x

inductive Result (A : Type) where
  | unnec
  | error
  | ok (out : A)

inductive Sign where
  | signed
  | unsigned

def value : Sign → Nat → Nat → Int
  | .signed, n, x => if x < 256 ^ n / 2 then x else x - 256 ^ n
  | .unsigned, _, x => x

def word (n : Nat) (i : Int) : Nat := (i % 256 ^ n).toNat

def least : Sign → Nat → Int
  | .signed, n => -(256 ^ n / 2)
  | .unsigned, _ => 0

def greatest : Sign → Nat → Int
  | .signed, n => 256 ^ n / 2 - 1
  | .unsigned, n => 256 ^ n - 1

-- The words that are written for a long of the other size, by the endianness of the host.
def lowWord (l : List Byte) : Endian → Nat
  | .big => load .big l &&& 0x00000000ffffffff
  | .little => load .little (l.take 4)

def widenLong (e : Endian) (l : List Byte) : Nat := word 8 (value .signed 4 (load e l))

def narrowLong (e : Endian) (l : List Byte) : Nat :=
  if value .signed 8 (load e l) > 2147483647 then word 4 2147483647
  else if value .signed 8 (load e l) < -2147483648 then word 4 (-2147483648)
  else lowWord l e

def widenULong (e : Endian) (l : List Byte) : Nat := load e l

def narrowULong (e : Endian) (l : List Byte) : Nat :=
  if load e l > 4294967295 then 4294967295 else lowWord l e

def bnConv (src dst : Arch) (n : Nat) (bytes : List Byte) : List Byte :=
  if src.endian ≠ dst.endian then store src.endian n (bswap n (load src.endian bytes)) else bytes

-- p is false for NULL; the host has the architecture src.
def aconvWith (widen narrow : Endian → List Byte → Nat) (l : List Byte) (src dst : Arch) (p : Bool) :
    Result (List Byte) :=
  if src = dst then .unnec
  else if src.size ≠ dst.size then
    if p = false then .error
    else if src.size = 4 then .ok (bnConv src dst 8 (store src.endian 8 (widen src.endian l)))
    else .ok (bnConv src dst 4 (store src.endian 4 (narrow src.endian l)))
  else .ok (bnConv src dst src.size l)

def aconvLong := aconvWith widenLong narrowLong

def aconvULong := aconvWith widenULong narrowULong

def aconv : Sign → List Byte → Arch → Arch → Bool → Result (List Byte)
  | .signed => aconvLong
  | .unsigned => aconvULong

def aconvLongSize (host : Nat) (src dst : Arch) : Nat :=
  if src.size = dst.size then host else if src.size = 4 ∧ dst.size = 8 then 8 else 4

def writeResult (m : Nat → Byte) (a : Nat) : Result (List Byte) → Nat → Byte
  | .ok out => writeAt m a out
  | _ => m

def aconvArray (host : Arch) (a : Nat → Byte) (src dst : Arch) (elnum : Nat)
    (p : Option (Nat → Byte)) (fn : List Byte → Arch → Arch → Bool → Result (List Byte)) :
    Result (Nat → Byte) :=
  let fromSize := aconvLongSize host.size dst src
  let toSize := aconvLongSize host.size src dst
  if src = dst then .unnec
  else match p with
    | some mem => .ok ((List.range elnum).foldl (fun mem i =>
        writeResult mem (toSize * i) (fn (readAt a (fromSize * i) host.size) src dst true)) mem)
    | none => .ok ((List.range elnum).foldl (fun a i =>
        writeResult a (toSize * i) (fn (readAt a (toSize * i) host.size) src dst false)) a)

structure CLong (a : Arch) where
  bytes : List Byte
  length_eq : bytes.length = a.size

def CLong.value (s : Sign) {a : Arch} (l : CLong a) : Int :=
  Aconv.value s a.size (load a.endian l.bytes)

def saturate (s : Sign) (n : Nat) (i : Int) : Int := max (least s n) (min (greatest s n) i)

theorem and_byte (x k : Nat) : x &&& (255 * 2 ^ k) = x / 2 ^ k % 256 * 2 ^ k := by
  apply Nat.eq_of_testBit_eq
  intro i
  have h255 : (255 : Nat) = 2 ^ 8 - 1 := rfl
  have h256 : (256 : Nat) = 2 ^ 8 := rfl
  rw [h255,h256]
  simp only [Nat.testBit_and,Nat.testBit_mul_two_pow,Nat.testBit_two_pow_sub_one,
    Nat.testBit_mod_two_pow,Nat.testBit_div_two_pow]
  rcases Nat.lt_or_ge i k with hlt | hge
  · simp [Nat.not_le.mpr hlt]
  · simp [hge,Bool.and_comm]

theorem or_byte {x y k : Nat} (h : x < 2 ^ k) (hy : y < 256) :
    x ||| y * 2 ^ k = x + y * 2 ^ k ∧ x + y * 2 ^ k < 2 ^ (k + 8) := by
  constructor
  · rw [Nat.or_comm,Nat.mul_comm,← Nat.two_pow_add_eq_or_of_lt h,Nat.add_comm]
  · have hmul : y * 2 ^ k ≤ 255 * 2 ^ k := Nat.mul_le_mul_right _ (Nat.le_of_lt_succ hy)
    rw [Nat.pow_add]
    omega

-- The bytes of l shifted into place over acc, the first one to bit k.
def orBytes : List Byte → Nat → Nat → Nat
  | [], acc, _ => acc
  | b :: l, acc, k => orBytes l (acc ||| b.val * 2 ^ k) (k + 8)

theorem orBytes_eq (l : List Byte) {acc k : Nat} (h : acc < 2 ^ k) :
    orBytes l acc k = acc + 2 ^ k * decLE l := by
  induction l generalizing acc k with
  | nil => simp [orBytes,decLE]
  | cons b l ih =>
    obtain ⟨hor,hlt⟩ := or_byte h b.isLt
    rw [orBytes,hor,ih hlt,decLE,Nat.pow_add]
    grind

theorem byte_shiftRight (x k j : Nat) (h : j ≤ k) :
    (x &&& (255 * 2 ^ k)) >>> j = x / 2 ^ k % 256 * 2 ^ (k - j) := by
  rw [and_byte,Nat.shiftRight_eq_div_pow,Nat.mul_div_assoc _ (Nat.pow_dvd_pow 2 h),
    Nat.pow_div h (by decide)]

theorem byte_shiftLeft (x k j : Nat) :
    (x &&& (255 * 2 ^ k)) <<< j = x / 2 ^ k % 256 * 2 ^ (k + j) := by
  rw [and_byte,Nat.shiftLeft_eq,Nat.mul_assoc,Nat.pow_add]

theorem bswap32_eq (x : Nat) : bswap32 x = decLE (encLE 4 x).reverse := by
  have h3 : (x &&& 0xff000000) >>> 24 = x / 2 ^ 24 % 256 * 2 ^ 0 :=
    byte_shiftRight x 24 24 (by decide)
  have h2 : (x &&& 0x00ff0000) >>> 8 = x / 2 ^ 16 % 256 * 2 ^ 8 :=
    byte_shiftRight x 16 8 (by decide)
  have h1 : (x &&& 0x0000ff00) <<< 8 = x / 2 ^ 8 % 256 * 2 ^ 16 := byte_shiftLeft x 8 8
  have h0 : (x &&& 0x000000ff) <<< 24 = x / 2 ^ 0 % 256 * 2 ^ 24 := byte_shiftLeft x 0 24
  have hor := orBytes_eq (encLE 4 x).reverse (Nat.two_pow_pos 0)
  rw [bswap32,h0,h1,h2,h3]
  simpa [encLE,orBytes,Nat.div_div_eq_div_mul] using hor

theorem bswap64_eq (x : Nat) : bswap64 x = decLE (encLE 8 x).reverse := by
  have h7 : (x &&& 0xff00000000000000) >>> 56 = x / 2 ^ 56 % 256 * 2 ^ 0 :=
    byte_shiftRight x 56 56 (by decide)
  have h6 : (x &&& 0x00ff000000000000) >>> 40 = x / 2 ^ 48 % 256 * 2 ^ 8 :=
    byte_shiftRight x 48 40 (by decide)
  have h5 : (x &&& 0x0000ff0000000000) >>> 24 = x / 2 ^ 40 % 256 * 2 ^ 16 :=
    byte_shiftRight x 40 24 (by decide)
  have h4 : (x &&& 0x000000ff00000000) >>> 8 = x / 2 ^ 32 % 256 * 2 ^ 24 :=
    byte_shiftRight x 32 8 (by decide)
  have h3 : (x &&& 0x00000000ff000000) <<< 8 = x / 2 ^ 24 % 256 * 2 ^ 32 := byte_shiftLeft x 24 8
  have h2 : (x &&& 0x0000000000ff0000) <<< 24 = x / 2 ^ 16 % 256 * 2 ^ 40 := byte_shiftLeft x 16 24
  have h1 : (x &&& 0x000000000000ff00) <<< 40 = x / 2 ^ 8 % 256 * 2 ^ 48 := byte_shiftLeft x 8 40
  have h0 : (x &&& 0x00000000000000ff) <<< 56 = x / 2 ^ 0 % 256 * 2 ^ 56 := byte_shiftLeft x 0 56
  have hor := orBytes_eq (encLE 8 x).reverse (Nat.two_pow_pos 0)
  rw [bswap64,h0,h1,h2,h3,h4,h5,h6,h7]
  simpa [encLE,orBytes,Nat.div_div_eq_div_mul] using hor

theorem encLE_bswap {n : Nat} (hn : n = 4 ∨ n = 8) (x : Nat) :
    encLE n (bswap n x) = (encLE n x).reverse := by
  have heq : bswap n x = decLE (encLE n x).reverse := by
    rcases hn with rfl | rfl
    · exact bswap32_eq x
    · exact bswap64_eq x
  have hrev := encLE_decLE (encLE n x).reverse
  rwa [List.length_reverse,length_encLE,← heq] at hrev

section Word

variable {s : Sign} {n x y : Nat} {i : Int} {e : Endian} {l : List Byte} {src dst : Arch}

theorem Arch.size_cases (a : Arch) : a.size = 4 ∨ a.size = 8 := by
  cases a with
  | x86 => exact Or.inl rfl
  | x86_64 => exact Or.inr rfl
  | ppc => exact Or.inl rfl
  | ppc_64 => exact Or.inr rfl

theorem Arch.size_pos (a : Arch) : 0 < a.size := by
  rcases a.size_cases with h | h
  · omega
  · omega

theorem bnConv_store (hn : n = 4 ∨ n = 8) (hx : x < 256 ^ n) :
    bnConv src dst n (store src.endian n x) = store dst.endian n x := by
  rw [bnConv,load_store hx]
  split
  · rename_i hne
    cases hs : src.endian with
    | little =>
      cases hd : dst.endian with
      | little => exact absurd (hs.trans hd.symm) hne
      | big => exact encLE_bswap hn x
    | big =>
      cases hd : dst.endian with
      | little =>
        simp only [store]
        rw [encLE_bswap hn x,List.reverse_reverse]
      | big => exact absurd (hs.trans hd.symm) hne
  · rename_i heq
    rw [not_not.mp heq]

theorem pow_half (hn : 0 < n) : ∃ m : Nat, 256 ^ n = 2 * m ∧ (256 : Int) ^ n = 2 * m := by
  obtain ⟨k,rfl⟩ := Nat.exists_eq_succ_of_ne_zero (Nat.pos_iff_ne_zero.mp hn)
  refine ⟨128 * 256 ^ k,?_,?_⟩
  · rw [Nat.pow_succ]
    omega
  · rw [pow_succ]
    push_cast
    omega

theorem value_range (hn : 0 < n) (hx : x < 256 ^ n) :
    least s n ≤ value s n x ∧ value s n x ≤ greatest s n := by
  obtain ⟨m,hm,hm'⟩ := pow_half hn
  rw [hm] at hx
  cases s with
  | signed =>
    simp only [least,greatest,value,hm,hm']
    split
    · omega
    · omega
  | unsigned =>
    simp only [least,greatest,value,hm']
    omega

theorem value_inj (hn : 0 < n) (hx : x < 256 ^ n) (hy : y < 256 ^ n)
    (h : value s n x = value s n y) : x = y := by
  obtain ⟨m,hm,hm'⟩ := pow_half hn
  rw [hm] at hx hy
  cases s with
  | unsigned => exact Int.ofNat.inj h
  | signed =>
    simp only [value,hm,hm'] at h
    split at h
    · split at h
      · omega
      · omega
    · split at h
      · omega
      · omega

theorem value_word (hn : 0 < n) (h₁ : least .signed n ≤ i) (h₂ : i ≤ greatest .signed n) :
    word n i < 256 ^ n ∧ value .signed n (word n i) = i := by
  obtain ⟨m,hm,hm'⟩ := pow_half hn
  simp only [least,greatest,hm'] at h₁ h₂
  have hi : -(m : Int) ≤ i ∧ i < m := by omega
  -- The remainder of i is i itself, or i above the upper half.
  have hw : word n i = (if 0 ≤ i then i else i + 2 * m).toNat := by
    rw [word,hm']
    split
    · rw [Int.emod_eq_of_lt (by omega) (by omega)]
    · rw [← Int.add_emod_right,Int.emod_eq_of_lt (by omega) (by omega)]
  rw [hw]
  simp only [value,hm,hm']
  split
  · constructor
    · omega
    · split
      · omega
      · omega
  · constructor
    · omega
    · split
      · omega
      · omega

theorem saturate_of_range (h₁ : least s n ≤ i) (h₂ : i ≤ greatest s n) : saturate s n i = i := by
  rw [saturate,min_eq_right h₂,max_eq_right h₁]

theorem lowWord_eq (e : Endian) (l : List Byte) : lowWord l e = load e l % 256 ^ 4 := by
  cases e with
  | little => exact decLE_take l 4
  | big => exact Nat.and_two_pow_sub_one_eq_mod _ 32

structure Converts (s : Sign) (widen narrow : Endian → List Byte → Nat) : Prop where
  widen_lt : ∀ e l, l.length = 4 → widen e l < 256 ^ 8
  value_widen : ∀ e l, l.length = 4 → value s 8 (widen e l) = saturate s 8 (value s 4 (load e l))
  narrow_lt : ∀ e l, l.length = 8 → narrow e l < 256 ^ 4
  value_narrow : ∀ e l, l.length = 8 →
    value s 4 (narrow e l) = saturate s 4 (value s 8 (load e l))

theorem widenLong_spec (hl : l.length = 4) : widenLong e l < 256 ^ 8 ∧
    value .signed 8 (widenLong e l) = saturate .signed 8 (value .signed 4 (load e l)) := by
  have hlt : load e l < 256 ^ 4 := hl ▸ load_lt e l
  obtain ⟨h₁,h₂⟩ := value_range (s := .signed) (by decide) hlt
  have h₁' : least .signed 8 ≤ value .signed 4 (load e l) := by
    simp only [least] at h₁ ⊢
    omega
  have h₂' : value .signed 4 (load e l) ≤ greatest .signed 8 := by
    simp only [greatest] at h₂ ⊢
    omega
  rw [saturate_of_range h₁' h₂']
  exact value_word (by decide) h₁' h₂'

theorem narrowLong_spec (hl : l.length = 8) : narrowLong e l < 256 ^ 4 ∧
    value .signed 4 (narrowLong e l) = saturate .signed 4 (value .signed 8 (load e l)) := by
  have hlt : load e l < 256 ^ 8 := hl ▸ load_lt e l
  rw [narrowLong,lowWord_eq]
  split
  · refine ⟨by decide,?_⟩
    have hmax : value .signed 4 (word 4 2147483647) = 2147483647 := by decide
    rw [hmax]
    simp only [saturate,least,greatest]
    omega
  · split
    · refine ⟨by decide,?_⟩
      have hmin : value .signed 4 (word 4 (-2147483648)) = -2147483648 := by decide
      rw [hmin]
      simp only [saturate,least,greatest]
      omega
    · rename_i h₁ h₂
      refine ⟨by omega,?_⟩
      rw [saturate_of_range (by simp only [least]; omega) (by simp only [greatest]; omega)]
      simp only [value] at h₁ h₂ ⊢
      generalize load e l = x at *
      split
      · split
        · omega
        · omega
      · split
        · omega
        · omega

theorem converts_long : Converts .signed widenLong narrowLong :=
  ⟨fun _ _ hl => (widenLong_spec hl).1,fun _ _ hl => (widenLong_spec hl).2,
    fun _ _ hl => (narrowLong_spec hl).1,fun _ _ hl => (narrowLong_spec hl).2⟩

theorem converts_ulong : Converts .unsigned widenULong narrowULong := by
  refine ⟨fun e l hl => ?_,fun e l hl => ?_,fun e l hl => ?_,fun e l hl => ?_⟩
  · have h := load_lt e l
    rw [hl] at h
    rw [widenULong]
    omega
  · have h := load_lt e l
    rw [hl] at h
    rw [saturate_of_range]
    · rfl
    · simp only [least,value]
      omega
    · simp only [greatest,value]
      omega
  · rw [narrowULong,lowWord_eq]
    split
    · decide
    · omega
  · rw [narrowULong,lowWord_eq]
    simp only [saturate,least,greatest,value]
    split
    · omega
    · omega

theorem aconvWith_ok {widen narrow : Endian → List Byte → Nat} (hc : Converts s widen narrow)
    (l : CLong src) (hne : src ≠ dst) {p : Bool} (hp : p = true ∨ src.size = dst.size) :
    ∃ out : CLong dst, aconvWith widen narrow l.bytes src dst p = .ok out.bytes ∧
      out.value s = saturate s dst.size (l.value s) := by
  have hout {x : Nat} (hx : x < 256 ^ dst.size)
      (hval : value s dst.size x = saturate s dst.size (l.value s)) :
      ∃ out : CLong dst, store dst.endian dst.size x = out.bytes ∧
        out.value s = saturate s dst.size (l.value s) :=
    ⟨⟨store dst.endian dst.size x,length_store ..⟩,rfl,by rw [CLong.value,load_store hx,hval]⟩
  rw [aconvWith,if_neg hne]
  rcases eq_or_ne src.size dst.size with heq | hsize
  · have hx : load src.endian l.bytes < 256 ^ dst.size :=
      heq ▸ l.length_eq ▸ load_lt src.endian l.bytes
    have hrange := value_range (s := s) dst.size_pos hx
    have hbytes : store src.endian dst.size (load src.endian l.bytes) = l.bytes := by
      rw [← heq,← l.length_eq]
      exact store_load _ _
    rw [if_neg (not_not.mpr heq),heq]
    obtain ⟨out,hb,hv⟩ := hout hx (by
      rw [CLong.value,heq,saturate_of_range hrange.1 hrange.2])
    refine ⟨out,?_,hv⟩
    rw [← hb,← @bnConv_store _ _ src dst dst.size_cases hx,hbytes]
  · rw [if_pos hsize,if_neg (by simp [hp.resolve_right hsize])]
    rcases src.size_cases with hsrc | hsrc
    · have hdst : dst.size = 8 := dst.size_cases.resolve_left fun h => hsize (hsrc.trans h.symm)
      have hlen := l.length_eq.trans hsrc
      rw [if_pos hsrc,bnConv_store (Or.inr rfl) (hc.widen_lt _ _ hlen),← hdst]
      obtain ⟨out,hb,hv⟩ := hout (hdst ▸ hc.widen_lt src.endian l.bytes hlen) (by
        rw [CLong.value,hsrc,hdst]
        exact hc.value_widen _ _ hlen)
      exact ⟨out,congrArg _ hb,hv⟩
    · have hdst : dst.size = 4 := dst.size_cases.resolve_right fun h => hsize (hsrc.trans h.symm)
      have hlen := l.length_eq.trans hsrc
      rw [if_neg (by omega),bnConv_store (Or.inl rfl) (hc.narrow_lt _ _ hlen),← hdst]
      obtain ⟨out,hb,hv⟩ := hout (hdst ▸ hc.narrow_lt src.endian l.bytes hlen) (by
        rw [CLong.value,hsrc,hdst]
        exact hc.value_narrow _ _ hlen)
      exact ⟨out,congrArg _ hb,hv⟩

theorem aconv_ok (s : Sign) (l : CLong src) (hne : src ≠ dst) {p : Bool}
    (hp : p = true ∨ src.size = dst.size) : ∃ out : CLong dst,
      aconv s l.bytes src dst p = .ok out.bytes ∧
        out.value s = saturate s dst.size (l.value s) := by
  cases s with
  | signed => exact aconvWith_ok converts_long l hne hp
  | unsigned => exact aconvWith_ok converts_ulong l hne hp

theorem CLong.ext_value {l l' : CLong src} (h : l.value s = l'.value s) : l.bytes = l'.bytes := by
  have hload := value_inj src.size_pos (l.length_eq ▸ load_lt src.endian l.bytes)
    (l'.length_eq ▸ load_lt src.endian l'.bytes) h
  rw [← store_load src.endian l.bytes,hload,l.length_eq,← l'.length_eq,store_load]

theorem CLong.saturate_value (l : CLong src) : saturate s src.size (l.value s) = l.value s := by
  have hrange := value_range (s := s) src.size_pos (l.length_eq ▸ load_lt src.endian l.bytes)
  exact saturate_of_range hrange.1 hrange.2

theorem aconv_back {l : CLong src} {out : CLong dst} (hne : src ≠ dst)
    (hout : out.value s = l.value s) {p : Bool} (hp : p = true ∨ src.size = dst.size) :
    aconv s out.bytes dst src p = .ok l.bytes := by
  obtain ⟨l',hl',hv⟩ := aconv_ok s out hne.symm (hp.imp_right Eq.symm)
  rw [hout,l.saturate_value] at hv
  rw [hl',CLong.ext_value hv]

theorem aconvLongSize_to (src dst : Arch) : aconvLongSize src.size src dst = dst.size := by
  cases src <;> cases dst <;> rfl

theorem aconvLongSize_from (src dst : Arch) : aconvLongSize src.size dst src = src.size := by
  cases src <;> cases dst <;> rfl

end Word

section Array

variable {k elnum : Nat} {out : Nat → List Byte} {mem : Nat → Byte}

theorem foldl_writes (hk : ∀ i, (out i).length = k) (elnum : Nat) (mem : Nat → Byte) :
    (∀ i < elnum, readAt ((List.range elnum).foldl (fun mem i => writeAt mem (k * i) (out i)) mem)
      (k * i) k = out i) ∧
    ∀ j, k * elnum ≤ j →
      (List.range elnum).foldl (fun mem i => writeAt mem (k * i) (out i)) mem j = mem j := by
  induction elnum with
  | zero => exact ⟨fun i hi => absurd hi (Nat.not_lt_zero i),fun _ _ => rfl⟩
  | succ n ih =>
    rw [List.range_succ,List.foldl_append,List.foldl_cons,List.foldl_nil]
    refine ⟨fun i hi => ?_,fun j hj => ?_⟩
    · rcases Nat.lt_succ_iff_lt_or_eq.mp hi with hlt | rfl
      · have hle : k * i + k ≤ k * n := Nat.mul_le_mul_left k hlt
        rw [readAt_writeAt_of_disjoint (Or.inl hle)]
        exact ih.1 i hlt
      · have hread := @readAt_writeAt (k * i) (out i)
        rw [hk] at hread
        exact hread
    · have hj' : k * n + k ≤ j := hj
      rw [writeAt_of_disjoint (Or.inr ((hk n).symm ▸ hj'))]
      exact ih.2 j (Nat.le_trans (Nat.le_add_right _ _) hj')

theorem foldl_in_place {fn : List Byte → List Byte} (hk : ∀ l, l.length = k → (fn l).length = k)
    (elnum : Nat) (mem : Nat → Byte) :
    (List.range elnum).foldl (fun mem i => writeAt mem (k * i) (fn (readAt mem (k * i) k))) mem =
      (List.range elnum).foldl (fun m i => writeAt m (k * i) (fn (readAt mem (k * i) k))) mem := by
  induction elnum with
  | zero => rfl
  | succ n ih =>
    have hframe := (foldl_writes (fun i => hk (readAt mem (k * i) k) (length_readAt ..)) n mem).2
    simp only [List.range_succ,List.foldl_append,List.foldl_cons,List.foldl_nil]
    rw [ih]
    congr 2
    exact List.map_congr_left fun j _ => hframe _ (Nat.le_add_right _ _)

end Array

def convBytes (s : Sign) (src dst : Arch) (p : Bool) (l : List Byte) : List Byte :=
  match aconv s l src dst p with
  | .ok out => out
  | _ => []

section Elements

variable {s : Sign} {src dst : Arch} {p : Bool} {l : List Byte}

theorem convBytes_spec (hne : src ≠ dst) (hp : p = true ∨ src.size = dst.size)
    (hl : l.length = src.size) : aconv s l src dst p = .ok (convBytes s src dst p l) ∧
      (convBytes s src dst p l).length = dst.size := by
  obtain ⟨out,hout,-⟩ := aconv_ok s ⟨l,hl⟩ hne hp
  have hbytes : convBytes s src dst p l = out.bytes := by
    simp only [convBytes]
    rw [hout]
  rw [hbytes]
  exact ⟨hout,out.length_eq⟩

theorem aconvArray_some (s : Sign) (hne : src ≠ dst) (a mem : Nat → Byte) (elnum : Nat) :
    aconvArray src a src dst elnum (some mem) (aconv s) = .ok ((List.range elnum).foldl
      (fun mem i => writeAt mem (dst.size * i)
        (convBytes s src dst true (readAt a (src.size * i) src.size))) mem) := by
  simp only [aconvArray,if_neg hne,aconvLongSize_to,aconvLongSize_from]
  congr 2
  funext m i
  rw [(convBytes_spec hne (Or.inl rfl) (length_readAt ..)).1]
  rfl

theorem aconvArray_none (s : Sign) (hne : src ≠ dst) (hsize : src.size = dst.size)
    (a : Nat → Byte) (elnum : Nat) :
    aconvArray src a src dst elnum none (aconv s) = .ok ((List.range elnum).foldl
      (fun mem i => writeAt mem (dst.size * i)
        (convBytes s src dst false (readAt a (dst.size * i) dst.size))) a) := by
  have hlen (l : List Byte) (hl : l.length = dst.size) :
      (convBytes s src dst false l).length = dst.size :=
    (convBytes_spec hne (Or.inr hsize) (hl.trans hsize.symm)).2
  rw [← foldl_in_place hlen]
  simp only [aconvArray,if_neg hne,aconvLongSize_to]
  congr 2
  funext m i
  rw [(convBytes_spec hne (Or.inr hsize) (length_readAt ..)).1,hsize]
  rfl

theorem aconv_in_place (s : Sign) (hsize : src.size ≠ dst.size) (l : List Byte) :
    aconv s l src dst false = .error := by
  have hne : src ≠ dst := fun heq => hsize (congrArg Arch.size heq)
  cases s with
  | signed => simp [aconv,aconvLong,aconvWith,hne,hsize]
  | unsigned => simp [aconv,aconvULong,aconvWith,hne,hsize]

theorem aconvArray_in_place (s : Sign) (hsize : src.size ≠ dst.size) (a : Nat → Byte)
    (elnum : Nat) : aconvArray src a src dst elnum none (aconv s) = .ok a := by
  have hne : src ≠ dst := fun heq => hsize (congrArg Arch.size heq)
  simp only [aconvArray,if_neg hne]
  refine congrArg Result.ok (List.foldl_fixed' (fun i => ?_) _)
  rw [aconv_in_place s hsize]
  rfl

end Elements

theorem aconv_converts (s : Sign) (src dst : Arch) :
    (∀ (l : CLong src) (p : Bool),
      (src = dst → aconv s l.bytes src dst p = .unnec) ∧
      (src.size ≠ dst.size → p = false → aconv s l.bytes src dst p = .error) ∧
      (src ≠ dst → p = true ∨ src.size = dst.size → ∃ out : CLong dst,
        aconv s l.bytes src dst p = .ok out.bytes ∧
        out.value s = saturate s dst.size (l.value s) ∧
        (saturate s dst.size (l.value s) = l.value s → ∀ q, q = true ∨ src.size = dst.size →
          aconv s out.bytes dst src q = .ok l.bytes))) ∧
    (∀ (a : Nat → Byte) (elnum : Nat) (p : Option (Nat → Byte)),
      (src = dst → aconvArray src a src dst elnum p (aconv s) = .unnec) ∧
      (src.size ≠ dst.size → p = none → aconvArray src a src dst elnum p (aconv s) = .ok a)) ∧
    (∀ (a mem : Nat → Byte) (elnum : Nat), src ≠ dst → ∃ mem',
      aconvArray src a src dst elnum (some mem) (aconv s) = .ok mem' ∧
      (∀ i < elnum, aconv s (readAt a (src.size * i) src.size) src dst true =
        .ok (readAt mem' (dst.size * i) dst.size)) ∧
      ∀ j, dst.size * elnum ≤ j → mem' j = mem j) ∧
    ∀ (a : Nat → Byte) (elnum : Nat), src ≠ dst → src.size = dst.size → ∃ a',
      aconvArray src a src dst elnum none (aconv s) = .ok a' ∧
      (∀ i < elnum, aconv s (readAt a (src.size * i) src.size) src dst false =
        .ok (readAt a' (dst.size * i) dst.size)) ∧
      ∀ j, dst.size * elnum ≤ j → a' j = a j := by
  refine ⟨fun l p => ⟨fun heq => ?_,fun hsize hp => ?_,fun hne hp => ?_⟩,
    fun a elnum p => ⟨fun heq => if_pos heq,fun hsize hp => ?_⟩,
    fun a mem elnum hne => ?_,fun a elnum hne hsize => ?_⟩
  · cases s with
    | signed => exact if_pos heq
    | unsigned => exact if_pos heq
  · rw [hp]
    exact aconv_in_place s hsize l.bytes
  · obtain ⟨out,hout,hv⟩ := aconv_ok s l hne hp
    exact ⟨out,hout,hv,fun hsat q hq => aconv_back hne (hv.trans hsat) hq⟩
  · rw [hp]
    exact aconvArray_in_place s hsize a elnum
  · have hspec (i : Nat) := convBytes_spec (s := s) hne (Or.inl rfl)
      (length_readAt a (src.size * i) src.size)
    obtain ⟨hread,hframe⟩ := foldl_writes (fun i => (hspec i).2) elnum mem
    refine ⟨_,aconvArray_some s hne a mem elnum,fun i hi => ?_,hframe⟩
    rw [hread i hi]
    exact (hspec i).1
  · have hspec (i : Nat) := convBytes_spec (s := s) (p := false) hne (Or.inr hsize)
      ((length_readAt a (dst.size * i) dst.size).trans hsize.symm)
    obtain ⟨hread,hframe⟩ := foldl_writes (fun i => (hspec i).2) elnum a
    refine ⟨_,aconvArray_none s hne hsize a elnum,fun i hi => ?_,hframe⟩
    rw [hread i hi,hsize]
    exact (hspec i).1

-- Two longs of x86 with the value 1.
def ones : Nat → Byte := writeAt (fun _ => Fin.last 255) 0 (encLE 4 1 ++ encLE 4 1)

theorem in_place_unconverted : ¬∀ (s : Sign) (src dst : Arch) (a a' : Nat → Byte) (elnum : Nat),
    aconvArray src a src dst elnum none (aconv s) = .ok a' → ∀ i < elnum,
      value s dst.size (load dst.endian (readAt a' (dst.size * i) dst.size)) =
        saturate s dst.size (value s src.size (load src.endian (readAt a (src.size * i) src.size))) := by
  intro h
  have hsize : Arch.x86.size ≠ Arch.x86_64.size := by decide
  have hin := aconvArray_in_place .signed hsize ones 2
  exact absurd (h .signed .x86 .x86_64 ones ones 2 hin 0 (by decide)) (by decide)

end ViewOS.Rsc.Aconv
