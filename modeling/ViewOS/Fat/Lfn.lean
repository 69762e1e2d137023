import Mathlib.Tactic.Common

namespace ViewOS.Fat.Lfn

def leadTable : List (Nat × Nat) := [(0x80, 0x00), (0xE0, 0xC0), (0xF0, 0xE0), (0xF8, 0xF0)]

-- The index k of the first entry that matches; the character has k + 1 bytes.
def lead (b : Nat) : Option Nat := leadTable.findIdx? fun t => b &&& t.1 = t.2

def leadBits (b k : Nat) : Nat := b &&& (0xFF ^^^ (leadTable.getD k (0, 0)).1)

def contLoop : Nat → Nat → List Nat → Option Nat
  | 0, wc, _ => some wc
  | _ + 1, _, [] => none
  | k + 1, wc, b :: s =>
    if b &&& 0xC0 = 0x80 then contLoop k (wc <<< 6 ||| (b &&& 0x3F)) s else none

-- The character and the bytes after the first one that it takes.
def utf8ToWchar (b : Nat) (s : List Nat) : Option (Nat × Nat) :=
  (lead b).bind fun k => (contLoop k (leadBits b k) s).map fun wc => (wc, k)

def wcharToUtf16 (wc : Nat) : Option (List Nat) :=
  if wc < 0x010000 then some [wc]
  else if wc < 0x200000 then
    some [(0xD800 + ((wc >>> 16) - 1) <<< 6 + (wc &&& 0x00FC00) >>> 2) % 65536,
      0xDC00 + (wc &&& 0x0003FF)]
  else none

-- The first argument is how many bytes of the character are still to be passed.
def utf8Strlen : Nat → List Nat → Option Nat
  | 0, [] => some 0
  | _ + 1, [] => none
  | n + 1, _ :: s => utf8Strlen n s
  | 0, b :: s => (lead b).bind fun k => (utf8Strlen k s).map (· + 1)

def utf8to16 : Nat → List Nat → Option (List Nat)
  | 0, [] => some []
  | _ + 1, [] => none
  | n + 1, _ :: s => utf8to16 n s
  | 0, b :: s => (utf8ToWchar b s).bind fun r => (wcharToUtf16 r.1).bind fun units =>
      (utf8to16 r.2 s).map (units ++ ·)

structure LfnEntry where
  ord : Nat
  name1 : Nat → Nat
  attr : Nat
  type : Nat
  chksum : Nat
  name2 : Nat → Nat
  fstClusLO : Nat
  name3 : Nat → Nat

def fetchLfnChar (d : LfnEntry) (n : Nat) : Nat :=
  if n % 13 ≤ 4 then d.name1 (n % 13)
  else if n % 13 ≤ 10 then d.name2 (n % 13 - 5)
  else d.name3 (n % 13 - 11)

def setLfnChar (d : LfnEntry) (c n : Nat) : LfnEntry :=
  if n % 13 ≤ 4 then { d with name1 := Function.update d.name1 (n % 13) c }
  else if n % 13 ≤ 10 then { d with name2 := Function.update d.name2 (n % 13 - 5) c }
  else { d with name3 := Function.update d.name3 (n % 13 - 11) c }

def blank : LfnEntry :=
  ⟨0xFF, fun _ => 0xFFFF, 0xFF, 0xFF, 0xFF, fun _ => 0xFFFF, 0xFFFF, fun _ => 0xFFFF⟩

def writeChars (size : Nat) (lfnName : List Nat) : Nat → (Nat → LfnEntry) → Nat → LfnEntry
  | 0, buf => buf
  | i + 1, buf =>
    let buf := writeChars size lfnName i buf
    Function.update buf (size - 1 - i / 13)
      (setLfnChar (buf (size - 1 - i / 13)) (lfnName.getD i 0) i)

def writeFields (size checksum : Nat) (buf : Nat → LfnEntry) (j : Nat) : LfnEntry :=
  if j < size then
    { buf j with ord := size - j, attr := 0x0F, chksum := checksum, type := 0, fstClusLO := 0 }
  else buf j

def terminate (len : Nat) (buf : Nat → LfnEntry) : Nat → LfnEntry :=
  if len % 13 ≠ 0 then Function.update buf 0 (setLfnChar (buf 0) 0 (len % 13)) else buf

def markLast (buf : Nat → LfnEntry) : Nat → LfnEntry :=
  Function.update buf 0 { buf 0 with ord := (buf 0).ord ||| 0x40 }

def chainBuf (lfnName : List Nat) (len size checksum : Nat) : Nat → LfnEntry :=
  markLast (writeFields size checksum (terminate len (writeChars size lfnName len fun _ => blank)))

def generateLfnChain (utf8name : List Nat) (checksum : Nat) : Option (Nat × (Nat → LfnEntry)) :=
  (utf8Strlen 0 utf8name).bind fun len =>
    if len = 0 ∨ len > 255 then none
    else (utf8to16 0 utf8name).map fun lfnName =>
      ((len - 1) / 13 + 1, chainBuf lfnName len ((len - 1) / 13 + 1) checksum)

def nullLoop (d : LfnEntry) : Nat → Nat → Nat
  | 0, i => i
  | n + 1, i => if fetchLfnChar d i = 0 then i else nullLoop d n (i + 1)

def findLfnLength (d : Nat → LfnEntry) (bufsize : Nat) : Nat :=
  nullLoop (d 0) 13 0 + 1 + (bufsize - 2) * 13

def extractLfnName (buffer : Nat → LfnEntry) (bufsize length : Nat) : List Nat :=
  (List.range (length - 1)).map fun i => fetchLfnChar (buffer (bufsize - 2 - i / 13)) i

def checkLfnOrder (buffer : Nat → LfnEntry) (bufsize : Nat) : Prop :=
  ∀ i, 1 ≤ i → i ≤ bufsize - 1 → (buffer (bufsize - 1 - i)).ord &&& 0x3F = i

def Scalar (c : Nat) : Prop := 0 < c ∧ (c < 0xD800 ∨ 0xE000 ≤ c ∧ c < 0x110000)

def utf8 (c : Nat) : List Nat :=
  if c < 0x80 then [c]
  else if c < 0x800 then [0xC0 + c / 64, 0x80 + c % 64]
  else if c < 0x10000 then [0xE0 + c / 4096, 0x80 + c / 64 % 64, 0x80 + c % 64]
  else [0xF0 + c / 262144, 0x80 + c / 4096 % 64, 0x80 + c / 64 % 64, 0x80 + c % 64]

def utf16 (c : Nat) : List Nat :=
  if c < 0x10000 then [c]
  else [0xD800 + (c - 0x10000) / 1024, 0xDC00 + (c - 0x10000) % 1024]

structure RoundTrip (cs : List Nat) (checksum size : Nat) (buf : Nat → LfnEntry) : Prop where
  chain : generateLfnChain (cs.flatMap utf8) checksum = some (size, buf)
  name : extractLfnName buf (size + 1) (findLfnLength buf (size + 1)) = cs.flatMap utf16
  order : checkLfnOrder buf (size + 1)
  chksum : ∀ i < size, (buf i).chksum = checksum

section Utf8

variable {b c k n : Nat} {s cs : List Nat}

theorem lead_eq (hb : b < 256) : lead b = if b < 0x80 then some 0 else
    if 0xC0 ≤ b ∧ b < 0xE0 then some 1 else if 0xE0 ≤ b ∧ b < 0xF0 then some 2 else
      if 0xF0 ≤ b ∧ b < 0xF8 then some 3 else none := by
  have h : ∀ b < 256, lead b = if b < 0x80 then some 0 else
      if 0xC0 ≤ b ∧ b < 0xE0 then some 1 else if 0xE0 ≤ b ∧ b < 0xF0 then some 2 else
        if 0xF0 ≤ b ∧ b < 0xF8 then some 3 else none := by decide +kernel
  exact h b hb

theorem leadBits_eq (hb : b < 256) : leadBits b 0 = b % 128 ∧ leadBits b 1 = b % 32 ∧
    leadBits b 2 = b % 16 ∧ leadBits b 3 = b % 8 := by
  have h : ∀ b < 256, leadBits b 0 = b % 128 ∧ leadBits b 1 = b % 32 ∧
      leadBits b 2 = b % 16 ∧ leadBits b 3 = b % 8 := by decide +kernel
  exact h b hb

theorem cont_eq : (0x80 + n % 64) &&& 0xC0 = 0x80 ∧ (0x80 + n % 64) &&& 0x3F = n % 64 := by
  have h : ∀ m < 64, (0x80 + m) &&& 0xC0 = 0x80 ∧ (0x80 + m) &&& 0x3F = m := by decide
  exact h _ (Nat.mod_lt _ (by decide))

theorem contLoop_cons (k wc n : Nat) (s : List Nat) :
    contLoop (k + 1) wc ((0x80 + n % 64) :: s) = contLoop k (wc * 64 + n % 64) s := by
  have hor : wc <<< 6 ||| n % 64 = wc * 64 + n % 64 :=
    (Nat.shiftLeft_add_eq_or_of_lt (Nat.mod_lt _ (by decide)) wc).symm.trans (by
      rw [Nat.shiftLeft_eq])
  rw [contLoop,if_pos cont_eq.1,cont_eq.2,hor]

theorem utf8ToWchar_of_lead (hlead : lead b = some k)
    (hcont : contLoop k (leadBits b k) s = some c) : utf8ToWchar b s = some (c, k) := by
  rw [utf8ToWchar,hlead,Option.bind_some,hcont,Option.map_some]

theorem utf8_cons (hc : Scalar c) : ∃ b t, utf8 c = b :: t ∧ lead b = some t.length ∧
    ∀ s, utf8ToWchar b (t ++ s) = some (c, t.length) := by
  obtain ⟨-,hmax⟩ := hc
  rw [utf8]
  split
  · rename_i h
    have hlead : lead c = some 0 := by rw [lead_eq (by omega),if_pos h]
    have hcont (s : List Nat) : contLoop 0 (leadBits c 0) ([] ++ s) = some c := by
      have hb : c < 256 := by omega
      rw [(leadBits_eq hb).1,contLoop,Nat.mod_eq_of_lt h]
    exact ⟨c,[],rfl,hlead,fun s => utf8ToWchar_of_lead hlead (hcont s)⟩
  · split
    · rename_i h₁ h₂
      have hb : 0xC0 + c / 64 < 256 := by omega
      have hlead : lead (0xC0 + c / 64) = some 1 := by
        rw [lead_eq hb,if_neg (by omega),if_pos (by omega)]
      have hcont (s : List Nat) :
          contLoop 1 (leadBits (0xC0 + c / 64) 1) ([0x80 + c % 64] ++ s) = some c := by
        rw [(leadBits_eq hb).2.1,List.cons_append,contLoop_cons,contLoop]
        exact congrArg some (by omega)
      exact ⟨_,_,rfl,hlead,fun s => utf8ToWchar_of_lead hlead (hcont s)⟩
    · split
      · rename_i h₁ h₂ h₃
        have hb : 0xE0 + c / 4096 < 256 := by omega
        have hlead : lead (0xE0 + c / 4096) = some 2 := by
          rw [lead_eq hb,if_neg (by omega),if_neg (by omega),if_pos (by omega)]
        have hcont (s : List Nat) : contLoop 2 (leadBits (0xE0 + c / 4096) 2)
            ([0x80 + c / 64 % 64, 0x80 + c % 64] ++ s) = some c := by
          rw [(leadBits_eq hb).2.2.1,List.cons_append,contLoop_cons,List.cons_append,
            contLoop_cons,contLoop]
          exact congrArg some (by omega)
        exact ⟨_,_,rfl,hlead,fun s => utf8ToWchar_of_lead hlead (hcont s)⟩
      · rename_i h₁ h₂ h₃
        have hb : 0xF0 + c / 262144 < 256 := by omega
        have hlead : lead (0xF0 + c / 262144) = some 3 := by
          rw [lead_eq hb,if_neg (by omega),if_neg (by omega),if_neg (by omega),if_pos (by omega)]
        have hcont (s : List Nat) : contLoop 3 (leadBits (0xF0 + c / 262144) 3)
            ([0x80 + c / 4096 % 64, 0x80 + c / 64 % 64, 0x80 + c % 64] ++ s) = some c := by
          rw [(leadBits_eq hb).2.2.2,List.cons_append,contLoop_cons,List.cons_append,
            contLoop_cons,List.cons_append,contLoop_cons,contLoop]
          exact congrArg some (by omega)
        exact ⟨_,_,rfl,hlead,fun s => utf8ToWchar_of_lead hlead (hcont s)⟩

theorem utf8Strlen_skip (t s : List Nat) : utf8Strlen t.length (t ++ s) = utf8Strlen 0 s := by
  induction t with
  | nil => rfl
  | cons b t ih => exact ih

theorem utf8to16_skip (t s : List Nat) : utf8to16 t.length (t ++ s) = utf8to16 0 s := by
  induction t with
  | nil => rfl
  | cons b t ih => exact ih

theorem utf8Strlen_flatMap (h : ∀ c ∈ cs, Scalar c) :
    utf8Strlen 0 (cs.flatMap utf8) = some cs.length := by
  induction cs with
  | nil => rfl
  | cons c cs ih =>
    obtain ⟨hc,hcs⟩ := List.forall_mem_cons.mp h
    obtain ⟨b,t,hutf8,hlead,-⟩ := utf8_cons hc
    rw [List.flatMap_cons,hutf8,List.cons_append,utf8Strlen,hlead,Option.bind_some,
      utf8Strlen_skip,ih hcs]
    rfl

def codeUnits (c : Nat) : List Nat := (wcharToUtf16 c).getD []

theorem wcharToUtf16_scalar (hc : Scalar c) : wcharToUtf16 c = some (codeUnits c) := by
  obtain ⟨-,hmax⟩ := hc
  rw [codeUnits,wcharToUtf16]
  split
  · rfl
  · rw [if_pos (by omega)]
    rfl

theorem utf8to16_flatMap (h : ∀ c ∈ cs, Scalar c) :
    utf8to16 0 (cs.flatMap utf8) = some (cs.flatMap codeUnits) := by
  induction cs with
  | nil => rfl
  | cons c cs ih =>
    obtain ⟨hc,hcs⟩ := List.forall_mem_cons.mp h
    obtain ⟨b,t,hutf8,-,hwchar⟩ := utf8_cons hc
    rw [List.flatMap_cons,hutf8,List.cons_append,utf8to16,hwchar,Option.bind_some,
      wcharToUtf16_scalar hc,Option.bind_some,utf8to16_skip,ih hcs]
    rfl

theorem codeUnits_basic (h : ∀ c ∈ cs, c < 0x10000) : cs.flatMap codeUnits = cs := by
  induction cs with
  | nil => rfl
  | cons c cs ih =>
    obtain ⟨hc,hcs⟩ := List.forall_mem_cons.mp h
    rw [List.flatMap_cons,ih hcs,codeUnits,wcharToUtf16,if_pos hc]
    rfl

theorem utf16_basic (h : ∀ c ∈ cs, c < 0x10000) : cs.flatMap utf16 = cs := by
  induction cs with
  | nil => rfl
  | cons c cs ih =>
    obtain ⟨hc,hcs⟩ := List.forall_mem_cons.mp h
    rw [List.flatMap_cons,ih hcs,utf16,if_pos hc]
    rfl

theorem length_utf16 (cs : List Nat) : cs.length ≤ (cs.flatMap utf16).length ∧
    ((∃ c ∈ cs, 0x10000 ≤ c) → cs.length < (cs.flatMap utf16).length) := by
  induction cs with
  | nil => simp
  | cons c cs ih =>
    obtain ⟨hle,hlt⟩ := ih
    rw [List.flatMap_cons,List.length_append,List.length_cons,utf16]
    split
    · rename_i hc
      refine ⟨by simp only [List.length_singleton]; omega,fun hex => ?_⟩
      obtain ⟨c',hmem,hc'⟩ := hex
      rcases List.mem_cons.mp hmem with rfl | hmem
      · omega
      · have hlt' := hlt ⟨c',hmem,hc'⟩
        simp only [List.length_singleton]
        omega
    · refine ⟨?_,fun _ => ?_⟩
      · simp only [List.length_cons,List.length_nil]
        omega
      · simp only [List.length_cons,List.length_nil]
        omega

end Utf8

section Records

variable {d : LfnEntry} {buf : Nat → LfnEntry} {size len c n m e o : Nat} {lfnName : List Nat}

theorem fetch_set (d : LfnEntry) (c n m : Nat) : fetchLfnChar (setLfnChar d c n) m =
    if m % 13 = n % 13 then c else fetchLfnChar d m := by
  rcases Nat.lt_or_ge 4 (n % 13) with hn | hn
  · rcases Nat.lt_or_ge 10 (n % 13) with hn' | hn'
    · have hn4 : ¬n % 13 ≤ 4 := by omega
      have hn10 : ¬n % 13 ≤ 10 := by omega
      simp only [fetchLfnChar,setLfnChar,if_neg hn4,if_neg hn10,Function.update_apply]
      grind
    · have hn4 : ¬n % 13 ≤ 4 := by omega
      simp only [fetchLfnChar,setLfnChar,if_neg hn4,if_pos hn',Function.update_apply]
      grind
  · simp only [fetchLfnChar,setLfnChar,if_pos hn,Function.update_apply]
    grind

theorem fetch_mod (d : LfnEntry) (n : Nat) : fetchLfnChar d (n % 13) = fetchLfnChar d n := by
  rw [fetchLfnChar,fetchLfnChar,Nat.mod_mod]

theorem fetch_writeChars (done : Nat) (hdone : done ≤ 13 * size) (he : e < size)
    (ho : o < 13) : fetchLfnChar (writeChars size lfnName done (fun _ => blank) (size - 1 - e)) o =
      if 13 * e + o < done then lfnName.getD (13 * e + o) 0 else 0xFFFF := by
  induction done with
  | zero =>
    rw [if_neg (by omega)]
    simp [writeChars,fetchLfnChar,blank]
  | succ i ih =>
    simp only [writeChars]
    have ih := ih (by omega)
    rcases eq_or_ne (i / 13) e with rfl | hne
    · rw [Function.update_self,fetch_set,ih,Nat.mod_eq_of_lt ho]
      rcases eq_or_ne o (i % 13) with rfl | hne
      · have hi : 13 * (i / 13) + i % 13 = i := by omega
        rw [if_pos rfl,hi,if_pos (Nat.lt_succ_self i)]
      · have hiff : 13 * (i / 13) + o < i + 1 ↔ 13 * (i / 13) + o < i := by omega
        rw [if_neg hne,if_congr hiff rfl rfl]
    · have hidx : size - 1 - e ≠ size - 1 - i / 13 := by omega
      have hiff : 13 * e + o < i + 1 ↔ 13 * e + o < i := by omega
      rw [Function.update_of_ne hidx,ih,if_congr hiff rfl rfl]

theorem nullLoop_spec (d : LfnEntry) (n i : Nat) : i ≤ nullLoop d n i ∧ nullLoop d n i ≤ i + n ∧
    (∀ m, i ≤ m → m < nullLoop d n i → fetchLfnChar d m ≠ 0) ∧
    (nullLoop d n i < i + n → fetchLfnChar d (nullLoop d n i) = 0) := by
  induction n generalizing i with
  | zero => exact ⟨Nat.le_refl _,Nat.le_refl _,fun m h₁ h₂ => absurd h₂ (Nat.not_lt.mpr h₁),
      fun h => absurd h (Nat.lt_irrefl _)⟩
  | succ n ih =>
    rw [nullLoop]
    split
    · rename_i hnull
      exact ⟨Nat.le_refl _,by omega,fun m h₁ h₂ => absurd h₂ (Nat.not_lt.mpr h₁),fun _ => hnull⟩
    · rename_i hnull
      obtain ⟨hle,hge,hbefore,hat⟩ := ih (i + 1)
      refine ⟨by omega,by omega,fun m h₁ h₂ => ?_,fun h => hat (by omega)⟩
      rcases eq_or_ne m i with rfl | hne
      · exact hnull
      · exact hbefore m (by omega) h₂

theorem generateLfnChain_eq {s : List Nat} {checksum : Nat} (hlen : utf8Strlen 0 s = some len)
    (hpos : 0 < len) (hmax : len ≤ 255) (h16 : utf8to16 0 s = some lfnName) :
    generateLfnChain s checksum = some ((len - 1) / 13 + 1,
      chainBuf lfnName len ((len - 1) / 13 + 1) checksum) := by
  rw [generateLfnChain,hlen,Option.bind_some,if_neg (by omega),h16]
  rfl

theorem fetch_terminate (len j : Nat) (buf : Nat → LfnEntry) (ho : o < 13) :
    fetchLfnChar (terminate len buf j) o =
      if len % 13 ≠ 0 ∧ j = 0 ∧ o = len % 13 then 0 else fetchLfnChar (buf j) o := by
  rw [terminate]
  split
  · rename_i hmod
    rcases eq_or_ne j 0 with rfl | hj
    · rw [Function.update_self,fetch_set,Nat.mod_mod,Nat.mod_eq_of_lt ho]
      simp [hmod]
    · rw [Function.update_of_ne hj]
      simp [hj]
  · simp_all

theorem fetch_writeFields (size checksum j : Nat) (buf : Nat → LfnEntry) :
    fetchLfnChar (writeFields size checksum buf j) o = fetchLfnChar (buf j) o := by
  rw [writeFields]
  split
  · rfl
  · rfl

theorem fetch_markLast (buf : Nat → LfnEntry) (j : Nat) :
    fetchLfnChar (markLast buf j) o = fetchLfnChar (buf j) o := by
  rw [markLast]
  rcases eq_or_ne j 0 with rfl | hj
  · rw [Function.update_self]
    rfl
  · rw [Function.update_of_ne hj]

theorem fetch_chainBuf {checksum : Nat} (hlen : 0 < len) (he : e ≤ (len - 1) / 13) (ho : o < 13) :
    fetchLfnChar (chainBuf lfnName len ((len - 1) / 13 + 1) checksum ((len - 1) / 13 - e)) o =
      if 13 * e + o < len then lfnName.getD (13 * e + o) 0
      else if 13 * e + o = len then 0 else 0xFFFF := by
  have hwrite := @fetch_writeChars ((len - 1) / 13 + 1) e o lfnName len (by omega) (by omega) ho
  rw [Nat.add_sub_cancel] at hwrite
  rw [chainBuf,fetch_markLast,fetch_writeFields,fetch_terminate _ _ _ ho,hwrite]
  split
  · rw [if_neg (by omega),if_pos (by omega)]
  · split
    · rfl
    · rw [if_neg (by omega)]

theorem chainBuf_fields {checksum j : Nat} (hj : j < size) :
    (chainBuf lfnName len size checksum j).chksum = checksum ∧
    (chainBuf lfnName len size checksum j).ord = if j = 0 then size ||| 0x40 else size - j := by
  rw [chainBuf,markLast]
  rcases eq_or_ne j 0 with rfl | hne
  · rw [Function.update_self,writeFields,if_pos hj]
    exact ⟨rfl,rfl⟩
  · rw [Function.update_of_ne hne,writeFields,if_pos hj,if_neg hne]
    exact ⟨rfl,rfl⟩

theorem chainBuf_order {checksum : Nat} (hsize : size ≤ 20) :
    checkLfnOrder (chainBuf lfnName len size checksum) (size + 1) := by
  intro i hi hle
  have hle' : i ≤ size := hle
  have hor : ∀ n < 64, (n ||| 0x40) &&& 0x3F = n ∧ n &&& 0x3F = n := by decide
  rw [Nat.add_sub_cancel,(chainBuf_fields (by omega)).2]
  split
  · have heq : size = i := by omega
    rw [heq]
    exact (hor i (by omega)).1
  · have heq : size - (size - i) = i := by omega
    rw [heq]
    exact (hor i (by omega)).2

theorem findLfnLength_le {checksum : Nat} (hlen : 0 < len) :
    findLfnLength (chainBuf lfnName len ((len - 1) / 13 + 1) checksum) ((len - 1) / 13 + 1 + 1) ≤
      len + 1 := by
  rw [findLfnLength]
  obtain ⟨-,hle,hbefore,-⟩ :=
    nullLoop_spec (chainBuf lfnName len ((len - 1) / 13 + 1) checksum 0) 13 0
  rcases Nat.lt_or_ge (len - 13 * ((len - 1) / 13)) 13 with hlt | hge
  · have hnull := @fetch_chainBuf len ((len - 1) / 13) (len - 13 * ((len - 1) / 13)) lfnName checksum
      hlen (Nat.le_refl _) hlt
    rw [if_neg (by omega),if_pos (by omega),Nat.sub_self] at hnull
    have hstop := Nat.not_lt.mp fun h => hbefore _ (Nat.zero_le _) h hnull
    omega
  · omega

theorem findLfnLength_eq {checksum : Nat} (hlen : 0 < len)
    (hname : ∀ i < len, lfnName.getD i 0 ≠ 0) :
    findLfnLength (chainBuf lfnName len ((len - 1) / 13 + 1) checksum) ((len - 1) / 13 + 1 + 1) =
      len + 1 := by
  apply Nat.le_antisymm (findLfnLength_le hlen)
  rw [findLfnLength]
  obtain ⟨-,-,-,hat⟩ :=
    nullLoop_spec (chainBuf lfnName len ((len - 1) / 13 + 1) checksum 0) 13 0
  generalize nullLoop (chainBuf lfnName len ((len - 1) / 13 + 1) checksum 0) 13 0 = r at *
  rcases Nat.lt_or_ge r 13 with hr | hr
  · have hfetch := @fetch_chainBuf len ((len - 1) / 13) r lfnName checksum hlen (Nat.le_refl _) hr
    rw [Nat.sub_self,hat (by omega)] at hfetch
    rcases Nat.lt_or_ge (13 * ((len - 1) / 13) + r) len with hlt | hge
    · rw [if_pos hlt] at hfetch
      exact absurd hfetch.symm (hname _ hlt)
    · omega
  · omega

theorem extract_chainBuf {checksum : Nat} (hlen : 0 < len) :
    extractLfnName (chainBuf lfnName len ((len - 1) / 13 + 1) checksum) ((len - 1) / 13 + 1 + 1)
      (len + 1) = (List.range len).map fun i => lfnName.getD i 0 := by
  rw [extractLfnName,Nat.add_sub_cancel]
  refine List.map_congr_left fun i hi => ?_
  have hi' := List.mem_range.mp hi
  have hidx : (len - 1) / 13 + 1 + 1 - 2 - i / 13 = (len - 1) / 13 - i / 13 := by omega
  have hfetch := @fetch_chainBuf len (i / 13) (i % 13) lfnName checksum hlen (by omega)
    (Nat.mod_lt _ (by decide))
  have hi13 : 13 * (i / 13) + i % 13 = i := by omega
  rw [hi13,if_pos hi',fetch_mod] at hfetch
  rw [hidx,hfetch]

end Records

theorem map_getD_range (l : List Nat) : ((List.range l.length).map fun i => l.getD i 0) = l := by
  apply List.ext_getElem
  · simp
  · intro i h₁ h₂
    simp [h₂]

theorem chain_of_scalars {cs : List Nat} (checksum : Nat) (hcs : ∀ c ∈ cs, Scalar c)
    (hpos : 1 ≤ (cs.flatMap utf16).length) (hmax : (cs.flatMap utf16).length ≤ 255) :
    0 < cs.length ∧ cs.length ≤ 255 ∧ generateLfnChain (cs.flatMap utf8) checksum =
      some ((cs.length - 1) / 13 + 1,
        chainBuf (cs.flatMap codeUnits) cs.length ((cs.length - 1) / 13 + 1) checksum) := by
  have hle := Nat.le_trans (length_utf16 cs).1 hmax
  have hne : 0 < cs.length := by
    cases cs with
    | nil => exact absurd hpos (by simp)
    | cons c cs => exact Nat.succ_pos _
  exact ⟨hne,hle,generateLfnChain_eq (utf8Strlen_flatMap hcs) hne hle (utf8to16_flatMap hcs)⟩

theorem RoundTrip.basic {cs : List Nat} {checksum size : Nat} {buf : Nat → LfnEntry}
    (h : RoundTrip cs checksum size buf) (hcs : ∀ c ∈ cs, Scalar c)
    (hpos : 1 ≤ (cs.flatMap utf16).length) (hmax : (cs.flatMap utf16).length ≤ 255) :
    ∀ c ∈ cs, c < 0x10000 := by
  intro c hc
  obtain ⟨hne,-,hchain⟩ := chain_of_scalars checksum hcs hpos hmax
  obtain ⟨rfl,rfl⟩ := Prod.mk.inj (Option.some.inj (hchain.symm.trans h.chain))
  apply Nat.lt_of_not_le
  intro hsupp
  have hlen := congrArg List.length h.name
  rw [extractLfnName,List.length_map,List.length_range] at hlen
  have hfind := @findLfnLength_le cs.length (cs.flatMap codeUnits) checksum hne
  have hunits := (length_utf16 cs).2 ⟨c,hc,hsupp⟩
  omega

theorem lfn_round_trip (cs : List Nat) (checksum : Nat) (hcs : ∀ c ∈ cs, Scalar c)
    (hpos : 1 ≤ (cs.flatMap utf16).length) (hmax : (cs.flatMap utf16).length ≤ 255) :
    (∃ size buf, RoundTrip cs checksum size buf) ↔ ∀ c ∈ cs, c < 0x10000 := by
  constructor
  · rintro ⟨size,buf,h⟩
    exact h.basic hcs hpos hmax
  · intro h
    obtain ⟨hne,hle,hchain⟩ := chain_of_scalars checksum hcs hpos hmax
    rw [codeUnits_basic h] at hchain
    have hnull : ∀ i < cs.length, cs.getD i 0 ≠ 0 := by
      intro i hi
      have hmem := hcs _ (List.getElem_mem hi)
      rw [List.getD_eq_getElem?_getD,List.getElem?_eq_getElem hi]
      exact Nat.pos_iff_ne_zero.mp hmem.1
    refine ⟨_,_,hchain,?_,chainBuf_order (by omega),fun i hi => (chainBuf_fields hi).1⟩
    rw [findLfnLength_eq hne hnull,extract_chainBuf hne,map_getD_range,utf16_basic h]

-- Sixteen characters, two records.
def accented : List Nat :=
  [0x72, 0xE9, 0x73, 0x75, 0x6D, 0xE9, 0x2D, 0x32, 0x30, 0x30, 0x39, 0x2E, 0x74, 0x65, 0x78, 0x74]

theorem lfn_round_trip_accented : ∃ size buf, RoundTrip accented 0x5A size buf :=
  (lfn_round_trip accented 0x5A (by simp [accented,Scalar]) (by decide) (by decide)).mpr (by decide)

theorem lfn_loses_supplementary : ¬∀ (cs : List Nat) (checksum : Nat), (∀ c ∈ cs, Scalar c) →
    1 ≤ (cs.flatMap utf16).length → (cs.flatMap utf16).length ≤ 255 →
      ∃ size buf, RoundTrip cs checksum size buf := by
  intro h
  have hcs : ∀ c ∈ [0x1F600], Scalar c := by simp [Scalar]
  obtain ⟨size,buf,hrt⟩ := h [0x1F600] 0 hcs (by decide) (by decide)
  exact absurd (hrt.basic hcs (by decide) (by decide)) (by decide)

end ViewOS.Fat.Lfn
