import Mathlib.Data.List.GetD
import Mathlib.Tactic.NormNum
import Mathlib.Tactic.Ring
import ViewOS.Lib.ScanHex

namespace ViewOS.Viewfs.Hexstat

open ScanHex

def sIfmt : Word := 0o170000

structure Dev where
  major : Word
  minor : Word
deriving DecidableEq

structure Stat where
  mode : Word
  uid : Word
  gid : Word
  rdev : Dev
deriving DecidableEq

def newEncodeDev (dev : Dev) : Word :=
  (dev.minor &&& 0xff#32) ||| (dev.major <<< 8) ||| ((dev.minor &&& ~~~0xff#32) <<< 12)

def newDecodeDev (dev : Word) : Dev where
  major := (dev &&& 0xfff00#32) >>> 8
  minor := (dev &&& 0xff#32) ||| ((dev >>> 12) &&& 0xfff00#32)

def hexLoop : Nat → Nat → List Char → List Char
  | 0, _, s => s
  | n + 1, v, s => hexLoop n (v / 16) (hexDigits.getD (v % 16) '0' :: s)

def hexencode32 (v : Word) : List Char := hexLoop 8 v.toNat []

def sscanf08x (s : List Char) : Option Word := scanX 8 s

-- The bytes of the buffer behind what was read and the value of a mode nothing was scanned
-- into are what the stack holds at the call.
structure Stack where
  buf : List Char
  word : Word

structure Put where
  mode : Word
  uid : Word
  gid : Word
  rdev : Dev
  stack : Stack

def unset : Word := BitVec.allOnes 32

def poke (s : List Char) (i : Nat) (t : List Char) : List Char :=
  s.take i ++ t ++ s.drop (i + t.length)

def hexbuf (file : List Char) (stack : Stack) : List Char × Nat :=
  if (file.take 60).length < 24 then
    (List.replicate 24 ' ' ++ Char.ofNat 0 :: stack.buf.drop 25, 24)
  else (file.take 60 ++ stack.buf.drop (file.take 60).length, (file.take 60).length)

def Put.putMode (u : Put) (hexstat : List Char) : List Char :=
  if u.mode = 0 then hexstat
  else if u.mode &&& sIfmt = 0 then
    poke hexstat 0
      (hexencode32 (u.mode ||| ((sscanf08x hexstat).getD u.stack.word &&& sIfmt)))
  else poke hexstat 0 (hexencode32 u.mode)

def putId (id : Word) (i : Nat) (hexstat : List Char) : List Char :=
  if id = unset then hexstat else poke hexstat i (hexencode32 id)

def puthexstat (file : List Char) (u : Put) : List Char :=
  let (buf, len) := hexbuf file u.stack
  let hexstat := putId u.gid 16 (putId u.uid 8 (u.putMode buf))
  let (hexstat, len) :=
    if u.rdev = ⟨0, 0⟩ then (hexstat, len)
    else (poke hexstat 24 (hexencode32 (newEncodeDev u.rdev) ++ [Char.ofNat 0]), 32)
  hexstat.take len ++ file.drop len

def gethexstat (file : List Char) (stack : Stack) (st : Stat) : Stat :=
  let len := (file.take 60).length
  let hexstat := file.take 60 ++ stack.buf.drop len
  if len < 24 then st
  else
    let mode := (sscanf08x hexstat).getD stack.word
    { mode := if hexstat.getD 0 ' ' = ' ' then st.mode
        else if mode &&& sIfmt = 0 then (st.mode &&& sIfmt) ||| mode else mode
      uid := if hexstat.getD 8 ' ' = ' ' then st.uid
        else (sscanf08x (hexstat.drop 8)).getD st.uid
      gid := if hexstat.getD 16 ' ' = ' ' then st.gid
        else (sscanf08x (hexstat.drop 16)).getD st.gid
      rdev := if 24 < len then newDecodeDev ((sscanf08x (hexstat.drop 24)).getD stack.word)
        else st.rdev }

def run (us : List Put) : List Char := us.foldl puthexstat []

def last {α : Type} (f : Put → Option α) (us : List Put) : Option α :=
  us.reverse.findSome? f

def Put.perms? (u : Put) : Option Word := if u.mode = 0 then none else some (u.mode &&& ~~~sIfmt)

def Put.type? (u : Put) : Option Word :=
  if u.mode &&& sIfmt = 0 then none else some (u.mode &&& sIfmt)

def given (id : Word) : Option Word := if id = unset then none else some id

def Put.rdev? (u : Put) : Option Dev := if u.rdev = ⟨0, 0⟩ then none else some u.rdev

def Put.InRange (u : Put) : Prop := u.rdev.major < 0x1000 ∧ u.rdev.minor < 0x100000

def lastStat (us : List Put) (st : Stat) : Stat where
  mode := match last Put.perms? us with
    | some p => (last Put.type? us).getD (st.mode &&& sIfmt) ||| p
    | none => st.mode
  uid := (last (given ·.uid) us).getD st.uid
  gid := (last (given ·.gid) us).getD st.gid
  rdev := (last Put.rdev? us).getD st.rdev

def StatKept (us : List Put) : Prop :=
  ∀ stack st, gethexstat (run us) stack st = lastStat us st

def scanned (us : List Put) (u : Put) : Word :=
  ((last (given ·.uid) us).or ((last (given ·.gid) us).or
    (((last Put.rdev? us).map newEncodeDev).or
      (if us = [] then none else sscanf08x (u.stack.buf.drop 24))))).getD u.stack.word

def Spares (us : List Put) (u : Put) : Prop :=
  u.mode ≠ 0 → u.mode &&& sIfmt = 0 → last Put.perms? us = none → scanned us u &&& sIfmt = 0

def Clean : List Put → List Put → Prop
  | _, [] => True
  | us, u :: vs => Spares us u ∧ Clean (us ++ [u]) vs

theorem hexLoop_length (n : Nat) : ∀ v s, (hexLoop n v s).length = n + s.length := by
  induction n with
  | zero => simp [hexLoop]
  | succ n ih => intro v s; rw [hexLoop,ih,List.length_cons]; omega

@[simp] theorem hexencode32_length (v : Word) : (hexencode32 v).length = 8 := hexLoop_length 8 _ _

theorem hexLoop_digits (n : Nat) : ∀ v s, (∀ c ∈ s, c ∈ hexDigits) →
    ∀ c ∈ hexLoop n v s, c ∈ hexDigits := by
  induction n with
  | zero => intro _ s hs; exact hs
  | succ n ih =>
    intro v s hs
    refine ih _ _ (List.forall_mem_cons.mpr ⟨?_,hs⟩)
    have hv : v % 16 < hexDigits.length := Nat.mod_lt _ (by decide)
    rw [List.getD_eq_getElem _ _ hv]
    exact List.getElem_mem hv

theorem scanDigits_hexLoop (n : Nat) : ∀ m a v s,
    scanDigits (n + m) a (hexLoop n v s) = scanDigits m (a * 16 ^ n + v % 16 ^ n) s := by
  induction n with
  | zero => intro m a v s; simp [hexLoop,Nat.mod_one]
  | succ n ih =>
    intro m a v s
    rw [hexLoop,show n + 1 + m = n + (m + 1) by omega,ih,scanDigits,
      hexVal_digit _ (Nat.mod_lt _ (by decide))]
    have hv : v % 16 ^ (n + 1) = v % 16 + 16 * (v / 16 % 16 ^ n) := by
      rw [pow_succ',Nat.mod_mul]
    dsimp only
    rw [hv,pow_succ]
    congr 1
    ring

theorem hexLoop_append (n : Nat) : ∀ v s t, hexLoop n v s ++ t = hexLoop n v (s ++ t) := by
  induction n with
  | zero => intros; rfl
  | succ n ih => intro v s t; rw [hexLoop,hexLoop,ih,List.cons_append]

theorem hexencode32_cons (v : Word) :
    ∃ c d s, hexencode32 v = c :: d :: s ∧ c ∈ hexDigits ∧ d ∈ hexDigits := by
  have hm := hexLoop_digits 8 v.toNat [] (by simp)
  have hl := hexencode32_length v
  rw [← hexencode32] at hm
  match hs : hexencode32 v with
  | [] => rw [hs] at hl; cases hl
  | [_] => rw [hs] at hl; cases hl
  | c :: d :: s =>
    rw [hs] at hm
    exact ⟨c,d,s,rfl,hm c List.mem_cons_self,hm d (List.mem_cons_of_mem c List.mem_cons_self)⟩

theorem sscanf_hexencode32 (v : Word) (r : List Char) :
    sscanf08x (hexencode32 v ++ r) = some v := by
  obtain ⟨c,d,s,hv,hc,hd⟩ := hexencode32_cons v
  have hscan : sscanf08x (c :: d :: s ++ r) = some (BitVec.ofNat 32 (scanDigits 8 0 (c :: d :: s ++ r))) :=
    scanX_digits hc hd 8 (s ++ r)
  rw [hv,hscan,← hv,hexencode32,hexLoop_append]
  have hx := scanDigits_hexLoop 8 0 0 v.toNat ([] ++ r)
  rw [Nat.add_zero] at hx
  rw [hx,scanDigits,Nat.zero_mul,Nat.zero_add,
    Nat.mod_eq_of_lt (v.isLt.trans_eq (by norm_num)),BitVec.ofNat_toNat,BitVec.setWidth_eq]

def field : Option Word → List Char
  | some v => hexencode32 v
  | none => List.replicate 8 ' '

@[simp] theorem field_length (o : Option Word) : (field o).length = 8 := by
  cases o with
  | none => rfl
  | some v => exact hexencode32_length v

theorem sscanf_field (o : Option Word) (r : List Char) :
    sscanf08x (field o ++ r) = o.or (sscanf08x r) := by
  cases o with
  | none => rfl
  | some v => exact sscanf_hexencode32 v r

theorem field_blank (o : Option Word) (r : List Char) :
    (field o ++ r).getD 0 ' ' = ' ' ↔ o = none := by
  cases o with
  | none => exact iff_of_true rfl rfl
  | some v =>
    obtain ⟨c,_,s,hv,hc,-⟩ := hexencode32_cons v
    refine iff_of_false ?_ (by simp)
    rw [field,hv]
    rintro rfl
    exact absurd (digit_not_space _ hc) (by decide)

def hexline (m u g : Option Word) (tail : List Char) : List Char :=
  field m ++ (field u ++ (field g ++ tail))

theorem poke_field (s : List Char) (o : Option Word) (t r : List Char) (ht : t.length = 8) :
    poke (s ++ (field o ++ r)) s.length t = s ++ (t ++ r) := by
  simp [poke,ht,List.drop_append]

theorem sscanf_hexline (m u g : Option Word) (tail : List Char) :
    sscanf08x (hexline m u g tail) = m.or (u.or (g.or (sscanf08x tail))) := by
  rw [hexline,sscanf_field,sscanf_field,sscanf_field]

theorem putId_uid (id : Word) (m u g : Option Word) (tail : List Char) :
    putId id 8 (hexline m u g tail) = hexline m ((given id).or u) g tail := by
  rw [putId,given]
  split_ifs
  · rfl
  · have hp := poke_field (field m) u (hexencode32 id) (field g ++ tail) (hexencode32_length id)
    rw [field_length] at hp
    exact hp

theorem putId_gid (id : Word) (m u g : Option Word) (tail : List Char) :
    putId id 16 (hexline m u g tail) = hexline m u ((given id).or g) tail := by
  rw [putId,given]
  split_ifs
  · rfl
  · have hp := poke_field (field m ++ field u) g (hexencode32 id) tail (hexencode32_length id)
    rw [List.length_append,field_length,field_length,List.append_assoc,List.append_assoc] at hp
    exact hp

def Put.modeField (p : Put) (m scan : Option Word) : Option Word :=
  if p.mode = 0 then m
  else if p.mode &&& sIfmt = 0 then some (p.mode ||| (scan.getD p.stack.word &&& sIfmt))
  else some p.mode

theorem putMode_hexline (p : Put) (m u g : Option Word) (tail : List Char) :
    p.putMode (hexline m u g tail) =
      hexline (p.modeField m (sscanf08x (hexline m u g tail))) u g tail := by
  rw [Put.putMode,Put.modeField]
  split_ifs
  · rfl
  · exact poke_field [] m _ _ (hexencode32_length _)
  · exact poke_field [] m _ _ (hexencode32_length _)

def kdevText (k : Option Word) : List Char := k.elim [] hexencode32

structure Fields where
  mode : Option Word
  uid : Option Word
  gid : Option Word
  kdev : Option Word

def Fields.text (r : Fields) : List Char := hexline r.mode r.uid r.gid (kdevText r.kdev)

def Fields.put (r : Fields) (p : Put) (behind : Option Word) : Fields where
  mode := p.modeField r.mode (r.mode.or (r.uid.or (r.gid.or (r.kdev.or behind))))
  uid := (given p.uid).or r.uid
  gid := (given p.gid).or r.gid
  kdev := (p.rdev?.map newEncodeDev).or r.kdev

theorem kdevText_length (k : Option Word) : (kdevText k).length = if k.isSome then 8 else 0 := by
  cases k with
  | none => rfl
  | some v => exact hexencode32_length v

theorem sscanf_kdevText (k : Option Word) (r : List Char) :
    sscanf08x (kdevText k ++ r) = k.or (sscanf08x r) := by
  cases k with
  | none => rfl
  | some v => exact sscanf_hexencode32 v r

theorem hexline_append (m u g : Option Word) (s t : List Char) :
    hexline m u g s ++ t = hexline m u g (s ++ t) := by
  simp only [hexline,List.append_assoc]

theorem hexline_length (m u g : Option Word) (s : List Char) :
    (hexline m u g s).length = 24 + s.length := by
  simp only [hexline,List.length_append,field_length]
  omega

theorem hexline_take (m u g : Option Word) (s : List Char) (n : Nat) :
    (hexline m u g s).take (24 + n) = hexline m u g (s.take n) := by
  have hl := hexline_length m u g []
  rw [← List.nil_append s,← hexline_append,List.nil_append,List.take_append,hl,
    List.take_of_length_le (by rw [hl]; exact Nat.le_add_right _ _),hexline_append]
  simp

theorem hexline_drop (m u g : Option Word) (s : List Char) (n : Nat) :
    (hexline m u g s).drop (24 + n) = s.drop n := by
  have hl := hexline_length m u g []
  rw [← List.nil_append s,← hexline_append,List.nil_append,List.drop_append,hl,
    List.drop_eq_nil_of_le (by rw [hl]; exact Nat.le_add_right _ _)]
  simp

theorem putRdev_hexline (m u g : Option Word) (s : List Char) (k : Word) :
    (poke (hexline m u g s) 24 (hexencode32 k ++ [Char.ofNat 0])).take 32 =
      hexline m u g (hexencode32 k) := by
  have ht := hexline_take m u g s 0
  rw [Nat.add_zero,List.take_zero] at ht
  rw [poke,ht,hexline_append,hexline_append,hexline_take _ _ _ _ 8]
  simp

theorem Fields.text_length (r : Fields) : 24 ≤ r.text.length ∧ r.text.length ≤ 32 := by
  rw [Fields.text,hexline_length,kdevText_length]
  split_ifs <;> omega

theorem puthexstat_hexline (p : Put) (m u g : Option Word) (tail file : List Char) (len : Nat)
    (hb : hexbuf file p.stack = (hexline m u g tail, len)) :
    puthexstat file p =
      if p.rdev = ⟨0, 0⟩ then
        (hexline (p.modeField m (sscanf08x (hexline m u g tail))) ((given p.uid).or u)
          ((given p.gid).or g) tail).take len ++ file.drop len
      else hexline (p.modeField m (sscanf08x (hexline m u g tail))) ((given p.uid).or u)
        ((given p.gid).or g) (hexencode32 (newEncodeDev p.rdev)) ++ file.drop 32 := by
  rw [puthexstat,hb]
  dsimp only
  rw [putMode_hexline,putId_uid,putId_gid]
  split_ifs
  · rfl
  · dsimp only
    rw [putRdev_hexline]

theorem puthexstat_fresh (p : Put) :
    puthexstat [] p = (Fields.put ⟨none, none, none, none⟩ p none).text := by
  have hb : hexbuf [] p.stack =
      (hexline none none none (Char.ofNat 0 :: p.stack.buf.drop 25), 24) := rfl
  have hs : sscanf08x (Char.ofNat 0 :: p.stack.buf.drop 25) = none := rfl
  rw [puthexstat_hexline p _ _ _ _ _ _ hb,sscanf_hexline,hs,List.drop_nil,List.drop_nil,
    List.append_nil,List.append_nil,hexline_take _ _ _ _ 0,Fields.text,Fields.put,Put.rdev?]
  split_ifs <;> rfl

theorem puthexstat_text (r : Fields) (p : Put) :
    puthexstat r.text p = (r.put p (sscanf08x (p.stack.buf.drop r.text.length))).text := by
  have hl := r.text_length
  have ht : r.text.take 60 = r.text := List.take_of_length_le (by omega)
  have hb : hexbuf r.text p.stack =
      (hexline r.mode r.uid r.gid (kdevText r.kdev ++ p.stack.buf.drop r.text.length),
        r.text.length) := by
    rw [hexbuf,ht,if_neg (by omega),← hexline_append]
    rfl
  have hn : r.text.length = 24 + (kdevText r.kdev).length := hexline_length _ _ _ _
  rw [puthexstat_hexline p _ _ _ _ _ _ hb,sscanf_hexline,sscanf_kdevText,
    List.drop_eq_nil_of_le hl.2,List.drop_length,List.append_nil,List.append_nil]
  conv_lhs => rw [hn,hexline_take,List.take_left' rfl]
  rw [Fields.text,Fields.put,Put.rdev?,hn]
  split_ifs <;> rfl

@[simp] theorem last_nil {α : Type} (f : Put → Option α) : last f [] = none := rfl

@[simp] theorem last_concat {α : Type} (f : Put → Option α) (us : List Put) (u : Put) :
    last f (us ++ [u]) = (f u).or (last f us) := by
  rw [last,List.reverse_append,List.reverse_singleton,List.singleton_append,
    List.findSome?_cons]
  cases f u <;> rfl

theorem exists_of_last {α : Type} {f : Put → Option α} {us : List Put} {a : α}
    (h : last f us = some a) : ∃ u ∈ us, f u = some a := by
  obtain ⟨u,hu,hf⟩ := List.exists_of_findSome?_eq_some h
  exact ⟨u,List.mem_reverse.mp hu,hf⟩

theorem last_perms_type {us : List Put} (h : last Put.perms? us = none) :
    last Put.type? us = none := by
  rw [last,List.findSome?_eq_none_iff] at h ⊢
  intro u hu
  have hm := h u hu
  rw [Put.perms?] at hm
  split_ifs at hm with h0
  rw [Put.type?,h0]
  rfl

def recorded (us : List Put) : Fields where
  mode := (last Put.perms? us).map (· ||| (last Put.type? us).getD 0)
  uid := last (given ·.uid) us
  gid := last (given ·.gid) us
  kdev := (last Put.rdev? us).map newEncodeDev

theorem perms_and {us : List Put} {p : Word} (h : last Put.perms? us = some p) :
    p &&& sIfmt = 0 := by
  obtain ⟨u,_,hu⟩ := exists_of_last h
  rw [Put.perms?,Option.ite_none_left_eq_some] at hu
  rw [← Option.some.inj hu.2,BitVec.and_assoc,BitVec.and_comm (~~~sIfmt),BitVec.and_not_self]
  simp

theorem type_and (us : List Put) :
    (last Put.type? us).getD 0 &&& sIfmt = (last Put.type? us).getD 0 := by
  cases ht : last Put.type? us with
  | none => rfl
  | some t =>
    obtain ⟨u,_,hu⟩ := exists_of_last ht
    rw [Put.type?,Option.ite_none_left_eq_some] at hu
    rw [Option.getD_some,← Option.some.inj hu.2,BitVec.and_assoc,BitVec.and_self]

theorem or_split (m : Word) : m &&& ~~~sIfmt ||| m &&& sIfmt = m := by
  ext i
  simp only [BitVec.getElem_or,BitVec.getElem_and,BitVec.getElem_not]
  cases m[i] <;> cases sIfmt[i] <;> rfl

theorem plain_of_and {m : Word} (h : m &&& sIfmt = 0) : m &&& ~~~sIfmt = m := by
  have hs := or_split m
  rw [h] at hs
  simpa using hs

theorem modeField_last (us : List Put) (p : Put) (scan : Option Word)
    (hs : Spares us p) (hm : ∀ m, (recorded us).mode = some m → scan = some m)
    (hn : last Put.perms? us = none → scan.getD p.stack.word = scanned us p) :
    p.modeField (recorded us).mode scan = (recorded (us ++ [p])).mode := by
  simp only [recorded,last_concat,Put.modeField,Put.perms?,Put.type?]
  by_cases h0 : p.mode = 0
  · simp [h0]
  rw [if_neg h0,if_neg h0]
  by_cases ht : p.mode &&& sIfmt = 0
  · rw [if_pos ht,if_pos ht,plain_of_and ht,Option.some_or,Option.none_or,Option.map_some]
    congr 2
    cases hp : last Put.perms? us with
    | none => rw [hn hp,hs h0 ht hp,last_perms_type hp]; rfl
    | some m =>
      have hx := hm (m ||| (last Put.type? us).getD 0) (by rw [recorded,hp]; rfl)
      rw [hx,Option.getD_some,BitVec.and_or_distrib_right,perms_and hp,type_and]
      simp
  · rw [if_neg ht,if_neg ht,Option.some_or,Option.some_or,Option.map_some,Option.getD_some,
      or_split]

theorem recorded_put (us : List Put) (p : Put) (behind : Option Word) (hs : Spares us p)
    (hn : ((recorded us).kdev.or behind) =
      (recorded us).kdev.or (if us = [] then none else sscanf08x (p.stack.buf.drop 24))) :
    (recorded us).put p behind = recorded (us ++ [p]) := by
  rw [Fields.put,hn,modeField_last us p _ hs]
  · simp only [recorded,last_concat,Option.map_or]
  · intro m hm
    rw [hm,Option.some_or]
  · intro hp
    rw [show (recorded us).mode = none by rw [recorded,hp]; rfl,Option.none_or]
    rfl

def content (us : List Put) : List Char := if us = [] then [] else (recorded us).text

theorem puthexstat_content (us : List Put) (p : Put) (hs : Spares us p) :
    puthexstat (content us) p = content (us ++ [p]) := by
  rw [content,content,if_neg (List.append_ne_nil_of_right_ne_nil us (List.cons_ne_nil p []))]
  by_cases he : us = []
  · subst he
    rw [if_pos rfl,puthexstat_fresh,← recorded_put [] p none hs rfl]
    rfl
  · rw [if_neg he,puthexstat_text,recorded_put us p _ hs]
    cases hk : (recorded us).kdev with
    | some k => rfl
    | none =>
      rw [if_neg he,Fields.text,hexline_length,hk]
      rfl

theorem run_content (vs : List Put) : ∀ us, Clean us vs →
    vs.foldl puthexstat (content us) = content (us ++ vs) := by
  induction vs with
  | nil => intro us _; rw [List.append_nil]; rfl
  | cons p vs ih =>
    intro us hc
    rw [List.foldl_cons,puthexstat_content us p hc.1,ih _ hc.2,List.append_assoc]
    rfl

theorem hexline_getD_uid (m u g : Option Word) (s : List Char) :
    (hexline m u g s).getD 8 ' ' = ' ' ↔ u = none := by
  have hl := field_length m
  rw [hexline,List.getD_append_right _ _ _ _ (by omega),hl]
  exact field_blank u _

theorem hexline_getD_gid (m u g : Option Word) (s : List Char) :
    (hexline m u g s).getD 16 ' ' = ' ' ↔ g = none := by
  have hl := field_length m
  have hu := field_length u
  rw [hexline,List.getD_append_right _ _ _ _ (by omega),hl,
    List.getD_append_right _ _ _ _ (by omega),hu]
  exact field_blank g _

theorem hexline_drop_uid (m u g : Option Word) (s : List Char) :
    (hexline m u g s).drop 8 = field u ++ (field g ++ s) := List.drop_left' (field_length m)

theorem hexline_drop_gid (m u g : Option Word) (s : List Char) :
    (hexline m u g s).drop 16 = field g ++ s := by
  rw [show 16 = 8 + 8 from rfl,← List.drop_drop,hexline_drop_uid]
  exact List.drop_left' (field_length u)

def Fields.apply (r : Fields) (st : Stat) : Stat where
  mode := match r.mode with
    | some m => if m &&& sIfmt = 0 then (st.mode &&& sIfmt) ||| m else m
    | none => st.mode
  uid := r.uid.getD st.uid
  gid := r.gid.getD st.gid
  rdev := (r.kdev.map newDecodeDev).getD st.rdev

theorem scan_field {o : Option Word} {r : List Char} {c : Word} {P : Prop} [Decidable P]
    (h : P ↔ o = none) : (if P then c else (sscanf08x (field o ++ r)).getD c) = o.getD c := by
  cases o with
  | none => rw [if_pos (h.mpr rfl)]; rfl
  | some v => rw [if_neg (fun hp => nomatch h.mp hp),sscanf_field]; rfl

theorem gethexstat_text (r : Fields) (stack : Stack) (st : Stat) :
    gethexstat r.text stack st = r.apply st := by
  have hl := r.text_length
  have ht : r.text.take 60 = r.text := List.take_of_length_le (by omega)
  have hn : r.text.length = 24 + (kdevText r.kdev).length := hexline_length _ _ _ _
  rw [gethexstat,ht]
  dsimp only
  rw [if_neg (by omega),hn,Fields.text,hexline_append,Fields.apply,Stat.mk.injEq]
  refine ⟨?_,?_,?_,?_⟩
  · rw [sscanf_hexline,hexline]
    cases hm : r.mode with
    | none => rw [if_pos ((field_blank _ _).mpr rfl)]
    | some m =>
      rw [if_neg (fun hb => nomatch (field_blank (some m) _).mp hb),Option.some_or,Option.getD_some]
  · rw [hexline_drop_uid]
    exact scan_field (hexline_getD_uid _ _ _ _)
  · rw [hexline_drop_gid]
    exact scan_field (hexline_getD_gid _ _ _ _)
  · rw [hexline_drop _ _ _ _ 0,List.drop_zero,sscanf_kdevText,kdevText_length]
    cases r.kdev with
    | none => rfl
    | some k => rfl

theorem getLsbD_of_lt {v : Word} {n : Nat} (hv : v.toNat < 2 ^ n) (i : Nat) (hn : n ≤ i) :
    v.getLsbD i = false :=
  Nat.testBit_lt_two_pow (hv.trans_le (Nat.pow_le_pow_right (by decide) hn))

theorem byte_mask (i : Nat) : (0xff#32).getLsbD i = decide (i < 8) :=
  Nat.testBit_two_pow_sub_one 8 i

theorem major_mask (i : Nat) :
    (0xfff00#32).getLsbD i = (decide (8 ≤ i) && decide (i < 20)) := by
  rw [show 0xfff00#32 = BitVec.ofNat 32 (2 ^ 12 - 1) <<< 8 from rfl,BitVec.getLsbD_shiftLeft,
    BitVec.getLsbD_ofNat,Nat.testBit_two_pow_sub_one,Bool.eq_iff_iff]
  simp only [Bool.and_eq_true,Bool.not_eq_true',decide_eq_true_eq,decide_eq_false_iff_not]
  omega

theorem newEncodeDev_bit (d : Dev) (i : Nat) (hi : i < 32) : (newEncodeDev d).getLsbD i =
    if i < 8 then d.minor.getLsbD i
    else d.major.getLsbD (i - 8) || (decide (20 ≤ i) && d.minor.getLsbD (i - 12)) := by
  simp only [newEncodeDev,BitVec.getLsbD_and,BitVec.getLsbD_or,
    BitVec.getLsbD_shiftLeft,BitVec.getLsbD_not,byte_mask]
  split_ifs with h
  · simp [h,show i < 12 by omega]
  · by_cases h' : 20 ≤ i
    · simp [h,h',hi,show ¬ i < 12 by omega,show ¬ i - 12 < 8 by omega,
        show i - 12 < 32 by omega]
    · simp [h,h',hi,show i - 12 < 8 by omega]

theorem decode_encode_dev {d : Dev} (hM : d.major < 0x1000) (hm : d.minor < 0x100000) :
    newDecodeDev (newEncodeDev d) = d := by
  have hM' := getLsbD_of_lt (v := d.major) (n := 12) hM
  have hm' := getLsbD_of_lt (v := d.minor) (n := 20) hm
  refine (Dev.mk.injEq _ _ _ _).mpr ⟨?_,?_⟩
  · refine BitVec.eq_of_getLsbD_eq fun i hi => ?_
    rw [BitVec.getLsbD_ushiftRight,BitVec.getLsbD_and,major_mask]
    by_cases h : 12 ≤ i
    · simp [hM' i h,show ¬ 8 + i < 20 by omega]
    · rw [newEncodeDev_bit d _ (by omega)]
      simp [show ¬ 20 ≤ 8 + i by omega,show 8 + i < 20 by omega]
  · refine BitVec.eq_of_getLsbD_eq fun i hi => ?_
    rw [BitVec.getLsbD_or,BitVec.getLsbD_and,BitVec.getLsbD_and,BitVec.getLsbD_ushiftRight,
      byte_mask,major_mask,newEncodeDev_bit d i hi]
    by_cases h : i < 8
    · simp [h]
    · by_cases h' : i < 20
      · have hx := newEncodeDev_bit d (12 + i) (by omega)
        rw [if_neg (by omega),hM' _ (by omega)] at hx
        simp [hx,h,h',show 8 ≤ i by omega,show 20 ≤ 12 + i by omega]
      · simp [h,h',hm' i (by omega)]

theorem apply_recorded (us : List Put) (hr : ∀ u ∈ us, u.InRange) (st : Stat) :
    (recorded us).apply st = lastStat us st := by
  rw [Fields.apply,lastStat,Stat.mk.injEq]
  refine ⟨?_,rfl,rfl,?_⟩
  · cases hp : last Put.perms? us with
    | none => rw [recorded,hp]; rfl
    | some p =>
      have hx : (p ||| (last Put.type? us).getD 0) &&& sIfmt = (last Put.type? us).getD 0 := by
        rw [BitVec.and_or_distrib_right,perms_and hp,type_and]
        simp
      rw [recorded,hp]
      simp only [Option.map_some,hx]
      cases ht : last Put.type? us with
      | none => simp
      | some t =>
        obtain ⟨u,_,hu⟩ := exists_of_last ht
        rw [Put.type?,Option.ite_none_left_eq_some] at hu
        rw [Option.getD_some,if_neg (by rw [← Option.some.inj hu.2]; exact hu.1),BitVec.or_comm]
        rfl
  · rw [recorded]
    cases hd : last Put.rdev? us with
    | none => rfl
    | some d =>
      obtain ⟨u,hu,he⟩ := exists_of_last hd
      rw [Put.rdev?,Option.ite_none_left_eq_some] at he
      have hin := hr u hu
      rw [Put.InRange,Option.some.inj he.2] at hin
      rw [Option.map_some,Option.map_some,decode_encode_dev hin.1 hin.2]

theorem stat_kept_of_clean (us : List Put) (hr : ∀ u ∈ us, u.InRange) (hc : Clean [] us) :
    StatKept us := by
  intro stack st
  have hrun : run us = content us := run_content us [] hc
  rw [hrun,content]
  split_ifs with he
  · subst he
    rfl
  · rw [gethexstat_text,apply_recorded us hr]

def idPut (uid : Word) : Put := ⟨0, uid, unset, ⟨0, 0⟩, ⟨[], 0⟩⟩

def modePut (mode : Word) : Put := ⟨mode, unset, unset, ⟨0, 0⟩, ⟨[], 0⟩⟩

theorem owner_then_mode_kept : StatKept [idPut 1000, modePut 0o755] :=
  stat_kept_of_clean _ (by simp [Put.InRange,idPut,modePut])
    ⟨fun h => absurd rfl h,fun _ _ _ => by decide,trivial⟩

theorem owner_read_as_type :
    ¬ ∀ us : List Put, (∀ u ∈ us, u.InRange) → StatKept us := by
  intro h
  have hx := congrArg Stat.mode (h [idPut 0x4000,modePut 0o755]
    (by simp [Put.InRange,idPut,modePut]) ⟨[],0⟩ ⟨0o100644,0,0,⟨0,0⟩⟩)
  exact absurd hx (by decide)

end ViewOS.Viewfs.Hexstat
