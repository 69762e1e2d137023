import Mathlib.Algebra.Order.Ring.Nat

namespace ViewOS.Viewfs

abbrev Bytes := List UInt8

structure Layers where
  upper : Option Bytes
  lower : Option Bytes
  deleted : Bool
deriving DecidableEq

def Layers.visible (s : Layers) : Option Bytes :=
  s.upper.or (if s.deleted then none else s.lower)

structure Host where
  opensIn : Bool
  opensOut : Bool
  takes : Bool
  takesLower : Bool

structure OpenFlags where
  accmode : Bool
  creat : Bool
  excl : Bool
  trunc : Bool

def resize (length : Nat) (c : Bytes) : Bytes :=
  c.take length ++ List.replicate (length - c.length) 0

def blockSize : Nat := 4096

def maxSize : Nat := 2 ^ 63 - 1

def narrower (truncate readsize : Nat) : Nat :=
  if truncate < readsize then truncate else readsize

-- The loop keeps readsize up to date and still asks for a whole block.
def copyLoop : Nat → Bytes → Nat → Nat → Bytes
  | 0, _, _, _ => []
  | fuel + 1, rest, truncate, readsize =>
    let buf := rest.take blockSize
    if buf = [] then []
    else
      let truncate := (truncate + 2 ^ 64 - buf.length) % 2 ^ 64
      buf ++ copyLoop fuel (rest.drop buf.length) truncate (narrower truncate readsize)

def copyfile (h : Host) (old : Bytes) (new : Option Bytes) (truncate : Nat) : Option Bytes :=
  if h.opensOut then
    some (if h.opensIn then
      copyLoop (old.length + 1) old truncate (narrower truncate blockSize) else [])
  else new

def Layers.copied (s : Layers) (h : Host) (truncate : Nat) : Layers :=
  match s.lower with
  | some old => { s with upper := copyfile h old s.upper truncate }
  | none => s

def viewfsTruncate64 (mincow : Bool) (h : Host) (s : Layers) (length : Nat) : Bool × Layers :=
  match s.upper, s.visible with
  | _, none => (false, s)
  | some c, some _ =>
    if h.takes then (true, { s with upper := some (resize length c) }) else (false, s)
  | none, some c =>
    if mincow && h.takesLower then (true, { s with lower := some (resize length c) })
    else (true, s.copied h length)

def hostOpen (h : Host) (f : OpenFlags) (upper : Option Bytes) : Option Bytes :=
  match upper with
  | some c =>
    if h.takes && !(f.creat && f.excl) then some (if f.trunc then [] else c) else none
  | none => if h.takes && f.creat then some [] else none

def Layers.prepared (s : Layers) (h : Host) (f : OpenFlags) : Layers :=
  if f.accmode && s.upper.isNone && !s.deleted then
    s.copied h (if f.trunc then 0 else maxSize)
  else s

def viewfsOpen (h : Host) (s : Layers) (f : OpenFlags) : Bool × Layers :=
  match hostOpen h f (s.prepared h f).upper with
  | some c => (true, { s.prepared h f with upper := some c, deleted := false })
  | none => (false, s.prepared h f)

def TruncateExact (mincow : Bool) (h : Host) (s : Layers) (length : Nat) : Prop :=
  ∀ c, s.visible = some c → (viewfsTruncate64 mincow h s length).1 = true →
    (viewfsTruncate64 mincow h s length).2.visible = some (resize length c)

def OpenExact (h : Host) (s : Layers) (f : OpenFlags) : Prop :=
  ∀ c, s.visible = some c → (viewfsOpen h s f).1 = true →
    (f.trunc = true → (viewfsOpen h s f).2.visible = some []) ∧
    (f.accmode = true → f.trunc = false → (viewfsOpen h s f).2.visible = some c)

def Host.copies (h : Host) : Bool := h.opensIn && h.opensOut

def TruncateSpared (mincow : Bool) (h : Host) (s : Layers) (length : Nat) : Prop :=
  ∀ c, s.upper = none → s.visible = some c → (mincow && h.takesLower) = false →
    length = if h.opensOut && !h.opensIn then 0 else c.length

def OpenSpared (h : Host) (s : Layers) (f : OpenFlags) : Prop :=
  ∀ c, s.upper = none → s.visible = some c → f.accmode = true → f.trunc = false →
    h.takes = true → (f.creat = true → h.opensOut = true → f.excl = false) →
      (f.creat = false → h.opensOut = true) → h.copies = true ∨ c = []

theorem resize_eq_self {length : Nat} {c : Bytes} : resize length c = c ↔ length = c.length := by
  constructor
  · intro h
    have hl := congrArg List.length h
    simp only [resize,List.length_append,List.length_take,List.length_replicate] at hl
    omega
  · rintro rfl
    simp [resize]

theorem resize_eq_nil {length : Nat} {c : Bytes} : resize length c = [] ↔ length = 0 := by
  constructor
  · intro h
    have hl := congrArg List.length h
    simp only [resize,List.length_append,List.length_take,List.length_replicate,
      List.length_nil] at hl
    omega
  · rintro rfl
    simp [resize]

theorem copyLoop_whole (fuel : Nat) : ∀ (rest : Bytes) (truncate readsize : Nat),
    rest.length < fuel → copyLoop fuel rest truncate readsize = rest := by
  induction fuel with
  | zero => intro rest _ _ h; omega
  | succ fuel ih =>
    intro rest truncate readsize h
    rw [copyLoop]
    split_ifs with he
    · have : rest.length = 0 := by
        have hl := congrArg List.length he
        simp only [List.length_take,List.length_nil,blockSize] at hl
        omega
      exact (List.eq_nil_of_length_eq_zero this).symm
    · have hpos : 0 < (rest.take blockSize).length := List.length_pos_iff.mpr he
      dsimp only
      rw [ih _ _ _ (by rw [List.length_drop]; have := List.length_take_le' blockSize rest; omega),
        List.length_take]
      rcases Nat.le_total blockSize rest.length with hb | hb
      · rw [Nat.min_eq_left hb,List.take_append_drop]
      · rw [Nat.min_eq_right hb,List.drop_length,List.append_nil,List.take_of_length_le hb]

theorem copyfile_eq (h : Host) (old : Bytes) (new : Option Bytes) (truncate : Nat) :
    copyfile h old new truncate =
      if h.opensOut then some (if h.opensIn then old else []) else new := by
  rw [copyfile,copyLoop_whole _ _ _ _ (Nat.lt_succ_self _)]

theorem Layers.lower_of_visible {s : Layers} {c : Bytes} (hu : s.upper = none)
    (hv : s.visible = some c) : s.lower = some c ∧ s.deleted = false := by
  cases hd : s.deleted with
  | true => simp [Layers.visible,hu,hd] at hv
  | false => exact ⟨by simpa [Layers.visible,hu,hd] using hv,rfl⟩

theorem Layers.copied_upper {s : Layers} {c : Bytes} (hl : s.lower = some c) (h : Host)
    (truncate : Nat) : s.copied h truncate =
      { s with upper := if h.opensOut then some (if h.opensIn then c else []) else s.upper } := by
  rw [Layers.copied,hl]
  simp only [copyfile_eq]

theorem truncate_exact_of_upper {mincow : Bool} {h : Host} {s : Layers} {length : Nat} {u : Bytes}
    (hu : s.upper = some u) : TruncateExact mincow h s length := by
  intro c hv hok
  have hc : u = c := by simpa [Layers.visible,hu] using hv
  subst hc
  cases ht : h.takes with
  | false => simp [viewfsTruncate64,hu,hv,ht] at hok
  | true => simp [viewfsTruncate64,hu,ht,Layers.visible]

theorem truncate_exact_of_lower {mincow : Bool} {h : Host} {s : Layers} {length : Nat} {c : Bytes}
    (hu : s.upper = none) (hv : s.visible = some c) :
    TruncateExact mincow h s length ↔ ((mincow && h.takesLower) = false →
      length = if h.opensOut && !h.opensIn then 0 else c.length) := by
  have ⟨hl,hd⟩ := Layers.lower_of_visible hu hv
  have hx : TruncateExact mincow h s length ↔
      (viewfsTruncate64 mincow h s length).2.visible = some (resize length c) := by
    constructor
    · intro he
      exact he c hv (by simp only [viewfsTruncate64,hu,hv]; split_ifs <;> rfl)
    · intro he c' hv' _
      rw [hv] at hv'
      injection hv' with hc
      rw [← hc,he]
  rw [hx]
  simp only [viewfsTruncate64,hu,hv]
  cases hm : mincow && h.takesLower with
  | true => simp [Layers.visible,hd]
  | false =>
    simp only [Bool.false_eq_true,if_false,forall_const,Layers.copied_upper hl]
    cases h.opensOut <;> cases h.opensIn <;>
      simp [Layers.visible,hu,hd,hl,eq_comm (b := resize length c),resize_eq_self,
        resize_eq_nil]

theorem truncate_exact_spared (mincow : Bool) (h : Host) (s : Layers) (length : Nat) :
    TruncateExact mincow h s length ↔ TruncateSpared mincow h s length := by
  cases hu : s.upper with
  | some u =>
    refine iff_of_true (truncate_exact_of_upper hu) fun c hn => ?_
    rw [hu] at hn
    injection hn
  | none =>
    cases hv : s.visible with
    | none =>
      refine iff_of_true (fun c hc => ?_) fun c _ hc => ?_
      · rw [hv] at hc; injection hc
      · rw [hv] at hc; injection hc
    | some c =>
      rw [truncate_exact_of_lower hu hv]
      constructor
      · intro hs c' _ hv' hm
        rw [hv] at hv'
        injection hv' with hc
        rw [← hc]
        exact hs hm
      · exact fun hs => hs c hu hv

theorem hostOpen_trunc {h : Host} {f : OpenFlags} {upper : Option Bytes} {c : Bytes}
    (hf : f.trunc = true) (ho : hostOpen h f upper = some c) : c = [] := by
  cases upper with
  | none =>
    simp only [hostOpen,Option.ite_none_right_eq_some] at ho
    injection ho.2 with hc
    exact hc.symm
  | some u =>
    simp only [hostOpen,hf,if_true,Option.ite_none_right_eq_some] at ho
    injection ho.2 with hc
    exact hc.symm

theorem hostOpen_some {h : Host} {f : OpenFlags} {u c : Bytes} (hf : f.trunc = false) :
    hostOpen h f (some u) = some c ↔
      (h.takes = true ∧ (f.creat = true → f.excl = false)) ∧ u = c := by
  simp only [hostOpen,hf,Option.ite_none_right_eq_some,Bool.false_eq_true,if_false,
    Option.some.injEq]
  cases h.takes <;> cases f.creat <;> cases f.excl <;> simp

theorem hostOpen_none {h : Host} {f : OpenFlags} {c : Bytes} :
    hostOpen h f none = some c ↔ (h.takes = true ∧ f.creat = true) ∧ [] = c := by
  simp only [hostOpen,Option.ite_none_right_eq_some,Bool.and_eq_true,Option.some.injEq]

theorem open_exact_iff_upper (h : Host) (s : Layers) (f : OpenFlags) :
    OpenExact h s f ↔ ∀ c d, s.visible = some c → f.accmode = true → f.trunc = false →
      hostOpen h f (s.prepared h f).upper = some d → d = c := by
  cases ho : hostOpen h f (s.prepared h f).upper with
  | none => simp [OpenExact,viewfsOpen,ho]
  | some d =>
    constructor
    · intro he c d' hv ha ht hd
      have := (he c hv (by rw [viewfsOpen,ho])).2 ha ht
      rw [viewfsOpen,ho] at this
      injection hd with hd
      rw [← hd]
      exact Option.some.inj this
    · intro he c hv _
      rw [viewfsOpen,ho]
      refine ⟨fun ht => ?_,fun ha ht => ?_⟩
      · rw [hostOpen_trunc ht ho]
        rfl
      · rw [he c d hv ha ht rfl]
        rfl

theorem open_exact_spared (h : Host) (s : Layers) (f : OpenFlags) :
    OpenExact h s f ↔ OpenSpared h s f := by
  rw [open_exact_iff_upper]
  cases hu : s.upper with
  | some u =>
    refine iff_of_true (fun c d hv ha ht hd => ?_) fun c hn => ?_
    · have hc : u = c := by simpa [Layers.visible,hu] using hv
      rw [show s.prepared h f = s by simp [Layers.prepared,hu],hu,hostOpen_some ht] at hd
      rw [← hd.2,hc]
    · rw [hu] at hn
      injection hn
  | none =>
    have hp : ∀ c, s.visible = some c → f.accmode = true → (s.prepared h f).upper =
        if h.opensOut then some (if h.opensIn then c else []) else none := by
      intro c hv ha
      have ⟨hl,hd⟩ := Layers.lower_of_visible hu hv
      simp [Layers.prepared,ha,hu,hd,Layers.copied_upper hl]
    constructor
    · intro he c _ hv ha ht hk hx hc
      have hd := fun d => he c d hv ha ht
      rw [hp c hv ha] at hd
      cases ho : h.opensOut with
      | false =>
        simp only [ho,Bool.false_eq_true,if_false,hostOpen_none] at hd
        have hcr : f.creat = true := by
          cases hcr : f.creat with
          | true => rfl
          | false => exact absurd (hc hcr) (by rw [ho]; decide)
        exact .inr (hd [] ⟨⟨hk,hcr⟩,rfl⟩).symm
      | true =>
        simp only [ho,if_true,hostOpen_some ht] at hd
        have := hd _ ⟨⟨hk,fun hcr => hx hcr ho⟩,rfl⟩
        cases hi : h.opensIn with
        | true => exact .inl (by simp [Host.copies,hi,ho])
        | false =>
          rw [hi] at this
          exact .inr this.symm
    · intro hs c d hv ha ht hd
      rw [hp c hv ha] at hd
      cases ho : h.opensOut with
      | false =>
        simp only [ho,Bool.false_eq_true,if_false,hostOpen_none] at hd
        rcases hs c hu hv ha ht hd.1.1 (fun _ h => absurd h (by rw [ho]; decide))
          (fun h => absurd hd.1.2 (by rw [h]; decide)) with hk | hk
        · simp [Host.copies,ho] at hk
        · rw [← hd.2,hk]
      | true =>
        simp only [ho,if_true,hostOpen_some ht] at hd
        rcases hs c hu hv ha ht hd.1.1 (fun hcr _ => hd.1.2 hcr) (fun _ => ho) with hk | hk
        · rw [← hd.2,if_pos (by simpa [Host.copies,ho] using hk)]
        · rw [← hd.2,hk]
          split_ifs <;> rfl

theorem visible_content_iff (mincow : Bool) (h : Host) (s : Layers) (length : Nat)
    (f : OpenFlags) :
    TruncateExact mincow h s length ∧ OpenExact h s f ↔
      TruncateSpared mincow h s length ∧ OpenSpared h s f :=
  and_congr (truncate_exact_spared mincow h s length) (open_exact_spared h s f)

theorem lower_file_not_cut :
    ¬ ∀ (mincow : Bool) (h : Host) (s : Layers) (length : Nat) (f : OpenFlags),
      TruncateExact mincow h s length ∧ OpenExact h s f := by
  intro h
  have hx := (h false ⟨true,true,true,true⟩ ⟨none,some [1,2],false⟩ 1
    ⟨true,false,false,false⟩).1 [1,2] rfl rfl
  exact absurd hx (by decide)

end ViewOS.Viewfs
