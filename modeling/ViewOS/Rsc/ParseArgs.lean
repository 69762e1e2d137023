import Mathlib.Data.List.TakeWhile
import Mathlib.Tactic.Common

namespace ViewOS.Rsc.ParseArgs

inductive ErrReturn where
  | argZeroLength
  | argNeeded
  | argPointless
  | optNotFound
  deriving DecidableEq

structure RscOption where
  name : List Char
  hasArg : Bool
  deriving DecidableEq

inductive Value where
  | present
  | text (arg : List Char)
  deriving DecidableEq

-- The variables by option; none is one that was not assigned.
abbrev Vars := Nat → Option Value

def itemName (str : List Char) : List Char := str.takeWhile (· != '=')

def itemArg (str : List Char) : Option (List Char) := (str.dropWhile (· != '=')).tail?

def firstOpt (name : List Char) : List RscOption → Option (Nat × RscOption)
  | [] => none
  | o :: opts =>
    if name.isPrefixOf o.name then some (0, o)
    else (firstOpt name opts).map fun r => (r.1 + 1, r.2)

def checkArg (o : RscOption) (arg : Option (List Char)) : Except ErrReturn Value :=
  match o.hasArg, arg with
  | true, none => .error .argNeeded
  | false, some _ => .error .argPointless
  | true, some [] => .error .argZeroLength
  | true, some arg => .ok (.text arg)
  | false, none => .ok .present

def parseSingleOpt (opts : List RscOption) (str : List Char) : Except ErrReturn (Nat × Value) :=
  match firstOpt (itemName str) opts with
  | none => .error .optNotFound
  | some (i, o) => (checkArg o (itemArg str)).map fun v => (i, v)

def assign (opts : List RscOption) (vars : Vars) (str : List Char) : Except ErrReturn Vars :=
  (parseSingleOpt opts str).map fun r => Function.update vars r.1 (some r.2)

-- acc is the text from first on; the last character ends an item, a comma too.
def parseLoop (opts : List RscOption) : List Char → List Char → Vars → Except ErrReturn Vars
  | _, [], vars => .ok vars
  | acc, [c], vars => assign opts vars (acc ++ [c])
  | acc, c :: s, vars =>
    if c = ',' then (assign opts vars acc).bind fun vars => parseLoop opts [] s vars
    else parseLoop opts (acc ++ [c]) s vars

def rscParseOpt (initArgs : List Char) (opts : List RscOption) : Except ErrReturn Vars :=
  parseLoop opts [] initArgs fun _ => none

def items (s : List Char) : List (List Char) := if s = [] then [] else s.splitOn ','

def Fits (o : RscOption) : Option (List Char) → Prop
  | none => o.hasArg = false
  | some arg => o.hasArg = true ∧ arg ≠ []

def Bad (opts : List RscOption) (str : List Char) : Prop :=
  (∀ o ∈ opts, o.name ≠ itemName str) ∨ ∃ o ∈ opts, o.name = itemName str ∧ ¬Fits o (itemArg str)

def itemValue (str : List Char) : Value := (itemArg str).elim .present .text

def pick (name : List Char) (v : Option Value) (str : List Char) : Option Value :=
  if itemName str = name then some (itemValue str) else v

def lastValue (name : List Char) (strs : List (List Char)) : Option Value :=
  strs.foldl (pick name) none

structure Parses (s : List Char) (opts : List RscOption) : Prop where
  fails : (∃ e, rscParseOpt s opts = .error e) ↔ ∃ str ∈ items s, Bad opts str
  values : ∀ vars, rscParseOpt s opts = .ok vars →
    ∀ i o, opts[i]? = some o → vars i = lastValue o.name (items s)

def cuts : List Char → List Char → List (List Char)
  | _, [] => []
  | acc, [c] => [acc ++ [c]]
  | acc, c :: s => if c = ',' then acc :: cuts [] s else cuts (acc ++ [c]) s

-- The option that is the first one to have the name as a prefix.
structure First (opts : List RscOption) (name : List Char) (i : Nat) (o : RscOption) : Prop where
  get : opts[i]? = some o
  found : name <+: o.name
  earlier : ∀ k < i, ∀ o', opts[k]? = some o' → ¬name <+: o'.name

def Rejected (opts : List RscOption) (str : List Char) : Prop :=
  (∀ o ∈ opts, ¬itemName str <+: o.name) ∨
    ∃ i o, First opts (itemName str) i o ∧ ¬Fits o (itemArg str)

structure Exact (opts : List RscOption) (str : List Char) (i : Nat) (o : RscOption) : Prop where
  first : First opts (itemName str) i o
  name : o.name = itemName str
  only : ∀ k o', opts[k]? = some o' → o'.name = itemName str → k = i
  fits : Fits o (itemArg str)

section Parse

variable {opts : List RscOption} {s str acc name : List Char} {strs : List (List Char)}
  {vars vars' : Vars} {i j : Nat} {o : RscOption} {v : Value}

theorem parseLoop_eq (acc s : List Char) (vars : Vars) :
    parseLoop opts acc s vars = (cuts acc s).foldlM (assign opts) vars := by
  induction s generalizing acc vars with
  | nil => rfl
  | cons c s ih =>
    cases s with
    | nil =>
      simp only [parseLoop,cuts,List.foldlM_cons,List.foldlM_nil]
      exact (bind_pure _).symm
    | cons c' s =>
      simp only [parseLoop,cuts]
      split
      · rw [List.foldlM_cons]
        exact congrArg _ (funext fun vars => ih [] vars)
      · exact ih _ _

theorem splitOn_cons (c : Char) (s : List Char) : (c :: s).splitOn ',' =
    if c = ',' then [] :: s.splitOn ',' else (s.splitOn ',').modifyHead (c :: ·) := by
  rw [List.splitOn,List.splitOnP_cons_eq_if_modifyHead]
  simp [List.splitOn]

theorem splitOn_append (acc : List Char) (c : Char) (s : List Char) :
    ((s.splitOn ',').modifyHead (c :: ·)).modifyHead (acc ++ ·) =
      (s.splitOn ',').modifyHead (acc ++ [c] ++ ·) := by
  cases s.splitOn ',' with
  | nil => rfl
  | cons w ws => simp

theorem not_mem_of_mem_splitOn (h : str ∈ s.splitOn ',') : ',' ∉ str := by
  induction s generalizing str with
  | nil =>
    have hnil : str = [] := by simpa [List.splitOn] using h
    simp [hnil]
  | cons c s ih =>
    rw [splitOn_cons] at h
    split at h
    · rcases List.mem_cons.mp h with rfl | hmem
      · simp
      · exact ih hmem
    · cases hws : s.splitOn ',' with
      | nil => simp [hws] at h
      | cons w ws =>
        rw [hws] at h ih
        rcases List.mem_cons.mp h with rfl | hmem
        · have hw := ih List.mem_cons_self
          simp_all [eq_comm]
        · exact ih (List.mem_cons_of_mem _ hmem)

theorem cuts_of_last (hne : s ≠ []) (hlast : s.getLast? ≠ some ',') :
    cuts acc s = (s.splitOn ',').modifyHead (acc ++ ·) := by
  induction s generalizing acc with
  | nil => exact absurd rfl hne
  | cons c s ih =>
    cases s with
    | nil =>
      have hc : c ≠ ',' := by simpa using hlast
      rw [splitOn_cons,if_neg hc]
      simp [cuts,List.splitOn]
    | cons c' s =>
      have htail : (c' :: s).getLast? ≠ some ',' := by simpa using hlast
      rw [splitOn_cons,cuts]
      · split
        · rw [ih (by simp) htail]
          cases (c' :: s).splitOn ',' with
          | nil => simp
          | cons w ws => simp
        · rw [ih (by simp) htail,splitOn_append]
      · simp

theorem cuts_eq_items (hlast : s.getLast? ≠ some ',') : cuts [] s = items s := by
  rw [items]
  split
  · simp_all [cuts]
  · rw [cuts_of_last (by assumption) hlast]
    cases s.splitOn ',' with
    | nil => rfl
    | cons w ws => rfl

theorem cuts_comma (acc s : List Char) :
    ∃ strs str, cuts acc (s ++ [',']) = strs ++ [str ++ [',']] := by
  induction s generalizing acc with
  | nil => exact ⟨[],acc,rfl⟩
  | cons c s ih =>
    have hne : s ++ [','] ≠ [] := by simp
    obtain ⟨c',s',hs⟩ := List.exists_cons_of_ne_nil hne
    rw [List.cons_append]
    rw [hs] at ih ⊢
    rw [cuts]
    · split
      · obtain ⟨strs,str,h⟩ := ih []
        exact ⟨acc :: strs,str,by rw [h]; rfl⟩
      · exact ih (acc ++ [c])
    · simp

theorem firstOpt_eq (name : List Char) (opts : List RscOption) : firstOpt name opts =
    (opts.findIdx? fun o => name.isPrefixOf o.name).bind fun i => opts[i]?.map fun o => (i, o) := by
  induction opts with
  | nil => rfl
  | cons o opts ih =>
    rw [firstOpt,List.findIdx?_cons,ih]
    split
    · rfl
    · cases opts.findIdx? fun o => name.isPrefixOf o.name with
      | none => rfl
      | some i => simp [Option.map_map,Function.comp_def]

theorem firstOpt_eq_some : firstOpt name opts = some (i, o) ↔ First opts name i o := by
  rw [firstOpt_eq,Option.bind_eq_some_iff]
  constructor
  · rintro ⟨k,hk,hget⟩
    obtain ⟨o',ho',heq⟩ := Option.map_eq_some_iff.mp hget
    obtain ⟨rfl,rfl⟩ := Prod.mk.inj heq
    obtain ⟨hlt,hpre,hmin⟩ := List.findIdx?_eq_some_iff_getElem.mp hk
    obtain ⟨_,rfl⟩ := List.getElem?_eq_some_iff.mp ho'
    refine ⟨ho',List.isPrefixOf_iff_prefix.mp hpre,fun j hj o'' ho'' hname => ?_⟩
    obtain ⟨_,rfl⟩ := List.getElem?_eq_some_iff.mp ho''
    exact hmin j hj (List.isPrefixOf_iff_prefix.mpr hname)
  · rintro ⟨ho,hname,hmin⟩
    obtain ⟨hlt,rfl⟩ := List.getElem?_eq_some_iff.mp ho
    refine ⟨i,List.findIdx?_eq_some_iff_getElem.mpr ⟨hlt,List.isPrefixOf_iff_prefix.mpr hname,
      fun j hj hpre => ?_⟩,by rw [ho]; rfl⟩
    exact hmin j hj _ (List.getElem?_eq_getElem _) (List.isPrefixOf_iff_prefix.mp hpre)

theorem firstOpt_eq_none : firstOpt name opts = none ↔ ∀ o ∈ opts, ¬name <+: o.name := by
  rw [firstOpt_eq,Option.bind_eq_none_iff]
  constructor
  · intro h o ho hpre
    have hany : (opts.any fun o => name.isPrefixOf o.name) = true :=
      List.any_eq_true.mpr ⟨o,ho,List.isPrefixOf_iff_prefix.mpr hpre⟩
    obtain ⟨i,hi⟩ := Option.isSome_iff_exists.mp (List.findIdx?_isSome.trans hany)
    have hlt := (List.findIdx?_eq_some_iff_getElem.mp hi).1
    simpa [List.getElem?_eq_getElem hlt] using h i hi
  · intro h i hi
    obtain ⟨hlt,hpre,-⟩ := List.findIdx?_eq_some_iff_getElem.mp hi
    exact absurd (List.isPrefixOf_iff_prefix.mp hpre) (h _ (List.getElem_mem hlt))

theorem checkArg_eq_ok {arg : Option (List Char)} :
    checkArg o arg = .ok v ↔ Fits o arg ∧ v = arg.elim .present .text := by
  obtain ⟨oname,hasArg⟩ := o
  cases hasArg with
  | false =>
    cases arg with
    | none => simp [checkArg,Fits,eq_comm]
    | some arg => simp [checkArg,Fits]
  | true =>
    cases arg with
    | none => simp [checkArg,Fits]
    | some arg =>
      cases arg with
      | nil => simp [checkArg,Fits]
      | cons c arg => simp [checkArg,Fits,eq_comm]

theorem parseSingleOpt_eq_ok : parseSingleOpt opts str = .ok (i, v) ↔
    ∃ o, firstOpt (itemName str) opts = some (i, o) ∧ Fits o (itemArg str) ∧
      v = itemValue str := by
  rw [parseSingleOpt]
  cases hfirst : firstOpt (itemName str) opts with
  | none => simp
  | some r =>
    obtain ⟨k,o⟩ := r
    constructor
    · intro h
      cases hcheck : checkArg o (itemArg str) with
      | error e => simp [hcheck,Except.map] at h
      | ok w =>
        obtain ⟨rfl,rfl⟩ : k = i ∧ w = v := by simpa [hcheck,Except.map] using h
        exact ⟨o,rfl,checkArg_eq_ok.mp hcheck⟩
    · rintro ⟨o',heq,hfits,hv⟩
      obtain ⟨rfl,rfl⟩ : k = i ∧ o = o' := by simpa using heq
      have hcheck := checkArg_eq_ok.mpr ⟨hfits,hv⟩
      simp [hcheck,Except.map]

theorem rejected_iff : Rejected opts str ↔ ¬∃ r, parseSingleOpt opts str = .ok r := by
  have hok : (∃ r, parseSingleOpt opts str = .ok r) ↔
      ∃ i o, First opts (itemName str) i o ∧ Fits o (itemArg str) := by
    simp [parseSingleOpt_eq_ok,firstOpt_eq_some]
  rw [hok,Rejected,← firstOpt_eq_none]
  simp only [← firstOpt_eq_some]
  cases firstOpt (itemName str) opts with
  | none => simp
  | some r => simp [Prod.ext_iff]

theorem assign_eq_ok : assign opts vars str = .ok vars' ↔
    ∃ i v, parseSingleOpt opts str = .ok (i, v) ∧ vars' = Function.update vars i (some v) := by
  rw [assign]
  cases parseSingleOpt opts str with
  | error e => simp [Except.map]
  | ok r => simp [Except.map,eq_comm,Prod.ext_iff]

theorem foldlM_cons_ok : (str :: strs).foldlM (assign opts) vars = .ok vars' ↔
    ∃ i v, parseSingleOpt opts str = .ok (i, v) ∧
      strs.foldlM (assign opts) (Function.update vars i (some v)) = .ok vars' := by
  rw [List.foldlM_cons]
  constructor
  · intro h
    cases hassign : assign opts vars str with
    | error e =>
      rw [hassign] at h
      exact absurd h (by simp [bind,Except.bind])
    | ok vars₁ =>
      obtain ⟨i,v,hsingle,rfl⟩ := assign_eq_ok.mp hassign
      rw [hassign] at h
      exact ⟨i,v,hsingle,h⟩
  · rintro ⟨i,v,hsingle,h⟩
    rw [assign_eq_ok.mpr ⟨i,v,hsingle,rfl⟩]
    exact h

theorem foldlM_ok_iff :
    (∃ vars', strs.foldlM (assign opts) vars = .ok vars') ↔
      ∀ str ∈ strs, ∃ r, parseSingleOpt opts str = .ok r := by
  induction strs generalizing vars with
  | nil => exact ⟨fun _ _ h => absurd h List.not_mem_nil,fun _ => ⟨vars,rfl⟩⟩
  | cons str strs ih =>
    simp only [foldlM_cons_ok,List.forall_mem_cons]
    constructor
    · rintro ⟨vars',i,v,hsingle,h⟩
      exact ⟨⟨_,hsingle⟩,ih.mp ⟨vars',h⟩⟩
    · rintro ⟨⟨⟨i,v⟩,hsingle⟩,h⟩
      obtain ⟨vars',hok⟩ := ih.mpr h
      exact ⟨vars',i,v,hsingle,hok⟩

theorem foldlM_source (h : strs.foldlM (assign opts) vars = .ok vars') (hj : vars' j = some v) :
    vars j = some v ∨ ∃ str ∈ strs, parseSingleOpt opts str = .ok (j, v) := by
  induction strs generalizing vars with
  | nil =>
    obtain rfl : vars = vars' := Except.ok.inj h
    exact Or.inl hj
  | cons str strs ih =>
    obtain ⟨i,w,hsingle,hrest⟩ := foldlM_cons_ok.mp h
    rcases ih hrest with hupd | ⟨str',hmem,hstr'⟩
    · rcases eq_or_ne j i with rfl | hne
      · rw [Function.update_self] at hupd
        exact Or.inr ⟨str,List.mem_cons_self,Option.some.inj hupd ▸ hsingle⟩
      · rw [Function.update_of_ne hne] at hupd
        exact Or.inl hupd
    · exact Or.inr ⟨str',List.mem_cons_of_mem _ hmem,hstr'⟩

theorem foldlM_last (h : (strs ++ [str]).foldlM (assign opts) vars = .ok vars') :
    ∃ i v, parseSingleOpt opts str = .ok (i, v) ∧ vars' i = some v := by
  induction strs generalizing vars with
  | nil =>
    obtain ⟨i,v,hsingle,hrest⟩ := foldlM_cons_ok.mp h
    obtain rfl := Except.ok.inj hrest
    exact ⟨i,v,hsingle,Function.update_self ..⟩
  | cons str' strs ih =>
    obtain ⟨i,v,-,hrest⟩ := foldlM_cons_ok.mp h
    exact ih hrest

theorem Exact.single (h : Exact opts str i o) :
    parseSingleOpt opts str = .ok (i, itemValue str) :=
  parseSingleOpt_eq_ok.mpr ⟨o,firstOpt_eq_some.mpr h.first,h.fits,rfl⟩

theorem foldlM_exact (hstrs : ∀ str ∈ strs, ∃ i o, Exact opts str i o)
    (h : strs.foldlM (assign opts) vars = .ok vars') (hj : opts[j]? = some o) :
    vars' j = strs.foldl (pick o.name) (vars j) := by
  induction strs generalizing vars with
  | nil =>
    obtain rfl : vars = vars' := Except.ok.inj h
    rfl
  | cons str strs ih =>
    obtain ⟨i,o',hexact⟩ := hstrs str List.mem_cons_self
    obtain ⟨i',v,hsingle,hrest⟩ := foldlM_cons_ok.mp h
    obtain ⟨rfl,rfl⟩ : i = i' ∧ itemValue str = v := by simpa [hexact.single] using hsingle
    rw [ih (fun str' hmem => hstrs str' (List.mem_cons_of_mem _ hmem)) hrest,List.foldl_cons]
    congr 1
    rcases eq_or_ne j i with rfl | hne
    · have ho := hexact.first.get
      have hname : itemName str = o.name := by
        rw [Option.some.inj (hj.symm.trans ho)]
        exact hexact.name.symm
      rw [Function.update_self,pick,if_pos hname]
    · have hname : itemName str ≠ o.name := fun heq => hne (hexact.only j o hj heq.symm)
      rw [Function.update_of_ne hne,pick,if_neg hname]

theorem foldl_pick_eq_some {w : Option Value} (h : strs.foldl (pick name) w = some v) :
    w = some v ∨ ∃ str ∈ strs, itemName str = name ∧ itemValue str = v := by
  induction strs generalizing w with
  | nil => exact Or.inl h
  | cons str strs ih =>
    rcases ih h with hw | ⟨str',hmem,hstr'⟩
    · rw [pick] at hw
      split at hw
      · rename_i hname
        exact Or.inr ⟨str,List.mem_cons_self,hname,Option.some.inj hw⟩
      · exact Or.inl hw
    · exact Or.inr ⟨str',List.mem_cons_of_mem _ hmem,hstr'⟩

theorem foldl_pick_ne_none {w : Option Value}
    (h : w ≠ none ∨ ∃ str ∈ strs, itemName str = name) : strs.foldl (pick name) w ≠ none := by
  induction strs generalizing w with
  | nil => simpa using h
  | cons str strs ih =>
    apply ih
    rw [pick]
    rcases h with hw | ⟨str',hmem,hstr'⟩
    · left
      split
      · simp
      · exact hw
    · rcases List.mem_cons.mp hmem with rfl | hmem
      · left
        rw [if_pos hstr']
        simp
      · exact Or.inr ⟨str',hmem,hstr'⟩

theorem itemName_subset (str : List Char) : itemName str ⊆ str :=
  (List.takeWhile_prefix _).subset

theorem itemValue_comma (hcomma : ',' ∉ str) (arg : List Char) :
    itemValue str ≠ .text (arg ++ [',']) := by
  intro h
  have harg : itemArg str = some (arg ++ [',']) := by
    cases hi : itemArg str with
    | none => simp [itemValue,hi] at h
    | some arg' => simpa [itemValue,hi] using h
  have hmem : ',' ∈ str.dropWhile (· != '=') := by
    cases hd : str.dropWhile (· != '=') with
    | nil => simp [itemArg,hd] at harg
    | cons c l =>
      have hl : l = arg ++ [','] := by simpa [itemArg,hd] using harg
      simp [hl]
  exact hcomma ((List.dropWhile_suffix _).subset hmem)

-- An item that ends in a comma gives an option what no item of the string gives it.
theorem comma_single (h : parseSingleOpt opts (str ++ [',']) = .ok (i, v)) {str' : List Char}
    (hcomma : ',' ∉ str') (ho : opts[i]? = some o) (hname : itemName str' = o.name) :
    itemValue str' ≠ v := by
  obtain ⟨o',hfirst,-,rfl⟩ := parseSingleOpt_eq_ok.mp h
  obtain ⟨ho',hpre,-⟩ := firstOpt_eq_some.mp hfirst
  obtain rfl : o' = o := Option.some.inj (ho'.symm.trans ho)
  cases hd : str.dropWhile (· != '=') with
  | nil =>
    have hall : itemName (str ++ [',']) = str ++ [','] := by
      refine List.takeWhile_eq_self_iff.mpr fun c hc => ?_
      rcases List.mem_append.mp hc with hc | hc
      · exact List.dropWhile_eq_nil_iff.mp hd c hc
      · rw [List.mem_singleton.mp hc]
        rfl
    rw [hall,← hname] at hpre
    exact absurd (itemName_subset _ (hpre.subset (by simp))) hcomma
  | cons c arg =>
    have harg : itemArg (str ++ [',']) = some (arg ++ [',']) := by
      simp [itemArg,List.dropWhile_append,hd]
    have hvalue : itemValue (str ++ [',']) = .text (arg ++ [',']) := by rw [itemValue,harg]; rfl
    rw [hvalue]
    exact itemValue_comma hcomma arg

theorem parse_comma (h : rscParseOpt (s ++ [',']) opts = .ok vars) :
    ∃ i o, opts[i]? = some o ∧ vars i ≠ lastValue o.name (items (s ++ [','])) := by
  rw [rscParseOpt,parseLoop_eq] at h
  obtain ⟨strs,str,hcuts⟩ := cuts_comma [] s
  rw [hcuts] at h
  obtain ⟨i,v,hsingle,hv⟩ := foldlM_last h
  obtain ⟨o,hfirst,-,-⟩ := parseSingleOpt_eq_ok.mp hsingle
  have ho := (firstOpt_eq_some.mp hfirst).1
  refine ⟨i,o,ho,fun heq => ?_⟩
  rcases foldl_pick_eq_some (heq.symm.trans hv) with hnone | ⟨str',hmem,hname,hvalue⟩
  · exact absurd hnone (by simp)
  · have hitem : str' ∈ (s ++ [',']).splitOn ',' := by simpa [items] using hmem
    exact comma_single hsingle (not_mem_of_mem_splitOn hitem) ho hname hvalue

theorem Parses.exact (hlast : s.getLast? ≠ some ',') (h : Parses s opts)
    (hok : rscParseOpt s opts = .ok vars) (hstr : str ∈ items s) (hgood : ¬Bad opts str) :
    ∃ i o, Exact opts str i o := by
  have hfold := hok
  rw [rscParseOpt,parseLoop_eq,cuts_eq_items hlast] at hfold
  obtain ⟨⟨i,v⟩,hsingle⟩ := foldlM_ok_iff.mp ⟨vars,hfold⟩ str hstr
  obtain ⟨o,hfirst,hfits,-⟩ := parseSingleOpt_eq_ok.mp hsingle
  obtain ⟨ho,hpre,hmin⟩ := firstOpt_eq_some.mp hfirst
  -- The first match of the item that set option k is no earlier than the one of this item.
  have honly : ∀ k o', opts[k]? = some o' → o'.name = itemName str → k = i := by
    intro k o' ho' hname
    have hne : vars k ≠ none := by
      rw [h.values vars hok k o' ho']
      exact foldl_pick_ne_none (Or.inr ⟨str,hstr,hname.symm⟩)
    obtain ⟨w,hw⟩ := Option.ne_none_iff_exists'.mp hne
    rcases foldlM_source hfold hw with hnone | ⟨str',-,hsingle'⟩
    · exact absurd hnone (by simp)
    · obtain ⟨o'',hfirst',-,-⟩ := parseSingleOpt_eq_ok.mp hsingle'
      obtain ⟨ho'',hpre',hmin'⟩ := firstOpt_eq_some.mp hfirst'
      obtain rfl : o' = o'' := Option.some.inj (ho'.symm.trans ho'')
      rcases Nat.lt_trichotomy k i with hlt | heq | hgt
      · exact absurd (hname ▸ List.prefix_rfl) (hmin k hlt o' ho')
      · exact heq
      · exact absurd ((hname ▸ hpre').trans hpre) (hmin' i hgt o ho)
  obtain ⟨o',hmem,hname⟩ : ∃ o' ∈ opts, o'.name = itemName str := by
    simpa using (not_or.mp hgood).1
  obtain ⟨k,hk⟩ := List.getElem?_of_mem hmem
  obtain rfl := honly k o' hk hname
  obtain rfl : o' = o := Option.some.inj (hk.symm.trans ho)
  exact ⟨k,o',firstOpt_eq_some.mp hfirst,hname,honly,hfits⟩

theorem exists_error_iff {E A : Type} {x : Except E A} :
    (∃ e, x = .error e) ↔ ¬∃ a, x = .ok a := by
  cases x with
  | error e => simp
  | ok a => simp

theorem parse_error_iff : (∃ e, rscParseOpt s opts = .error e) ↔
    ∃ str ∈ cuts [] s, Rejected opts str := by
  simp only [exists_error_iff,rscParseOpt,parseLoop_eq,foldlM_ok_iff,not_forall,exists_prop,
    rejected_iff]

theorem Exact.not_bad (h : Exact opts str i o) : ¬Bad opts str := by
  have ho := h.first.get
  rintro (hnone | ⟨o',hmem,hname,hfits⟩)
  · exact hnone o (List.mem_of_getElem? ho) h.name
  · obtain ⟨k,hk⟩ := List.getElem?_of_mem hmem
    obtain rfl := h.only k o' hk hname
    obtain rfl : o' = o := Option.some.inj (hk.symm.trans ho)
    exact hfits h.fits

theorem parses_of_exact (hlast : s.getLast? ≠ some ',')
    (h : ∀ str ∈ items s, ∃ i o, Exact opts str i o) : Parses s opts := by
  refine ⟨?_,fun vars hok i o ho => ?_⟩
  · rw [parse_error_iff,cuts_eq_items hlast]
    constructor
    · rintro ⟨str,hmem,hrej⟩
      obtain ⟨i,o,hexact⟩ := h str hmem
      exact absurd ⟨_,hexact.single⟩ (rejected_iff.mp hrej)
    · rintro ⟨str,hmem,hbad⟩
      obtain ⟨i,o,hexact⟩ := h str hmem
      exact absurd hbad hexact.not_bad
  · rw [rscParseOpt,parseLoop_eq,cuts_eq_items hlast] at hok
    exact foldlM_exact h hok ho

end Parse

theorem parse_opt_iff (s : List Char) (opts : List RscOption) : Parses s opts ↔
    ((∃ str ∈ items s, Bad opts str) ∧ ∃ str ∈ cuts [] s, Rejected opts str) ∨
    (s.getLast? ≠ some ',' ∧ ∀ str ∈ items s, ∃ i o, Exact opts str i o) := by
  constructor
  · intro h
    cases hres : rscParseOpt s opts with
    | error e => exact Or.inl ⟨h.fails.mp ⟨e,hres⟩,parse_error_iff.mp ⟨e,hres⟩⟩
    | ok vars =>
      have hgood : ∀ str ∈ items s, ¬Bad opts str := by
        intro str hmem hbad
        obtain ⟨e,he⟩ := h.fails.mpr ⟨str,hmem,hbad⟩
        exact absurd (hres.symm.trans he) (by simp)
      have hlast : s.getLast? ≠ some ',' := by
        intro hcomma
        obtain ⟨s',rfl⟩ := List.getLast?_eq_some_iff.mp hcomma
        obtain ⟨i,o,ho,hne⟩ := parse_comma hres
        exact hne (h.values vars hres i o ho)
      exact Or.inr ⟨hlast,fun str hmem => h.exact hlast hres hmem (hgood str hmem)⟩
  · rintro (⟨hbad,herror⟩ | ⟨hlast,hexact⟩)
    · obtain ⟨e,he⟩ := parse_error_iff.mpr herror
      exact ⟨⟨fun _ => hbad,fun _ => ⟨e,he⟩⟩,fun vars hok =>
        absurd (he.symm.trans hok) (by simp)⟩
    · exact parses_of_exact hlast hexact

theorem parse_opt_prefix_found : ¬∀ s opts, Parses s opts := by
  intro h
  have hfails := (h ['f'] [⟨['f', 'd'], false⟩]).fails
  obtain ⟨e,he⟩ := hfails.mpr ⟨['f'],List.mem_cons_self,Or.inl (by decide)⟩
  exact absurd he (by simp [rscParseOpt,parseLoop,assign,parseSingleOpt,itemName,itemArg,firstOpt,
    checkArg,Except.map,List.dropWhile])

end ViewOS.Rsc.ParseArgs
