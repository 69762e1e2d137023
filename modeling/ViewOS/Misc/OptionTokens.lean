import Mathlib.Tactic.Common

namespace ViewOS.OptionTokens

def maxargs : Nat := 256

def isQuote (c : Char) : Bool := c == '\'' || c == '"'

def toggle (quote : Option Char) (c : Char) : Option Char :=
  if isQuote c then
    if quote = some c then none else if quote = none then some c else quote
  else quote

-- One option: its text, the quote it ends in and what s points to there. There is none when s has
-- been moved beyond the end of the string.
def scan (quote : Option Char) : List Char → Option (List Char × Option Char × List Char)
  | [] => some ([], quote, [])
  | [c] =>
    if c = ',' ∧ quote = none then some ([], quote, [c]) else some ([c], toggle quote c, [])
  | [c, x] =>
    if c = ',' ∧ quote = none then some ([], quote, [c, x])
    else if c = '\\' then none
    else (scan (toggle quote c) [x]).map fun r => (c :: r.1, r.2)
  | c :: x :: y :: s =>
    if c = ',' ∧ quote = none then some ([], quote, c :: x :: y :: s)
    else if c = '\\' then (scan (toggle quote y) s).map fun r => (c :: x :: y :: r.1, r.2)
    else (scan (toggle quote c) (x :: y :: s)).map fun r => (c :: r.1, r.2)

def tokenize : Nat → Option Char → List Char → Option (List (List Char))
  | 0, _, _ => some []
  | n + 1, quote, s =>
    match scan quote s with
    | none => none
    | some (opt, _, []) => some [opt]
    | some (opt, quote, _ :: s) => (tokenize n quote s).map (opt :: ·)

def sepopts (opts : List Char) : Option (List (List Char)) :=
  if opts = [] then some [] else tokenize maxargs none opts

def viewfsargs (data : List Char) : Option (List (List Char)) := sepopts data

def fuseargs (opts : List Char) : Option (List (List Char)) := sepopts opts

def split : Bool → Option Char → List Char → List (List Char)
  | _, _, [] => [[]]
  | escaped, quote, c :: s =>
    if escaped = false ∧ c = ',' ∧ quote = none then [] :: split false none s
    else
      (split (!escaped && c == '\\') (bif escaped then quote else toggle quote c) s).modifyHead
        (c :: ·)

def options (opts : List Char) : List (List Char) := split false none opts

def Tokenized (opts : List Char) : Prop :=
  viewfsargs opts = some (options opts) ∧ fuseargs opts = some (options opts)

-- Where the scan stands: in the loop's head, on the character after a backslash, or on the next
-- one, which the loop does not look at as a comma or a backslash.
inductive Phase where
  | plain
  | skip
  | loose
  deriving DecidableEq, Repr

def Phase.next (c : Char) (s : List Char) : Phase → Phase
  | .plain => if c = '\\' ∧ s ≠ [] then .skip else .plain
  | .skip => .loose
  | .loose => .plain

def Phase.quoted (quote : Option Char) (c : Char) : Phase → Option Char
  | .skip => quote
  | .plain | .loose => toggle quote c

-- At each comma, the loop ends an option exactly where the rule does; and the string does not end
-- after an escaped character.
def InStep : Phase → Option Char → Bool → Option Char → List Char → Prop
  | phase, _, _, _, [] => phase ≠ .loose
  | phase, quote, escaped, quote', c :: s =>
    (c = ',' → (phase = .plain ∧ quote = none ↔ escaped = false ∧ quote' = none)) ∧
      InStep (phase.next c s) (phase.quoted quote c) (!escaped && c == '\\')
        (bif escaped then quote' else toggle quote' c) s

structure Regular (opts : List Char) : Prop where
  nonempty : opts ≠ []
  inStep : InStep .plain none false none opts
  few : (options opts).length ≤ maxargs

-- No escaped character stands before the end, a comma or a backslash.
def Spaced : List Char → Prop
  | c :: x :: s =>
    if c = '\\' then (∃ y ∈ s.head?, y ≠ ',' ∧ y ≠ '\\') ∧ Spaced s else Spaced (x :: s)
  | _ => True

theorem inStep_of_spaced : ∀ (s : List Char) (quote : Option Char), Spaced s →
    InStep .plain quote false quote s
  | [], _, _ => by simp [InStep]
  | [c], quote, _ => by simp [InStep,Phase.next]
  | c :: x :: s, quote, h => by
    rw [Spaced] at h
    by_cases hc : c = '\\'
    · subst hc
      rw [if_pos rfl] at h
      obtain ⟨⟨y,hy,hcomma,hback⟩,hs⟩ := h
      obtain ⟨s',rfl⟩ := List.head?_eq_some_iff.mp hy
      have hrest := inStep_of_spaced (y :: s') quote hs
      simpa [InStep,Phase.next,Phase.quoted,toggle,isQuote,hcomma,hback] using hrest
    · rw [if_neg hc] at h
      have hrest := inStep_of_spaced (x :: s) (toggle quote c) h
      have hb : (c == '\\') = false := beq_false_of_ne hc
      simpa [InStep,Phase.next,Phase.quoted,hc,hb] using hrest

theorem Spaced.regular {opts : List Char} (h : Spaced opts) (hne : opts ≠ [])
    (hfew : (options opts).length ≤ maxargs) : Regular opts :=
  ⟨hne,inStep_of_spaced opts none h,hfew⟩

def walk : Nat → Phase → Option Char → List Char → Option (List (List Char))
  | _, phase, _, [] => if phase = .loose then none else some [[]]
  | n, phase, quote, c :: s =>
    if phase = .plain ∧ c = ',' ∧ quote = none then
      if n = 0 then some [[]] else (walk (n - 1) .plain none s).map ([] :: ·)
    else (walk n (phase.next c s) (phase.quoted quote c) s).map (List.modifyHead (c :: ·))

section

variable {n : Nat} {phase : Phase} {quote quote' : Option Char} {escaped : Bool} {c : Char}
  {s : List Char}

theorem walk_step (h : ¬(phase = .plain ∧ c = ',' ∧ quote = none)) :
    walk n phase quote (c :: s) =
      (walk n (phase.next c s) (phase.quoted quote c) s).map (List.modifyHead (c :: ·)) := by
  rw [walk,if_neg h]

theorem walk_comma : walk n .plain none (',' :: s) =
    if n = 0 then some [[]] else (walk (n - 1) .plain none s).map ([] :: ·) := by
  rw [walk,if_pos ⟨rfl,rfl,rfl⟩]

theorem tokenize_map {r : Option (List Char × Option Char × List Char)} {t : List Char} :
    (match r.map fun r => (t ++ r.1, r.2) with
      | none => none
      | some (opt, _, []) => some [opt]
      | some (opt, quote, _ :: s) => (tokenize n quote s).map (opt :: ·)) =
    (match r with
      | none => none
      | some (opt, _, []) => some [opt]
      | some (opt, quote, _ :: s) => (tokenize n quote s).map (opt :: ·)).map
        (List.modifyHead (t ++ ·)) := by
  rcases r with _ | ⟨opt,q,_ | ⟨d,s⟩⟩
  · rfl
  · rfl
  · show (tokenize n q s).map _ = ((tokenize n q s).map _).map _
    rw [Option.map_map]
    rfl

theorem scan_comma (s : List Char) : scan none (',' :: s) = some ([], none, ',' :: s) := by
  rcases s with _ | ⟨x,_ | ⟨y,s⟩⟩ <;> simp [scan]

theorem scan_step {x : Char} (hsep : ¬(c = ',' ∧ quote = none)) (hc : c ≠ '\\') :
    scan quote (c :: x :: s) = (scan (toggle quote c) (x :: s)).map fun r => (c :: r.1, r.2) := by
  cases s with
  | nil =>
    conv_lhs => rw [scan,if_neg hsep,if_neg hc]
  | cons y s => rw [scan,if_neg hsep,if_neg hc]

theorem tokenize_step {t s' : List Char} {q : Option Char}
    (h : scan quote s = (scan q s').map fun r => (t ++ r.1, r.2)) :
    tokenize (n + 1) quote s = (tokenize (n + 1) q s').map (List.modifyHead (t ++ ·)) := by
  rw [tokenize,h,tokenize_map,tokenize]

theorem next_of_ne (hc : c ≠ '\\') : Phase.plain.next c s = .plain := if_neg fun h => hc h.1

theorem tokenize_eq_walk (n : Nat) (quote : Option Char) (s : List Char) :
    tokenize (n + 1) quote s = walk n .plain quote s := by
  induction hlen : s.length using Nat.strongRecOn generalizing n quote s with
  | _ m ih =>
  subst hlen
  rcases s with _ | ⟨c,s⟩
  · rfl
  by_cases hsep : c = ',' ∧ quote = none
  · obtain ⟨rfl,rfl⟩ := hsep
    rw [walk_comma,tokenize,scan_comma]
    rcases n with _ | n
    · rfl
    · rw [if_neg (Nat.succ_ne_zero n),Nat.add_sub_cancel,← ih _ (Nat.lt_succ_self _) _ _ _ rfl]
  have hwalk : ¬(Phase.plain = .plain ∧ c = ',' ∧ quote = none) := fun h => hsep h.2
  rw [walk_step hwalk]
  rcases s with _ | ⟨x,s⟩
  · rw [tokenize,scan,if_neg hsep]
    have hnext : Phase.plain.next c [] = .plain := if_neg fun h => h.2 rfl
    rw [hnext]
    rfl
  by_cases hc : c = '\\'
  · subst hc
    have hskip : Phase.plain.next '\\' (x :: s) = .skip := by
      simp [Phase.next]
    rw [hskip,walk_step (by simp)]
    rcases s with _ | ⟨y,s⟩
    · rw [tokenize,scan,if_neg hsep,if_pos rfl]
      rfl
    · rw [walk_step (by simp [Phase.next])]
      have hstep : scan quote ('\\' :: x :: y :: s) =
          (scan (toggle quote y) s).map fun r => (['\\',x,y] ++ r.1, r.2) := by
        rw [scan,if_neg hsep,if_pos rfl]
        rfl
      rw [tokenize_step hstep,ih _ (by simp only [List.length_cons]; omega) n _ _ rfl,
        Option.map_map,Option.map_map]
      refine congrArg (Option.map · _) (funext fun l => ?_)
      cases l <;> rfl
  · rw [tokenize_step (t := [c]) (scan_step hsep hc),ih _ (Nat.lt_succ_self _) n _ _ rfl,
      next_of_ne hc]
    rfl

theorem split_comma (s : List Char) :
    split false none (',' :: s) = [] :: split false none s := by
  rw [split,if_pos ⟨rfl,rfl,rfl⟩]

theorem split_ne_nil (escaped : Bool) (quote : Option Char) (s : List Char) :
    split escaped quote s ≠ [] := by
  induction s generalizing escaped quote with
  | nil => exact List.cons_ne_nil _ _
  | cons c s ih =>
    rw [split]
    split_ifs
    · exact List.cons_ne_nil _ _
    · exact fun h => ih _ _ (List.modifyHead_eq_nil_iff.mp h)

theorem modifyHead_cons_inj {c : Char} {l l' : List (List Char)} :
    l.modifyHead (c :: ·) = l'.modifyHead (c :: ·) ↔ l = l' := by
  constructor
  · intro h
    cases l <;> cases l' <;> simp_all
  · exact congrArg _

theorem nil_cons_ne_modifyHead {c : Char} {l l' : List (List Char)} :
    [] :: l ≠ l'.modifyHead (c :: ·) := by
  cases l' <;> simp

theorem walk_eq_split_iff (n : Nat) (phase : Phase) (quote : Option Char) (escaped : Bool)
    (quote' : Option Char) (s : List Char) :
    walk n phase quote s = some (split escaped quote' s) ↔
      InStep phase quote escaped quote' s ∧ (split escaped quote' s).length ≤ n + 1 := by
  induction s generalizing n phase quote escaped quote' with
  | nil =>
    rw [walk,split,InStep]
    split_ifs with h
    · simp [h]
    · simp [h]
  | cons c s ih =>
    rw [InStep]
    by_cases hcode : phase = .plain ∧ c = ',' ∧ quote = none
    · obtain ⟨rfl,rfl,rfl⟩ := hcode
      rw [walk_comma]
      by_cases hrule : escaped = false ∧ ',' = ',' ∧ quote' = none
      · obtain ⟨rfl,-,rfl⟩ := hrule
        have hsame : ',' = ',' → (Phase.plain = .plain ∧ (none : Option Char) = none ↔
            false = false ∧ (none : Option Char) = none) := fun _ => ⟨fun _ => ⟨rfl,rfl⟩,
              fun _ => ⟨rfl,rfl⟩⟩
        rw [split_comma,and_iff_right hsame,List.length_cons]
        rcases n with _ | n
        · have hne := split_ne_nil false none s
          have hpos := List.length_pos_iff.mpr hne
          rw [if_pos rfl]
          refine iff_of_false (fun h => hne ?_) fun h => ?_
          · exact ((List.cons.inj (Option.some.inj h)).2).symm
          · omega
        · rw [if_neg (Nat.succ_ne_zero n),Nat.add_sub_cancel]
          have hmap : (walk n .plain none s).map ([] :: ·) = some ([] :: split false none s) ↔
              walk n .plain none s = some (split false none s) := by
            cases walk n .plain none s <;> simp
          rw [hmap,ih]
          exact and_congr_right fun _ => ⟨fun h => by omega,fun h => by omega⟩
      · have hdiff : ¬(escaped = false ∧ quote' = none) := fun h => hrule ⟨h.1,rfl,h.2⟩
        rw [split,if_neg hrule]
        refine iff_of_false (fun h => ?_) fun h => hdiff ((h.1.1 rfl).mp ⟨rfl,rfl⟩)
        split_ifs at h
        · exact nil_cons_ne_modifyHead (Option.some.inj h)
        · obtain ⟨l,-,hl⟩ := Option.map_eq_some_iff.mp h
          exact nil_cons_ne_modifyHead hl
    · rw [walk_step hcode]
      by_cases hrule : escaped = false ∧ c = ',' ∧ quote' = none
      · rw [split,if_pos hrule]
        refine iff_of_false (fun h => ?_) fun h => ?_
        · obtain ⟨l,-,hl⟩ := Option.map_eq_some_iff.mp h
          exact nil_cons_ne_modifyHead hl.symm
        · have hplain := (h.1.1 hrule.2.1).mpr ⟨hrule.1,hrule.2.2⟩
          exact hcode ⟨hplain.1,hrule.2.1,hplain.2⟩
      · rw [split,if_neg hrule,List.length_modifyHead]
        have hsame : c = ',' → (phase = .plain ∧ quote = none ↔
            escaped = false ∧ quote' = none) := fun hc =>
          iff_of_false (fun h => hcode ⟨h.1,hc,h.2⟩) fun h => hrule ⟨h.1,hc,h.2⟩
        rw [and_iff_right hsame,← ih]
        constructor
        · intro h
          obtain ⟨l,hl,he⟩ := Option.map_eq_some_iff.mp h
          rw [hl,modifyHead_cons_inj.mp he]
        · intro h
          rw [h]
          rfl

end

theorem tokenized_iff (opts : List Char) : Tokenized opts ↔ Regular opts := by
  have hboth : Tokenized opts ↔ sepopts opts = some (options opts) := and_self_iff
  rw [hboth,sepopts]
  split_ifs with h
  · subst h
    exact iff_of_false (by decide) fun h => h.nonempty rfl
  · have hmax : maxargs = 255 + 1 := rfl
    rw [hmax,tokenize_eq_walk,options,walk_eq_split_iff]
    exact ⟨fun hw => ⟨h,hw.1,hw.2⟩,fun hr => ⟨hr.inStep,hr.few⟩⟩

theorem options_not_tokenized : ¬∀ opts, Tokenized opts := by
  intro h
  exact absurd (h "\\a,b".toList).1 (by decide)

end ViewOS.OptionTokens
