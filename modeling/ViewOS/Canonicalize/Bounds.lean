import ViewOS.Canonicalize.Iterate

namespace ViewOS.Canonicalize

structure Turn where
  dest : Path
  recoutput : Ret
  cdata : Canonstruct

def turns (cfg : Config) : Nat → Path → Ret → Canonstruct → List Turn
  | 0, _, _, _ => []
  | fuel + 1, dest, recoutput, c =>
    ⟨dest, recoutput, c⟩ ::
      match iterate cfg dest recoutput c with
      | .again c => turns cfg fuel dest recoutput c
      | .ret _ _ => []
      | .enter newdest c =>
        turns cfg fuel newdest .root c ++
          match recRealpath cfg fuel newdest .root c with
          | some (.dotdot, c) => turns cfg fuel dest .dotdot c
          | some (.root, c) =>
            if cfg.rootlen < dest.length then [] else turns cfg fuel dest .root c
          | _ => []

namespace Turn

variable (cfg : Config) (t : Turn)

def comp : Path := component t.cdata.start

def rest : Path := remainder t.cdata.start

def newdest : Path := addComponent t.dest t.comp

def looked : Canonstruct :=
  if t.recoutput ≠ .ok then
    lstatDir cfg t.dest (t.recoutput = .dotdot) { t.cdata with resolved := t.dest }
  else { t.cdata with resolved := t.dest }

def Appends : Prop := Ordinary t.comp ∧ t.dest.length + t.comp.length ≤ pathMax

instance : Decidable t.Appends := inferInstanceAs (Decidable (_ ∧ _))

def expansion : Option Path :=
  if t.Appends ∧ (t.rest ≠ [] ∨ !cfg.dontfollowlink) ∧ cfg.rootlen < t.dest.length ∧
      t.cdata.numLinks < maxSymlinks then
    let calls := (t.looked cfg).calls
    match cfg.env.lstat calls t.newdest with
    | .ok .link =>
      match cfg.env.readlink (calls ++ [.lstat t.newdest false]) t.newdest with
      | .ok target => some (target.take (pathMax - 1) ++ t.rest)
      | .error _ => none
    | _ => none
  else none

def resolvedWrites : List Nat :=
  t.dest.length ::
    if t.Appends then List.range' t.dest.length (t.newdest.length + 1 - t.dest.length) else []

def ebufWrites : List Nat :=
  match t.expansion cfg with
  | some text => if text.length < pathMax then List.range (text.length + 1) else []
  | none => []

def Squeezed : Prop := t.Appends ∧ pathMax ≤ t.newdest.length

instance : Decidable t.Squeezed := inferInstanceAs (Decidable (_ ∧ _))

def TooLong : Prop :=
  Ordinary t.comp ∧ pathMax ≤ t.newdest.length ∨
    ∃ text, t.expansion cfg = some text ∧ pathMax ≤ text.length

end Turn

structure Plan where
  base : Path
  rootlen : Nat
  name : Path
  text : Path

def plan (root : Path) (name cwd : Option Path) (stale : Path) : Option Plan :=
  match name with
  | none => none
  | some [] => none
  | some name =>
    if name.head? = some '/' then
      some ⟨addSlash root, (addSlash root).length, name, name.drop 1⟩
    else cwd.map fun cwd => ⟨addSlash cwd, relativeRootlen root cwd stale, name, name⟩

namespace Plan

variable (env : Env) (dontfollowlink : Bool) (p : Plan)

def cfg : Config := ⟨env, p.rootlen, dontfollowlink⟩

def ebuf : Path := cancelTrailingSlash (p.base ++ p.text)

def Fits : Prop := p.base.length + p.name.length < pathMax

instance : Decidable p.Fits := inferInstanceAs (Decidable (_ < _))

def turns : List Turn :=
  if p.Fits then
    Canonicalize.turns (p.cfg env dontfollowlink) (maxSymlinks * pathMax + p.ebuf.length + 1) ['/']
      .root ⟨p.ebuf.drop 1, ['/'], 0, .zero, []⟩
  else []

def ebufWrites : List Nat :=
  List.range p.base.length ++
    (if p.Fits then List.range (p.base.length + p.text.length + 1) else []) ++
      (p.turns env dontfollowlink).flatMap (Turn.ebufWrites (p.cfg env dontfollowlink))

def resolvedWrites : List Nat :=
  (if p.Fits then [0] else []) ++ (p.turns env dontfollowlink).flatMap Turn.resolvedWrites

end Plan

structure Bounded (env : Env) (root : Path) (name cwd : Option Path) (stale : Path)
    (dontfollowlink : Bool) : Prop where
  returns : ∃ out, umRealpath env root name cwd stale dontfollowlink = some out
  ebuf (p : Plan) : plan root name cwd stale = some p →
    ∀ i ∈ p.ebufWrites env dontfollowlink, i < pathMax
  resolved (p : Plan) : plan root name cwd stale = some p →
    ∀ i ∈ p.resolvedWrites env dontfollowlink, i < pathMax
  refused (p : Plan) (out : Outcome) : plan root name cwd stale = some p →
    umRealpath env root name cwd stale dontfollowlink = some out →
    (¬p.Fits ∨ ∃ t ∈ p.turns env dontfollowlink, t.TooLong (p.cfg env dontfollowlink)) →
    out.result = .error .enametoolong

section Turns

variable {cfg : Config} {t : Turn} {fuel : Nat} {dest : Path} {recoutput : Ret}
  {c d : Canonstruct}

theorem iterate_turn (cfg : Config) (t : Turn) :
    iterate cfg t.dest t.recoutput t.cdata =
      if t.comp = ['.'] then .again { t.cdata with resolved := t.dest, start := t.rest }
      else if t.comp = ['.','.'] then
        if cfg.rootlen < t.dest.length then
          .ret .dotdot { t.cdata with resolved := t.dest, start := t.rest }
        else .again { t.cdata with resolved := t.dest, start := t.rest }
      else if t.comp = [] then .ret .ok (t.looked cfg)
      else if pathMax < t.dest.length + t.comp.length then
        .ret (.err .enametoolong) (t.looked cfg)
      else visit cfg t.dest t.comp t.rest (t.looked cfg) := rfl

theorem iterate_appends (h : t.Appends) :
    iterate cfg t.dest t.recoutput t.cdata =
      visit cfg t.dest t.comp t.rest (t.looked cfg) := by
  obtain ⟨⟨hne,-,hdot,hdotdot⟩,hfit⟩ := h
  rw [iterate_turn,if_neg hdot,if_neg hdotdot,if_neg hne,if_neg (Nat.not_lt.mpr hfit)]

theorem iterate_overflow (ho : Ordinary t.comp) (h : pathMax < t.dest.length + t.comp.length) :
    iterate cfg t.dest t.recoutput t.cdata = .ret (.err .enametoolong) (t.looked cfg) := by
  obtain ⟨hne,-,hdot,hdotdot⟩ := ho
  rw [iterate_turn,if_neg hdot,if_neg hdotdot,if_neg hne,if_pos h]

theorem looked_spec (cfg : Config) (t : Turn) :
    (t.looked cfg).start = t.cdata.start ∧ (t.looked cfg).numLinks = t.cdata.numLinks := by
  rw [Turn.looked]
  split_ifs
  · exact ⟨(lstatDir_spec (c := { t.cdata with resolved := t.dest }) _).2.1,
      (lstatDir_spec (c := { t.cdata with resolved := t.dest }) _).2.2.1⟩
  · exact ⟨rfl,rfl⟩

theorem iterate_enter {newdest : Path} (h : iterate cfg t.dest t.recoutput t.cdata = .enter newdest d) :
    t.Appends ∧ newdest = t.newdest := by
  have hspec := (iterate_spec cfg t.dest t.recoutput t.cdata).allowed
  rw [h] at hspec
  refine ⟨⟨hspec.1,?_⟩,hspec.2.1⟩
  by_contra hover
  rw [iterate_overflow hspec.1 (Nat.lt_of_not_le hover)] at h
  cases h

theorem iterate_expansion {text : Path} (h : t.expansion cfg = some text)
    (hlong : pathMax ≤ text.length) :
    ∃ d, iterate cfg t.dest t.recoutput t.cdata = .ret (.err .enametoolong) d := by
  rw [Turn.expansion] at h
  split_ifs at h with hcond
  obtain ⟨happends,hfollow,hroot,hlinks⟩ := hcond
  rw [iterate_appends happends,visit]
  dsimp only at h ⊢
  rw [← Turn.newdest]
  cases hlstat : cfg.env.lstat (t.looked cfg).calls t.newdest with
  | error e => rw [hlstat] at h; cases h
  | ok mode =>
    rw [hlstat] at h
    cases mode with
    | link =>
      dsimp only at h ⊢
      rw [if_pos ⟨rfl,hfollow⟩,followLink,if_neg (Nat.not_le.mpr hroot)]
      dsimp only
      rw [(looked_spec cfg t).2,if_neg (by omega)]
      cases hread : cfg.env.readlink
        ((t.looked cfg).calls ++ [Call.lstat t.newdest false]) t.newdest with
      | error e => rw [hread] at h; cases h
      | ok target =>
        rw [hread] at h
        obtain rfl := Option.some.inj h
        rw [List.length_append] at hlong
        dsimp only
        rw [if_pos hlong]
        exact ⟨_,rfl⟩
    | zero | dir | other => cases h

theorem turns_err {e : Errno} (ht : t ∈ turns cfg fuel dest recoutput c)
    (h : iterate cfg t.dest t.recoutput t.cdata = .ret (.err e) d) :
    recRealpath cfg fuel dest recoutput c = some (.err e, d) := by
  induction fuel generalizing dest recoutput c with
  | zero => cases ht
  | succ fuel ih =>
    rw [turns] at ht
    rw [recRealpath]
    rcases List.mem_cons.mp ht with rfl | ht
    · rw [h]
    · cases hit : iterate cfg dest recoutput c with
      | again c1 =>
        rw [hit] at ht
        exact ih ht
      | ret r c1 =>
        rw [hit] at ht
        cases ht
      | enter newdest c1 =>
        rw [hit] at ht
        dsimp only at ht ⊢
        rcases List.mem_append.mp ht with hin | hout
        · rw [ih hin]
        · cases hrec : recRealpath cfg fuel newdest .root c1 with
          | none => rw [hrec] at hout; cases hout
          | some x =>
            rw [hrec] at hout
            obtain ⟨q,c2⟩ := x
            cases q with
            | ok | err e => cases hout
            | dotdot => exact ih hout
            | root =>
              dsimp only at hout ⊢
              split_ifs at hout ⊢ with hlt
              · cases hout
              · exact ih hout

theorem turns_dest (hdest : dest.length < pathMax)
    (hall : ∀ t ∈ turns cfg fuel dest recoutput c, ¬t.Squeezed)
    (ht : t ∈ turns cfg fuel dest recoutput c) : t.dest.length < pathMax := by
  induction fuel generalizing dest recoutput c with
  | zero => cases ht
  | succ fuel ih =>
    rw [turns] at hall ht
    rcases List.mem_cons.mp ht with rfl | ht
    · exact hdest
    · have hhead := hall _ List.mem_cons_self
      have hall := fun t ht => hall t (List.mem_cons_of_mem _ ht)
      cases hit : iterate cfg dest recoutput c with
      | again c1 =>
        rw [hit] at hall ht
        exact ih hdest hall ht
      | ret r c1 =>
        rw [hit] at ht
        cases ht
      | enter newdest c1 =>
        obtain ⟨happends,rfl⟩ := iterate_enter (t := ⟨dest,recoutput,c⟩) hit
        have hnew := Nat.lt_of_not_le fun hle => hhead ⟨happends,hle⟩
        rw [hit] at hall ht
        dsimp only at hall ht
        rcases List.mem_append.mp ht with hin | hout
        · exact ih hnew (fun t ht => hall t (List.mem_append_left _ ht)) hin
        · have hall := fun t ht => hall t (List.mem_append_right _ ht)
          cases hrec : recRealpath cfg fuel
            (Turn.newdest ⟨dest,recoutput,c⟩) .root c1 with
          | none => rw [hrec] at hout; cases hout
          | some x =>
            rw [hrec] at hall hout
            obtain ⟨q,c2⟩ := x
            cases q with
            | ok | err e => cases hout
            | dotdot => exact ih hdest hall hout
            | root =>
              dsimp only at hall hout
              split_ifs at hall hout with hlt
              · cases hout
              · exact ih hdest hall hout

end Turns

section Plans

variable {env : Env} {root : Path} {name cwd : Option Path} {stale : Path} {dontfollowlink : Bool}
  {p : Plan}

theorem plan_absolute (root u : Path) (cwd : Option Path) (stale : Path) :
    plan root (some ('/' :: u)) cwd stale =
      some ⟨addSlash root, (addSlash root).length, '/' :: u, u⟩ := rfl

theorem plan_relative (root : Path) {x : Char} (hx : x ≠ '/') (u : Path) (cwd : Option Path)
    (stale : Path) :
    plan root (some (x :: u)) cwd stale =
      cwd.map fun cwd => ⟨addSlash cwd, relativeRootlen root cwd stale, x :: u, x :: u⟩ :=
  if_neg fun h => hx (Option.some.inj h)

theorem addSlash_length_pos (p : Path) : 1 ≤ (addSlash p).length := by
  unfold addSlash
  split_ifs with h
  · simp
  · cases p with
    | nil => simp at h
    | cons x p => simp

theorem relativeRootlen_pos (root cwd stale : Path) : 1 ≤ relativeRootlen root cwd stale := by
  unfold relativeRootlen
  dsimp only
  split_ifs
  · exact addSlash_length_pos root
  · exact le_rfl

theorem plan_spec (env : Env) (dontfollowlink : Bool) (h : plan root name cwd stale = some p) :
    0 < p.base.length ∧ p.text.length ≤ p.name.length ∧
      umRealpath env root name cwd stale dontfollowlink =
        if p.Fits then startRealpath env dontfollowlink p.rootlen (p.base ++ p.text)
        else some ⟨.error .enametoolong, .zero, []⟩ := by
  have hif : ∀ (size : Nat) (x y : Option Outcome),
      (if pathMax ≤ size then x else y) = if size < pathMax then y else x := by
    intro size x y
    by_cases hle : pathMax ≤ size
    · rw [if_pos hle,if_neg (Nat.not_lt.mpr hle)]
    · rw [if_neg hle,if_pos (Nat.lt_of_not_le hle)]
  rcases name with _ | _ | ⟨x,u⟩
  · cases h
  · cases h
  · simp only [umRealpath]
    by_cases hx : x = '/'
    · subst hx
      rw [plan_absolute] at h
      obtain rfl := Option.some.inj h
      rw [if_pos (by rfl)]
      exact ⟨addSlash_length_pos root,by simp,hif _ _ _⟩
    · rw [plan_relative root hx] at h
      obtain ⟨cwd,rfl,rfl⟩ := Option.map_eq_some_iff.mp h
      have hrel : (x :: u).head? ≠ some '/' := fun h => hx (Option.some.inj h)
      rw [if_neg hrel]
      exact ⟨addSlash_length_pos cwd,Nat.le_refl _,hif _ _ _⟩

theorem Turn.dest_le_newdest (t : Turn) : t.dest.length ≤ t.newdest.length := by
  rw [Turn.newdest,addComponent]
  split_ifs <;> simp

theorem mem_resolvedWrites {t : Turn} {i : Nat} :
    i ∈ t.resolvedWrites ↔
      i = t.dest.length ∨ t.Appends ∧ t.dest.length ≤ i ∧ i ≤ t.newdest.length := by
  rw [Turn.resolvedWrites,List.mem_cons]
  have hlen := t.dest_le_newdest
  split_ifs with happends
  · rw [List.mem_range'_1]
    constructor
    · rintro (h | h)
      · exact Or.inl h
      · exact Or.inr ⟨happends,h.1,by omega⟩
    · rintro (h | h)
      · exact Or.inl h
      · exact Or.inr ⟨h.2.1,by omega⟩
  · simp [happends]

theorem ebuf_lt (h : plan root name cwd stale = some p) (hbase : p.base.length ≤ pathMax) {i : Nat}
    (hi : i ∈ p.ebufWrites env dontfollowlink) : i < pathMax := by
  obtain ⟨-,htext,-⟩ := plan_spec env dontfollowlink h
  rw [Plan.ebufWrites,List.mem_append,List.mem_append,List.mem_range,List.mem_flatMap] at hi
  rcases hi with (hi | hi) | ⟨t,-,hi⟩
  · omega
  · split_ifs at hi with hfits
    · rw [List.mem_range] at hi
      rw [Plan.Fits] at hfits
      omega
    · cases hi
  · rw [Turn.ebufWrites] at hi
    cases hexp : t.expansion (p.cfg env dontfollowlink) with
    | none => rw [hexp] at hi; cases hi
    | some text =>
      rw [hexp] at hi
      dsimp only at hi
      split_ifs at hi with hlt
      · rw [List.mem_range] at hi
        omega
      · cases hi

theorem startRealpath_err {rootlen : Nat} {ebuf : Path} {e : Errno} {d : Canonstruct}
    (h : recRealpath ⟨env, rootlen, dontfollowlink⟩
      (maxSymlinks * pathMax + (cancelTrailingSlash ebuf).length + 1) ['/'] .root
      ⟨(cancelTrailingSlash ebuf).drop 1, ['/'], 0, .zero, []⟩ = some (.err e, d)) :
    startRealpath env dontfollowlink rootlen ebuf = some ⟨.error e, d.statbuf, d.calls⟩ := by
  rw [startRealpath,h]

theorem refused_of_turn {t : Turn} {d : Canonstruct} {out : Outcome}
    (h : plan root name cwd stale = some p) (ht : t ∈ p.turns env dontfollowlink)
    (hit : iterate (p.cfg env dontfollowlink) t.dest t.recoutput t.cdata =
      .ret (.err .enametoolong) d)
    (hout : umRealpath env root name cwd stale dontfollowlink = some out) :
    out.result = .error .enametoolong := by
  obtain ⟨-,-,hrun⟩ := plan_spec env dontfollowlink h
  rw [Plan.turns] at ht
  split_ifs at ht with hfits
  · rw [if_pos hfits,startRealpath_err (turns_err ht hit)] at hrun
    rw [hrun] at hout
    exact congrArg Outcome.result (Option.some.inj hout).symm
  · cases ht

theorem bounded_iff :
    Bounded env root name cwd stale dontfollowlink ↔
      ∀ p, plan root name cwd stale = some p → p.base.length ≤ pathMax ∧
        ∀ t ∈ p.turns env dontfollowlink, ¬t.Squeezed := by
  constructor
  · intro hb p h
    obtain ⟨hpos,-,-⟩ := plan_spec env dontfollowlink h
    constructor
    · have hlast := hb.ebuf p h (p.base.length - 1) (by
        rw [Plan.ebufWrites,List.append_assoc]
        exact List.mem_append_left _ (List.mem_range.mpr (by omega)))
      omega
    · rintro t ht ⟨happends,hlong⟩
      have hlast := hb.resolved p h t.newdest.length
        (List.mem_append_right _ (List.mem_flatMap.mpr
          ⟨t,ht,mem_resolvedWrites.mpr (Or.inr ⟨happends,t.dest_le_newdest,Nat.le_refl _⟩)⟩))
      omega
  · intro hall
    refine ⟨umRealpath_total ..,fun p h i hi => ebuf_lt h (hall p h).1 hi,fun p h i hi => ?_,
      fun p out h hout hlong => ?_⟩
    · obtain ⟨hbase,hturns⟩ := hall p h
      rw [Plan.resolvedWrites,List.mem_append,List.mem_flatMap] at hi
      rcases hi with hi | ⟨t,ht,hi⟩
      · split_ifs at hi
        · rw [List.mem_singleton.mp hi]
          decide
        · cases hi
      · rcases mem_resolvedWrites.mp hi with rfl | ⟨happends,-,hle⟩
        · rw [Plan.turns] at ht hturns
          split_ifs at ht hturns
          · exact turns_dest (by decide) hturns ht
          · cases ht
        · have := Nat.lt_of_not_le fun hle => hturns t ht ⟨happends,hle⟩
          omega
    · rcases hlong with hfits | ⟨t,ht,⟨ho,hlong⟩ | ⟨text,hexp,hlong⟩⟩
      · obtain ⟨-,-,hrun⟩ := plan_spec env dontfollowlink h
        rw [if_neg hfits] at hrun
        rw [hrun] at hout
        exact congrArg Outcome.result (Option.some.inj hout).symm
      · refine refused_of_turn h ht (iterate_overflow ho ?_) hout
        by_contra hfit
        exact (hall p h).2 t ht ⟨⟨ho,Nat.le_of_not_lt hfit⟩,hlong⟩
      · obtain ⟨d,hit⟩ := iterate_expansion hexp hlong
        exact refused_of_turn h ht hit hout

end Plans

section Growth

structure Within (growth bound : Nat) (dest : Path) (c : Canonstruct) : Prop where
  links : c.numLinks ≤ maxSymlinks
  reach : dest.length + c.start.length ≤ bound + growth * c.numLinks
  gap : ¬AtSlash c.start → dest.getLast? ≠ some '/' →
    dest.length + c.start.length < bound + growth * c.numLinks

def LinksWithin (env : Env) (growth : Nat) : Prop :=
  ∀ calls path target, env.readlink calls path = .ok target → target.length ≤ growth

def Action.Within (growth bound : Nat) (dest : Path) : Action → Prop
  | .again c => Canonicalize.Within growth bound dest c
  | .ret r c => r = .dotdot ∨ r = .root → AtSlash c.start ∧ Canonicalize.Within growth bound dest c
  | .enter newdest c => dest.length ≤ newdest.length ∧ Canonicalize.Within growth bound newdest c

variable {growth bound : Nat} {cfg : Config} {dest : Path} {c d : Canonstruct}

theorem atSlash_remainder (s : Path) : AtSlash (remainder s) := by
  rw [AtSlash,remainder]
  cases hdrop : (s.dropWhile (· = '/')).dropWhile (· ≠ '/') with
  | nil => exact Or.inl rfl
  | cons x u =>
    have hx := List.head?_dropWhile_not (· ≠ '/') (s.dropWhile (· = '/'))
    rw [hdrop] at hx
    exact Or.inr (by simpa using hx)

theorem component_remainder_length (s : Path) :
    (component s).length + (remainder s).length ≤ s.length ∧
      (s.head? = some '/' → (component s).length + (remainder s).length < s.length) := by
  have hsplit := congrArg List.length
    (List.takeWhile_append_dropWhile (p := (· ≠ '/')) (l := s.dropWhile (· = '/')))
  rw [List.length_append] at hsplit
  rw [component,remainder]
  refine ⟨?_,fun hhead => ?_⟩
  · rw [hsplit]
    exact (List.dropWhile_sublist _).length_le
  · cases s with
    | nil => cases hhead
    | cons x u =>
      obtain rfl : x = '/' := Option.some.inj hhead
      have hle : (('/' :: u).dropWhile (· = '/')).length ≤ u.length := by
        rw [List.dropWhile_cons_of_pos (by decide)]
        exact (List.dropWhile_sublist _).length_le
      rw [hsplit]
      exact Nat.lt_succ_of_le hle

theorem Within.fits (h : Within growth bound dest c) (hne : component c.start ≠ []) :
    (addComponent dest (component c.start)).length + (remainder c.start).length ≤
      bound + growth * c.numLinks := by
  obtain ⟨hle,hlt⟩ := component_remainder_length c.start
  have hreach := h.reach
  rw [addComponent]
  split_ifs with hlast
  · have hgap : dest.length + (component c.start).length + (remainder c.start).length + 1 ≤
        bound + growth * c.numLinks := by
      by_cases hslash : AtSlash c.start
      · rcases hslash with hnil | hhead
        · rw [hnil] at hne
          exact absurd rfl hne
        · have := hlt hhead
          omega
      · have := h.gap hslash hlast
        omega
    rw [List.length_append,List.length_cons]
    omega
  · rw [List.length_append]
    omega

theorem Within.of_slash (hlinks : c.numLinks ≤ maxSymlinks) (hslash : AtSlash c.start)
    (hreach : dest.length + c.start.length ≤ bound + growth * c.numLinks) :
    Within growth bound dest c :=
  ⟨hlinks,hreach,fun h => absurd hslash h⟩

theorem Within.skip (h : Within growth bound dest c) (hstart : d.start = remainder c.start)
    (hlinks : d.numLinks = c.numLinks) : Within growth bound dest d := by
  have hle := (component_remainder_length c.start).1
  have hreach := h.reach
  refine .of_slash (hlinks ▸ h.links) (hstart ▸ atSlash_remainder _) ?_
  rw [hstart,hlinks]
  omega

theorem Within.enter (h : Within growth bound dest c) (hne : component c.start ≠ [])
    (hstart : d.start = remainder c.start) (hlinks : d.numLinks = c.numLinks) :
    Within growth bound (addComponent dest (component c.start)) d :=
  .of_slash (hlinks ▸ h.links) (hstart ▸ atSlash_remainder _) (by
    rw [hstart,hlinks]
    exact h.fits hne)

theorem Within.up {newdest : Path} (hle : dest.length ≤ newdest.length) (hslash : AtSlash c.start)
    (h : Within growth bound newdest c) : Within growth bound dest c :=
  .of_slash h.links hslash (by
    have := h.reach
    omega)

theorem Within.follow {target : Path} (h : Within growth bound dest c)
    (hne : component c.start ≠ []) (htarget : target.length ≤ growth)
    (hlinks : d.numLinks = c.numLinks + 1) (hmax : d.numLinks ≤ maxSymlinks)
    (hstart : d.start = target ++ remainder c.start) : Within growth bound dest d := by
  have hfits := h.fits hne
  have hlen : dest.length + (component c.start).length ≤
        (addComponent dest (component c.start)).length ∧
      (dest.getLast? ≠ some '/' → dest.length + (component c.start).length <
        (addComponent dest (component c.start)).length) := by
    rw [addComponent]
    split_ifs with hlast
    · rw [List.length_append,List.length_cons]
      exact ⟨by omega,fun _ => by omega⟩
    · rw [List.length_append]
      exact ⟨Nat.le_refl _,fun h => absurd h hlast⟩
  have hgrow : growth * d.numLinks = growth * c.numLinks + growth := by
    rw [hlinks,Nat.mul_add,Nat.mul_one]
  refine ⟨hmax,?_,fun _ hlast => ?_⟩
  · rw [hstart,List.length_append]
    omega
  · have := hlen.2 hlast
    rw [hstart,List.length_append]
    omega

theorem followLink_within (h : Within growth bound dest c) (hne : component c.start ≠ [])
    (hl : LinksWithin cfg.env growth) :
    (followLink cfg dest (remainder c.start) c).Within growth bound dest := by
  rw [followLink]
  split_ifs with hroot
  · rintro (h | h) <;> cases h
  · dsimp only
    split_ifs with hmax
    · rintro (h | h) <;> cases h
    · cases hread : cfg.env.readlink c.calls c.resolved with
      | error e => rintro (h | h) <;> cases h
      | ok target =>
        have htarget : (target.take (pathMax - 1)).length ≤ growth :=
          Nat.le_trans (List.length_take_le' _ _) (hl _ _ _ hread)
        dsimp only
        split_ifs with hlong habs
        · rintro (h | h) <;> cases h
        · refine fun _ => ⟨Or.inr ?_,h.follow hne htarget rfl (Nat.le_of_not_lt hmax) rfl⟩
          rw [List.head?_append_of_ne_nil _ (fun h => by rw [h] at habs; cases habs)]
          exact habs
        · exact h.follow hne htarget rfl (Nat.le_of_not_lt hmax) rfl

theorem visit_within (h : Within growth bound dest c) (hne : component c.start ≠ [])
    (hl : LinksWithin cfg.env growth) :
    (visit cfg dest (component c.start) (remainder c.start) c).Within growth bound dest := by
  have hnew : dest.length ≤ (addComponent dest (component c.start)).length := by
    rw [addComponent]
    split_ifs <;> simp
  rw [visit]
  dsimp only
  cases hlstat : cfg.env.lstat c.calls (addComponent dest (component c.start)) with
  | error e =>
    dsimp only
    split_ifs <;> rintro (h | h) <;> cases h
  | ok mode =>
    dsimp only
    split_ifs with hlink
    · exact followLink_within (c := { c with
        resolved := addComponent dest (component c.start)
        calls := c.calls ++ [Call.lstat (addComponent dest (component c.start)) false]
        statbuf := mode }) ⟨h.links,h.reach,h.gap⟩ hne hl
    · rw [checkDir]
      dsimp only
      split_ifs with hrest hdir
      · rintro (h | h) <;> cases h
      · split
        · rintro (h | h) <;> cases h
        · exact ⟨hnew,h.enter hne rfl rfl⟩
      · exact ⟨hnew,h.enter hne rfl rfl⟩

theorem iterate_within {t : Turn} (h : Within growth bound t.dest t.cdata)
    (hl : LinksWithin cfg.env growth) :
    (iterate cfg t.dest t.recoutput t.cdata).Within growth bound t.dest := by
  rw [iterate_turn]
  split_ifs with hdot hdotdot hroot hnil hlong
  · exact h.skip rfl rfl
  · exact fun _ => ⟨atSlash_remainder _,h.skip rfl rfl⟩
  · exact h.skip rfl rfl
  · rintro (h | h) <;> cases h
  · rintro (h | h) <;> cases h
  · obtain ⟨hstart,hlinks⟩ := looked_spec cfg t
    have hlook : Within growth bound t.dest (t.looked cfg) :=
      ⟨hlinks ▸ h.links,hstart ▸ hlinks ▸ h.reach,hstart ▸ hlinks ▸ h.gap⟩
    have hvisit := visit_within hlook (hstart ▸ hnil) hl
    rw [hstart] at hvisit
    exact hvisit

theorem turns_within (h : Within growth bound dest c) (hl : LinksWithin cfg.env growth) (fuel : Nat)
    (recoutput : Ret) :
    (∀ t ∈ turns cfg fuel dest recoutput c, Within growth bound t.dest t.cdata) ∧
      ∀ r e, recRealpath cfg fuel dest recoutput c = some (r, e) → r = .dotdot ∨ r = .root →
        AtSlash e.start ∧ Within growth bound dest e := by
  induction fuel generalizing dest recoutput c with
  | zero => exact ⟨fun t ht => (List.not_mem_nil ht).elim,fun r e hrec => by cases hrec⟩
  | succ fuel ih =>
    have hstep := iterate_within (t := ⟨dest,recoutput,c⟩) h hl
    rw [turns,recRealpath,List.forall_mem_cons]
    rw [and_assoc]
    refine ⟨h,?_⟩
    cases hit : iterate cfg dest recoutput c with
    | again c1 =>
      rw [hit] at hstep
      exact ih hstep recoutput
    | ret r c1 =>
      rw [hit] at hstep
      refine ⟨fun t ht => (List.not_mem_nil ht).elim,fun r' e hrec hr => ?_⟩
      obtain ⟨rfl,rfl⟩ := Prod.ext_iff.mp (Option.some.inj hrec)
      exact hstep hr
    | enter newdest c1 =>
      rw [hit] at hstep
      obtain ⟨hle,hnew⟩ := hstep
      obtain ⟨hturns,hback⟩ := ih hnew .root
      dsimp only
      rw [List.forall_mem_append,and_assoc]
      refine ⟨hturns,?_⟩
      cases hrec : recRealpath cfg fuel newdest .root c1 with
      | none => exact ⟨fun t ht => (List.not_mem_nil ht).elim,fun r e hrec => by cases hrec⟩
      | some x =>
        obtain ⟨q,e⟩ := x
        cases q with
        | ok =>
          refine ⟨fun t ht => (List.not_mem_nil ht).elim,fun r' e' he hr => ?_⟩
          obtain ⟨rfl,-⟩ := Prod.ext_iff.mp (Option.some.inj he)
          rcases hr with hr | hr <;> cases hr
        | err n =>
          refine ⟨fun t ht => (List.not_mem_nil ht).elim,fun r' e' he hr => ?_⟩
          obtain ⟨rfl,-⟩ := Prod.ext_iff.mp (Option.some.inj he)
          rcases hr with hr | hr <;> cases hr
        | dotdot =>
          obtain ⟨hslash,hin⟩ := hback _ _ hrec (Or.inl rfl)
          exact ih (hin.up hle hslash) _
        | root =>
          obtain ⟨hslash,hin⟩ := hback _ _ hrec (Or.inr rfl)
          dsimp only
          split_ifs with hroot
          · refine ⟨fun t ht => (List.not_mem_nil ht).elim,fun r' e' he hr => ?_⟩
            obtain ⟨-,rfl⟩ := Prod.ext_iff.mp (Option.some.inj he)
            exact ⟨hslash,hin.up hle hslash⟩
          · exact ih (hin.up hle hslash) _

theorem Within.not_squeezed {t : Turn} (h : Within growth bound t.dest t.cdata)
    (hbound : bound + maxSymlinks * growth < pathMax) : ¬t.Squeezed := by
  rintro ⟨⟨ho,-⟩,hlong⟩
  have hfits : t.newdest.length + t.rest.length ≤ bound + growth * t.cdata.numLinks := h.fits ho.1
  have hgrow : growth * t.cdata.numLinks ≤ maxSymlinks * growth := by
    rw [Nat.mul_comm]
    exact Nat.mul_le_mul_right _ h.links
  omega

end Growth

theorem Plan.turns_not_squeezed {env : Env} {dontfollowlink : Bool} {p : Plan} {growth : Nat}
    (hl : LinksWithin env growth) (hbase : 0 < p.base.length)
    (htext : p.text.length ≤ p.name.length)
    (hfit : p.Fits → p.base.length + p.name.length + maxSymlinks * growth < pathMax)
    {t : Turn} (ht : t ∈ p.turns env dontfollowlink) : ¬t.Squeezed := by
  rw [Plan.turns] at ht
  split_ifs at ht with hfits
  · have hebuf : p.ebuf.length ≤ p.base.length + p.text.length := by
      rw [Plan.ebuf,cancelTrailingSlash,← List.length_append]
      split_ifs
      · rw [List.length_dropLast]
        exact Nat.sub_le _ _
      · exact Nat.le_refl _
    have hfit := hfit hfits
    have hstart : Within growth (p.base.length + p.name.length) ['/']
        ⟨p.ebuf.drop 1,['/'],0,.zero,[]⟩ := by
      refine ⟨Nat.zero_le _,?_,fun _ hlast => absurd rfl hlast⟩
      rw [List.length_drop,List.length_singleton]
      omega
    exact ((turns_within hstart hl _ _).1 t ht).not_squeezed hfit
  · cases ht

theorem realpath_bounded_iff (env : Env) (root : Path) (name cwd : Option Path) (stale : Path)
    (dontfollowlink : Bool) :
    (Bounded env root name cwd stale dontfollowlink ↔
      ∀ p, plan root name cwd stale = some p → p.base.length ≤ pathMax ∧
        ∀ t ∈ p.turns env dontfollowlink, ¬t.Squeezed) ∧
      ∀ growth, LinksWithin env growth →
        (∀ p, plan root name cwd stale = some p → p.base.length ≤ pathMax ∧
          (p.Fits → p.base.length + p.name.length + maxSymlinks * growth < pathMax)) →
        Bounded env root name cwd stale dontfollowlink := by
  refine ⟨bounded_iff,fun growth hl hshort => bounded_iff.mpr fun p h => ?_⟩
  obtain ⟨hbase,htext,-⟩ := plan_spec env dontfollowlink h
  exact ⟨(hshort p h).1,fun t ht => Plan.turns_not_squeezed hl hbase htext (hshort p h).2 ht⟩

def shortLink : Env where
  lstat _ path := if path.getLast? = some 'l' then .ok .link else .ok .dir
  access _ _ _ := .ok ()
  readlink _ _ := .ok ['.', '.', '/', 'b']

theorem realpath_bounded_shortLink :
    Bounded shortLink ['/'] (some ['/', 'a', '/', 'l']) none [] false := by
  refine (realpath_bounded_iff shortLink ['/'] (some ['/','a','/','l']) none [] false).2 4
    (fun calls path target h => ?_) (fun p h => ?_)
  · obtain rfl : ['.','.','/','b'] = target := by injection h
    decide
  · obtain rfl := Option.some.inj h
    exact ⟨by decide,fun _ => by decide⟩

def longLink : Env where
  lstat _ path :=
    if path.getLast? = some 'l' then .ok .link
    else if path.length ≤ 2 then .ok .dir else .error .enoent
  access _ _ _ := .ok ()
  readlink _ _ := .ok (List.replicate (pathMax - 2) 'x')

theorem resolved_overrun :
    ¬Bounded longLink ['/'] (some ['/', 'a', '/', 'l']) none [] false := by
  intro hb
  have hsqueezed : ((plan ['/'] (some ['/','a','/','l']) none []).any fun p =>
      (p.turns longLink false).any fun t => decide t.Squeezed) = true := by
    decide +kernel
  obtain ⟨p,hp,hany⟩ := (Option.any_eq_true _ _).mp hsqueezed
  obtain ⟨t,ht,hs⟩ := List.any_eq_true.mp hany
  exact (bounded_iff.mp hb p hp).2 t ht (of_decide_eq_true hs)

end ViewOS.Canonicalize
