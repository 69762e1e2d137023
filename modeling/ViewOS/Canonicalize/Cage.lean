import ViewOS.Canonicalize.Iterate

namespace ViewOS.Canonicalize

def InCage (root p : Path) : Prop := p = root ∨ addSlash root <+: p

instance (root p : Path) : Decidable (InCage root p) := inferInstanceAs (Decidable (_ ∨ _))

def Below (root : List Path) (p : Path) : Prop := ∃ x, Names x ∧ p = str (root ++ x)

def Above (root : List Path) (p : Path) : Prop := ∃ a b, root = a ++ b ∧ b ≠ [] ∧ p = str a

theorem inCage_of_below {root : List Path} {p : Path} (hr : Names root) (h : Below root p) :
    InCage (str root) p := by
  obtain ⟨x,hx,rfl⟩ := h
  rw [InCage,addSlash_str hr]
  cases x with
  | nil => exact Or.inl (by simp)
  | cons c x =>
    refine Or.inr ?_
    rw [str_of_ne_nil (by simp),text_append,text_cons]
    exact ⟨c ++ text x,by simp⟩

section Level

variable {cfg : Config} {root : List Path}

def Caged (root : List Path) (l l' : List Call) : Prop :=
  ∃ new, l' = l ++ new ∧ ∀ k ∈ new, Below root k.path

theorem Caged.trans {l m n : List Call} (h : Caged root l m) (h' : Caged root m n) :
    Caged root l n :=
  appended_trans h h'

theorem Visits.caged {p : Path} {l l' : List Call} (h : Visits p l l') (hp : Below root p) :
    Caged root l l' := by
  obtain ⟨new,rfl,h⟩ := h
  exact ⟨new,rfl,fun k hk => h k hk ▸ hp⟩

theorem below_addComponent {x : List Path} {c : Path} (hr : Names root) (hx : Names x)
    (hc : Ordinary c) :
    addComponent (str (root ++ x)) c = str (root ++ (x ++ [c])) ∧ Names (x ++ [c]) := by
  refine ⟨?_,names_snoc hx hc⟩
  rw [addComponent_str (names_append.mpr ⟨hr,hx⟩),List.append_assoc]

theorem Pass.caged {x : List Path} {c : Canonstruct} {a : Action} (hr : Names root)
    (hx : Names x) (h : Pass cfg (str (root ++ x)) c a) : Caged root c.calls a.cdata.calls := by
  obtain ⟨l,hl,ha⟩ := h.calls
  have hfirst : Caged root c.calls l := hl.caged ⟨x,hx,rfl⟩
  rcases ha with rfl | ⟨ho,ha⟩
  · exact hfirst
  · obtain ⟨e,hn⟩ := below_addComponent hr hx ho
    exact hfirst.trans (ha.caged ⟨_,hn,e⟩)

structure Confined (root : List Path) (atRoot : Prop) (c c' : Canonstruct) (r : Ret) : Prop where
  calls : Caged root c.calls c'.calls
  resolved : r = .ok → Below root c'.resolved
  stays : atRoot → r ≠ .dotdot ∧ r ≠ .root

theorem Confined.after {P : Prop} {c d c' : Canonstruct} {r : Ret}
    (hc : Caged root c.calls d.calls) (h : Confined root P d c' r) : Confined root P c c' r :=
  ⟨hc.trans h.calls,h.resolved,h.stays⟩

theorem recRealpath_confined (hr : Names root)
    (hlen : (text root ++ ['/']).length ≤ cfg.rootlen) {fuel : Nat} {x : List Path}
    (hx : Names x) {recoutput r : Ret} {c c' : Canonstruct}
    (h : recRealpath cfg fuel (str (root ++ x)) recoutput c = some (r, c')) :
    Confined root (x = []) c c' r := by
  have hat : x = [] → ¬cfg.rootlen < (str (root ++ x)).length := by
    rintro rfl
    have := str_length_root root []
    simp only [List.append_nil] at this ⊢
    omega
  induction fuel generalizing x recoutput r c c' with
  | zero => simp [recRealpath] at h
  | succ fuel ih =>
    have hpass := iterate_spec cfg (str (root ++ x)) recoutput c
    have hcalls := hpass.caged hr hx
    have hallow := hpass.allowed
    rw [recRealpath] at h
    cases hit : iterate cfg (str (root ++ x)) recoutput c with
    | again d =>
      rw [hit] at h hcalls
      exact (ih hx h hat).after hcalls
    | ret q d =>
      rw [hit] at h hcalls hallow
      obtain ⟨rfl,rfl⟩ := Prod.ext_iff.mp (Option.some.inj h)
      refine ⟨hcalls,fun hok => ?_,fun h0 => ⟨fun hd => ?_,fun hd => ?_⟩⟩
      · rcases hallow.2 hok with ⟨_,e⟩ | ⟨ho,_,e⟩
        · exact ⟨x,hx,e⟩
        · obtain ⟨e',hn⟩ := below_addComponent hr hx ho
          exact ⟨_,hn,e.trans e'⟩
      · exact hat h0 (hallow.1 (Or.inl hd)).1
      · exact hat h0 (hallow.1 (Or.inr hd)).1
    | enter newdest d =>
      obtain ⟨q,e,hin,hout⟩ := recRealpath_enter hit (by rw [recRealpath]; exact h)
      rw [hit] at hcalls hallow
      obtain ⟨ho,rfl,_,_⟩ := hallow
      obtain ⟨hnew,hn⟩ := below_addComponent hr hx ho
      rw [hnew] at hin
      have hinner := ih hn hin (by simp)
      rcases hout with ⟨rfl,rfl,hdd,hroot⟩ | ⟨_,again,hagain⟩
      · exact ⟨hcalls.trans hinner.calls,hinner.resolved,
          fun h0 => ⟨hdd,fun hq => hat h0 (hroot hq)⟩⟩
      · exact (ih hx hagain hat).after (hcalls.trans hinner.calls)

structure Descends (root : List Path) (l : List Call) (c' : Canonstruct) (r : Ret) : Prop where
  calls : ∃ pre post, c'.calls = l ++ (pre ++ post) ∧ (∀ k ∈ pre, Above root k.path) ∧
    ∀ k ∈ post, Below root k.path
  resolved : r = .ok → Below root c'.resolved
  stays : r ≠ .dotdot ∧ r ≠ .root

theorem Confined.descends {c c' : Canonstruct} {r : Ret} (h : Confined root True c c' r) :
    Descends root c.calls c' r := by
  obtain ⟨new,e,hb⟩ := h.calls
  exact ⟨⟨[],new,by simpa using e,by simp,hb⟩,h.resolved,h.stays trivial⟩

theorem Descends.above {p : Path} {l m : List Call} {c' : Canonstruct} {r : Ret}
    (hv : Visits p l m) (hp : Above root p) (h : Descends root m c' r) : Descends root l c' r := by
  obtain ⟨new,rfl,hn⟩ := hv
  obtain ⟨pre,post,e,hpre,hpost⟩ := h.calls
  refine ⟨⟨new ++ pre,post,by rw [e]; simp,fun k hk => ?_,hpost⟩,h.resolved,h.stays⟩
  rcases List.mem_append.mp hk with hk | hk
  · exact hn k hk ▸ hp
  · exact hpre k hk

theorem Descends.at_root {l m : List Call} {c' : Canonstruct} {r : Ret}
    (hv : Visits (str root) l m) (hc : Caged root m c'.calls) (hok : r = .ok → Below root c'.resolved)
    (hstay : r ≠ .dotdot ∧ r ≠ .root) : Descends root l c' r := by
  obtain ⟨new,e,hb⟩ := (hv.caged ⟨[],by simp [Names],by simp⟩).trans hc
  exact ⟨⟨[],new,by simpa using e,by simp,hb⟩,hok,hstay⟩

theorem iterate_above {a : List Path} {b : Path} (ha : Names a) (hb : Ordinary b)
    (hlt : ¬cfg.rootlen < (str a).length) {c : Canonstruct} (hc : component c.start = b)
    (recoutput : Ret) :
    ∃ l, Visits (str a) c.calls l ∧
      ((∃ q d, iterate cfg (str a) recoutput c = .ret q d ∧ Visits (str (a ++ [b])) l d.calls ∧
          (q ≠ .dotdot ∧ q ≠ .root) ∧
          (q = .ok → remainder c.start = [] ∧ d.resolved = str (a ++ [b]))) ∨
        ∃ d, iterate cfg (str a) recoutput c = .enter (str (a ++ [b])) d ∧
          Visits (str (a ++ [b])) l d.calls ∧ d.start = remainder c.start) := by
  have hnew : addComponent (str a) (component c.start) = str (a ++ [b]) := by
    rw [hc,addComponent_str ha]
  obtain ⟨⟨l,hl,hnext⟩,hallow⟩ := iterate_spec cfg (str a) recoutput c
  have hvis : Visits (str (a ++ [b])) l (iterate cfg (str a) recoutput c).cdata.calls := by
    rcases hnext with e | ⟨_,hv⟩
    · rw [e]
      exact .refl _ _
    · rwa [hnew] at hv
  refine ⟨l,hl,?_⟩
  cases hit : iterate cfg (str a) recoutput c with
  | again d =>
    rw [hit] at hallow
    exact (hallow.2.elim hlt fun hno => hno (hc ▸ hb)).elim
  | ret q d =>
    rw [hit] at hallow hvis
    refine Or.inl ⟨q,d,rfl,hvis,⟨fun e => hlt (hallow.1 (Or.inl e)).1,
      fun e => hlt (hallow.1 (Or.inr e)).1⟩,fun hok => ?_⟩
    rcases hallow.2 hok with ⟨e,_⟩ | ⟨_,hrem,e⟩
    · exact absurd (hc.symm.trans e) hb.1
    · exact ⟨hrem,e.trans hnew⟩
  | enter newdest d =>
    rw [hit] at hallow hvis
    obtain ⟨_,rfl,hstart,_⟩ := hallow
    exact Or.inr ⟨d,by rw [hnew],hvis,hstart⟩

theorem recRealpath_descends (hlen : (text root ++ ['/']).length ≤ cfg.rootlen)
    {a b : List Path} (hr : Names (a ++ b)) (hab : root = a ++ b) {tail : Path}
    (ht : AtSlash tail) {fuel : Nat} {recoutput r : Ret} {c c' : Canonstruct}
    (hc : component c.start = component (text b ++ tail))
    (hs : remainder c.start = remainder (text b ++ tail))
    (h : recRealpath cfg fuel (str a) recoutput c = some (r, c')) :
    Descends root c.calls c' r := by
  induction b generalizing a fuel recoutput r c c' with
  | nil =>
    obtain rfl : root = a := by simpa using hab
    rw [← List.append_nil root] at h
    have hconf := recRealpath_confined (by simpa using hr) hlen (by simp [Names]) h
    exact Confined.descends ⟨hconf.calls,hconf.resolved,fun _ => hconf.stays rfl⟩
  | cons b0 bs ih =>
    have ho : Ordinary b0 := hr b0 (by simp)
    have htext : text (b0 :: bs) ++ tail = '/' :: (b0 ++ (text bs ++ tail)) := by simp [text_cons]
    obtain ⟨hcomp,hrem⟩ := component_append ho (atSlash_text_append bs ht)
    rw [htext,component_slash,hcomp] at hc
    rw [htext,remainder_slash,hrem] at hs
    have hnlt : ¬cfg.rootlen < (str a).length := by
      have := str_length_root a (b0 :: bs)
      rw [← hab] at this
      omega
    have hassoc : root = a ++ [b0] ++ bs := by simp [hab]
    obtain ⟨fuel,rfl⟩ : ∃ m, fuel = m + 1 := by
      cases fuel with
      | zero => simp [recRealpath] at h
      | succ m => exact ⟨m,rfl⟩
    obtain ⟨l,hl,hpass⟩ := iterate_above (names_append.mp hr).1 ho hnlt hc recoutput
    refine Descends.above hl ⟨a,b0 :: bs,hab,by simp,rfl⟩ ?_
    rcases hpass with ⟨q,d,hit,hnext,hstay,hok⟩ | ⟨d,hit,hnext,hstart⟩
    · rw [recRealpath,hit] at h
      obtain ⟨rfl,rfl⟩ := Prod.ext_iff.mp (Option.some.inj h)
      cases bs with
      | nil =>
        obtain rfl : root = a ++ [b0] := by simpa using hassoc
        refine Descends.at_root hnext ⟨[],(List.append_nil _).symm,by simp⟩ (fun h => ?_) hstay
        exact ⟨[],by simp [Names],by rw [(hok h).2,List.append_nil]⟩
      | cons b1 bs =>
        refine Descends.above hnext ⟨_,b1 :: bs,hassoc,by simp,rfl⟩
          ⟨⟨[],[],(List.append_nil _).symm,by simp,by simp⟩,fun h => ?_,hstay⟩
        simpa [hs,text_cons] using (hok h).1
    · obtain ⟨q,e,hin,hout⟩ := recRealpath_enter hit h
      rw [hs] at hstart
      have hinner := ih (a := a ++ [b0]) (by simpa using hr) hassoc (by rw [hstart])
        (by rw [hstart]) hin
      obtain ⟨rfl,rfl⟩ : q = r ∧ e = c' := by
        rcases hout with ⟨h1,h2,_,_⟩ | ⟨h1,_⟩
        · exact ⟨h1,h2⟩
        · exact absurd h1 (not_or.mpr hinner.stays)
      cases bs with
      | nil =>
        obtain rfl : root = a ++ [b0] := by simpa using hassoc
        rw [← List.append_nil (a ++ [b0])] at hin
        have hconf := recRealpath_confined (by simpa using hr) hlen (by simp [Names]) hin
        exact Descends.at_root hnext hconf.calls hconf.resolved hinner.stays
      | cons b1 bs => exact Descends.above hnext ⟨_,b1 :: bs,hassoc,by simp,rfl⟩ hinner

end Level

theorem cancel_text (dir : List Path) {t : Path} (ht : t.head? = some '/') :
    ∃ t', cancelTrailingSlash (text dir ++ t) = text dir ++ t' ∧ AtSlash t' ∧
      (text dir ++ t').head? = some '/' := by
  obtain ⟨u,rfl⟩ := List.head?_eq_some_iff.mp ht
  unfold cancelTrailingSlash
  split_ifs with h
  · refine ⟨('/' :: u).dropLast,List.dropLast_append_of_ne_nil (by simp),?_,?_⟩
    · cases u <;> simp [AtSlash]
    · cases dir with
      | nil =>
        cases u with
        | nil => simp at h
        | cons x u => rfl
      | cons c dir => rfl
  · refine ⟨'/' :: u,rfl,Or.inr rfl,?_⟩
    cases dir <;> rfl

structure CagedOutcome (root : List Path) (out : Outcome) : Prop where
  result : ∀ p, out.result = .ok p → Below root p
  calls : ∃ pre post, out.calls = pre ++ post ∧ (∀ k ∈ pre, Above root k.path) ∧
    ∀ k ∈ post, Below root k.path

theorem startRealpath_caged (env : Env) (dontfollowlink : Bool) {root : List Path}
    (hr : Names root) {rootlen : Nat} (hlen : (text root ++ ['/']).length ≤ rootlen) {t : Path}
    (ht : t.head? = some '/') {out : Outcome}
    (h : startRealpath env dontfollowlink rootlen (text root ++ t) = some out) :
    CagedOutcome root out := by
  obtain ⟨t',e,hat,hhead⟩ := cancel_text root ht
  obtain ⟨s,hs⟩ := List.head?_eq_some_iff.mp hhead
  unfold startRealpath at h
  dsimp only at h
  rw [e,hs] at h
  rcases hrec : recRealpath ⟨env,rootlen,dontfollowlink⟩
      (maxSymlinks * pathMax + ('/' :: s).length + 1) ['/'] .root
      ⟨('/' :: s).drop 1,['/'],0,.zero,[]⟩ with _ | ⟨r,c⟩
  · rw [hrec] at h
    simp at h
  · rw [hrec] at h
    have hdesc := recRealpath_descends hlen (a := []) hr rfl hat (by rw [hs]; simp)
      (by rw [hs]; simp) hrec
    obtain ⟨pre,post,hcalls,hpre,hpost⟩ := hdesc.calls
    have hout : out.calls = c.calls ∧ ∀ p, out.result = .ok p → r = .ok ∧ p = c.resolved := by
      have hstay := hdesc.stays
      cases r <;> simp_all [← Option.some.inj h]
    refine ⟨fun p hp => ?_,pre,post,by rw [hout.1,hcalls]; rfl,hpre,hpost⟩
    obtain ⟨hok,rfl⟩ := hout.2 p hp
    exact hdesc.resolved hok

theorem relativeRootlen_inside {root below : List Path} (hr : Names root) (hb : Names below)
    (stale : Path) :
    relativeRootlen (str root) (str (root ++ below)) stale = (text root ++ ['/']).length := by
  have hn : Names (root ++ below) := names_append.mpr ⟨hr,hb⟩
  unfold relativeRootlen
  rw [addSlash_str hn,addSlash_str hr,text_append]
  dsimp only
  rw [if_pos]
  cases root with
  | nil =>
    refine ⟨?_,Or.inl rfl⟩
    cases below <;> rfl
  | cons c root =>
    rw [str_of_ne_nil (by simp)]
    refine ⟨by simp,Or.inr ?_⟩
    cases below <;> simp [text_cons]

def refused (e : Errno) : Outcome := ⟨.error e, .zero, []⟩

theorem umRealpath_absolute (env : Env) {root : List Path} (hr : Names root) (cwd : Option Path)
    (name stale : Path) (dontfollowlink : Bool) :
    umRealpath env (str root) (some ('/' :: name)) cwd stale dontfollowlink =
      if pathMax ≤ (text root ++ ['/']).length + (name.length + 1) then
        some (refused .enametoolong)
      else startRealpath env dontfollowlink (text root ++ ['/']).length (text root ++ '/' :: name) := by
  simp only [umRealpath,addSlash_str hr,refused]
  simp

theorem umRealpath_relative (env : Env) {root below : List Path} (hr : Names root)
    (hb : Names below) {name : Path} (hne : name ≠ []) (hrel : name.head? ≠ some '/')
    (stale : Path) (dontfollowlink : Bool) :
    umRealpath env (str root) (some name) (some (str (root ++ below))) stale dontfollowlink =
      if pathMax ≤ (text (root ++ below) ++ ['/']).length + name.length then
        some (refused .enametoolong)
      else startRealpath env dontfollowlink (text root ++ ['/']).length
        (text root ++ (text below ++ '/' :: name)) := by
  obtain ⟨x,u,rfl⟩ := List.exists_cons_of_ne_nil hne
  simp only [umRealpath,if_neg hrel,addSlash_str (names_append.mpr ⟨hr,hb⟩),
    relativeRootlen_inside hr hb,refused]
  simp

theorem refused_caged (root : List Path) (e : Errno) : CagedOutcome root (refused e) :=
  ⟨fun p hp => by simp [refused] at hp,[],[],rfl,by simp,by simp⟩

theorem umRealpath_caged (env : Env) {root : List Path} (hr : Names root) {name : Option Path}
    {cwd stale : Path} (hcwd : name.bind List.head? = some '/' ∨ Below root cwd)
    {dontfollowlink : Bool} {out : Outcome}
    (h : umRealpath env (str root) name (some cwd) stale dontfollowlink = some out) :
    CagedOutcome root out := by
  rcases name with _ | _ | ⟨x,u⟩
  · obtain rfl := Option.some.inj h
    exact refused_caged root .einval
  · obtain rfl := Option.some.inj h
    exact refused_caged root .enoent
  · by_cases hx : x = '/'
    · subst hx
      rw [umRealpath_absolute env hr] at h
      split_ifs at h
      · obtain rfl := Option.some.inj h
        exact refused_caged root .enametoolong
      · exact startRealpath_caged env dontfollowlink hr le_rfl rfl h
    · obtain ⟨below,hb,rfl⟩ := hcwd.resolve_left (by simpa using hx)
      rw [umRealpath_relative env hr hb (by simp) (by simpa using hx)] at h
      split_ifs at h
      · obtain rfl := Option.some.inj h
        exact refused_caged root .enametoolong
      · refine startRealpath_caged env dontfollowlink hr le_rfl ?_ h
        cases below <;> rfl

theorem realpath_caged (env : Env) (root below : List Path) (hroot : Names root)
    (hbelow : Names below) (name : Option Path) (stale : Path) (dontfollowlink : Bool) :
    ∃ out, umRealpath env (str root) name (some (str (root ++ below))) stale dontfollowlink =
        some out ∧
      (∀ p, out.result = .ok p → InCage (str root) p) ∧
      ∃ pre post, out.calls = pre ++ post ∧ (∀ k ∈ pre, Above root k.path) ∧
        ∀ k ∈ post, InCage (str root) k.path := by
  obtain ⟨out,hout⟩ := umRealpath_total env (str root) name (some (str (root ++ below))) stale
    dontfollowlink
  obtain ⟨hres,pre,post,hcalls,hpre,hpost⟩ :=
    umRealpath_caged env hroot (Or.inr ⟨below,hbelow,rfl⟩) hout
  exact ⟨out,hout,fun p hp => inCage_of_below hroot (hres p hp),pre,post,hcalls,hpre,
    fun k hk => inCage_of_below hroot (hpost k hk)⟩

def climbing : Env where
  lstat _ p := if p = "/r/d/up".toList then .ok .link else .ok .dir
  access _ _ _ := .ok ()
  readlink _ _ := .ok "../../../..".toList

theorem climbing_caged :
    ((umRealpath climbing ['/', 'r'] (some "up/../../etc".toList) (some ['/', 'r', '/', 'd'])
        [] false).map fun out => out.result.toOption) = some (some "/r/etc".toList) ∧
      ∃ out, umRealpath climbing (str [['r']]) (some "up/../../etc".toList)
          (some (str ([['r']] ++ [['d']]))) [] false = some out ∧
        (∀ p, out.result = .ok p → InCage (str [['r']]) p) ∧
        ∃ pre post, out.calls = pre ++ post ∧ (∀ k ∈ pre, Above [['r']] k.path) ∧
          ∀ k ∈ post, InCage (str [['r']]) k.path :=
  ⟨by decide +kernel,
    realpath_caged climbing [['r']] [['d']] (by decide) (by decide) (some "up/../../etc".toList) []
      false⟩

end ViewOS.Canonicalize
