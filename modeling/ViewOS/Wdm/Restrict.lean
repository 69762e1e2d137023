import ViewOS.Canonicalize.Bounds
import ViewOS.Canonicalize.Cage
import ViewOS.Lib.Run
import ViewOS.Wdm.Model

namespace ViewOS.Wdm
open Canonicalize Transition

theorem text_prefix {a b : List Path} (ha : Names a) (hb : Names b)
    (h : text a ++ ['/'] <+: text b) : a <+: b := by
  induction a generalizing b with
  | nil => exact List.nil_prefix
  | cons x a ih =>
    obtain ⟨z,hz⟩ := h
    cases b with
    | nil => simp [text_cons] at hz
    | cons y b =>
      simp only [text_cons,List.cons_append,List.append_assoc,List.cons.injEq,true_and] at hz
      have hx : Ordinary x := ha x (by simp)
      have hy : Ordinary y := hb y (by simp)
      have hatx : AtSlash ('/' :: z) := Or.inr rfl
      have haty : AtSlash (text b) := by simpa using atSlash_text_append b (Or.inl rfl)
      obtain ⟨hcx,_⟩ := component_append hx (atSlash_text_append a hatx)
      obtain ⟨hcy,_⟩ := component_append hy haty
      obtain rfl : x = y := by rw [← hcx,← hcy]; exact congrArg component hz
      have htail : text a ++ ['/'] <+: text b := ⟨z,by simpa using hz⟩
      exact List.prefix_cons_inj x |>.mpr
        (ih (fun c hc => ha c (by simp [hc])) (fun c hc => hb c (by simp [hc])) htail)

theorem below_of_inCage {a b : List Path} (ha : Names a) (hb : Names b)
    (h : InCage (str a) (str b)) : Below a (str b) := by
  rcases h with h | h
  · exact ⟨[],by simp [Names],by simpa using h⟩
  · rw [addSlash_str ha] at h
    cases a with
    | nil => exact ⟨b,hb,rfl⟩
    | cons x a =>
      have hne : b ≠ [] := by
        rintro rfl
        have := h.length_le
        simp [text_cons] at this
      rw [str_of_ne_nil hne] at h
      obtain ⟨y,rfl⟩ := text_prefix ha hb h
      exact ⟨y,(names_append.mp hb).2,rfl⟩

theorem str_eq_slash {dir : List Path} (hd : Names dir) (h : str dir = ['/']) : dir = [] := by
  cases dir with
  | nil => rfl
  | cons c dir =>
    rw [str_of_ne_nil (by simp),text_cons] at h
    exact absurd (List.append_eq_nil_iff.mp (List.cons.inj h).2).1 (hd c (by simp)).1

theorem below_weaken {root x : List Path} {p : Path} (hx : Names x) (h : Below (root ++ x) p) :
    Below root p := by
  obtain ⟨y,hy,rfl⟩ := h
  exact ⟨x ++ y,names_append.mpr ⟨hx,hy⟩,by rw [List.append_assoc]⟩

theorem umRealpath_below_slash (env : Env) {root cwd stale : Path} {dir : List Path}
    (hdir : Names dir) (hcwd : cwd = str dir) {name : Option Path} (hrel : name.bind List.head? ≠ some '/')
    {dontfollowlink : Bool} {out : Outcome}
    (h : umRealpath env root name (some cwd) stale dontfollowlink = some out) :
    CagedOutcome [] out := by
  rcases name with _ | _ | ⟨x,u⟩
  · obtain rfl := Option.some.inj h
    exact refused_caged [] .einval
  · obtain rfl := Option.some.inj h
    exact refused_caged [] .enoent
  · simp only [Option.bind_some,List.head?_cons] at hrel
    simp only [umRealpath,List.head?_cons,if_neg hrel] at h
    split_ifs at h
    · obtain rfl := Option.some.inj h
      exact refused_caged [] .enametoolong
    · have hnil : Names [] := by simp [Names]
      refine startRealpath_caged env dontfollowlink hnil (relativeRootlen_pos _ _ _) ?_ h
      rw [hcwd,addSlash_str hdir]
      cases dir <;> rfl

structure Restricted (dir : List Path) (fdfs : PcbFs) : Prop where
  root : Below dir fdfs.root
  cwd : Below dir fdfs.cwd

def Held (top : Path) (fdfs : PcbFs) (name : Option Path) : Prop :=
  top = ['/'] ∨ name.bind List.head? = some '/' ∨ InCage fdfs.root fdfs.cwd

instance (top : Path) (fdfs : PcbFs) (name : Option Path) : Decidable (Held top fdfs name) :=
  inferInstanceAs (Decidable (_ ∨ _ ∨ _))

theorem Restricted.umAbspath {dir : List Path} (hd : Names dir) {fdfs : PcbFs}
    (hr : Restricted dir fdfs) {env : Env} {name : Option Path} (hh : Held (str dir) fdfs name)
    {stale : Path} {dontfollowlink : Bool} {out : Outcome}
    (h : umAbspath env fdfs name stale dontfollowlink = some out) {p : Path}
    (hp : out.result = .ok p) : Below dir p := by
  obtain ⟨⟨x,hx,hroot⟩,⟨y,hy,hcwd⟩⟩ := hr
  have hdx : Names (dir ++ x) := names_append.mpr ⟨hd,hx⟩
  have hdy : Names (dir ++ y) := names_append.mpr ⟨hd,hy⟩
  unfold Wdm.umAbspath at h
  by_cases hin : name.bind List.head? = some '/' ∨ InCage fdfs.root fdfs.cwd
  · rw [hroot] at h hin
    have hbelow : name.bind List.head? = some '/' ∨ Below (dir ++ x) fdfs.cwd :=
      hin.imp_right fun hc => hcwd ▸ below_of_inCage hdx hdy (hcwd ▸ hc)
    exact below_weaken hx ((umRealpath_caged env hdx hbelow h).result p hp)
  · obtain rfl := str_eq_slash hd (hh.resolve_right hin)
    exact (umRealpath_below_slash env hdy hcwd (not_or.mp hin).1 h).result p hp

theorem Restricted.step {dir : List Path} (hd : Names dir) {fdfs fdfs' : PcbFs} {o : Op}
    (hr : Restricted dir fdfs) (hh : Held (str dir) fdfs o.name) (h : step fdfs o = some fdfs') :
    Restricted dir fdfs' := by
  rcases step_effect h with rfl | ⟨out,path,hout,hp,rfl | rfl⟩
  · exact hr
  · exact ⟨hr.root,hr.umAbspath hd hh hout hp⟩
  · exact ⟨hr.umAbspath hd hh hout hp,hr.cwd⟩

theorem chroot_restricts (top below : List Path) (htop : Names top) (hbelow : Names below)
    (fdfs : PcbFs)
    (hrun : Run step (fun s o => Held (str top) s o.name) ⟨str (top ++ below), str top⟩ fdfs) :
    InCage (str top) fdfs.root ∧ InCage (str top) fdfs.cwd ∧
      ∀ env name stale dontfollowlink, Held (str top) fdfs name →
        ∃ out, umAbspath env fdfs name stale dontfollowlink = some out ∧
          ∀ p, out.result = .ok p → InCage (str top) p := by
  have hinit : Restricted top ⟨str (top ++ below),str top⟩ :=
    ⟨⟨[],by simp [Names],by simp⟩,⟨below,hbelow,rfl⟩⟩
  have hr : Restricted top fdfs :=
    hrun.invariant (fun _ _ _ ht ho hu => ht.step htop ho hu) hinit
  refine ⟨inCage_of_below htop hr.root,inCage_of_below htop hr.cwd,?_⟩
  intro env name stale dontfollowlink hh
  obtain ⟨out,hout⟩ := umAbspath_total env fdfs name stale dontfollowlink
  exact ⟨out,hout,fun p hp => inCage_of_below htop (hr.umAbspath htop hh hout hp)⟩

def nested : List Op :=
  [.chroot climbing (some "d".toList) [], .chdir climbing (some "/e/up".toList) [] (.ok ()),
    .chdir climbing (some "../../f".toList) [] (.ok ())]

theorem nested_restricted :
    exec step ⟨['/', 'r'], ['/', 'r']⟩ nested = some ⟨"/r/d/f".toList, "/r/d".toList⟩ ∧
      InCage ['/', 'r'] "/r/d".toList ∧ InCage ['/', 'r'] "/r/d/f".toList ∧
      ∀ env name stale dontfollowlink,
        Held ['/', 'r'] ⟨"/r/d/f".toList, "/r/d".toList⟩ name →
        ∃ out, umAbspath env ⟨"/r/d/f".toList, "/r/d".toList⟩ name stale dontfollowlink = some out ∧
          ∀ p, out.result = .ok p → InCage ['/', 'r'] p := by
  have hexec : exec step ⟨['/','r'],['/','r']⟩ nested =
      some ⟨"/r/d/f".toList,"/r/d".toList⟩ := by decide +kernel
  have hok : Meets step (fun s o => Held (str [['r']]) s o.name) ⟨['/','r'],['/','r']⟩ nested := by
    decide +kernel
  exact ⟨hexec,chroot_restricts [['r']] [] (by decide) (by decide) _ (Run.of_exec hexec hok)⟩

theorem nested_chroot_escapes :
    exec step ⟨['/', 'r'], ['/', 'r']⟩
        [.chroot climbing (some "d".toList) [], .chdir climbing (some "../etc".toList) [] (.ok ())] =
      some ⟨"/etc".toList, "/r/d".toList⟩ ∧ ¬InCage ['/', 'r'] "/etc".toList := by
  decide +kernel

end ViewOS.Wdm
