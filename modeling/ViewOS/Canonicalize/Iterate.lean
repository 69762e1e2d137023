import ViewOS.Canonicalize.Names

namespace ViewOS.Canonicalize

def budget (c : Canonstruct) : Nat := (maxSymlinks - c.numLinks) * pathMax + c.start.length

def Action.cdata : Action → Canonstruct
  | .again c => c
  | .ret _ c => c
  | .enter _ c => c

def Visits (p : Path) (l l' : List Call) : Prop := ∃ new, l' = l ++ new ∧ ∀ k ∈ new, k.path = p

theorem Visits.refl (p : Path) (l : List Call) : Visits p l l := ⟨[],by simp,by simp⟩

theorem Visits.call (l : List Call) (k : Call) : Visits k.path l (l ++ [k]) := ⟨[k],rfl,by simp⟩

theorem appended_trans {α : Type*} {P : α → Prop} {l m n : List α}
    (h : ∃ new, m = l ++ new ∧ ∀ k ∈ new, P k) (h' : ∃ new, n = m ++ new ∧ ∀ k ∈ new, P k) :
    ∃ new, n = l ++ new ∧ ∀ k ∈ new, P k := by
  obtain ⟨new,rfl,h⟩ := h
  obtain ⟨new',rfl,h'⟩ := h'
  refine ⟨new ++ new',List.append_assoc ..,fun k hk => ?_⟩
  rcases List.mem_append.mp hk with hk | hk
  · exact h k hk
  · exact h' k hk

theorem Visits.trans {p : Path} {l m n : List Call} (h : Visits p l m) (h' : Visits p m n) :
    Visits p l n :=
  appended_trans h h'

def Action.Allowed (cfg : Config) (dest : Path) (c : Canonstruct) : Action → Prop
  | .again c' => budget c' < budget c ∧
      (cfg.rootlen < dest.length ∨ ¬Ordinary (component c.start))
  | .ret r c' =>
    (r = .dotdot ∨ r = .root → cfg.rootlen < dest.length ∧ budget c' < budget c) ∧
    (r = .ok → component c.start = [] ∧ c'.resolved = dest ∨ Ordinary (component c.start) ∧
      remainder c.start = [] ∧ c'.resolved = addComponent dest (component c.start))
  | .enter newdest c' => Ordinary (component c.start) ∧
      newdest = addComponent dest (component c.start) ∧ c'.start = remainder c.start ∧
      budget c' < budget c

section Phases

variable {cfg : Config} {dest s : Path} {c : Canonstruct}

theorem lstatDir_spec (isdotdot : Bool) :
    Visits dest c.calls (lstatDir cfg dest isdotdot c).calls ∧
      (lstatDir cfg dest isdotdot c).start = c.start ∧
      (lstatDir cfg dest isdotdot c).numLinks = c.numLinks ∧
      (lstatDir cfg dest isdotdot c).resolved = c.resolved := by
  unfold lstatDir
  dsimp only
  split <;> exact ⟨Visits.call _ (.lstat dest isdotdot),rfl,rfl,rfl⟩

theorem followLink_spec (cfg : Config) (dest rest : Path) :
    Visits c.resolved c.calls (followLink cfg dest rest c).cdata.calls ∧
      (followLink cfg dest rest c).Allowed cfg dest c := by
  have hcall := Visits.call c.calls (.readlink c.resolved)
  unfold followLink
  split_ifs with h1
  · exact ⟨.refl _ _,by simp [Action.Allowed]⟩
  · dsimp only
    split_ifs with h2
    · exact ⟨.refl _ _,by simp [Action.Allowed]⟩
    · split
      · exact ⟨hcall,by simp [Action.Allowed]⟩
      · have hsucc : maxSymlinks - c.numLinks = maxSymlinks - (c.numLinks + 1) + 1 := by omega
        have hm : ∀ b : Path, b.length + rest.length < pathMax →
            (maxSymlinks - (c.numLinks + 1)) * pathMax + (b ++ rest).length < budget c := by
          intro b hb
          rw [budget,hsucc,Nat.add_mul,List.length_append]
          omega
        have hlt := Nat.lt_of_not_le h1
        split_ifs with h3 h4
        · exact ⟨hcall,by simp [Action.Allowed]⟩
        · exact ⟨hcall,fun _ => ⟨hlt,hm _ (Nat.lt_of_not_le h3)⟩,by simp⟩
        · exact ⟨hcall,hm _ (Nat.lt_of_not_le h3),Or.inl hlt⟩

theorem checkDir_spec (cfg : Config) {dest s : Path} (ho : Ordinary (component s)) (hc : c.start = s)
    (hr : c.resolved = addComponent dest (component s)) :
    Visits c.resolved c.calls (checkDir cfg (remainder s) c).cdata.calls ∧
      (checkDir cfg (remainder s) c).Allowed cfg dest c := by
  have hcall := Visits.call c.calls (.access c.resolved)
  have hm : (maxSymlinks - c.numLinks) * pathMax + (remainder s).length < budget c := by
    have := remainder_length_lt ho.1
    rw [budget,hc]
    omega
  subst hc
  unfold checkDir
  dsimp only
  split_ifs with h1 h2
  · exact ⟨.refl _ _,by simp [Action.Allowed]⟩
  · split
    · exact ⟨hcall,by simp [Action.Allowed]⟩
    · exact ⟨hcall,ho,hr,rfl,hm⟩
  · exact ⟨.refl _ _,ho,hr,rfl,hm⟩

theorem visit_spec (cfg : Config) (dest : Path) {s : Path} (ho : Ordinary (component s)) (hc : c.start = s) :
    Visits (addComponent dest (component s)) c.calls
        (visit cfg dest (component s) (remainder s) c).cdata.calls ∧
      (visit cfg dest (component s) (remainder s) c).Allowed cfg dest c := by
  have hcall := Visits.call c.calls (.lstat (addComponent dest (component s)) false)
  unfold visit
  dsimp only
  split
  · split_ifs with h
    · exact ⟨hcall,by simp [Action.Allowed]⟩
    · refine ⟨hcall,by simp,fun _ => Or.inr ⟨hc ▸ ho,?_,by rw [hc]⟩⟩
      rw [hc]
      exact not_not.mp (not_or.mp h).2
  · rename_i mode _
    split_ifs
    · obtain ⟨hv,ha⟩ := followLink_spec (c := ⟨c.start,addComponent dest (component s),c.numLinks,mode,
          c.calls ++ [Call.lstat (addComponent dest (component s)) false]⟩) cfg dest (remainder s)
      exact ⟨hcall.trans hv,ha⟩
    · obtain ⟨hv,ha⟩ := checkDir_spec (c := ⟨c.start,addComponent dest (component s),c.numLinks,mode,
          c.calls ++ [Call.lstat (addComponent dest (component s)) false]⟩) cfg ho hc rfl
      exact ⟨hcall.trans hv,ha⟩

end Phases

structure Pass (cfg : Config) (dest : Path) (c : Canonstruct) (a : Action) : Prop where
  calls : ∃ l, Visits dest c.calls l ∧ (a.cdata.calls = l ∨ Ordinary (component c.start) ∧
    Visits (addComponent dest (component c.start)) l a.cdata.calls)
  allowed : a.Allowed cfg dest c

theorem iterate_spec (cfg : Config) (dest : Path) (recoutput : Ret) (c : Canonstruct) :
    Pass cfg dest c (iterate cfg dest recoutput c) := by
  have hstep : component c.start ≠ [] →
      (maxSymlinks - c.numLinks) * pathMax + (remainder c.start).length < budget c := by
    intro h
    have := remainder_length_lt h
    rw [budget]
    omega
  have hrefl := Visits.refl dest c.calls
  unfold iterate
  dsimp only
  generalize hd : (if recoutput ≠ .ok then
    lstatDir cfg dest (decide (recoutput = .dotdot)) { c with resolved := dest }
    else { c with resolved := dest }) = d
  obtain ⟨hvis,hs,hl,hr⟩ : Visits dest c.calls d.calls ∧ d.start = c.start ∧
      d.numLinks = c.numLinks ∧ d.resolved = dest := by
    subst hd
    split_ifs
    · exact lstatDir_spec (c := { c with resolved := dest }) (decide (recoutput = .dotdot))
    · exact ⟨hrefl,rfl,rfl,rfl⟩
  have hb : budget d = budget c := by rw [budget,budget,hs,hl]
  split_ifs with h1 h2 h3 h4 h5
  · exact ⟨⟨_,hrefl,Or.inl rfl⟩,hstep (by simp [h1]),Or.inr fun h => h.2.2.1 h1⟩
  · exact ⟨⟨_,hrefl,Or.inl rfl⟩,fun _ => ⟨h3,hstep (by simp [h2])⟩,by simp⟩
  · exact ⟨⟨_,hrefl,Or.inl rfl⟩,hstep (by simp [h2]),Or.inr fun h => h.2.2.2 h2⟩
  · exact ⟨⟨_,hvis,Or.inl rfl⟩,by simp,fun _ => Or.inl ⟨h4,hr⟩⟩
  · exact ⟨⟨_,hvis,Or.inl rfl⟩,by simp [Action.Allowed]⟩
  · have ho := component_ordinary h4 h1 h2
    obtain ⟨hv,ha⟩ := visit_spec cfg dest ho hs
    refine ⟨⟨_,hvis,Or.inr ⟨ho,hv⟩⟩,?_⟩
    revert ha
    cases visit cfg dest (component c.start) (remainder c.start) d <;>
      simp only [Action.Allowed,hb,hs] <;> exact id

theorem recRealpath_enter {cfg : Config} {fuel : Nat} {dest newdest : Path} {recoutput r : Ret}
    {c d c' : Canonstruct} (hit : iterate cfg dest recoutput c = .enter newdest d)
    (h : recRealpath cfg (fuel + 1) dest recoutput c = some (r, c')) :
    ∃ q e, recRealpath cfg fuel newdest .root d = some (q, e) ∧
      (q = r ∧ e = c' ∧ q ≠ .dotdot ∧ (q = .root → cfg.rootlen < dest.length) ∨
        (q = .dotdot ∨ q = .root) ∧ ∃ again, recRealpath cfg fuel dest again e = some (r, c')) := by
  rw [recRealpath,hit] at h
  dsimp only at h
  rcases hin : recRealpath cfg fuel newdest .root d with _ | ⟨q,e⟩
  · simp [hin] at h
  · rw [hin] at h
    refine ⟨q,e,rfl,?_⟩
    cases q with
    | ok =>
      obtain ⟨rfl,rfl⟩ := Prod.ext_iff.mp (Option.some.inj h)
      simp
    | err n =>
      obtain ⟨rfl,rfl⟩ := Prod.ext_iff.mp (Option.some.inj h)
      simp
    | dotdot => exact Or.inr ⟨Or.inl rfl,_,h⟩
    | root =>
      dsimp only at h
      split_ifs at h with hlt
      · obtain ⟨rfl,rfl⟩ := Prod.ext_iff.mp (Option.some.inj h)
        simp [hlt]
      · exact Or.inr ⟨Or.inr rfl,_,h⟩

theorem recRealpath_total (cfg : Config) (fuel : Nat) (dest : Path) (recoutput : Ret)
    (c : Canonstruct) (h : budget c < fuel) :
    ∃ r c', recRealpath cfg fuel dest recoutput c = some (r, c') ∧
      (r = .dotdot ∨ r = .root → budget c' < budget c) := by
  induction fuel generalizing dest recoutput c with
  | zero => omega
  | succ fuel ih =>
    have hspec := (iterate_spec cfg dest recoutput c).allowed
    rw [recRealpath]
    cases hit : iterate cfg dest recoutput c with
    | again c1 =>
      rw [hit] at hspec
      have hlt : budget c1 < budget c := hspec.1
      obtain ⟨r,c',e,hb⟩ := ih dest recoutput c1 (by omega)
      exact ⟨r,c',e,fun hr => (hb hr).trans hlt⟩
    | ret r c1 =>
      rw [hit] at hspec
      exact ⟨r,c1,rfl,fun hr => (hspec.1 hr).2⟩
    | enter newdest c1 =>
      rw [hit] at hspec
      have hlt : budget c1 < budget c := hspec.2.2.2
      obtain ⟨r,c2,e,hb⟩ := ih newdest .root c1 (by omega)
      dsimp only
      rw [e]
      cases r with
      | ok => exact ⟨.ok,c2,rfl,by simp⟩
      | err n => exact ⟨.err n,c2,rfl,by simp⟩
      | dotdot =>
        have hlt2 := hb (Or.inl rfl)
        obtain ⟨r,c',e',hb'⟩ := ih dest .dotdot c2 (by omega)
        exact ⟨r,c',e',fun hr => (hb' hr).trans (hlt2.trans hlt)⟩
      | root =>
        have hlt2 := hb (Or.inr rfl)
        dsimp only
        split_ifs
        · exact ⟨.root,c2,rfl,fun _ => hlt2.trans hlt⟩
        · obtain ⟨r,c',e',hb'⟩ := ih dest .root c2 (by omega)
          exact ⟨r,c',e',fun hr => (hb' hr).trans (hlt2.trans hlt)⟩

theorem startRealpath_total (env : Env) (dontfollowlink : Bool) (rootlen : Nat) (ebuf : Path) :
    ∃ out, startRealpath env dontfollowlink rootlen ebuf = some out := by
  obtain ⟨r,c,e,_⟩ := recRealpath_total ⟨env,rootlen,dontfollowlink⟩
    (maxSymlinks * pathMax + (cancelTrailingSlash ebuf).length + 1) ['/'] .root
    ⟨(cancelTrailingSlash ebuf).drop 1,['/'],0,.zero,[]⟩
    (by simp only [budget,List.length_drop,Nat.sub_zero]; omega)
  unfold startRealpath
  dsimp only
  rw [e]
  cases r <;> exact ⟨_,rfl⟩

theorem umRealpath_total (env : Env) (root : Path) (name cwd : Option Path) (stale : Path)
    (dontfollowlink : Bool) : ∃ out, umRealpath env root name cwd stale dontfollowlink = some out := by
  rcases name with _ | _ | ⟨x,u⟩
  · exact ⟨_,rfl⟩
  · exact ⟨_,rfl⟩
  · simp only [umRealpath]
    split_ifs
    · exact ⟨_,rfl⟩
    · exact startRealpath_total ..
    · cases cwd with
      | none => exact ⟨_,rfl⟩
      | some cwd =>
        dsimp only
        split_ifs
        · exact ⟨_,rfl⟩
        · exact startRealpath_total ..

end ViewOS.Canonicalize
