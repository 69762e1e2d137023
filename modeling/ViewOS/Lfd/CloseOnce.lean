import ViewOS.Lfd.Accounts
import ViewOS.Lfd.Entries

namespace ViewOS.Lfd
open Transition

def Lfds.vfile (t : Lfds) (l : Nat) : Option (Nat × Int) := (t.entry l).bind LfdTable.vfile

def Lfds.standing (t : Lfds) (k : Nat × Int) : Nat := t.number fun e => e.vfile = some k

def Clean (s : State) : Op → Prop
  | .addproc pp false => ∀ q ∈ s.proc pp, ∀ p ∈ s.file q.fds, ∀ x ∈ p.lfdlist, ∀ l ∈ x,
      ∀ e ∈ s.lfds.entry l, ¬ e.Spent
  | .call pid (.closeIn fd rv) => ∀ l ∈ s.closing (.call pid (.closeIn fd rv)),
      ∀ e ∈ s.lfds.entry l, e.count ≤ 1 → e.vfile ≠ none → 0 ≤ rv
  | _ => True

instance (s : State) : (o : Op) → Decidable (Clean s o)
  | .addproc _ false => inferInstanceAs (Decidable (∀ q ∈ _, ∀ p ∈ _, ∀ x ∈ _, ∀ l ∈ _, ∀ e ∈ _, _))
  | .call _ (.closeIn _ _) => inferInstanceAs (Decidable (∀ l ∈ _, ∀ e ∈ _, _))
  | .addproc _ true => inferInstanceAs (Decidable True)
  | .delproc _ => inferInstanceAs (Decidable True)
  | .call _ (.openIn _ _ _ _) => inferInstanceAs (Decidable True)
  | .call _ (.dupIn _ _) => inferInstanceAs (Decidable True)
  | .call _ (.fcntlIn _) => inferInstanceAs (Decidable True)
  | .call _ (.out _ _) => inferInstanceAs (Decidable True)

def Orderly (s : State) (o : Op) : Prop := Enabled s o ∧ Regular s o ∧ Clean s o

instance (s : State) (o : Op) : Decidable (Orderly s o) := inferInstanceAs (Decidable (_ ∧ _))

def Ends (s s' : State) (o : Op) (l : Nat) : Prop :=
  s'.slots l + s'.inFlight l = 0 ∨ s.closing o = some l ∧ s.slots l + s.inFlight l = 1

instance (s s' : State) (o : Op) (l : Nat) : Decidable (Ends s s' o l) :=
  inferInstanceAs (Decidable (_ ∨ _))

structure Balance (t t' : Lfds) (opened : List (Nat × Int)) : Prop where
  grows : t.closes <+: t'.closes
  count : ∀ k, t'.closes.count k + t'.standing k =
    t.closes.count k + t.standing k + opened.count k

theorem Balance.refl (t : Lfds) : Balance t t [] := ⟨List.prefix_rfl,fun k => by simp⟩

theorem Balance.trans {t u v : Lfds} {xs ys : List (Nat × Int)} (h : Balance t u xs)
    (h' : Balance u v ys) : Balance t v (xs ++ ys) := by
  refine ⟨h.grows.trans h'.grows,fun k => ?_⟩
  have h1 := h.count k
  have h2 := h'.count k
  rw [List.count_append]
  omega

section Standing

variable {t t' : Lfds} {fl : List Nat} {l : Nat}

theorem count_vfile (e : LfdTable) (k : Nat × Int) :
    e.vfile.toList.count k = (decide (e.vfile = some k)).toNat := by
  cases e.vfile with
  | none => simp
  | some x =>
    rcases eq_or_ne x k with rfl | hne
    · simp
    · simp [hne]

theorem Write.standing (h : FreeList t fl) {e : Option LfdTable} (w : Write t t' l e)
    (k : Nat × Int) :
    t'.standing k + ((t.entry l).any fun e => e.vfile = some k).toNat =
      t.standing k + (e.any fun e => e.vfile = some k).toNat :=
  w.number h _

theorem Write.balance_same (h : FreeList t fl) {e e' : LfdTable} (he : t.entry l = some e)
    (w : Write t t' l (some e')) (hv : e'.vfile = e.vfile) (hc : t'.closes = t.closes) :
    Balance t t' [] := by
  refine ⟨hc ▸ List.prefix_rfl,fun k => ?_⟩
  have hn := w.standing h k
  rw [he,Option.any_some,Option.any_some,hv] at hn
  rw [hc,List.count_nil]
  omega

theorem Write.balance_closed (h : FreeList t fl) {e : LfdTable} {e' : Option LfdTable}
    (he : t.entry l = some e) (w : Write t t' l e') (hv : e'.bind LfdTable.vfile = none)
    (hc : t'.closes = t.closes ++ e.vfile.toList) : Balance t t' [] := by
  refine ⟨by rw [hc]; exact List.prefix_append _ _,fun k => ?_⟩
  have hn := w.standing h k
  have hnone : (e'.any fun e => e.vfile = some k) = false := by
    cases e' with
    | none => rfl
    | some e' =>
      rw [Option.bind_some] at hv
      simp [hv]
  rw [he,Option.any_some,hnone,Bool.toNat_false] at hn
  rw [hc,List.count_append,count_vfile,List.count_nil]
  omega

end Standing

structure Thinned (t t' : Lfds) : Prop where
  balance : Balance t t' []
  kept : ∀ l e', t'.entry l = some e' → ∃ e, t.entry l = some e ∧ e'.vfile = e.vfile

theorem Thinned.refl (t : Lfds) : Thinned t t := ⟨.refl t,fun _ e he => ⟨e,he,rfl⟩⟩

theorem Thinned.trans {t u v : Lfds} (h : Thinned t u) (h' : Thinned u v) : Thinned t v := by
  refine ⟨h.balance.trans h'.balance,fun l e he => ?_⟩
  obtain ⟨e1,he1,hv1⟩ := h'.kept l e he
  obtain ⟨e2,he2,hv2⟩ := h.kept l e1 he1
  exact ⟨e2,he2,hv1.trans hv2⟩

def Single (t : Lfds) : Prop := ∀ l e, t.entry l = some e → e.Spent → e.count = 1

section Lists

variable {t t' : Lfds} {fl : List Nat}

theorem Write.kept {l : Nat} {e e' : LfdTable} (he : t.entry l = some e)
    (w : Write t t' l (some e')) (hv : e'.vfile = e.vfile) :
    ∀ a x', t'.entry a = some x' → ∃ x, t.entry a = some x ∧ x'.vfile = x.vfile := by
  intro a x' hx'
  rw [w.entry] at hx'
  split_ifs at hx' with ha
  · obtain rfl := Option.some.inj hx'
    exact ⟨e,ha ▸ he,hv⟩
  · exact ⟨x',hx',rfl⟩

theorem Write.single {l : Nat} {e : Option LfdTable} (w : Write t t' l e) (h : Single t)
    (he : ∀ x ∈ e, x.Spent → x.count = 1) : Single t' := by
  intro a x hx hs
  rw [w.entry] at hx
  split_ifs at hx with ha
  · exact he x hx hs
  · exact h a x hx hs

theorem dup_thinned (h : FreeList t fl) {x : Option Nat} (hx : act t (.dup x) = some t') :
    (∃ fl, FreeList t' fl) ∧ Thinned t t' ∧ (∀ l e', t'.entry l = some e' → ∃ e,
      t.entry l = some e ∧ (e'.Spent ↔ e.Spent)) ∧
      (Single t → (∀ l ∈ x, ∀ e ∈ t.entry l, ¬ e.Spent) → Single t') := by
  have heff := act_effect h hx
  refine ⟨heff.free h,?_⟩
  cases heff with
  | none => exact ⟨.refl t,fun l e he => ⟨e,he,Iff.rfl⟩,fun hs _ => hs⟩
  | @dup _ l e he w hc hh =>
    refine ⟨⟨w.balance_same h he rfl hc,w.kept he rfl⟩,fun a x' hx' => ?_,fun hs hspent =>
      w.single hs fun x' hx' hs' => ?_⟩
    · rw [w.entry] at hx'
      split_ifs at hx' with ha
      · obtain rfl := Option.some.inj hx'
        exact ⟨e,ha ▸ he,Iff.rfl⟩
      · exact ⟨x',hx',Iff.rfl⟩
    · obtain rfl := Option.some.inj hx'
      exact absurd hs' (hspent l rfl e he)

theorem dups_thinned (h : FreeList t fl) {xs : List (Option Nat)}
    (hx : exec act t (xs.map .dup) = some t') :
    Thinned t t' ∧ (Single t → (∀ x ∈ xs, ∀ l ∈ x, ∀ e ∈ t.entry l, ¬ e.Spent) → Single t') := by
  induction xs generalizing t fl with
  | nil =>
    obtain rfl := Option.some.inj hx
    exact ⟨.refl t,fun hs _ => hs⟩
  | cons x xs ih =>
    obtain ⟨u,hu,hx⟩ := Option.bind_eq_some_iff.mp hx
    obtain ⟨⟨fl',hfree⟩,hthin,hspent,hsingle⟩ := dup_thinned h hu
    obtain ⟨hthin',hsingle'⟩ := ih hfree hx
    refine ⟨hthin.trans hthin',fun hs hno => hsingle' (hsingle hs (hno x (by simp))) ?_⟩
    intro y hy l hl e' he' hs'
    obtain ⟨e,he,hiff⟩ := hspent l e' he'
    exact hno y (by simp [hy]) l hl e he (hiff.mp hs')

theorem close_thinned (h : FreeList t fl) {x : Option Nat} (hx : act t (.close x) = some t') :
    (∃ fl, FreeList t' fl) ∧ Thinned t t' ∧ (Single t → Single t') := by
  have heff := act_effect h hx
  refine ⟨heff.free h,?_⟩
  cases heff with
  | none => exact ⟨.refl t,id⟩
  | @close _ l e he hz w hc hh =>
    refine ⟨⟨w.balance_same h he rfl hc,w.kept he rfl⟩,fun hs => w.single hs fun x' hx' hs' => ?_⟩
    obtain rfl := Option.some.inj hx'
    have hone : e.count = 1 := hs l e he hs'
    rw [hone] at hz
    exact absurd rfl hz
  | @last _ l e he hz w hc hh =>
    refine ⟨⟨w.balance_closed h he rfl hc,fun a x' hx' => ?_⟩,fun hs => w.single hs nofun⟩
    rw [w.entry] at hx'
    split_ifs at hx'
    exact ⟨x',hx',rfl⟩

theorem closes_thinned (h : FreeList t fl) {xs : List (Option Nat)}
    (hx : exec act t (xs.map .close) = some t') : Thinned t t' ∧ (Single t → Single t') := by
  induction xs generalizing t fl with
  | nil =>
    obtain rfl := Option.some.inj hx
    exact ⟨.refl t,id⟩
  | cons x xs ih =>
    obtain ⟨u,hu,hx⟩ := Option.bind_eq_some_iff.mp hx
    obtain ⟨⟨fl',hfree⟩,hthin,hsingle⟩ := close_thinned h hu
    obtain ⟨hthin',hsingle'⟩ := ih hfree hx
    exact ⟨hthin.trans hthin',hsingle' ∘ hsingle⟩

end Lists

def ended (s s' : State) (o : Op) (k : Nat × Int) : Nat :=
  (List.range s.lfds.tabmax).countP fun l => s.lfds.vfile l = some k ∧ Ends s s' o l

structure Tidy (s : State) : Prop where
  inv : Inv s
  single : Single s.lfds

structure Closing (s s' : State) (o : Op) : Prop where
  balance : Balance s.lfds s'.lfds o.opens
  ended : ∃ c, s'.lfds.closes = s.lfds.closes ++ c ∧ ∀ k, c.count k = ended s s' o k

section Step

variable {s s' : State} {o : Op}

theorem vfile_some {t : Lfds} {l : Nat} {k : Nat × Int} :
    t.vfile l = some k ↔ ∃ e, t.entry l = some e ∧ e.vfile = some k := Option.bind_eq_some_iff

theorem ended_eq_zero {k : Nat × Int}
    (h : ∀ l e, s.lfds.entry l = some e → e.vfile = some k → ¬ Ends s s' o l) :
    ended s s' o k = 0 := by
  refine List.countP_eq_zero.mpr fun l _ hl => ?_
  obtain ⟨hv,hends⟩ := of_decide_eq_true hl
  obtain ⟨e,he,hk⟩ := vfile_some.mp hv
  exact h l e he hk hends

theorem Thinned.closing (h : Inv s) (h' : Inv s') (hopens : o.opens = [])
    (hclosing : s.closing o = none) (ht : Thinned s.lfds s'.lfds) : Closing s s' o := by
  obtain ⟨c,hc⟩ := ht.balance.grows
  refine ⟨hopens ▸ ht.balance,c,hc.symm,fun k => ?_⟩
  obtain ⟨fl,hfree⟩ := h.rep.free
  obtain ⟨fl',hfree'⟩ := h'.rep.free
  have hn : s.lfds.tabmax ≤ s.lfds.tabmax + s'.lfds.tabmax := by omega
  have hn' : s'.lfds.tabmax ≤ s.lfds.tabmax + s'.lfds.tabmax := by omega
  set n := s.lfds.tabmax + s'.lfds.tabmax
  have hsplit : s.lfds.standing k = s'.lfds.standing k + ended s s' o k := by
    have hended : ended s s' o k =
        (List.range n).countP fun l => s.lfds.vfile l = some k ∧ Ends s s' o l := by
      refine (countP_range_of_le (fun l hl => ?_) hn).symm
      simp [Lfds.vfile,hfree.above l hl]
    rw [Lfds.standing,Lfds.standing,number_eq hfree _ hn,number_eq hfree' _ hn',hended,
      List.countP_eq_countP_filter_add _ _ fun l => decide (¬ Ends s s' o l),List.countP_filter,
      List.countP_filter]
    have hends : ∀ l, Ends s s' o l ↔ s'.lfds.entry l = none := by
      intro l
      rw [h'.accounted.freed,Ends,hclosing]
      simp
    congr 1
    · refine List.countP_congr fun l _ => ?_
      simp only [hends,Bool.and_eq_true,decide_eq_true_eq]
      constructor
      · rintro ⟨hv,hne⟩
        obtain ⟨e',he'⟩ := Option.ne_none_iff_exists'.mp hne
        obtain ⟨e,he,hv'⟩ := ht.kept l e' he'
        rw [he',Option.any_some,hv']
        rwa [he,Option.any_some] at hv
      · intro hv
        obtain ⟨e',he',hk⟩ := (Option.any_eq_true _ _).mp hv
        obtain ⟨e,he,hv'⟩ := ht.kept l e' he'
        rw [he,Option.any_some,← hv']
        exact ⟨hk,by simp [he']⟩
    · refine List.countP_congr fun l _ => ?_
      simp only [Bool.and_eq_true,decide_not,Bool.not_not,decide_eq_true_eq,vfile_some,
        Option.any_eq_true]
  have hcount := ht.balance.count k
  rw [← hc,List.count_append,List.count_nil] at hcount
  omega

theorem opened_closing (h : Inv s) (h' : Inv s') {hte : Option Nat} {sfd : Int}
    (hopens : o.opens = hte.toList.map (·, sfd)) (hsfd : hte ≠ none → 0 ≤ sfd)
    (hclosing : s.closing o = none) (hs : exec act s.lfds [.opened hte sfd] = some s'.lfds) :
    Closing s s' o ∧ (Single s.lfds → Single s'.lfds) := by
  obtain ⟨fl,hfree⟩ := h.rep.free
  obtain ⟨u,hu,hs⟩ := Option.bind_eq_some_iff.mp hs
  cases act_effect hfree hu with
  | none _ hno => simp at hno
  | @opened _ _ _ l hl w hc hh =>
    obtain rfl := Option.some.inj hs
    have hvfile : (⟨1,hte,sfd⟩ : LfdTable).vfile.toList = o.opens := by
      rw [hopens]
      cases hte with
      | none => rfl
      | some m => simp [LfdTable.vfile,hsfd (by simp)]
    refine ⟨⟨⟨hc ▸ List.prefix_rfl,fun k => ?_⟩,[],by simp [hc],fun k => ?_⟩,fun hsingle =>
      w.single hsingle fun x hx hspent => ?_⟩
    · have hn := w.standing hfree k
      rw [hl,Option.any_none,Bool.toNat_false,Option.any_some,← count_vfile,hvfile] at hn
      rw [hc]
      omega
    · refine (ended_eq_zero fun a e he _ hends => ?_).symm
      have hne : s'.lfds.entry a ≠ none := by
        rw [w.entry]
        split_ifs <;> simp [he]
      rcases hends with hzero | ⟨hcl,-⟩
      · exact hne ((h'.accounted.freed a).mpr hzero)
      · rw [hclosing] at hcl
        cases hcl
    · obtain rfl := Option.some.inj hx
      exact absurd (hsfd hspent.1) (not_le.mpr hspent.2)

theorem service_closing (h : Inv s) (h' : Inv s') {l : Nat} {rv : Int} (hopens : o.opens = [])
    (hclosing : s.closing o = some l)
    (hrv : ∀ e ∈ s.lfds.entry l, e.count ≤ 1 → e.vfile ≠ none → 0 ≤ rv)
    (hs : exec act s.lfds [.service l rv] = some s'.lfds) :
    Closing s s' o ∧ (Single s.lfds → Single s'.lfds) := by
  obtain ⟨fl,hfree⟩ := h.rep.free
  obtain ⟨u,hu,hs⟩ := Option.bind_eq_some_iff.mp hs
  have hkeep : ∀ a e, s.lfds.entry a = some e → s'.lfds.entry a ≠ none →
      (Ends s s' o a ↔ a = l ∧ e.count = 1) := by
    intro a e he hne
    have hcount := h.accounted.count a e he
    have hzero := mt (h'.accounted.freed a).mpr hne
    rw [Ends,hclosing,Option.some.injEq,or_iff_right hzero,eq_comm]
    refine and_congr_right fun _ => ?_
    omega
  cases act_effect hfree hu with
  | none _ hno => simp at hno
  | @unserved _ e _ he hv =>
    have hsame : s'.lfds = s.lfds := (Option.some.inj hs).symm
    refine ⟨⟨⟨hsame ▸ List.prefix_rfl,fun k => by simp [hsame,hopens]⟩,[],by simp [hsame],
      fun k => ?_⟩,fun hsingle => hsame ▸ hsingle⟩
    refine (ended_eq_zero fun a e' he' hk hends => ?_).symm
    obtain ⟨rfl,hone⟩ := (hkeep a e' he' (by simp [hsame,he'])).mp hends
    obtain rfl : e = e' := Option.some.inj (he.symm.trans he')
    rcases hv with hv | hv
    · simp [hv] at hk
    · omega
  | @served _ _ e _ he hv hone w hc hh =>
    obtain rfl := Option.some.inj hs
    have hnull := hrv e he hone hv
    rw [if_pos hnull] at w
    have hspent : ({ e with sfd := -1 } : LfdTable).vfile = none :=
      vfile_eq_none.mpr (or_iff_not_imp_left.mpr fun hne => ⟨hne,by simp⟩)
    have hlive : e.count = 1 := by
      have hcount := h.accounted.count l e he
      have hzero := mt (h.accounted.freed l).mpr (by simp [he])
      omega
    refine ⟨⟨hopens ▸ w.balance_closed hfree he hspent hc,_,hc,fun k => ?_⟩,fun hsingle =>
      w.single hsingle fun x hx _ => ?_⟩
    · have hlt : l < s.lfds.tabmax := by
        by_contra hge
        simpa [he] using hfree.above l (not_lt.mp hge)
      have hends : ∀ a, s.lfds.vfile a = some k ∧ Ends s s' o a ↔ a = l ∧ e.vfile = some k := by
        intro a
        rw [vfile_some]
        constructor
        · rintro ⟨⟨x,hx,hk⟩,hends⟩
          obtain ⟨rfl,-⟩ := (hkeep a x hx (by rw [w.entry]; split_ifs <;> simp [hx])).mp hends
          obtain rfl : e = x := Option.some.inj (he.symm.trans hx)
          exact ⟨rfl,hk⟩
        · rintro ⟨rfl,hk⟩
          exact ⟨⟨e,he,hk⟩,(hkeep a e he (by simp [w.entry])).mpr ⟨rfl,hlive⟩⟩
      have hchange := countP_change (P := fun _ => false)
        (Q := fun a => decide (s.lfds.vfile a = some k ∧ Ends s s' o a)) hlt fun a ha => by
          simp [hends,ha]
      rw [count_vfile,ended]
      simpa [hends] using hchange.symm
    · obtain rfl := Option.some.inj hx
      exact hlive

theorem Tidy.step (h : Tidy s) (ho : Orderly s o) (hs : perform s o = some s') :
    Tidy s' ∧ Closing s s' o := by
  obtain ⟨hen,hreg,hclean⟩ := ho
  have hinv : Inv s' := by
    obtain ⟨u,hu,hinv⟩ := h.inv.perform hen hreg
    obtain rfl := Option.some.inj (hs.symm.trans hu)
    exact hinv
  obtain ⟨fl,hfree⟩ := h.inv.rep.free
  obtain ⟨acts,hacts,hexec⟩ := perform_acts hs
  cases hacts with
  | opened hte sfd hopens hsfd hclosing =>
    obtain ⟨hc,hsingle⟩ := opened_closing h.inv hinv hopens hsfd hclosing hexec
    exact ⟨⟨hinv,hsingle h.single⟩,hc⟩
  | @service pid lfd fd rv ho hclosing =>
    subst ho
    obtain ⟨hc,hsingle⟩ := service_closing h.inv hinv rfl hclosing (hclean lfd hclosing) hexec
    exact ⟨⟨hinv,hsingle h.single⟩,hc⟩
  | dups xs hopens hclosing hxs =>
    have hspent : ∀ x ∈ xs, ∀ l ∈ x, ∀ e ∈ s.lfds.entry l, ¬ e.Spent := by
      rcases hxs with ⟨pp,q,p,rfl,hq,hp,rfl⟩ | hxs
      · exact hclean q hq p hp
      · exact hxs
    obtain ⟨hthin,hsingle⟩ := dups_thinned hfree hexec
    exact ⟨⟨hinv,hsingle h.single hspent⟩,hthin.closing h.inv hinv hopens hclosing⟩
  | closes xs hopens hclosing =>
    obtain ⟨hthin,hsingle⟩ := closes_thinned hfree hexec
    exact ⟨⟨hinv,hsingle h.single⟩,hthin.closing h.inv hinv hopens hclosing⟩

theorem Tidy.run {os : List Op} (h : Tidy s) (hs : exec perform s os = some s')
    (hok : Meets perform Orderly s os) :
    Tidy s' ∧ Balance s.lfds s'.lfds (os.flatMap Op.opens) := by
  induction os generalizing s with
  | nil =>
    obtain rfl := Option.some.inj hs
    exact ⟨h,.refl _⟩
  | cons o os ih =>
    obtain ⟨u,hu,hs⟩ := Option.bind_eq_some_iff.mp hs
    obtain ⟨htidy,hc⟩ := h.step hok.1 hu
    obtain ⟨htidy',hb⟩ := ih htidy hs (hok.2 u hu)
    exact ⟨htidy',hc.balance.trans hb⟩

end Step

theorem tidy_init : Tidy State.init := ⟨inv_init,fun _ _ he => nomatch he⟩

theorem module_close_once (os : List Op) (s : State) (hs : exec perform State.init os = some s)
    (hok : Meets perform Orderly State.init os) :
    (∀ k, (os.flatMap Op.opens).count k = s.lfds.closes.count k + s.lfds.standing k) ∧
      (∀ l e, s.lfds.entry l = some e → s.slots l + s.inFlight l ≠ 0 ∧
        (e.Spent → s.slots l + s.inFlight l = 1)) ∧
      ∀ o, Orderly s o → ∃ s' c, perform s o = some s' ∧
        s'.lfds.closes = s.lfds.closes ++ c ∧ ∀ k, c.count k = ended s s' o k := by
  obtain ⟨htidy,hb⟩ := tidy_init.run hs hok
  refine ⟨fun k => ?_,fun l e he => ⟨?_,fun hspent => ?_⟩,fun o ho => ?_⟩
  · have hcount := hb.count k
    have hnone : State.init.lfds.closes.count k + State.init.lfds.standing k = 0 := rfl
    omega
  · exact mt (htidy.inv.accounted.freed l).mpr (by simp [he])
  · have hcount := htidy.inv.accounted.count l e he
    have hone := htidy.single l e he hspent
    omega
  · obtain ⟨s',hs',-⟩ := htidy.inv.perform ho.1 ho.2.1
    obtain ⟨c,hc⟩ := (htidy.step ho hs').2.ended
    exact ⟨s',c,hs',hc⟩

def sharedThenClosed : List Op :=
  [.call 0 (.openIn false (some 7) 5 false), .call 0 (.out (some 3) true),
    .call 0 (.dupIn (some 3) none), .call 0 (.out (some 4) true), .addproc 0 false, .delproc 1,
    .call 0 (.closeIn (some 3) 0), .call 0 (.out (some 0) true), .call 0 (.closeIn (some 4) 0)]

theorem sharedThenClosed_once : ∃ s, exec perform State.init sharedThenClosed = some s ∧
    s.lfds.closes = [(7, 5)] ∧ (∀ k, (sharedThenClosed.flatMap Op.opens).count k =
      s.lfds.closes.count k + s.lfds.standing k) := by
  have hok : Meets perform Orderly State.init sharedThenClosed := by decide +kernel
  have hsome : (exec perform State.init sharedThenClosed).any fun s => s.lfds.closes = [(7, 5)] := by
    decide +kernel
  obtain ⟨s,hs,hcloses⟩ := (Option.any_eq_true _ _).mp hsome
  exact ⟨s,hs,of_decide_eq_true hcloses,(module_close_once sharedThenClosed s hs hok).1⟩

def refusedClose : List Op :=
  [.call 0 (.openIn false (some 7) 5 false), .call 0 (.out (some 3) true),
    .call 0 (.closeIn (some 3) (-1)), .call 0 (.out (some 0) true)]

def forkedClose : List Op :=
  [.call 0 (.openIn false (some 7) 5 false), .call 0 (.out (some 3) true), .addproc 0 true,
    .call 0 (.closeIn (some 3) 0), .addproc 1 false, .call 0 (.out (some 0) true)]

theorem module_close_miscounted :
    (Meets perform (fun s o => Enabled s o ∧ Regular s o) State.init refusedClose ∧
      refusedClose.flatMap Op.opens = [(7, 5)] ∧
      (exec perform State.init refusedClose).any fun s => s.lfds.closes = [(7, 5), (7, 5)]) ∧
    (Meets perform (fun s o => Enabled s o ∧ Regular s o) State.init forkedClose ∧
      (exec perform State.init forkedClose).any fun s => s.lfds.closes = [(7, 5)] ∧
        s.slots 0 = 1 ∧ s.lfds.entry 0 = some ⟨1, some 7, -1⟩) ∧
    Meets perform (fun s o => Enabled s o ∧ Clean s o) State.init killedOpen ∧
      killedOpen.flatMap Op.opens = [(7, 5)] ∧
      (exec perform State.init killedOpen).any fun s => s.lfds.closes = [] ∧
        s.slots 0 + s.inFlight 0 = 0 := by
  refine ⟨⟨?_,?_,?_⟩,⟨?_,?_⟩,?_,?_,?_⟩ <;> decide +kernel

end ViewOS.Lfd
