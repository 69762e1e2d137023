import ViewOS.Lfd.Acts

namespace ViewOS.Lfd
open Transition

def LfdTable.vfile (e : LfdTable) : Option (Nat × Int) :=
  e.hte.bind fun h => if 0 ≤ e.sfd then some (h, e.sfd) else none

def Lfds.number (t : Lfds) (P : LfdTable → Bool) : Nat :=
  (List.range t.tabmax).countP fun l => (t.entry l).any P

theorem vfile_eq_none {e : LfdTable} : e.vfile = none ↔ e.hte = none ∨ e.Spent := by
  unfold LfdTable.vfile LfdTable.Spent
  cases e.hte with
  | none => simp
  | some h => simp

structure Write (t t' : Lfds) (l : Nat) (e : Option LfdTable) : Prop where
  entry : ∀ a, t'.entry a = if a = l then e else t.entry a
  free : ∃ fl, FreeList t' fl

section Number

variable {t t' : Lfds} {fl : List Nat}

theorem countP_range_of_le {Q : Nat → Bool} {m n : Nat} (hQ : ∀ l, m ≤ l → Q l = false)
    (hn : m ≤ n) : (List.range n).countP Q = (List.range m).countP Q := by
  obtain ⟨k,rfl⟩ := Nat.exists_eq_add_of_le hn
  induction k with
  | zero => rfl
  | succ k ih =>
    rw [← Nat.add_assoc,List.range_succ,List.countP_append,List.countP_singleton,
      ih (by omega),hQ _ (by omega)]
    rfl

theorem number_eq (h : FreeList t fl) (P : LfdTable → Bool) {n : Nat} (hn : t.tabmax ≤ n) :
    t.number P = (List.range n).countP fun l => (t.entry l).any P :=
  (countP_range_of_le (fun l hl => by rw [h.above l hl]; rfl) hn).symm

theorem countP_change {n l : Nat} {P Q : Nat → Bool} (hl : l < n) (h : ∀ a, a ≠ l → Q a = P a) :
    (List.range n).countP Q + (P l).toNat = (List.range n).countP P + (Q l).toNat := by
  induction n with
  | zero => omega
  | succ n ih =>
    rw [List.range_succ,List.countP_append,List.countP_append,List.countP_singleton,
      List.countP_singleton]
    rcases eq_or_ne l n with rfl | hne
    · have hsame : (List.range l).countP Q = (List.range l).countP P :=
        List.countP_congr fun a ha => by rw [h a (List.mem_range.mp ha).ne]
      rw [hsame]
      cases P l <;> cases Q l <;> simp
    · have := ih (by omega)
      rw [h n hne.symm]
      omega

theorem Write.number (h : FreeList t fl) {l : Nat} {e : Option LfdTable} (w : Write t t' l e)
    (P : LfdTable → Bool) :
    t'.number P + ((t.entry l).any P).toNat = t.number P + (e.any P).toNat := by
  obtain ⟨fl',h'⟩ := w.free
  obtain ⟨n,h1,h2,h3⟩ : ∃ n, t.tabmax ≤ n ∧ t'.tabmax ≤ n ∧ l < n :=
    ⟨t.tabmax + t'.tabmax + l + 1,by omega,by omega,by omega⟩
  have hchange := countP_change (P := fun a => (t.entry a).any P) (Q := fun a => (t'.entry a).any P)
    h3 fun a ha => by rw [w.entry,if_neg ha]
  rw [w.entry l,if_pos rfl] at hchange
  rw [number_eq h P h1,number_eq h' P h2,hchange]

end Number

def hteAdd (f : Nat → Int) (hte : Option Nat) (n : Int) : Nat → Int := fun h =>
  f h + if hte = some h then n else 0

theorem htCountAdd_htCount (t : Lfds) (hte : Option Nat) (n : Int) :
    (htCountAdd t hte n).htCount = hteAdd t.htCount hte n := by
  funext a
  cases hte with
  | none => simp [htCountAdd,hteAdd]
  | some h =>
    rcases eq_or_ne a h with rfl | hne
    · simp [htCountAdd,hteAdd]
    · simp [htCountAdd,hteAdd,hne,hne.symm]

theorem htCountAdd_closes (t : Lfds) (hte : Option Nat) (n : Int) :
    (htCountAdd t hte n).closes = t.closes := by
  cases hte <;> rfl

theorem moduleClose_closes (t : Lfds) (e : LfdTable) :
    (moduleClose t e.hte e.sfd).closes = t.closes ++ e.vfile.toList ∧
      (moduleClose t e.hte e.sfd).htCount = t.htCount := by
  unfold moduleClose LfdTable.vfile
  cases e.hte with
  | none => simp
  | some h =>
    dsimp only
    split_ifs <;> simp

inductive Effect (t : Lfds) : Act → Lfds → Prop
  | none (a : Act) (h : a = .dup none ∨ a = .close none) : Effect t a t
  | opened {t' : Lfds} {hte : Option Nat} {sfd : Int} {l : Nat} (hl : t.entry l = Option.none)
      (w : Write t t' l (some ⟨1, hte, sfd⟩)) (hc : t'.closes = t.closes)
      (hh : t'.htCount = hteAdd t.htCount hte 1) : Effect t (.opened hte sfd) t'
  | dup {t' : Lfds} {l : Nat} {e : LfdTable} (he : t.entry l = some e)
      (w : Write t t' l (some { e with count := short (e.count + 1) })) (hc : t'.closes = t.closes)
      (hh : t'.htCount = t.htCount) : Effect t (.dup (some l)) t'
  | close {t' : Lfds} {l : Nat} {e : LfdTable} (he : t.entry l = some e)
      (hz : short (e.count - 1) ≠ 0) (w : Write t t' l (some { e with count := short (e.count - 1) }))
      (hc : t'.closes = t.closes) (hh : t'.htCount = t.htCount) : Effect t (.close (some l)) t'
  | last {t' : Lfds} {l : Nat} {e : LfdTable} (he : t.entry l = some e)
      (hz : short (e.count - 1) = 0) (w : Write t t' l Option.none)
      (hc : t'.closes = t.closes ++ e.vfile.toList)
      (hh : t'.htCount = hteAdd t.htCount e.hte (-1)) : Effect t (.close (some l)) t'
  | unserved {l : Nat} {e : LfdTable} {rv : Int} (he : t.entry l = some e)
      (h : e.vfile = Option.none ∨ 1 < e.count) : Effect t (.service l rv) t
  | served {t' : Lfds} {l : Nat} {e : LfdTable} {rv : Int} (he : t.entry l = some e)
      (h : e.vfile ≠ Option.none) (h1 : e.count ≤ 1)
      (w : Write t t' l (some { e with sfd := if 0 ≤ rv then -1 else e.sfd }))
      (hc : t'.closes = t.closes ++ e.vfile.toList) (hh : t'.htCount = t.htCount) :
      Effect t (.service l rv) t'

section Effects

variable {t t' : Lfds} {fl : List Nat}

theorem lfdOpen_effect (h : FreeList t fl) {hte : Option Nat} {sfd : Int}
    (ha : act t (.opened hte sfd) = some t') : Effect t (.opened hte sfd) t' := by
  obtain ⟨u,l,fl',halloc,htab,hnone,hfree⟩ := h.alloc
  obtain ⟨h1,h2,h3⟩ := htCountAdd_same u hte 1
  have hu : u.closes = t.closes ∧ u.htCount = t.htCount := by
    unfold lfdAlloc at halloc
    split at halloc
    · split at halloc
      · obtain ⟨rfl,-⟩ := Prod.mk.inj (Option.some.inj halloc)
        exact ⟨rfl,rfl⟩
      · cases halloc
    · obtain ⟨rfl,-⟩ := Prod.mk.inj (Option.some.inj halloc)
      exact ⟨rfl,rfl⟩
  have ht : (htCountAdd u hte 1).store l (.live ⟨1,hte,sfd⟩) = t' := by
    simpa [act,lfdOpen,halloc] using ha
  subst ht
  refine .opened hnone ⟨fun a => ?_,fl',?_⟩ ?_ ?_
  · rw [entry_store]
    unfold Lfds.entry
    rw [h1,htab]
  · refine (hfree ⟨1,hte,sfd⟩).of_same ?_ h2 h3
    simp [Lfds.store,h1]
  · exact (htCountAdd_closes u hte 1).trans hu.1
  · rw [← hu.2]
    exact htCountAdd_htCount u hte 1

theorem lfdDup_effect (h : FreeList t fl) {lfd : Option Nat}
    (ha : act t (.dup lfd) = some t') : Effect t (.dup lfd) t' := by
  cases lfd with
  | none => exact Option.some.inj ha ▸ .none _ (Or.inl rfl)
  | some l =>
    obtain ⟨e,he,ha⟩ := Option.bind_eq_some_iff.mp ha
    obtain rfl := Option.some.inj ha
    exact .dup he ⟨fun a => entry_store t l _ a,fl,h.store_live he _⟩ rfl rfl

theorem lfdClose_effect (h : FreeList t fl) {lfd : Option Nat}
    (ha : act t (.close lfd) = some t') : Effect t (.close lfd) t' := by
  cases lfd with
  | none => exact Option.some.inj ha ▸ .none _ (Or.inr rfl)
  | some l =>
    obtain ⟨e,he,ha⟩ := Option.bind_eq_some_iff.mp ha
    dsimp only at ha
    set e' : LfdTable := { e with count := short (e.count - 1) } with he'
    have hstore := h.store_live he e'
    split_ifs at ha with hz
    · obtain rfl := Option.some.inj ha
      obtain ⟨m1,m2,m3⟩ := moduleClose_same (t.store l (.live e')) e'.hte e'.sfd
      obtain ⟨m4,m5⟩ := moduleClose_closes (t.store l (.live e')) e'
      set u := moduleClose (t.store l (.live e')) e'.hte e'.sfd
      obtain ⟨h1,h2,h3⟩ := htCountAdd_same u e'.hte (-1)
      have hentry : ∀ a, (htCountAdd u e'.hte (-1)).entry a =
          if a = l then some e' else t.entry a := by
        intro a
        rw [← entry_store]
        unfold Lfds.entry
        rw [h1,m1]
      refine .last he hz ⟨fun a => ?_,l :: fl,?_⟩ ?_ ?_
      · rw [entry_free,hentry]
        split_ifs <;> rfl
      · exact (hstore.of_same (h1.trans m1) (h2.trans m2) (h3.trans m3)).free
          ((hentry l).trans (if_pos rfl))
      · exact (htCountAdd_closes u e'.hte (-1)).trans m4
      · exact (htCountAdd_htCount u e'.hte (-1)).trans (by rw [m5]; rfl)
    · obtain rfl := Option.some.inj ha
      exact .close he hz ⟨fun a => entry_store t l _ a,fl,hstore⟩ rfl rfl

theorem closeService_effect (h : FreeList t fl) {l : Nat} {rv : Int}
    (ha : act t (.service l rv) = some t') : Effect t (.service l rv) t' := by
  obtain ⟨e,he,ha⟩ := Option.bind_eq_some_iff.mp ha
  cases hte : e.hte with
  | none =>
    rw [hte] at ha
    exact Option.some.inj ha ▸ .unserved he (Or.inl (vfile_eq_none.mpr (Or.inl hte)))
  | some m =>
    rw [hte] at ha
    dsimp only [closeService] at ha
    obtain ⟨m1,m2,m3⟩ := moduleClose_same t (some m) e.sfd
    obtain ⟨m4,m5⟩ := moduleClose_closes t e
    rw [hte] at m4 m5
    have hsame : ∀ a, (moduleClose t (some m) e.sfd).entry a = t.entry a := by
      intro a
      unfold Lfds.entry
      rw [m1]
    have hfree := h.of_same m1 m2 m3
    split_ifs at ha with hneg hone hrv
    · exact Option.some.inj ha ▸ .unserved he
        (Or.inl (vfile_eq_none.mpr (Or.inr ⟨by simp [hte],hneg⟩)))
    · obtain ⟨e',he',ha⟩ := Option.bind_eq_some_iff.mp ha
      obtain rfl : e = e' := Option.some.inj (he.symm.trans ((hsame l).symm.trans he'))
      obtain rfl := Option.some.inj ha
      refine .served he ?_ hone ⟨fun a => ?_,fl,hfree.store_live he' _⟩ m4 m5
      · exact fun hv => (vfile_eq_none.mp hv).elim (by simp [hte]) fun hs => hneg hs.2
      · rw [entry_store,if_pos hrv,hsame]
    · obtain rfl := Option.some.inj ha
      refine .served he ?_ hone ⟨fun a => ?_,fl,hfree⟩ m4 m5
      · exact fun hv => (vfile_eq_none.mp hv).elim (by simp [hte]) fun hs => hneg hs.2
      · rw [hsame,if_neg hrv]
        split_ifs with hal
        · rw [hal,he]
        · rfl
    · exact Option.some.inj ha ▸ .unserved he (Or.inr (not_le.mp hone))

theorem act_effect (h : FreeList t fl) {a : Act} (ha : act t a = some t') : Effect t a t' := by
  cases a with
  | opened hte sfd => exact lfdOpen_effect h ha
  | dup lfd => exact lfdDup_effect h ha
  | close lfd => exact lfdClose_effect h ha
  | service lfd rv => exact closeService_effect h ha

theorem Effect.free (h : FreeList t fl) {a : Act} (ha : Effect t a t') : ∃ fl, FreeList t' fl := by
  cases ha with
  | none => exact ⟨fl,h⟩
  | opened _ w => exact w.free
  | dup _ w => exact w.free
  | close _ _ w => exact w.free
  | last _ _ w => exact w.free
  | unserved => exact ⟨fl,h⟩
  | served _ _ _ w => exact w.free

end Effects

end ViewOS.Lfd
