import ViewOS.Lfd.Model
import ViewOS.Lib.RefCount

namespace ViewOS.Lfd
open RefCount

def Linked (tab : Nat → Cell) : Option Nat → List Nat → Prop
  | none, [] => True
  | some a, b :: l => a = b ∧ ∃ next, tab a = .free next ∧ Linked tab next l
  | _, _ => False

theorem Linked.congr {tab tab' : Nat → Cell} {first : Option Nat} {l : List Nat}
    (h : Linked tab first l) (hl : ∀ a ∈ l, tab' a = tab a) : Linked tab' first l := by
  induction l generalizing first with
  | nil =>
    cases first with
    | none => trivial
    | some a => exact h
  | cons b l ih =>
    cases first with
    | none => exact h
    | some a =>
      obtain ⟨rfl,next,hn,hrest⟩ := h
      refine ⟨rfl,next,(hl a (by simp)).trans hn,ih hrest fun c hc => hl c (by simp [hc])⟩

structure FreeList (t : Lfds) (l : List Nat) : Prop where
  linked : Linked t.tab t.tabfree l
  nodup : l.Nodup
  mem : ∀ a, a ∈ l ↔ a < t.tabmax ∧ t.entry a = none
  above : ∀ a, t.tabmax ≤ a → t.entry a = none

def Lfds.counts (t : Lfds) (lfd : Nat) : Option Int := (t.entry lfd).map LfdTable.count

structure Rep (t : Lfds) (refs : Multiset Nat) : Prop where
  counts : t.counts = tally refs
  fits : ∀ l, (refs.count l : Int) ≤ shrtMax
  free : ∃ l, FreeList t l

theorem entry_store (t : Lfds) (lfd : Nat) (e : LfdTable) (a : Nat) :
    (t.store lfd (.live e)).entry a = if a = lfd then some e else t.entry a := by
  unfold Lfds.store Lfds.entry
  rcases eq_or_ne a lfd with rfl | h
  · simp
  · simp [h]

theorem entry_free (t : Lfds) (lfd a : Nat) :
    (lfdFree t lfd).entry a = if a = lfd then none else t.entry a := by
  unfold lfdFree Lfds.store Lfds.entry
  rcases eq_or_ne a lfd with rfl | h
  · simp
  · simp [h]

theorem counts_store (t : Lfds) (lfd : Nat) (e : LfdTable) :
    (t.store lfd (.live e)).counts = Function.update t.counts lfd (some e.count) := by
  funext a
  rcases eq_or_ne a lfd with rfl | h
  · simp [Lfds.counts,entry_store]
  · simp [Lfds.counts,entry_store,h]

theorem counts_free (t : Lfds) (lfd : Nat) :
    (lfdFree t lfd).counts = Function.update t.counts lfd none := by
  funext a
  rcases eq_or_ne a lfd with rfl | h
  · simp [Lfds.counts,entry_free]
  · simp [Lfds.counts,entry_free,h]

theorem FreeList.store_live {t : Lfds} {l : List Nat} (h : FreeList t l) {lfd : Nat}
    {e : LfdTable} (he : t.entry lfd = some e) (e' : LfdTable) :
    FreeList (t.store lfd (.live e')) l := by
  have hlfd : lfd ∉ l := fun hm => by simpa [he] using ((h.mem lfd).mp hm).2
  have hentry : ∀ a, (t.store lfd (.live e')).entry a = none ↔ t.entry a = none := by
    intro a
    rw [entry_store]
    split_ifs with ha
    · simp [ha,he]
    · exact Iff.rfl
  refine ⟨h.linked.congr fun a ha => ?_,h.nodup,fun a => ?_,fun a ha => ?_⟩
  · exact Function.update_of_ne (fun hal : a = lfd => hlfd (hal ▸ ha)) _ _
  · rw [h.mem a,hentry]
    rfl
  · exact (hentry a).mpr (h.above a ha)

theorem FreeList.of_same {t t' : Lfds} {l : List Nat} (h : FreeList t l) (htab : t'.tab = t.tab)
    (hmax : t'.tabmax = t.tabmax) (hfree : t'.tabfree = t.tabfree) : FreeList t' l := by
  have hentry : t'.entry = t.entry := by
    funext a
    unfold Lfds.entry
    rw [htab]
  exact ⟨by rw [htab,hfree]; exact h.linked,h.nodup,by rw [hmax,hentry]; exact h.mem,
    by rw [hmax,hentry]; exact h.above⟩

theorem htCountAdd_same (t : Lfds) (hte : Option Nat) (n : Int) :
    (htCountAdd t hte n).tab = t.tab ∧ (htCountAdd t hte n).tabmax = t.tabmax ∧
      (htCountAdd t hte n).tabfree = t.tabfree := by
  cases hte <;> exact ⟨rfl,rfl,rfl⟩

theorem moduleClose_same (t : Lfds) (hte : Option Nat) (sfd : Int) :
    (moduleClose t hte sfd).tab = t.tab ∧ (moduleClose t hte sfd).tabmax = t.tabmax ∧
      (moduleClose t hte sfd).tabfree = t.tabfree := by
  cases hte with
  | none => exact ⟨rfl,rfl,rfl⟩
  | some h =>
    unfold moduleClose
    dsimp only
    split_ifs <;> exact ⟨rfl,rfl,rfl⟩

theorem counts_congr {t t' : Lfds} (h : t'.tab = t.tab) : t'.counts = t.counts := by
  funext a
  unfold Lfds.counts Lfds.entry
  rw [h]

theorem FreeList.alloc {t : Lfds} {l : List Nat} (h : FreeList t l) :
    ∃ t' lfd l', lfdAlloc t = some (t', lfd) ∧ t'.tab = t.tab ∧ t.entry lfd = none ∧
      ∀ e, FreeList (t'.store lfd (.live e)) l' := by
  unfold lfdAlloc
  cases hf : t.tabfree with
  | none =>
    have hl : l = [] := by
      have := h.linked
      rw [hf] at this
      cases l with
      | nil => rfl
      | cons b l => exact this.elim
    subst hl
    refine ⟨_,t.tabmax,[],rfl,rfl,h.above _ le_rfl,fun e => ⟨?_,List.nodup_nil,?_,?_⟩⟩
    · trivial
    · intro a
      have hm := h.mem a
      rw [entry_store]
      change _ ↔ a < t.tabmax + 1 ∧ _
      split_ifs with ha
      · simp
      · simp only [List.not_mem_nil,false_iff,not_and] at hm ⊢
        exact fun hlt => hm (by omega)
    · intro a ha
      change t.tabmax + 1 ≤ a at ha
      rw [entry_store,if_neg (by omega)]
      exact h.above a (by omega)
  | some rv =>
    have hlink := h.linked
    rw [hf] at hlink
    cases l with
    | nil => exact hlink.elim
    | cons b l =>
      obtain ⟨rfl,next,hn,hrest⟩ := hlink
      have hnot : rv ∉ l := (List.nodup_cons.mp h.nodup).1
      simp only [hn]
      refine ⟨_,rv,l,rfl,rfl,by simp [Lfds.entry,hn],fun e =>
        ⟨hrest.congr fun a ha => ?_,(List.nodup_cons.mp h.nodup).2,fun a => ?_,fun a ha => ?_⟩⟩
      · exact Function.update_of_ne (fun hal : a = rv => hnot (hal ▸ ha)) _ _
      · have hm := h.mem a
        rw [entry_store]
        split_ifs with hal
        · simp [hal,hnot]
        · simp only [List.mem_cons,hal,false_or] at hm
          exact hm
      · have hlt := ((h.mem rv).mp (by simp)).1
        have hne : a ≠ rv := by
          rintro rfl
          exact absurd hlt (not_lt.mpr ha)
        rw [entry_store,if_neg hne]
        exact h.above a ha

theorem FreeList.free {t : Lfds} {l : List Nat} (h : FreeList t l) {lfd : Nat} {e : LfdTable}
    (he : t.entry lfd = some e) : FreeList (lfdFree t lfd) (lfd :: l) := by
  have hlfd : lfd ∉ l := fun hm => by simpa [he] using ((h.mem lfd).mp hm).2
  have hlt : lfd < t.tabmax := by
    by_contra hge
    simpa [he] using h.above lfd (not_lt.mp hge)
  refine ⟨⟨rfl,t.tabfree,by simp [lfdFree,Lfds.store],h.linked.congr fun a ha => ?_⟩,
    List.nodup_cons.mpr ⟨hlfd,h.nodup⟩,fun a => ?_,fun a ha => ?_⟩
  · exact Function.update_of_ne (fun hal : a = lfd => hlfd (hal ▸ ha)) _ _
  · rw [entry_free,List.mem_cons,h.mem a]
    split_ifs with hal
    · exact iff_of_true (Or.inl hal) ⟨hal ▸ hlt,rfl⟩
    · simp only [hal,false_or]
      exact Iff.rfl
  · rw [entry_free]
    split_ifs
    · rfl
    · exact h.above a ha

theorem short_of_range {n : Int} (h0 : -1 ≤ n) (h1 : n ≤ shrtMax) : short n = n := by
  unfold short shrtMax at *
  exact Int.bmod_eq_of_le (by omega) (by omega)

theorem Rep.entry {t : Lfds} {refs : Multiset Nat} (h : Rep t refs) {lfd : Nat}
    (hm : lfd ∈ refs) : ∃ e, t.entry lfd = some e ∧ e.count = refs.count lfd := by
  have hc : t.counts lfd = some (refs.count lfd : Int) := by rw [h.counts,tally_of_mem hm]
  simpa [Lfds.counts] using hc

theorem Rep.not_mem {t : Lfds} {refs : Multiset Nat} (h : Rep t refs) {lfd : Nat} :
    t.entry lfd = none ↔ lfd ∉ refs := by
  rw [← tally_eq_none,← h.counts]
  simp [Lfds.counts]

theorem Rep.of_same {t t' : Lfds} {refs : Multiset Nat} (h : Rep t refs) (htab : t'.tab = t.tab)
    (hmax : t'.tabmax = t.tabmax) (hfree : t'.tabfree = t.tabfree) : Rep t' refs := by
  obtain ⟨l,hl⟩ := h.free
  exact ⟨(counts_congr htab).trans h.counts,h.fits,l,hl.of_same htab hmax hfree⟩

theorem Rep.lfdOpen {t : Lfds} {refs : Multiset Nat} (h : Rep t refs) (hte : Option Nat)
    (sfd : Int) : ∃ t' lfd, lfdOpen t hte sfd = some (t', lfd) ∧ Rep t' ({lfd} + refs) := by
  obtain ⟨l,hl⟩ := h.free
  obtain ⟨t',lfd,l',ha,htab,hnone,hfree⟩ := hl.alloc
  obtain ⟨h1,h2,h3⟩ := htCountAdd_same t' hte 1
  have hzero : refs.count lfd = 0 := Multiset.count_eq_zero.mpr (h.not_mem.mp hnone)
  refine ⟨(htCountAdd t' hte 1).store lfd (.live ⟨1,hte,sfd⟩),lfd,?_,?_,fun i => ?_,l',?_⟩
  · simp [Lfd.lfdOpen,ha]
  · rw [counts_store,counts_congr (h1.trans htab),h.counts,tally_retain,hzero]
    rfl
  · have := h.fits i
    unfold shrtMax at *
    rw [Multiset.count_add,Multiset.count_singleton]
    split_ifs with hi
    · rw [hi,hzero]
      decide
    · simpa using this
  · refine (hfree ⟨1,hte,sfd⟩).of_same ?_ h2 h3
    simp [Lfds.store,h1]

theorem Rep.lfdDup {t : Lfds} {refs : Multiset Nat} (h : Rep t refs) {lfd : Nat}
    (hm : lfd ∈ refs) (hroom : (refs.count lfd : Int) < shrtMax) :
    ∃ t', lfdDup t (some lfd) = some t' ∧ Rep t' ({lfd} + refs) := by
  obtain ⟨e,he,hc⟩ := h.entry hm
  obtain ⟨l,hl⟩ := h.free
  have hs : short (e.count + 1) = refs.count lfd + 1 := by
    rw [hc,short_of_range (by omega) (by omega)]
  refine ⟨t.store lfd (.live { e with count := short (e.count + 1) }),by simp [Lfd.lfdDup,he],?_,
    fun i => ?_,l,hl.store_live he _⟩
  · rw [counts_store,h.counts,tally_retain,hs]
  · have := h.fits i
    rw [Multiset.count_add,Multiset.count_singleton]
    split_ifs with hi
    · rw [hi]
      push_cast
      omega
    · simpa using this

theorem Rep.lfdClose {t : Lfds} {refs : Multiset Nat} {lfd : Nat} (h : Rep t ({lfd} + refs)) :
    ∃ t', lfdClose t (some lfd) = some t' ∧ Rep t' refs := by
  have hmem : lfd ∈ {lfd} + refs := by simp
  obtain ⟨e,he,hc⟩ := h.entry hmem
  obtain ⟨l,hl⟩ := h.free
  have hfits := h.fits lfd
  rw [Multiset.count_add,Multiset.count_singleton_self] at hc hfits
  have hs : short (e.count - 1) = refs.count lfd := by
    rw [hc,short_of_range (by push_cast; omega) (by push_cast at *; omega)]
    push_cast
    omega
  have hle : ∀ i, (refs.count i : Int) ≤ shrtMax := by
    intro i
    have := h.fits i
    rw [Multiset.count_add] at this
    push_cast at this
    omega
  set e' : LfdTable := { e with count := short (e.count - 1) } with he'
  have hstore := hl.store_live he e'
  by_cases hz : short (e.count - 1) = 0
  · obtain ⟨m1,m2,m3⟩ := moduleClose_same (t.store lfd (.live e')) e.hte e.sfd
    set u := moduleClose (t.store lfd (.live e')) e.hte e.sfd
    obtain ⟨h1,h2,h3⟩ := htCountAdd_same u e.hte (-1)
    have hlive : (htCountAdd u e.hte (-1)).entry lfd = some e' := by
      unfold Lfds.entry
      rw [h1,m1]
      simp [Lfds.store]
    refine ⟨lfdFree (htCountAdd u e.hte (-1)) lfd,by simp [Lfd.lfdClose,he,hz,u,he'],?_,hle,
      lfd :: l,(hstore.of_same (h1.trans m1) (h2.trans m2) (h3.trans m3)).free hlive⟩
    have hlast : tally refs lfd = none := by
      rw [tally,if_pos (by omega)]
    rw [counts_free,counts_congr (h1.trans m1),counts_store,h.counts,Function.update_idem,
      tally_release refs lfd,hlast]
  · refine ⟨t.store lfd (.live e'),by simp [Lfd.lfdClose,he,hz,he'],?_,hle,l,hstore⟩
    have hmore : tally refs lfd = some e'.count := by
      rw [tally,if_neg (by omega),he',hs]
    rw [counts_store,h.counts,tally_release refs lfd,hmore]

end ViewOS.Lfd
