import ViewOS.Treepoch.Sees

namespace ViewOS.Treepoch
open AddrTree

inductive DeadChain (m : Nat → Node) : Nat → List Nat → Nat → Prop
  | nil (a : Nat) : DeadChain m a [] a
  | cons {a b c : Nat} {l : List Nat} (hp : (m a).parent = some b) (hn : (m a).nproc = 0)
      (h : DeadChain m b l c) : DeadChain m a (a :: l) c

theorem DeadChain.congr {m m' : Nat → Node} {a b : Nat} {l : List Nat} (h : DeadChain m a l b)
    (hm : ∀ x ∈ l, m' x = m x) : DeadChain m' a l b := by
  induction h with
  | nil => exact .nil _
  | @cons x _ _ l hp hn _ ih =>
    have e := hm x (by simp)
    exact .cons (by rw [e]; exact hp) (by rw [e]; exact hn) (ih fun x hx => hm x (by simp [hx]))

theorem DeadChain.snoc {m : Nat → Node} {a b c : Nat} {l : List Nat} (h : DeadChain m a l b)
    (hp : (m b).parent = some c) (hn : (m b).nproc = 0) : DeadChain m a (l ++ [b]) c := by
  induction h with
  | nil => exact .cons hp hn (.nil _)
  | cons hp' hn' _ ih => exact .cons hp' hn' (ih hp hn)

theorem DeadChain.climbDead {m : Nat → Node} {a b fuel : Nat} {l : List Nat}
    (h : DeadChain m a l b) (hb : (m b).nproc ≠ 0) (hf : l.length < fuel) :
    climbDead fuel m a = some b := by
  induction h generalizing fuel with
  | nil x =>
    obtain ⟨k,rfl⟩ : ∃ k, fuel = k + 1 := ⟨fuel - 1,by omega⟩
    cases hp : (m x).parent <;> simp [Treepoch.climbDead,hp,hb]
  | @cons x _ _ l hp hn _ ih =>
    obtain ⟨k,rfl⟩ : ∃ k, fuel = k + 1 := ⟨fuel - 1,by omega⟩
    have e := @ih k hb (by simp only [List.length_cons] at hf; omega)
    simp [Treepoch.climbDead,hp,hn,e]

structure Lands (s : State) (T : ATree) (a L : Nat) : Prop where
  inTree : L ∈ T.addrs
  chain : ∃ l, DeadChain s.mem a l L ∧ l.Nodup ∧ ∀ x ∈ l, x < s.next ∧ x ∉ T.addrs

section Lands

variable {s s' : State} {T T' : ATree} {a L : Nat}

theorem Lands.self (h : L ∈ T.addrs) : Lands s T L L :=
  ⟨h,[],.nil _,List.nodup_nil,by simp⟩

theorem Lands.climbDead (h : Lands s T a L) (hL : (s.mem L).nproc ≠ 0) :
    climbDead (s.next + 1) s.mem a = some L := by
  obtain ⟨l,hl,hn,hb⟩ := h.chain
  have hlen := length_le_of_nodup hn fun x hx => (hb x hx).1
  exact hl.climbDead hL (by omega)

theorem Lands.keep (h : Lands s T a L) (hnext : s.next ≤ s'.next) (hL : L ∈ T'.addrs)
    (hm : ∀ x < s.next, x ∉ T.addrs → s'.mem x = s.mem x ∧ x ∉ T'.addrs) : Lands s' T' a L := by
  obtain ⟨l,hl,hn,hb⟩ := h.chain
  refine ⟨hL,l,hl.congr fun x hx => (hm x (hb x hx).1 (hb x hx).2).1,hn,fun x hx => ?_⟩
  obtain ⟨h1,h2⟩ := hb x hx
  exact ⟨by omega,(hm x h1 h2).2⟩

theorem Lands.fall {b : Nat} (h : Lands s T a L) (hnext : s.next ≤ s'.next) (hb : b ∈ T'.addrs)
    (hp : (s'.mem L).parent = some b) (hn : (s'.mem L).nproc = 0) (hL : L < s'.next)
    (hL' : L ∉ T'.addrs)
    (hm : ∀ x < s.next, x ∉ T.addrs → s'.mem x = s.mem x ∧ x ∉ T'.addrs) : Lands s' T' a b := by
  obtain ⟨l,hl,hnd,hlb⟩ := h.chain
  have hl' := hl.congr fun x hx => (hm x (hlb x hx).1 (hlb x hx).2).1
  refine ⟨hb,l ++ [L],hl'.snoc hp hn,?_,?_⟩
  · refine List.nodup_append'.mpr ⟨hnd,by simp,?_⟩
    intro x hx hxL
    obtain rfl : x = L := by simpa using hxL
    exact (hlb x hx).2 h.inTree
  · intro x hx
    rcases List.mem_append.mp hx with hx | hx
    · obtain ⟨h1,h2⟩ := hlb x hx
      exact ⟨by omega,(hm x h1 h2).2⟩
    · obtain rfl : x = L := by simpa using hx
      exact ⟨hL,hL'⟩

end Lands

def Deep (m : Nat → Node) (L e : Nat) (u : ATree) : Prop :=
  ∀ q y, u.get q = some y → q ≠ [] → L ∈ y.addrs → e < (m y.addr).rise

theorem deep_self {m : Nat → Node} {u : ATree} {e : Nat} (hn : u.addrs.Nodup) : Deep m u.addr e u := by
  intro q y hy hq hmem
  cases q with
  | nil => exact absurd rfl hq
  | cons b q =>
    cases u with
    | leaf a => simp [ATree.get] at hy
    | node a l r =>
      simp only [ATree.addrs,List.nodup_cons,List.mem_append,not_or] at hn
      cases b with
      | false => exact absurd ((ATree.get_sublist (t := l) hy).1.subset hmem) hn.1.1
      | true => exact absurd ((ATree.get_sublist (t := r) hy).1.subset hmem) hn.1.2

theorem deep_fill {m : Nat → Node} {f : Frame} {t : ATree} {L e : Nat} (hL : L ∉ f.sib.addrs)
    (ht : e < (m t.addr).rise) (hd : Deep m L e t) : Deep m L e (f.fill t) := by
  intro q y hy hq hmem
  cases q with
  | nil => exact absurd rfl hq
  | cons b q =>
    by_cases hb : b = f.dir
    · subst hb
      rw [Frame.fill_get_dir] at hy
      cases q with
      | nil =>
        obtain rfl : t = y := by simpa [ATree.get] using hy
        exact ht
      | cons c q => exact hd _ y hy (by simp) hmem
    · obtain rfl : b = !f.dir := by cases b <;> cases hf : f.dir <;> simp_all
      rw [Frame.fill_get_other] at hy
      exact absurd ((ATree.get_sublist hy).1.subset hmem) hL

theorem separate_around {m : Nat → Node} {D : List Frame} {u : ATree} {L e ℓ : Nat}
    (hL : L ∉ Ctx.addrs D) (hℓ : ℓ ∈ u.leaves) : Ctx.Forall (Separate m L e ℓ) D u := by
  induction D generalizing u with
  | nil => trivial
  | cons f D ih =>
    simp only [Ctx.addrs,List.cons_append,List.mem_cons,List.mem_append,not_or] at hL
    have hfill : ℓ ∈ (f.fill u).leaves := Frame.mem_fill_leaves.mpr (Or.inl hℓ)
    exact ⟨fun _ h => absurd hfill h,separate_off hL.2.1,ih hL.2.2 hfill⟩

theorem sees_iff_mem {m : Nat → Node} {D : List Frame} {u : ATree} {L e ℓ : Nat}
    (hn : (Ctx.plug D u).addrs.Nodup) (hL : L ∈ u.addrs) (hu : (m u.addr).rise ≤ e)
    (hd : Deep m L e u) : Sees m (Ctx.plug D u) L e ℓ ↔ ℓ ∈ u.leaves := by
  have hdis := (List.nodup_append'.mp ((Ctx.plug_addrs_perm D u).nodup_iff.mp hn)).2.2
  constructor
  · intro h
    by_contra hℓ
    have hlt := (Ctx.forall_plug.mp h).2.head hL hℓ
    omega
  · intro hℓ
    refine Ctx.forall_plug.mpr ⟨separate_around (fun hm => hdis hL hm) hℓ,?_⟩
    refine ATree.forall_of_get fun q y _ hy hm hnot => ?_
    cases q with
    | nil =>
      obtain rfl : u = y := by simpa [ATree.get] using hy
      exact absurd hℓ hnot
    | cons b q => exact hd _ y hy (by simp) hm

theorem climbRise_spec {s : State} {C : List Frame} {t : ATree} {L e fuel : Nat}
    (h : Rep s (Ctx.plug C t)) (hL : L ∈ t.addrs) (hd : Deep s.mem L e t)
    (hroot : (s.mem (Ctx.plug C t).addr).rise ≤ e) (hf : C.length < fuel) :
    ∃ D u, Ctx.plug C t = Ctx.plug D u ∧ climbRise fuel s.mem e t.addr = some u.addr ∧
      L ∈ u.addrs ∧ (s.mem u.addr).rise ≤ e ∧ Deep s.mem L e u := by
  induction C generalizing t fuel with
  | nil =>
    obtain ⟨k,rfl⟩ : ∃ k, fuel = k + 1 := ⟨fuel - 1,by omega⟩
    refine ⟨[],t,rfl,?_,hL,hroot,hd⟩
    have hroot' : ¬ e < (s.mem t.addr).rise := Nat.not_lt.mpr hroot
    simp [climbRise,hroot']
  | cons f C ih =>
    obtain ⟨k,rfl⟩ : ∃ k, fuel = k + 1 := ⟨fuel - 1,by omega⟩
    by_cases hle : (s.mem t.addr).rise ≤ e
    · refine ⟨f :: C,t,rfl,?_,hL,hle,hd⟩
      have hle' : ¬ e < (s.mem t.addr).rise := Nat.not_lt.mpr hle
      simp [climbRise,hle']
    · have hlt : e < (s.mem t.addr).rise := Nat.lt_of_not_le hle
      have hpar : (s.mem t.addr).parent = some f.addr := (Ctx.forall_plug.mp h.links).2.head.1
      have hLsib : L ∉ f.sib.addrs := fun hm =>
        h.ctx_nodup.2.2 hL (by simp [Ctx.addrs,hm])
      have hd' := deep_fill (f := f) hLsib hlt hd
      have hk : C.length < k := by simp only [List.length_cons] at hf; omega
      obtain ⟨D,u,e1,e2,h3⟩ := ih (t := f.fill t) h
        (Frame.mem_fill_addrs.mpr (by simp [hL])) hd' hroot hk
      refine ⟨D,u,e1,?_,h3⟩
      rw [Frame.fill_addr] at e2
      simp [climbRise,hlt,hpar,e2]

theorem prefix_iff_mem {σ : Sys} {D : List Frame} {u : ATree} {ℓ : Nat}
    (h : PathInv 31 σ (Ctx.plug D u)) (hℓ : ℓ ∈ (Ctx.plug D u).leaves) :
    ¬ ((σ.te.mem u.addr).len > (σ.te.mem ℓ).len ∨
        diffbitstr (σ.te.mem u.addr).bitstr (σ.te.mem ℓ).bitstr (σ.te.mem u.addr).len = true) ↔
      ℓ ∈ u.leaves := by
  have hu : (Ctx.plug D u).get (Ctx.path D) = some u := by
    simpa [ATree.get] using Ctx.get_plug D u []
  have hread : ∀ q y, (Ctx.plug D u).get q = some y →
      (σ.te.mem y.addr).len = q.length ∧ Spells (σ.te.mem y.addr).bitstr q := by
    intro q y hy
    obtain ⟨_,hd⟩ := h.inv.rep.depths.get hy
    obtain ⟨_,hb⟩ := h.bits.get hy
    rw [List.nil_append] at hd hb
    exact ⟨hd.head.1,hb.head⟩
  obtain ⟨hlen,hbits⟩ := hread _ u hu
  have hlt : (σ.te.mem u.addr).len < 32 := by
    have := ATree.length_le_height (t := Ctx.plug D u) (q := Ctx.path D) (by simp [hu])
    have := h.height
    omega
  rw [not_or,Nat.not_lt,Bool.not_eq_true,diffbitstr_eq_false_iff hlt,hlen]
  constructor
  · rintro ⟨hle,hagree⟩
    obtain ⟨q,hq⟩ := ATree.exists_get_of_mem_leaves hℓ
    obtain ⟨hlenℓ,hbitsℓ⟩ := hread q _ hq
    have hpre : Ctx.path D = q.take (Ctx.path D).length := by
      change (σ.te.mem ℓ).len = q.length at hlenℓ
      refine List.ext_getElem? fun i => ?_
      rw [List.getElem?_take]
      by_cases hi : i < (Ctx.path D).length
      · rw [if_pos hi,List.getElem?_eq_getElem hi,List.getElem?_eq_getElem (by omega)]
        have e1 := hbits i _ (List.getElem?_eq_getElem hi)
        have e2 := hbitsℓ i _ (List.getElem?_eq_getElem (by omega))
        rw [← e1,← e2]
        exact congrArg some (hagree i hi)
      · rw [if_neg hi,List.getElem?_eq_none (by omega)]
    obtain ⟨r,rfl⟩ : ∃ r, q = Ctx.path D ++ r :=
      ⟨q.drop (Ctx.path D).length,(List.take_append_drop _ q).symm.trans (by rw [← hpre])⟩
    rw [Ctx.get_plug] at hq
    exact (ATree.get_sublist hq).2.subset (by simp [ATree.leaves])
  · intro hmem
    obtain ⟨r,hr⟩ := ATree.exists_get_of_mem_leaves hmem
    have hq : (Ctx.plug D u).get (Ctx.path D ++ r) = some (.leaf ℓ) := by rw [Ctx.get_plug,hr]
    obtain ⟨hlenℓ,hbitsℓ⟩ := hread _ _ hq
    refine ⟨?_,fun i hi => ?_⟩
    · change (σ.te.mem ℓ).len = _ at hlenℓ
      rw [hlenℓ,List.length_append]
      omega
    · have e1 := hbits i _ (List.getElem?_eq_getElem hi)
      rw [e1]
      exact (hbitsℓ.of_append i _ (List.getElem?_eq_getElem hi)).symm

structure Tracked (σ : Sys) (T : ATree) (service : Timestamp) (L : Nat) : Prop where
  lands : ∃ a, service.treepoch = some a ∧ Lands σ.te T a L
  rooted : (σ.te.mem T.addr).rise ≤ service.epoch
  past : service.epoch < σ.te.epochNow

theorem Inv.nproc_ne_zero {σ : Sys} {T : ATree} (h : Inv σ T) (hlive : σ.live.Nonempty) {a : Nat}
    (ha : a ∈ T.addrs) : (σ.te.mem a).nproc ≠ 0 := by
  obtain ⟨C,t,rfl,rfl⟩ := Ctx.exists_plug_of_mem ha
  rw [(Ctx.forall_plug.mp h.counts).2.head]
  exact Nat.ne_of_gt (ATree.weight_pos fun b hb =>
    h.occupied hlive b (Ctx.mem_plug_leaves.mpr (Or.inl hb)))

theorem Tracked.climbDead {σ : Sys} {T : ATree} {service : Timestamp} {L a : Nat} (h : Inv σ T)
    (hlive : σ.live.Nonempty) (ht : Tracked σ T service L) (ha : service.treepoch = some a) :
    Treepoch.climbDead (σ.te.next + 1) σ.te.mem a = some L := by
  obtain ⟨a',ha',hl⟩ := ht.lands
  obtain rfl : a = a' := by simpa [ha] using ha'
  exact hl.climbDead (h.nproc_ne_zero hlive hl.inTree)

theorem tstMatchingepoch_spec {σ : Sys} {T : ATree} {service : Timestamp} {L : Nat}
    (h : PathInv 31 σ T) (hlive : σ.live.Nonempty) (ht : Tracked σ T service L) :
    ∃ A, Tracked σ T ⟨service.epoch, some A⟩ A ∧
      (∀ ℓ, Sees σ.te.mem T A service.epoch ℓ ↔ Sees σ.te.mem T L service.epoch ℓ) ∧
      ∀ e ℓ, ℓ ∈ T.leaves → ∃ r,
        tstMatchingepoch σ.te service (some ⟨e, some ℓ⟩) = some (⟨service.epoch, some A⟩, r) ∧
        (Sees σ.te.mem T L service.epoch ℓ ∧ service.epoch < e → r = service.epoch) ∧
        (¬ (Sees σ.te.mem T L service.epoch ℓ ∧ service.epoch < e) → r = 0) := by
  obtain ⟨a,ha,hl⟩ := ht.lands
  have hdead := ht.climbDead h.inv hlive ha
  obtain ⟨C,t,rfl,rfl⟩ := Ctx.exists_plug_of_mem hl.inTree
  have hlen := h.inv.rep.spine_length
  simp only [Ctx.spine,List.length_cons,List.length_map] at hlen
  obtain ⟨D,u,e1,e2,h3,h4,h5⟩ := climbRise_spec h.inv.rep t.addr_mem_addrs
    (deep_self h.inv.rep.ctx_nodup.1) ht.rooted (Nat.lt_succ_of_lt (Nat.lt_of_lt_of_le
      (Nat.lt_succ_self _) hlen))
  rw [e1] at h ht ⊢
  have hu : u.addr ∈ (Ctx.plug D u).addrs := Ctx.mem_plug_addrs.mpr (Or.inl u.addr_mem_addrs)
  have hsees := fun ℓ => sees_iff_mem (ℓ := ℓ) h.inv.rep.nodup h3 h4 h5
  have hsees' := fun ℓ => sees_iff_mem (ℓ := ℓ) h.inv.rep.nodup u.addr_mem_addrs h4
    (deep_self h.inv.rep.ctx_nodup.1)
  refine ⟨u.addr,⟨⟨u.addr,rfl,Lands.self hu⟩,ht.rooted,ht.past⟩,
    fun ℓ => (hsees' ℓ).trans (hsees ℓ).symm,fun e ℓ hℓ => ?_⟩
  have hpre := prefix_iff_mem h hℓ
  rw [hsees ℓ,← hpre]
  by_cases hdiff : (σ.te.mem u.addr).len > (σ.te.mem ℓ).len ∨
      diffbitstr (σ.te.mem u.addr).bitstr (σ.te.mem ℓ).bitstr (σ.te.mem u.addr).len = true
  · refine ⟨0,?_,fun hx => absurd hdiff hx.1,fun _ => rfl⟩
    simp [tstMatchingepoch,ha,hdead,e2,hdiff]
  · by_cases hlt : service.epoch < e
    · refine ⟨service.epoch,?_,fun _ => rfl,fun hx => absurd ⟨hdiff,hlt⟩ hx⟩
      simp [tstMatchingepoch,ha,hdead,e2,hdiff,hlt]
    · refine ⟨0,?_,fun hx => absurd hx.2 hlt,fun _ => rfl⟩
      simp [tstMatchingepoch,ha,hdead,e2,hlt]

end ViewOS.Treepoch
