import ViewOS.Ghosthash.Table

namespace ViewOS.Ghosthash
open GapCode Transition

theorem hashsum_add (sum : Hash) (path : Nat → Byte) (m n : Nat) :
    hashsum (hashsum sum path m) (fun i => path (m + i)) n = hashsum sum path (m + n) := by
  induction n with
  | zero => rfl
  | succ n ih => rw [hashsum,ih,← Nat.add_assoc,hashsum]

abbrev Hits (path : Nat → Byte) (p : Nat × Cell) : Prop := hashsum 0 path p.1 = p.2.2

section Loop

variable {path : Nat → Byte} {s : Nat} {len : BitVec 16} {gh : List Cell} {c : Cell}

theorem matchFrom_cons (hc : c.1 < ghTerminate) :
    matchFrom path s len (hashsum 0 path s) (c :: gh) =
      if Hits path (s + c.1, c) then ⟨(len - BitVec.ofNat 16 c.1).toNat, s + c.1, some c⟩
      else matchFrom path (s + c.1) (len - BitVec.ofNat 16 c.1) (hashsum 0 path (s + c.1)) gh := by
  rw [matchFrom,if_pos ⟨hc,Nat.zero_le _⟩]
  rcases Nat.eq_zero_or_pos c.1 with hzero | hpos
  · simp only [hzero,Nat.lt_irrefl,if_false,Nat.zero_le,true_and,Nat.add_zero,
      BitVec.ofNat_eq_ofNat,BitVec.sub_zero,Hits]
  · simp only [hpos,if_true,Nat.zero_le,true_and,hashsum_add]

inductive Scan (path : Nat → Byte) (s : Nat) : List (Nat × Cell) → Match → Prop where
  | hit {before after p rv} : (∀ q ∈ before, ¬ Hits path q) → Hits path p → 0 ≤ rv →
      Scan path s (before ++ p :: after) ⟨rv, p.1, some p.2⟩
  | miss {ps n} : (∀ q ∈ ps, ¬ Hits path q) → (∀ q ∈ ps, q.1 ≤ n) → (n = s ∨ ∃ q ∈ ps, q.1 = n) →
      Scan path s ps ⟨-enoent, n, none⟩

theorem Scan.nil : Scan path s [] ⟨-enoent, s, none⟩ :=
  .miss (List.forall_mem_nil _) (List.forall_mem_nil _) (Or.inl rfl)

theorem Scan.cons {ps : List (Nat × Cell)} {m : Match} (hnot : ¬ Hits path (s + c.1, c))
    (hle : ∀ q ∈ ps, s + c.1 ≤ q.1) (h : Scan path (s + c.1) ps m) :
    Scan path s ((s + c.1, c) :: ps) m := by
  cases h with
  | @hit before after p rv hbefore hp hrv =>
    rw [← List.cons_append]
    exact .hit (List.forall_mem_cons.mpr ⟨hnot,hbefore⟩) hp hrv
  | @miss ps n hps hn hlast =>
    have hc : s + c.1 ≤ n := by
      rcases hlast with rfl | ⟨q,hq,rfl⟩
      · exact Nat.le_refl _
      · exact hle q hq
    refine .miss (List.forall_mem_cons.mpr ⟨hnot,hps⟩) (List.forall_mem_cons.mpr ⟨hc,hn⟩) (Or.inr ?_)
    rcases hlast with rfl | ⟨q,hq,hqn⟩
    · exact ⟨_,List.mem_cons_self,rfl⟩
    · exact ⟨q,List.mem_cons_of_mem _ hq,hqn⟩

theorem matchFrom_scan (hbyte : ∀ c ∈ live gh, c.1 < ghTerminate) (s : Nat) (len : BitVec 16) :
    Scan path s (places s (live gh)) (matchFrom path s len (hashsum 0 path s) gh) := by
  induction gh generalizing s len with
  | nil => exact .nil
  | cons c gh ih =>
    by_cases hend : c.1 = ghTerminate
    · rw [live,List.takeWhile_cons_of_neg (by simpa using hend),matchFrom,
        if_neg fun h => absurd hend (Nat.ne_of_lt h.1)]
      exact .nil
    · have hlive : live (c :: gh) = c :: live gh := List.takeWhile_cons_of_pos (by simpa using hend)
      rw [hlive] at hbyte ⊢
      rw [matchFrom_cons (hbyte c List.mem_cons_self)]
      split_ifs with hhit
      · rw [places,← List.nil_append ((s + c.1, c) :: _)]
        exact .hit (List.forall_mem_nil _) hhit (Int.natCast_nonneg _)
      · apply Scan.cons hhit
        · intro q hq
          exact Nat.le_trans (Nat.le_add_right _ _) (le_of_mem_places hq)
        · exact ih (fun d hd => hbyte d (List.mem_cons_of_mem _ hd)) _ _

end Loop

def Covered (b : Book) (path : Path) : Prop :=
  ∃ x ∈ b, x.1 ≤ path.strlen ∧ x.2 = hashsum 0 path.mem x.1

def Agrees (x : List Cell × Book) (path : Path) : Prop :=
  let m := ghosthashMatch x.1 path
  (0 ≤ m.rv ↔ Covered x.2 path) ∧ m.hashed ≤ path.strlen + 1 ∧ ∀ c ∈ m.hit, c.1 ≠ ghDummy

def fillers (gh : List Cell) : List Nat :=
  ((places 0 (live gh)).filter fun p => p.2.1 = ghDummy).map Prod.fst

def Reached (b : Book) (path : Path) (len : Nat) : Prop :=
  ∀ x ∈ b, x.1 < len → x.2 ≠ hashsum 0 path.mem x.1

structure Clear (x : List Cell × Book) (path : Path) : Prop where
  stored : ∀ y ∈ x.2, Reached x.2 path y.1 → y.1 ≤ path.strlen ∨
    (y.1 = path.strlen + 1 ∧ y.2 ≠ hashsum 0 path.mem y.1)
  filler : ∀ len ∈ fillers x.1, Reached x.2 path len → hashsum 0 path.mem len ≠ dummyHash

section Filter

variable {x : List Cell × Book} {path : Path}

theorem Inv.stored_iff (h : Inv x) (y : Nat × Hash) :
    y ∈ x.2 ↔ ∃ p ∈ places 0 (live x.1), p.2.1 ≠ ghDummy ∧ (p.1, p.2.2) = y := by
  obtain ⟨xs,hx,hperm⟩ := h
  have hdecode : decode ghDummy 0 (live x.1) = xs := by
    rw [hx.cells]
    exact decode_encode ghDummy_pos hx.ascending
  rw [← hperm.mem_iff,← hdecode,decode,List.mem_filterMap]
  apply exists_congr
  intro p
  split_ifs with hp <;> simp [hp]

theorem Inv.later (h : Inv x) {p : Nat × Cell} (hp : p ∈ places 0 (live x.1)) : ∃ y ∈ x.2, p.1 ≤ y.1 := by
  obtain ⟨xs,hx,hperm⟩ := h
  rw [hx.cells] at hp
  obtain ⟨y,hy,hle⟩ := exists_value_of_mem_places ghDummy_pos hx.ascending p hp
  exact ⟨y,hperm.mem_iff.mp hy,hle⟩

theorem Inv.gap (h : Inv x) {c : Cell} (hc : c ∈ live x.1) :
    c.1 < ghTerminate ∧ (c.1 = ghDummy → c.2 = dummyHash) := by
  obtain ⟨xs,hx,-⟩ := h
  rw [hx.cells] at hc
  obtain ⟨hle,hdummy⟩ := gap_le_of_mem_encode ghDummy_pos hc
  exact ⟨Nat.lt_succ_of_le hle,hdummy⟩

theorem Inv.scan (h : Inv x) (path : Path) :
    Scan path.mem 0 (places 0 (live x.1)) (ghosthashMatch x.1 path) :=
  matchFrom_scan (fun _ hc => (h.gap hc).1) 0 _

theorem mem_fillers {gh : List Cell} {len : Nat} :
    len ∈ fillers gh ↔ ∃ p ∈ places 0 (live gh), p.2.1 = ghDummy ∧ p.1 = len := by
  simp only [fillers,List.mem_map,List.mem_filter,decide_eq_true_eq,and_assoc]

structure Stop (x : List Cell × Book) (path : Path) (p : Nat × Cell) : Prop where
  mem : p ∈ places 0 (live x.1)
  hit : Hits path.mem p
  before : ∀ q ∈ places 0 (live x.1), Hits path.mem q → p.1 ≤ q.1
  filler : ∀ q ∈ places 0 (live x.1), q.2.1 = ghDummy → Hits path.mem q → q = p ∨ p.1 < q.1

theorem Inv.outcome (h : Inv x) (path : Path) :
    (∃ p rv, Stop x path p ∧ 0 ≤ rv ∧ ghosthashMatch x.1 path = ⟨rv, p.1, some p.2⟩) ∨
    ∃ n, (∀ q ∈ places 0 (live x.1), ¬ Hits path.mem q ∧ q.1 ≤ n) ∧
      (n = 0 ∨ ∃ q ∈ places 0 (live x.1), q.1 = n) ∧
      ghosthashMatch x.1 path = ⟨-enoent, n, none⟩ := by
  have hscan := h.scan path
  have hsorted := places_pairwise 0 (live x.1)
  generalize hps : places 0 (live x.1) = ps at hscan hsorted
  generalize ghosthashMatch x.1 path = m at hscan
  cases hscan with
  | @hit before after p rv hbefore hp hrv =>
    have hafter : ∀ q ∈ after, p.1 + q.2.1 ≤ q.1 :=
      (List.pairwise_cons.mp (List.pairwise_append.mp hsorted).2.1).1
    refine Or.inl ⟨p,rv,⟨?_,hp,?_,?_⟩,hrv,rfl⟩
    · rw [hps]
      exact List.mem_append_right _ List.mem_cons_self
    · intro q hq hhit
      rw [hps] at hq
      rcases List.mem_append.mp hq with hq | hq
      · exact absurd hhit (hbefore q hq)
      · rcases List.mem_cons.mp hq with rfl | hq
        · exact Nat.le_refl _
        · exact Nat.le_trans (Nat.le_add_right _ _) (hafter q hq)
    · intro q hq hdummy hhit
      rw [hps] at hq
      rcases List.mem_append.mp hq with hq | hq
      · exact absurd hhit (hbefore q hq)
      · rcases List.mem_cons.mp hq with rfl | hq
        · exact Or.inl rfl
        · have := hafter q hq
          have := ghDummy_pos
          exact Or.inr (by omega)
  | @miss ps n hnot hle hlast =>
    exact Or.inr ⟨n,fun q hq => ⟨hnot q hq,hle q hq⟩,hlast,rfl⟩

theorem Stop.reached (h : Inv x) {p : Nat × Cell} (hp : Stop x path p) : Reached x.2 path p.1 := by
  intro y hy hlt heq
  obtain ⟨q,hq,-,rfl⟩ := (h.stored_iff y).mp hy
  exact absurd (hp.before q hq heq.symm) (Nat.not_le.mpr hlt)

theorem covered_iff (h : Inv x) : Covered x.2 path ↔
    ∃ p ∈ places 0 (live x.1), p.2.1 ≠ ghDummy ∧ Hits path.mem p ∧ p.1 ≤ path.strlen := by
  constructor
  · rintro ⟨y,hy,hle,heq⟩
    obtain ⟨q,hq,hreal,rfl⟩ := (h.stored_iff y).mp hy
    exact ⟨q,hq,hreal,heq.symm,hle⟩
  · rintro ⟨p,hp,hreal,hhit,hle⟩
    exact ⟨(p.1, p.2.2),(h.stored_iff _).mpr ⟨p,hp,hreal,rfl⟩,hle,hhit.symm⟩

theorem Clear.agrees (h : Inv x) (hclear : Clear x path) : Agrees x path := by
  rcases h.outcome path with ⟨p,rv,hstop,hrv,hm⟩ | ⟨n,hnone,hlast,hm⟩
  · have hreal : p.2.1 ≠ ghDummy := by
      intro hdummy
      apply hclear.filler p.1 (mem_fillers.mpr ⟨p,hstop.mem,hdummy,rfl⟩) (hstop.reached h)
      exact hstop.hit.trans ((h.gap (cell_mem_of_mem_places hstop.mem)).2 hdummy)
    have hstored : (p.1, p.2.2) ∈ x.2 := (h.stored_iff _).mpr ⟨p,hstop.mem,hreal,rfl⟩
    have hle : p.1 ≤ path.strlen := by
      rcases hclear.stored _ hstored (hstop.reached h) with hle | ⟨-,hne⟩
      · exact hle
      · exact absurd hstop.hit.symm hne
    simp only [Agrees,hm]
    refine ⟨⟨fun _ => ?_,fun _ => hrv⟩,Nat.le_succ_of_le hle,?_⟩
    · exact (covered_iff h).mpr ⟨p,hstop.mem,hreal,hstop.hit,hle⟩
    · intro c hc
      rwa [← Option.some.inj hc]
  · have hreached : ∀ len, Reached x.2 path len := by
      intro len y hy _ heq
      obtain ⟨q,hq,-,rfl⟩ := (h.stored_iff y).mp hy
      exact (hnone q hq).1 heq.symm
    simp only [Agrees,hm]
    refine ⟨⟨fun hrv => absurd hrv (by decide),fun hcov => ?_⟩,?_,nofun⟩
    · obtain ⟨q,hq,-,hhit,-⟩ := (covered_iff h).mp hcov
      exact absurd hhit (hnone q hq).1
    · rcases hlast with rfl | ⟨q,hq,rfl⟩
      · exact Nat.zero_le _
      · obtain ⟨y,hy,hle⟩ := h.later hq
        have := hclear.stored y hy (hreached _)
        omega

theorem Agrees.clear (h : Inv x) (hagrees : Agrees x path) : Clear x path := by
  rcases h.outcome path with ⟨p,rv,hstop,hrv,hm⟩ | ⟨n,hnone,-,hm⟩
  · simp only [Agrees,hm] at hagrees
    obtain ⟨hcov,-,hreal⟩ := hagrees
    have hreal : p.2.1 ≠ ghDummy := hreal p.2 rfl
    have hstored : (p.1, p.2.2) ∈ x.2 := (h.stored_iff _).mpr ⟨p,hstop.mem,hreal,rfl⟩
    have hle : p.1 ≤ path.strlen := by
      obtain ⟨q,hq,-,hhit,hle⟩ := (covered_iff h).mp (hcov.mp hrv)
      exact Nat.le_trans (hstop.before q hq hhit) hle
    have hreach : ∀ len, Reached x.2 path len → len ≤ p.1 := by
      intro len hlen
      apply Nat.le_of_not_lt
      intro hlt
      exact hlen _ hstored hlt hstop.hit.symm
    constructor
    · intro y _ hy
      exact Or.inl (Nat.le_trans (hreach _ hy) hle)
    · intro len hlen hreached heq
      obtain ⟨q,hq,hdummy,rfl⟩ := mem_fillers.mp hlen
      have hhit : Hits path.mem q := heq.trans ((h.gap (cell_mem_of_mem_places hq)).2 hdummy).symm
      rcases hstop.filler q hq hdummy hhit with rfl | hlt
      · exact hreal hdummy
      · exact absurd (hreach _ hreached) (Nat.not_le.mpr hlt)
  · simp only [Agrees,hm] at hagrees
    obtain ⟨-,hn,-⟩ := hagrees
    constructor
    · intro y hy _
      obtain ⟨q,hq,-,rfl⟩ := (h.stored_iff y).mp hy
      have hle := Nat.le_trans (hnone q hq).2 hn
      rcases Nat.lt_or_eq_of_le hle with hlt | heq
      · exact Or.inl (Nat.le_of_lt_succ hlt)
      · exact Or.inr ⟨heq,fun hhit => (hnone q hq).1 hhit.symm⟩
    · intro len hlen _ heq
      obtain ⟨q,hq,hdummy,rfl⟩ := mem_fillers.mp hlen
      exact (hnone q hq).1 (heq.trans ((h.gap (cell_mem_of_mem_places hq)).2 hdummy).symm)

end Filter

theorem ghost_filter_iff {x : List Cell × Book} (h : Run step Orderly (ghostmounts, []) x)
    (path : Path) : Agrees x path ↔ Clear x path :=
  ⟨fun hagrees => hagrees.clear (run_inv h),fun hclear => hclear.agrees (run_inv h)⟩

instance (b : Book) (path : Path) : Decidable (Covered b path) :=
  inferInstanceAs (Decidable (∃ x ∈ b, _))

instance (x : List Cell × Book) (path : Path) : Decidable (Agrees x path) :=
  inferInstanceAs (Decidable (_ ∧ _ ∧ _))

def bytesOf (s : List Byte) (i : Nat) : Byte := s.getD i 0

def mountPath : Nat → Byte := bytesOf [47, 100, 97, 100]

def below : Path := ⟨[47, 100, 97, 100, 47, 120], by decide, fun _ => 0⟩

theorem below_matched : (exec step (ghostmounts, []) [.add mountPath 4]).any
    (fun x => decide (Agrees x below) && decide (ghosthashMatch x.1 below = ⟨2, 4, x.1.head?⟩)) = true ∧
    ∀ x ∈ exec step (ghostmounts, []) [.add mountPath 4], Agrees x below ↔ Clear x below := by
  have hfits : Orderly (ghostmounts, []) (.add mountPath 4) := ⟨by decide,by decide⟩
  exact ⟨by decide +kernel,fun x hx =>
    ghost_filter_iff (Run.of_exec hx ⟨hfits,fun _ _ => trivial⟩) below⟩

def short : Path := ⟨[47, 97], by decide, fun _ => 0x22⟩

theorem short_path_matched : (exec step (ghostmounts, []) [.add mountPath 4]).any (fun x =>
    !decide (Covered x.2 short) && decide ((ghosthashMatch x.1 short).rv = 65534) &&
      decide ((ghosthashMatch x.1 short).hashed = 4) && decide (short.strlen = 2)) = true := by
  decide +kernel

end ViewOS.Ghosthash
