import ViewOS.Select.Model

namespace ViewOS.Select

section Spec

variable (n : Int) (sets : Sets) (virt : Nat → Bool) (answer : Nat → How → How)

def requested (fd : Nat) : How := fun k => (sets k).elim false (· fd)

def isVirtual (fd : Nat) : Bool := decide (fd < n.toNat) && ((requested sets fd).any && virt fd)

structure Transparent (kernel : Kernel) (o : Outcome) : Prop where
  waited : ∀ fd, isVirtual n sets virt fd = true → ∃ k S, o.waited k = some S ∧ S fd = true
  left : ∀ report, kernel = .done report → ∀ k S, o.sets k = some S → ∀ fd, S fd =
    if isVirtual n sets virt fd then requested sets fd k && answer fd (requested sets fd) k else report k fd
  returned : ∀ report, kernel = .done report → o.retval = total n o.sets
  restored : ∀ errno, kernel = .failed errno → o.sets = sets

def ready (report : Kind → FdSet) (k : Kind) (fd : Nat) : Bool :=
  if isVirtual n sets virt fd then requested sets fd k && answer fd (requested sets fd) k
  else (sets k).isSome && report k fd

def extra (report : Kind → FdSet) (fd : Nat) : Bool :=
  isVirtual n sets virt fd && ((sets .wx).isNone && answer fd (requested sets fd) .wx) &&
    !ready n sets virt answer report .rx fd

def Answered (report : Kind → FdSet) : Prop :=
  (∀ fd k, isVirtual n sets virt fd = true → (sets k).isSome = true →
    answer fd (requested sets fd) k = true → requested sets fd k = true) ∧
  (List.range n.toNat).countP (extra n sets virt answer report) =
    (List.range n.toNat).countP (fun fd => ready n sets virt answer report .rx fd &&
      ready n sets virt answer report .wx fd) +
    (List.range n.toNat).countP (ready n sets virt answer report .xx)

def Clean (kernel : Kernel) : Prop :=
  Fits n sets ∧ ((∀ fd, isVirtual n sets virt fd = false) ∨ ((sets .rx).isSome = true ∧
    match kernel with
    | .failed _ => ∀ fd, isVirtual n sets virt fd = true →
        requested sets fd .wx = false ∧ requested sets fd .xx = false
    | .done report => Answered n sets virt answer report))

end Spec

section Loops

variable {n : Int} {sets : Sets} {virt : Nat → Bool} {answer : Nat → How → How} {fd : Nat} {k : Kind}

theorem lt_bits (h : fd < n.toNat) : fd < bits n := by
  have hdiv := Int.tdiv_eq_ediv_of_nonneg (a := n) (b := 64) (by omega)
  unfold bits
  rw [hdiv]
  omega

theorem getfdset_of_lt (set : Option FdSet) (h : fd < n.toNat) :
    getfdset set n fd = set.elim false (· fd) := by
  rw [getfdset,decide_eq_true (lt_bits h),Bool.true_and]

theorem howOf_of_lt (h : fd < n.toNat) : howOf n sets fd = requested sets fd := by
  funext k
  exact getfdset_of_lt (sets k) h

theorem mem_pending {p : Pending} : p ∈ pending n sets virt ↔
    isVirtual n sets virt p.fd = true ∧ p.how = requested sets p.fd := by
  obtain ⟨fd,how⟩ := p
  simp only [pending,List.mem_filterMap,List.mem_range,isVirtual,Bool.and_eq_true,decide_eq_true_eq]
  constructor
  · rintro ⟨g,hg,hp⟩
    split_ifs at hp with hvirt
    rw [howOf_of_lt hg] at hvirt hp
    obtain ⟨rfl,rfl⟩ : g = fd ∧ requested sets g = how := by simpa using hp
    exact ⟨⟨hg,by simpa using hvirt⟩,rfl⟩
  · rintro ⟨⟨hg,hvirt⟩,rfl⟩
    refine ⟨fd,hg,?_⟩
    rw [howOf_of_lt hg,if_pos (by simpa using hvirt)]

theorem mem_pending_fds : fd ∈ (pending n sets virt).map Pending.fd ↔ isVirtual n sets virt fd = true := by
  rw [List.mem_map]
  constructor
  · rintro ⟨p,hp,rfl⟩
    exact (mem_pending.mp hp).1
  · intro h
    exact ⟨⟨fd,requested sets fd⟩,mem_pending.mpr ⟨h,rfl⟩,rfl⟩

theorem pending_nil : pending n sets virt = [] ↔ ∀ fd, isVirtual n sets virt fd = false := by
  simp only [← List.map_eq_nil_iff (f := Pending.fd),List.eq_nil_iff_forall_not_mem,mem_pending_fds,
    Bool.not_eq_true]

theorem foldl_override {g : Kind → Nat → Bool} {f : (Kind → FdSet) → Pending → Kind → FdSet}
    {ps : List Pending} (hf : ∀ w, ∀ p ∈ ps, f w p = fun k fd => if fd = p.fd then g k fd else w k fd)
    (w : Kind → FdSet) : ps.foldl f w = fun k fd => if fd ∈ ps.map Pending.fd then g k fd else w k fd := by
  induction ps generalizing w with
  | nil => simp
  | cons p ps ih =>
    rw [List.foldl_cons,ih fun w q hq => hf w q (List.mem_cons_of_mem _ hq),hf w p List.mem_cons_self]
    funext k fd
    by_cases hmem : fd ∈ ps.map Pending.fd <;> by_cases heq : fd = p.fd <;> simp [hmem,heq]

theorem foldl_waitOn (w : Kind → FdSet) : (pending n sets virt).foldl waitOn w =
    fun k fd => if isVirtual n sets virt fd = true then decide (k = .rx) else w k fd := by
  have hf : ∀ w, ∀ p ∈ pending n sets virt,
      waitOn w p = fun k fd => if fd = p.fd then decide (k = .rx) else w k fd := fun w p _ => rfl
  rw [foldl_override hf]
  simp only [mem_pending_fds]

theorem foldl_setReady (l : Kind → FdSet) : (pending n sets virt).foldl (setReady answer) l =
    fun k fd => if isVirtual n sets virt fd = true then answer fd (requested sets fd) k else l k fd := by
  rw [foldl_override (g := fun k fd => answer fd (requested sets fd) k)]
  · simp only [mem_pending_fds]
  · intro w p hp
    funext k fd
    by_cases hfd : fd = p.fd
    · rw [setReady,if_pos hfd,if_pos hfd,hfd,(mem_pending.mp hp).2]
    · rw [setReady,if_neg hfd,if_neg hfd]

theorem lt_of_isVirtual (h : isVirtual n sets virt fd = true) : fd < n.toNat := by
  simp only [isVirtual,Bool.and_eq_true,decide_eq_true_eq] at h
  exact h.1

theorem putfdset_override (set : Option FdSet) (v : FdSet) :
    putfdset set n (fun fd => if isVirtual n sets virt fd = true then v fd else getfdset set n fd) =
      set.map fun old fd => if isVirtual n sets virt fd = true then v fd else old fd := by
  cases set with
  | none => rfl
  | some old =>
    simp only [putfdset,Option.map_some,Option.some.injEq]
    funext fd
    by_cases hlt : fd < bits n
    · simp [hlt,getfdset]
    · have hnot : ¬ isVirtual n sets virt fd = true := fun h => hlt (lt_bits (lt_of_isVirtual h))
      rw [if_neg hlt,if_neg hnot]

end Loops

section Outcome

variable {n : Int} {sets : Sets} {virt : Nat → Bool} {answer : Nat → How → How} {kernel : Kernel}

def waiting (n : Int) (sets : Sets) (virt : Nat → Bool) : Sets :=
  fun k => (sets k).map fun old fd => if isVirtual n sets virt fd = true then decide (k = .rx) else old fd

def leaving (n : Int) (sets : Sets) (virt : Nat → Bool) (answer : Nat → How → How) (report : Kind → FdSet) :
    Sets :=
  fun k => (sets k).map fun _ fd =>
    if isVirtual n sets virt fd = true then answer fd (requested sets fd) k else report k fd

theorem select_of_real (hfits : Fits n sets) (h : ∀ fd, isVirtual n sets virt fd = false) :
    select n sets virt answer kernel = some ⟨sets, kernel.retval n sets, kernel.leaves sets⟩ := by
  have hnil := pending_nil.mpr h
  rw [select,if_neg (not_not.mpr hfits),wrapInSelect]
  simp [hnil]

theorem wrapInSelect_of_virtual (h : ¬ ∀ fd, isVirtual n sets virt fd = false) :
    wrapInSelect n sets virt = some (pending n sets virt, waiting n sets virt) := by
  have hnil : ¬ (pending n sets virt).isEmpty = true :=
    fun hnil => h (pending_nil.mp (List.isEmpty_iff.mp hnil))
  have hput : (fun k => putfdset (sets k) n ((pending n sets virt).foldl waitOn (wfds n sets) k)) =
      waiting n sets virt := by
    funext k
    rw [foldl_waitOn]
    exact putfdset_override (sets k) fun _ => decide (k = .rx)
  rw [wrapInSelect,if_neg hnil]
  exact congrArg (fun w => some (pending n sets virt, w)) hput

theorem counted_congr {l l' : Kind → FdSet} (h : ∀ fd < n.toNat, ∀ k, l k fd = l' k fd) :
    counted n l = counted n l' := by
  apply List.countP_congr
  intro fd hfd
  rw [h fd (List.mem_range.mp hfd),h fd (List.mem_range.mp hfd)]

def seen (n : Int) (sets : Sets) (virt : Nat → Bool) (answer : Nat → How → How) (report : Kind → FdSet)
    (k : Kind) (fd : Nat) : Bool :=
  if isVirtual n sets virt fd = true then answer fd (requested sets fd) k else (sets k).isSome && report k fd

theorem wrapOutSelect_done (report : Kind → FdSet) {retval : Int} (hret : 0 ≤ retval) :
    wrapOutSelect n answer (pending n sets virt) retval (reported (waiting n sets virt) report) =
      ((counted n (seen n sets virt answer report) : Int), leaving n sets virt answer report) := by
  rw [wrapOutSelect,if_pos hret,foldl_setReady]
  refine Prod.ext ?_ ?_
  · apply congrArg Int.ofNat
    apply counted_congr
    intro fd hfd k
    rw [getfdset_of_lt _ hfd]
    unfold seen reported waiting
    cases sets k <;> rfl
  · funext k
    refine (putfdset_override _ fun fd => answer fd (requested sets fd) k).trans ?_
    change _ = leaving n sets virt answer report k
    rw [leaving,reported,waiting,Option.map_map,Option.map_map]
    rfl

theorem select_of_failed {errno : Nat} (hfits : Fits n sets) (h : ¬ ∀ fd, isVirtual n sets virt fd = false) :
    select n sets virt answer (.failed errno) =
      some ⟨waiting n sets virt, -(errno + 1 : Int), waiting n sets virt⟩ := by
  have hout : wrapOutSelect n answer (pending n sets virt) (-(errno + 1 : Int)) (waiting n sets virt) =
      (-(errno + 1 : Int), waiting n sets virt) := if_neg (by omega)
  rw [select,if_neg (not_not.mpr hfits),wrapInSelect_of_virtual h]
  simp only [Kernel.retval,Kernel.leaves,hout]

theorem select_of_done {report : Kind → FdSet} (hfits : Fits n sets)
    (h : ¬ ∀ fd, isVirtual n sets virt fd = false) :
    select n sets virt answer (.done report) = some ⟨waiting n sets virt,
      counted n (seen n sets virt answer report), leaving n sets virt answer report⟩ := by
  rw [select,if_neg (not_not.mpr hfits),wrapInSelect_of_virtual h]
  simp only [Kernel.retval,Kernel.leaves,wrapOutSelect_done report (Int.natCast_nonneg _)]

theorem waited_iff (h : ¬ ∀ fd, isVirtual n sets virt fd = false) :
    (∀ fd, isVirtual n sets virt fd = true → ∃ k S, waiting n sets virt k = some S ∧ S fd = true) ↔
      (sets .rx).isSome = true := by
  constructor
  · intro hwait
    obtain ⟨fd,hfd⟩ := not_forall.mp h
    rw [Bool.not_eq_false] at hfd
    obtain ⟨k,S,hS,hbit⟩ := hwait fd hfd
    obtain ⟨old,hold,rfl⟩ := Option.map_eq_some_iff.mp hS
    simp only [if_pos hfd,decide_eq_true_eq] at hbit
    rw [← hbit,hold]
    rfl
  · intro hsome fd hfd
    obtain ⟨old,hold⟩ := Option.isSome_iff_exists.mp hsome
    exact ⟨.rx,_,by rw [waiting,hold,Option.map_some],by simp [hfd]⟩

theorem restored_iff : waiting n sets virt = sets ↔
    ∀ fd, isVirtual n sets virt fd = true →
      requested sets fd .wx = false ∧ requested sets fd .xx = false := by
  constructor
  · intro hsame fd hfd
    have hkind : ∀ k, k ≠ .rx → requested sets fd k = false := by
      intro k hk
      cases hset : sets k with
      | none => simp [requested,hset]
      | some old =>
        have hbit : waiting n sets virt k = some old := by rw [hsame,hset]
        rw [waiting,hset,Option.map_some] at hbit
        have hfd' := congrFun (Option.some.inj hbit) fd
        simp only [if_pos hfd,decide_eq_false hk] at hfd'
        rw [requested,hset]
        exact hfd'.symm
    exact ⟨hkind .wx nofun,hkind .xx nofun⟩
  · intro hread
    funext k
    cases hset : sets k with
    | none => rw [waiting,hset,Option.map_none]
    | some old =>
      rw [waiting,hset,Option.map_some,Option.some.injEq]
      funext fd
      by_cases hfd : isVirtual n sets virt fd = true
      · obtain ⟨hwx,hxx⟩ := hread fd hfd
        have hany : (requested sets fd).any = true := by
          simp only [isVirtual,Bool.and_eq_true] at hfd
          exact hfd.2.1
        have hold : requested sets fd k = old fd := by rw [requested,hset]; rfl
        rw [if_pos hfd,← hold]
        cases k with
        | rx => simpa [How.any,hwx,hxx] using hany.symm
        | wx => rw [hwx]; rfl
        | xx => rw [hxx]; rfl
      · rw [if_neg hfd]

theorem left_iff (report : Kind → FdSet) :
    (∀ k S, leaving n sets virt answer report k = some S → ∀ fd, S fd =
      if isVirtual n sets virt fd = true then requested sets fd k && answer fd (requested sets fd) k
      else report k fd) ↔
    ∀ fd k, isVirtual n sets virt fd = true → (sets k).isSome = true →
      answer fd (requested sets fd) k = true → requested sets fd k = true := by
  constructor
  · intro hleft fd k hfd hsome hanswer
    obtain ⟨old,hold⟩ := Option.isSome_iff_exists.mp hsome
    have hbit := hleft k _ (by rw [leaving,hold,Option.map_some]) fd
    simp only [if_pos hfd,hanswer] at hbit
    simpa using hbit.symm
  · intro hasked k S hS fd
    obtain ⟨old,hold,rfl⟩ := Option.map_eq_some_iff.mp hS
    by_cases hfd : isVirtual n sets virt fd = true
    · simp only [if_pos hfd]
      cases hanswer : answer fd (requested sets fd) k with
      | false => simp
      | true => rw [hasked fd k hfd (by rw [hold]; rfl) hanswer]; rfl
    · simp only [if_neg hfd]

theorem countP_or_add_and (p q : Nat → Bool) (l : List Nat) :
    l.countP (fun i => p i || q i) + l.countP (fun i => p i && q i) = l.countP p + l.countP q := by
  induction l with
  | nil => rfl
  | cons i l ih =>
    simp only [List.countP_cons]
    cases p i <;> cases q i <;> simp <;> omega

theorem extra_disjoint (report : Kind → FdSet) (fd : Nat) :
    ((ready n sets virt answer report .rx fd || ready n sets virt answer report .wx fd) &&
      extra n sets virt answer report fd) = false := by
  cases hset : sets .wx with
  | some old => simp [extra,hset]
  | none =>
    have hready : ready n sets virt answer report .wx fd = false := by
      simp [ready,requested,hset]
    rw [hready,extra]
    cases ready n sets virt answer report .rx fd <;> simp

section Count

variable {report : Kind → FdSet}
  (hasked : ∀ fd k, isVirtual n sets virt fd = true → (sets k).isSome = true →
    answer fd (requested sets fd) k = true → requested sets fd k = true)

include hasked

theorem seen_eq_ready {k : Kind} (hset : (sets k).isSome = true) (fd : Nat) :
    seen n sets virt answer report k fd = ready n sets virt answer report k fd := by
  unfold seen ready
  by_cases hfd : isVirtual n sets virt fd = true
  · cases hanswer : answer fd (requested sets fd) k with
    | false => simp [hfd]
    | true => simp [hfd,hasked fd k hfd hset hanswer]
  · simp only [if_neg hfd]

theorem leaving_bit (k : Kind) (fd : Nat) :
    (leaving n sets virt answer report k).elim false (· fd) = ready n sets virt answer report k fd := by
  cases hset : sets k with
  | none => simp [leaving,ready,requested,hset]
  | some old =>
    rw [← seen_eq_ready hasked (by rw [hset]; rfl),leaving,seen,hset]
    simp

theorem sizeOf_leaving (k : Kind) : sizeOf n (leaving n sets virt answer report) k =
    (List.range n.toNat).countP (ready n sets virt answer report k) := by
  apply List.countP_congr
  intro fd _
  rw [leaving_bit hasked]

theorem seen_bits (hrx : (sets .rx).isSome = true) (fd : Nat) :
    (seen n sets virt answer report .rx fd || seen n sets virt answer report .wx fd ||
      seen n sets virt answer report .wx fd) =
    ((ready n sets virt answer report .rx fd || ready n sets virt answer report .wx fd) ||
      extra n sets virt answer report fd) := by
  rw [seen_eq_ready hasked hrx,Bool.or_assoc,Bool.or_self]
  cases hset : sets .wx with
  | some old =>
    rw [seen_eq_ready hasked (by rw [hset]; rfl)]
    simp [extra,hset]
  | none =>
    have hready : ready n sets virt answer report .wx fd = false := by
      simp [ready,requested,hset]
    rw [hready,extra,seen,hset]
    cases ready n sets virt answer report .rx fd <;> cases isVirtual n sets virt fd <;> simp

theorem returned_iff (hrx : (sets .rx).isSome = true) :
    counted n (seen n sets virt answer report) = total n (leaving n sets virt answer report) ↔
      (List.range n.toNat).countP (extra n sets virt answer report) =
        (List.range n.toNat).countP (fun fd => ready n sets virt answer report .rx fd &&
          ready n sets virt answer report .wx fd) +
        (List.range n.toNat).countP (ready n sets virt answer report .xx) := by
  have hone := countP_or_add_and (ready n sets virt answer report .rx)
    (ready n sets virt answer report .wx) (List.range n.toNat)
  have htwo := countP_or_add_and
    (fun fd => ready n sets virt answer report .rx fd || ready n sets virt answer report .wx fd)
    (extra n sets virt answer report) (List.range n.toNat)
  simp only [extra_disjoint,List.countP_false,Function.const_apply,Nat.add_zero] at htwo
  rw [total,sizeOf_leaving hasked,sizeOf_leaving hasked,sizeOf_leaving hasked,counted]
  simp only [seen_bits hasked hrx]
  omega

end Count

end Outcome

section Claim

variable {n : Int} {sets : Sets} {virt : Nat → Bool} {answer : Nat → How → How} {kernel : Kernel}

theorem transparent_of_real (h : ∀ fd, isVirtual n sets virt fd = false) :
    Transparent n sets virt answer kernel ⟨sets, kernel.retval n sets, kernel.leaves sets⟩ := by
  constructor
  · intro fd hfd
    rw [h fd] at hfd
    cases hfd
  · rintro report rfl k S hS fd
    obtain ⟨old,-,rfl⟩ := Option.map_eq_some_iff.mp hS
    rw [h fd]
    rfl
  · rintro report rfl
    rfl
  · rintro errno rfl
    rfl

theorem transparent_failed_iff {errno : Nat} (h : ¬ ∀ fd, isVirtual n sets virt fd = false) :
    Transparent n sets virt answer (.failed errno)
      ⟨waiting n sets virt, -(errno + 1 : Int), waiting n sets virt⟩ ↔
    (sets .rx).isSome = true ∧ ∀ fd, isVirtual n sets virt fd = true →
      requested sets fd .wx = false ∧ requested sets fd .xx = false := by
  constructor
  · intro ht
    exact ⟨(waited_iff h).mp ht.waited,restored_iff.mp (ht.restored errno rfl)⟩
  · rintro ⟨hrx,hread⟩
    exact ⟨(waited_iff h).mpr hrx,nofun,nofun,fun _ _ => restored_iff.mpr hread⟩

theorem transparent_done_iff {report : Kind → FdSet} (h : ¬ ∀ fd, isVirtual n sets virt fd = false) :
    Transparent n sets virt answer (.done report) ⟨waiting n sets virt,
      counted n (seen n sets virt answer report), leaving n sets virt answer report⟩ ↔
    (sets .rx).isSome = true ∧ Answered n sets virt answer report := by
  constructor
  · intro ht
    have hrx := (waited_iff h).mp ht.waited
    have hasked := (left_iff report).mp (ht.left report rfl)
    have hreturned := ht.returned report rfl
    exact ⟨hrx,hasked,(returned_iff hasked hrx).mp (Int.ofNat.inj hreturned)⟩
  · rintro ⟨hrx,hasked,hcount⟩
    have hreturned := (returned_iff hasked hrx).mpr hcount
    constructor
    · exact (waited_iff h).mpr hrx
    · rintro report' ⟨⟩
      exact (left_iff report).mpr hasked
    · rintro report' ⟨⟩
      exact congrArg Int.ofNat hreturned
    · nofun

end Claim

theorem select_transparent_iff (n : Int) (sets : Sets) (virt : Nat → Bool) (answer : Nat → How → How)
    (kernel : Kernel) :
    (∃ o, select n sets virt answer kernel = some o ∧ Transparent n sets virt answer kernel o) ↔
      Clean n sets virt answer kernel := by
  by_cases hfits : Fits n sets
  · unfold Clean
    simp only [hfits,true_and]
    by_cases h : ∀ fd, isVirtual n sets virt fd = false
    · rw [select_of_real hfits h]
      exact ⟨fun _ => Or.inl h,fun _ => ⟨_,rfl,transparent_of_real h⟩⟩
    · simp only [h,false_or]
      cases kernel with
      | failed errno =>
        rw [select_of_failed hfits h]
        simpa using transparent_failed_iff h
      | done report =>
        rw [select_of_done hfits h]
        simpa using transparent_done_iff h
  · constructor
    · rintro ⟨o,ho,-⟩
      rw [select,if_pos hfits] at ho
      cases ho
    · rintro ⟨hle,-⟩
      exact absurd hle hfits

def three : FdSet := fun fd => decide (fd = 3)

def writeOnly : Sets
  | .wx => some three
  | _ => none

def allRequested : Nat → How → How := fun _ how => how

theorem virtual_file_lost : ¬∀ (n : Int) (sets : Sets) (virt : Nat → Bool) (answer : Nat → How → How)
    (kernel : Kernel) (o : Outcome), select n sets virt answer kernel = some o →
      Transparent n sets virt answer kernel o := by
  intro hall
  have ht := hall 4 writeOnly three allRequested (.failed 4) _ rfl
  obtain ⟨k,S,hS,hbit⟩ := ht.waited 3 rfl
  cases k with
  | rx => cases hS
  | wx => cases Option.some.inj hS ▸ hbit
  | xx => cases hS

end ViewOS.Select
