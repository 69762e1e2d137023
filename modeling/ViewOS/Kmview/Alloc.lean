import ViewOS.Lib.Run

namespace ViewOS.Kmview

open Transition

variable {T : Type}

structure KmpidStruct (T : Type) where
  kmThread : Option T
  nextKmpid : Int

-- The cells of all the pages by page and offset; head is false while km_head is NULL.
structure Kmpids (T : Type) where
  head : Bool
  maxhead : Nat
  nhead : Nat
  nthread : Nat
  freehead : Int
  cells : Nat × Nat → KmpidStruct T

-- none is an access outside of the pages that km_head has.
def kmpid2struct (a : Kmpids T) (kmpid : Int) : Option (Option (Nat × Nat)) :=
  if kmpid < a.nthread ∧ a.head = true then
    if 0 ≤ kmpid / 1024 ∧ kmpid / 1024 < a.nhead then
      some (some ((kmpid / 1024).toNat, (kmpid % 1024).toNat))
    else none
  else some none

-- fill is what kmalloc leaves in the new page.
def addPage (a : Kmpids T) (fill : Nat → KmpidStruct T) : Kmpids T where
  head := true
  maxhead := if a.maxhead ≤ a.nhead then a.maxhead + 1024 else a.maxhead
  nhead := a.nhead + 1
  nthread := a.nthread
  freehead := a.freehead
  cells := fun c => if c.1 = a.nhead then fill c.2 else a.cells c

-- none where a pid_t overflows.
def newKmpid (a : Kmpids T) (fill : Nat → KmpidStruct T) : Option (Int × Kmpids T) :=
  if a.nthread + 1 < 2147483648 then
    if a.nhead * 1024 < a.nthread + 1 then
      some (a.nthread, addPage { a with nthread := a.nthread + 1 } fill)
    else some (a.nthread, { a with nthread := a.nthread + 1 })
  else none

def takeKmpid (a : Kmpids T) (fill : Nat → KmpidStruct T) : Option (Int × Kmpids T) :=
  if 0 ≤ a.freehead then
    (kmpid2struct a a.freehead).join.map fun c =>
      (a.freehead, { a with freehead := (a.cells c).nextKmpid })
  else newKmpid a fill

def setCell (a : Kmpids T) (c : Nat × Nat) (x : KmpidStruct T) : Kmpids T :=
  { a with cells := Function.update a.cells c x }

def kmpidAlloc (a : Kmpids T) (deny : Bool) (kmt : T) (fill : Nat → KmpidStruct T) :
    Option (Int × Kmpids T) :=
  if deny then some (-1, a)
  else (takeKmpid a fill).bind fun r => (kmpid2struct r.2 r.1).join.map fun c =>
    (r.1, setCell r.2 c { r.2.cells c with kmThread := some kmt })

def kmpidFree (a : Kmpids T) (kmpid : Int) : Option (Kmpids T) :=
  (kmpid2struct a kmpid).map fun o => o.elim a fun c =>
    { setCell a c ⟨none, a.freehead⟩ with freehead := kmpid }

def kmpidSearch (a : Kmpids T) (kmpid : Int) : Option (Option T) :=
  (kmpid2struct a kmpid).map fun o => o.bind fun c => (a.cells c).kmThread

structure State (T : Type) where
  kmpids : Kmpids T
  live : Nat → Option T

def init : State T := ⟨⟨false, 0, 0, 0, -1, fun _ => ⟨none, 0⟩⟩, fun _ => none⟩

inductive Op (T : Type) where
  | alloc (deny : Bool) (kmt : T) (fill : Nat → KmpidStruct T)
  | free (kmpid : Nat)

def step (s : State T) : Op T → Option (State T)
  | .alloc deny kmt fill => (kmpidAlloc s.kmpids deny kmt fill).map fun r =>
      ⟨r.2, if 0 ≤ r.1 then Function.update s.live r.1.toNat (some kmt) else s.live⟩
  | .free kmpid => (kmpidFree s.kmpids kmpid).map fun a =>
      ⟨a, Function.update s.live kmpid none⟩

def Legal (s : State T) : Op T → Prop
  | .alloc _ _ _ => s.kmpids.nthread + 1 < 2147483648
  | .free kmpid => s.live kmpid ≠ none

def liveThread (s : State T) (kmpid : Int) : Option T :=
  if 0 ≤ kmpid then s.live kmpid.toNat else none

def addr (i : Nat) : Nat × Nat := (i / 1024, i % 1024)

def FreeChain (cells : Nat × Nat → KmpidStruct T) : Int → List Nat → Prop
  | h, [] => h = -1
  | h, i :: l => h = i ∧ FreeChain cells (cells (addr i)).nextKmpid l

structure Rep (s : State T) (free : List Nat) : Prop where
  chain : FreeChain s.kmpids.cells s.kmpids.freehead free
  nodup : free.Nodup
  mem : ∀ i, i ∈ free ↔ i < s.kmpids.nthread ∧ s.live i = none
  thread : ∀ i < s.kmpids.nthread, (s.kmpids.cells (addr i)).kmThread = s.live i
  dead : ∀ i, s.kmpids.nthread ≤ i → s.live i = none
  pages : s.kmpids.nthread ≤ s.kmpids.nhead * 1024
  heads : s.kmpids.nhead ≤ s.kmpids.maxhead
  head : s.kmpids.head = true ↔ 0 < s.kmpids.nhead

section Rep

variable {s t : State T} {free : List Nat} {o : Op T} {a : Kmpids T} {i j : Nat}

theorem addr_inj (h : addr i = addr j) : i = j := by
  obtain ⟨hdiv,hmod⟩ := Prod.mk.inj h
  omega

theorem kmpid2struct_lt (hpages : a.nthread ≤ a.nhead * 1024) (hhead : a.head = true)
    (hi : i < a.nthread) : kmpid2struct a i = some (some (addr i)) := by
  have hpage : 0 ≤ (i : Int) / 1024 ∧ (i : Int) / 1024 < a.nhead := by omega
  have haddr : ((i : Int) / 1024).toNat = i / 1024 ∧ ((i : Int) % 1024).toNat = i % 1024 := by omega
  rw [kmpid2struct,if_pos ⟨by omega,hhead⟩,if_pos hpage,haddr.1,haddr.2]
  rfl

theorem FreeChain.congr {cells cells' : Nat × Nat → KmpidStruct T} {h : Int} {l : List Nat}
    (hl : FreeChain cells h l) (heq : ∀ i ∈ l, cells' (addr i) = cells (addr i)) :
    FreeChain cells' h l := by
  induction l generalizing h with
  | nil => exact hl
  | cons i l ih =>
    refine ⟨hl.1,?_⟩
    rw [heq i List.mem_cons_self]
    exact ih hl.2 fun j hj => heq j (List.mem_cons_of_mem _ hj)

theorem setCell_of_ne {x : KmpidStruct T} (h : j ≠ i) :
    (setCell a (addr i) x).cells (addr j) = a.cells (addr j) :=
  Function.update_of_ne (fun heq => h (addr_inj heq)) ..

theorem setCell_thread {live : Nat → Option T} {n : Nat} {x : KmpidStruct T}
    (h : ∀ j < n, (a.cells (addr j)).kmThread = live j) (hj : j < n ∨ j = i) :
    ((setCell a (addr i) x).cells (addr j)).kmThread = Function.update live i x.kmThread j := by
  rcases eq_or_ne j i with rfl | hne
  · simp [setCell]
  · rw [setCell_of_ne hne,Function.update_of_ne hne]
    exact h j (hj.resolve_right hne)

theorem update_dead {live : Nat → Option T} {n : Nat} {x : Option T}
    (h : ∀ j, n ≤ j → live j = none) (hi : i < n) (hj : n ≤ j) :
    Function.update live i x j = none := by
  rw [Function.update_of_ne (by omega)]
  exact h j hj

theorem Rep.lt_of_live (h : Rep s free) (hi : s.live i ≠ none) : i < s.kmpids.nthread :=
  Nat.lt_of_not_le fun hge => hi (h.dead i hge)

theorem Rep.head_of_lt (h : Rep s free) (hi : i < s.kmpids.nthread) : s.kmpids.head = true := by
  have hpages := h.pages
  exact h.head.mpr (by omega)

theorem Rep.struct (h : Rep s free) (hi : i < s.kmpids.nthread) :
    kmpid2struct s.kmpids i = some (some (addr i)) :=
  kmpid2struct_lt h.pages (h.head_of_lt hi) hi

theorem rep_init : Rep (init : State T) [] := by
  refine ⟨rfl,List.nodup_nil,?_,?_,fun _ _ => rfl,Nat.zero_le _,Nat.zero_le _,by simp [init]⟩
  · simp [init]
  · simp [init]

theorem Rep.reuse (h : Rep s (i :: free)) (kmt : T) :
    Rep ⟨setCell { s.kmpids with freehead := (s.kmpids.cells (addr i)).nextKmpid } (addr i)
      { s.kmpids.cells (addr i) with kmThread := some kmt }, Function.update s.live i (some kmt)⟩
      free := by
  obtain ⟨hnot,hnodup⟩ := List.nodup_cons.mp h.nodup
  have hi := ((h.mem i).mp List.mem_cons_self).1
  refine ⟨?_,hnodup,fun j => ?_,fun j hj => setCell_thread h.thread (Or.inl hj),
    fun j hj => update_dead h.dead hi hj,h.pages,h.heads,h.head⟩
  · exact h.chain.2.congr fun j hj => setCell_of_ne (fun heq => hnot (heq ▸ hj))
  · rcases eq_or_ne j i with rfl | hne
    · simp [hnot]
    · have hmem := h.mem j
      simpa [hne,setCell] using hmem

theorem Rep.extend (h : Rep s []) (kmt : T) (x : KmpidStruct T)
    (hpage : s.kmpids.nthread + 1 ≤ s.kmpids.nhead * 1024) :
    Rep ⟨setCell { s.kmpids with nthread := s.kmpids.nthread + 1 } (addr s.kmpids.nthread)
      { x with kmThread := some kmt }, Function.update s.live s.kmpids.nthread (some kmt)⟩ [] := by
  refine ⟨h.chain,h.nodup,fun j => ?_,fun j hj => setCell_thread h.thread
    (Nat.lt_succ_iff_lt_or_eq.mp hj),fun j hj => update_dead
      (fun k hk => h.dead k (Nat.le_of_succ_le hk)) (Nat.lt_succ_self _) hj,hpage,h.heads,h.head⟩
  rcases eq_or_ne j s.kmpids.nthread with rfl | hne
  · simp
  · have hmem := h.mem j
    have hlt : j < s.kmpids.nthread + 1 ↔ j < s.kmpids.nthread := by omega
    simpa [hne,setCell,hlt] using hmem

theorem Rep.page (h : Rep s []) (fill : Nat → KmpidStruct T)
    (hfull : s.kmpids.nhead * 1024 < s.kmpids.nthread + 1) :
    Rep ⟨addPage s.kmpids fill, s.live⟩ [] := by
  have hpages := h.pages
  have hheads := h.heads
  refine ⟨h.chain,h.nodup,h.mem,fun j hj => ?_,h.dead,?_,?_,by simp [addPage]⟩
  · have hlt : j < s.kmpids.nthread := hj
    have hne : (addr j).1 ≠ s.kmpids.nhead := by
      have hdef : (addr j).1 = j / 1024 := rfl
      omega
    simp only [addPage,if_neg hne]
    exact h.thread j hlt
  · exact Nat.le_trans h.pages (Nat.mul_le_mul_right 1024 (Nat.le_succ _))
  · dsimp only [addPage]
    split
    · omega
    · omega

theorem kmpidAlloc_eq {fill : Nat → KmpidStruct T} {r : Int} {kmt : T}
    (htake : takeKmpid s.kmpids fill = some (r, a)) {c : Nat × Nat}
    (hc : kmpid2struct a r = some (some c)) :
    kmpidAlloc s.kmpids false kmt fill =
      some (r, setCell a c { a.cells c with kmThread := some kmt }) := by
  simp [kmpidAlloc,htake,hc]

theorem Rep.alloc (h : Rep s free) (hlim : s.kmpids.nthread + 1 < 2147483648) (kmt : T)
    (fill : Nat → KmpidStruct T) :
    ∃ (i : Nat) (a : Kmpids T) (free' : List Nat),
      kmpidAlloc s.kmpids false kmt fill = some ((i : Int), a) ∧ s.live i = none ∧
        Rep ⟨a, Function.update s.live i (some kmt)⟩ free' := by
  cases free with
  | cons i free =>
    obtain ⟨hi,hdead⟩ := (h.mem i).mp List.mem_cons_self
    have hfree : s.kmpids.freehead = i := h.chain.1
    have htake : takeKmpid s.kmpids fill =
        some ((i : Int), { s.kmpids with freehead := (s.kmpids.cells (addr i)).nextKmpid }) := by
      simp [takeKmpid,hfree,h.struct hi]
    exact ⟨i,_,free,kmpidAlloc_eq htake (kmpid2struct_lt h.pages (h.head_of_lt hi) hi),hdead,
      h.reuse kmt⟩
  | nil =>
    have hfree : s.kmpids.freehead = -1 := h.chain
    have hnewid : takeKmpid s.kmpids fill = newKmpid s.kmpids fill := by simp [takeKmpid,hfree]
    have hdead : s.live s.kmpids.nthread = none := h.dead _ (Nat.le_refl _)
    rcases Nat.lt_or_ge (s.kmpids.nhead * 1024) (s.kmpids.nthread + 1) with hfull | hroom
    · have hpage := h.page fill hfull
      have hpages := h.pages
      have hnew : s.kmpids.nthread + 1 ≤ (s.kmpids.nhead + 1) * 1024 := by omega
      have htake : takeKmpid s.kmpids fill = some ((s.kmpids.nthread : Int),
          addPage { s.kmpids with nthread := s.kmpids.nthread + 1 } fill) := by
        rw [hnewid,newKmpid,if_pos hlim,if_pos hfull]
      exact ⟨s.kmpids.nthread,_,[],kmpidAlloc_eq htake (kmpid2struct_lt hnew rfl
        (Nat.lt_succ_self _)),hdead,hpage.extend kmt _ hnew⟩
    · have hhead : s.kmpids.head = true := h.head.mpr (by omega)
      have htake : takeKmpid s.kmpids fill =
          some ((s.kmpids.nthread : Int), { s.kmpids with nthread := s.kmpids.nthread + 1 }) := by
        rw [hnewid,newKmpid,if_pos hlim,if_neg (Nat.not_lt.mpr hroom)]
      exact ⟨s.kmpids.nthread,_,[],kmpidAlloc_eq htake (kmpid2struct_lt hroom hhead
        (Nat.lt_succ_self _)),hdead,h.extend kmt _ hroom⟩

theorem Rep.release (h : Rep s free) (hi : s.live i ≠ none) :
    ∃ a, kmpidFree s.kmpids i = some a ∧ Rep ⟨a, Function.update s.live i none⟩ (i :: free) := by
  have hlt := h.lt_of_live hi
  have hnot : i ∉ free := fun hmem => hi ((h.mem i).mp hmem).2
  refine ⟨{ setCell s.kmpids (addr i) ⟨none,s.kmpids.freehead⟩ with freehead := i },?_,?_⟩
  · simp [kmpidFree,h.struct hlt]
  · refine ⟨⟨rfl,?_⟩,List.nodup_cons.mpr ⟨hnot,h.nodup⟩,fun j => ?_,
      fun j hj => setCell_thread h.thread (Or.inl hj),fun j hj => update_dead h.dead hlt hj,
      h.pages,h.heads,h.head⟩
    · have hnext : ((setCell s.kmpids (addr i) ⟨none,s.kmpids.freehead⟩).cells
          (addr i)).nextKmpid = s.kmpids.freehead := by simp [setCell]
      dsimp only
      rw [hnext]
      exact h.chain.congr fun j hj => setCell_of_ne fun heq => hnot (heq ▸ hj)
    · rcases eq_or_ne j i with rfl | hne
      · simpa [setCell] using hlt
      · simpa [hne,setCell] using h.mem j

theorem Rep.step (h : Rep s free) (hok : Legal s o) (hst : step s o = some t) :
    ∃ free', Rep t free' := by
  cases o with
  | alloc deny kmt fill =>
    cases deny with
    | false =>
      obtain ⟨i,a,free',ha,-,hrep⟩ := h.alloc hok kmt fill
      have ht : t = ⟨a,Function.update s.live i (some kmt)⟩ := by
        simpa [Kmview.step,ha] using hst.symm
      exact ⟨free',ht ▸ hrep⟩
    | true =>
      have ht : t = s := by simpa [Kmview.step,kmpidAlloc] using hst.symm
      exact ⟨free,ht ▸ h⟩
  | free i =>
    obtain ⟨a,ha,hrep⟩ := h.release hok
    have ht : t = ⟨a,Function.update s.live i none⟩ := by
      simpa [Kmview.step,ha] using hst.symm
    exact ⟨i :: free,ht ▸ hrep⟩

theorem rep_run (hrun : Run step Legal init s) : ∃ free, Rep s free := by
  apply hrun.invariant
  · intro t o u h hok hst
    obtain ⟨free,hrep⟩ := h
    exact hrep.step hok hst
  · exact ⟨[],rep_init⟩

theorem Rep.search (h : Rep s free) (i : Nat) : kmpidSearch s.kmpids i = some (s.live i) := by
  rcases Nat.lt_or_ge i s.kmpids.nthread with hlt | hge
  · simp [kmpidSearch,h.struct hlt,h.thread i hlt]
  · have hnot : ¬(i : Int) < s.kmpids.nthread := by omega
    simp [kmpidSearch,kmpid2struct,hnot,h.dead i hge]

theorem search_neg {i : Int} (hi : i < 0) (a : Kmpids T) :
    kmpidSearch a i = if a.head = true then none else some none := by
  have hlt : i < a.nthread := by omega
  have hpage : ¬0 ≤ i / 1024 := by omega
  cases hhead : a.head with
  | false => simp [kmpidSearch,kmpid2struct,hhead]
  | true => simp [kmpidSearch,kmpid2struct,hhead,hlt,hpage]

end Rep

theorem kmpid_kept {s : State T} (hrun : Run step Legal init s) :
    (∀ kmpid : Int, kmpidSearch s.kmpids kmpid = some (liveThread s kmpid) ↔
      0 ≤ kmpid ∨ s.kmpids.head = false) ∧
    (∀ (kmpid : Nat) (kmt : T), s.live kmpid = some kmt →
      ∃ c, kmpid2struct s.kmpids kmpid = some (some c) ∧ (s.kmpids.cells c).kmThread = some kmt) ∧
    (∀ kmt fill, Legal s (.alloc false kmt fill) → ∃ (kmpid : Nat) (a : Kmpids T),
      kmpidAlloc s.kmpids false kmt fill = some ((kmpid : Int), a) ∧ s.live kmpid = none ∧
        step s (.alloc false kmt fill) = some ⟨a, Function.update s.live kmpid (some kmt)⟩) ∧
    ∀ kmpid, Legal s (.free kmpid) →
      ∃ a, step s (.free kmpid) = some ⟨a, Function.update s.live kmpid none⟩ := by
  obtain ⟨free,h⟩ := rep_run hrun
  refine ⟨fun kmpid => ?_,fun kmpid kmt hlive => ?_,fun kmt fill hok => ?_,fun kmpid hok => ?_⟩
  · rcases Int.lt_or_le kmpid 0 with hneg | hpos
    · have hnot : ¬0 ≤ kmpid := by omega
      rw [search_neg hneg,liveThread,if_neg hnot]
      cases s.kmpids.head with
      | false => simp
      | true => simpa using hneg
    · obtain ⟨i,rfl⟩ := Int.eq_ofNat_of_zero_le hpos
      have hsearch : kmpidSearch s.kmpids (i : Int) = some (liveThread s i) := by
        rw [h.search,liveThread,if_pos hpos]
        rfl
      exact ⟨fun _ => Or.inl hpos,fun _ => hsearch⟩
  · have hlt := h.lt_of_live (hlive ▸ Option.some_ne_none kmt)
    exact ⟨addr kmpid,h.struct hlt,(h.thread kmpid hlt).trans hlive⟩
  · obtain ⟨kmpid,a,-,ha,hdead,-⟩ := h.alloc hok kmt fill
    exact ⟨kmpid,a,ha,hdead,by simp [step,ha]⟩
  · obtain ⟨a,ha,-⟩ := h.release hok
    exact ⟨a,by simp [step,ha]⟩

def recycling : List (Op Nat) :=
  [.alloc false 7 fun _ => ⟨none, 0⟩, .alloc false 8 fun _ => ⟨none, 0⟩, .free 1,
    .alloc true 9 fun _ => ⟨none, 0⟩, .alloc false 9 fun _ => ⟨none, 0⟩,
    .alloc false 10 fun _ => ⟨none, 0⟩, .free 2]

instance (s : State Nat) : (o : Op Nat) → Decidable (Legal s o)
  | .alloc _ _ _ => inferInstanceAs (Decidable (_ < _))
  | .free _ => inferInstanceAs (Decidable (_ ≠ _))

theorem run_recycling : ∃ s, Run step Legal init s ∧ s.kmpids.head = true ∧ s.live 0 = some 7 ∧
    s.live 1 = some 9 ∧ s.live 2 = none := by
  have hend : (exec step init recycling).any fun s => s.kmpids.head = true ∧ s.live 0 = some 7 ∧
      s.live 1 = some 9 ∧ s.live 2 = none := by decide +kernel
  have hok : Meets step Legal init recycling := by decide +kernel
  obtain ⟨s,hs,hlive⟩ := (Option.any_eq_true _ _).mp hend
  exact ⟨s,Run.of_exec hs hok,of_decide_eq_true hlive⟩

theorem kmpid_kept_recycling : ∃ s : State Nat, Run step Legal init s ∧
    kmpidSearch s.kmpids 0 = some (some 7) ∧ kmpidSearch s.kmpids 1 = some (some 9) ∧
      kmpidSearch s.kmpids 2 = some none := by
  obtain ⟨s,hrun,-,h0,h1,h2⟩ := run_recycling
  have hsearch : ∀ i : Nat, kmpidSearch s.kmpids i = some (s.live i) := fun i =>
    ((kmpid_kept hrun).1 i).mpr (Or.inl (Int.natCast_nonneg i))
  exact ⟨s,hrun,(hsearch 0).trans (congrArg some h0),(hsearch 1).trans (congrArg some h1),
    (hsearch 2).trans (congrArg some h2)⟩

theorem search_negative_faults : ¬∀ s : State Nat, Run step Legal init s →
    ∀ kmpid : Int, kmpidSearch s.kmpids kmpid = some (liveThread s kmpid) := by
  intro h
  obtain ⟨s,hrun,hhead,-⟩ := run_recycling
  have hnone : kmpidSearch s.kmpids (-1) = none := by
    rw [search_neg (by decide),if_pos hhead]
  exact absurd (hnone.symm.trans (h s hrun (-1))) (by simp)

theorem Rep.take {s : State T} {i : Nat} {free : List Nat} (h : Rep s (i :: free)) (kmt : T)
    (fill : Nat → KmpidStruct T) : ∃ a, kmpidAlloc s.kmpids false kmt fill = some ((i : Int), a) ∧
      a.nthread = s.kmpids.nthread := by
  obtain ⟨hi,-⟩ := (h.mem i).mp List.mem_cons_self
  have hfree : s.kmpids.freehead = i := h.chain.1
  have htake : takeKmpid s.kmpids fill =
      some ((i : Int), { s.kmpids with freehead := (s.kmpids.cells (addr i)).nextKmpid }) := by
    simp [takeKmpid,hfree,h.struct hi]
  exact ⟨_,kmpidAlloc_eq htake (kmpid2struct_lt h.pages (h.head_of_lt hi) hi),rfl⟩

theorem kmpid_recycled {s : State T} (hrun : Run step Legal init s) (kmt : T)
    (fill : Nat → KmpidStruct T) :
    (∀ i, s.live i ≠ none → ∃ t a, step s (.free i) = some t ∧
      kmpidAlloc t.kmpids false kmt fill = some ((i : Int), a)) ∧
    ∀ r a, kmpidAlloc s.kmpids false kmt fill = some (r, a) →
      a.nthread ≠ s.kmpids.nthread → ∀ i < s.kmpids.nthread, s.live i ≠ none := by
  obtain ⟨free,h⟩ := rep_run hrun
  refine ⟨fun i hi => ?_,fun r a ha hgrown i hi hdead => ?_⟩
  · obtain ⟨b,hb,hrep⟩ := h.release hi
    obtain ⟨a,ha,-⟩ := hrep.take kmt fill
    exact ⟨_,a,by rw [step,hb,Option.map_some],ha⟩
  · -- A dead id below nthread is on the free list, from which the call takes one.
    cases free with
    | nil => exact List.not_mem_nil ((h.mem i).mpr ⟨hi,hdead⟩)
    | cons j free =>
      obtain ⟨b,hb,hsame⟩ := h.take kmt fill
      obtain ⟨-,rfl⟩ := Prod.mk.inj (Option.some.inj (hb.symm.trans ha))
      exact hgrown hsame

theorem kmpid_recycled_oneAlloc : ∃ (s t : State Nat) (a : Kmpids Nat), s.live 0 = some 7 ∧
    step s (.free 0) = some t ∧
      kmpidAlloc t.kmpids false 8 (fun _ => ⟨none, 0⟩) = some (((0 : Nat) : Int), a) := by
  obtain ⟨s,hrun,-,hlive,-⟩ := run_recycling
  obtain ⟨t,a,ht,ha⟩ := (kmpid_recycled hrun 8 fun _ => ⟨none, 0⟩).1 0 (by simp [hlive])
  exact ⟨s,t,a,hlive,ht,ha⟩

end ViewOS.Kmview
