import Mathlib.Data.Finset.Card
import ViewOS.Lib.Run
import ViewOS.Lib.Shared

namespace ViewOS.Fdsysset
open Shared Transition

def fdSetsize : Int := 1024

def intMax : Int := 2147483647

structure Block where
  ncopy : Int
  nfd : Int
  fdset : Finset Nat

abbrev Heap := List (Option Block)

def block (blocks : Heap) (a : Nat) : Option Block := blocks[a]?.join

-- None is undefined behaviour: a freed block, a bit outside of fdset, an ncopy that overflows.
def fdsyssetCopy (blocks : Heap) : Option Nat → Option (Heap × Option Nat)
  | none => some (blocks, none)
  | some fds => (block blocks fds).bind fun b =>
    if b.ncopy = intMax then none
    else some (blocks.set fds (some { b with ncopy := b.ncopy + 1 }), some fds)

def fdsyssetSet (fd : Int) (blocks : Heap) (fds : Option Nat) : Option (Heap × Option Nat) :=
  if fdSetsize ≤ fd then some (blocks, fds)
  else if fd < 0 then none
  else
    match fds with
    | none => some (blocks ++ [some ⟨1, 1, {fd.toNat}⟩], some blocks.length)
    | some a => (block blocks a).bind fun b =>
      if fd.toNat ∉ b.fdset then
        if 1 < b.ncopy then
          some (blocks.set a (some { b with ncopy := b.ncopy - 1 }) ++
            [some ⟨1, b.nfd + 1, insert fd.toNat b.fdset⟩], some blocks.length)
        else
          some (blocks.set a (some ⟨b.ncopy, b.nfd + 1, insert fd.toNat b.fdset⟩), some a)
      else some (blocks, some a)

def fdsyssetClr (fd : Int) (blocks : Heap) (fds : Option Nat) : Option (Heap × Option Nat) :=
  if fdSetsize ≤ fd then some (blocks, fds)
  else
    match fds with
    | none => some (blocks, none)
    | some a => if fd < 0 then none else (block blocks a).bind fun b =>
      if fd.toNat ∈ b.fdset then
        if 1 < b.ncopy then
          let blocks := blocks.set a (some { b with ncopy := b.ncopy - 1 })
          if b.nfd = 1 then some (blocks, none)
          else
            some (blocks ++ [some ⟨1, b.nfd - 1, b.fdset.erase fd.toNat⟩], some blocks.length)
        else if b.nfd = 1 then some (blocks.set a none, none)
        else some (blocks.set a (some ⟨b.ncopy, b.nfd - 1, b.fdset.erase fd.toNat⟩), some a)
      else some (blocks, some a)

def fdsyssetFree (blocks : Heap) : Option Nat → Option Heap
  | none => some blocks
  | some a => (block blocks a).map fun b =>
    if 1 < b.ncopy then blocks.set a (some { b with ncopy := b.ncopy - 1 }) else blocks.set a none

inductive Op where
  | fresh
  | copy (i : Nat)
  | set (i : Nat) (fd : Int)
  | clr (i : Nat) (fd : Int)
  | free (i : Nat)

-- The variables that hold a pointer; one that is freed is NULL afterwards.
structure State where
  blocks : Heap
  handles : List (Option Nat)

def State.update (s : State) (i : Nat) (f : Heap → Option Nat → Option (Heap × Option Nat)) :
    Option State :=
  s.handles[i]?.bind fun h => (f s.blocks h).map fun r => ⟨r.1, s.handles.set i r.2⟩

def step (s : State) : Op → Option State
  | .fresh => some ⟨s.blocks, s.handles ++ [none]⟩
  | .copy i => s.handles[i]?.bind fun h =>
    (fdsyssetCopy s.blocks h).map fun r => ⟨r.1, s.handles ++ [r.2]⟩
  | .set i fd => s.update i (fdsyssetSet fd)
  | .clr i fd => s.update i (fdsyssetClr fd)
  | .free i => s.update i fun blocks h => (fdsyssetFree blocks h).map fun blocks => (blocks, none)

-- What C defines: the handle is there, the descriptor is not negative, ncopy does not overflow.
def Defined (s : State) : Op → Prop
  | .fresh => True
  | .copy i => i < s.handles.length ∧ s.handles.length < intMax
  | .set i fd | .clr i fd => i < s.handles.length ∧ 0 ≤ fd
  | .free i => i < s.handles.length

def init : State := ⟨[], []⟩

def history (sets : List (Finset Nat)) : Op → Option (List (Finset Nat))
  | .fresh => some (sets ++ [∅])
  | .copy i => sets[i]?.map fun x => sets ++ [x]
  | .set i fd => sets[i]?.map fun x =>
    sets.set i (if fdSetsize ≤ fd then x else insert fd.toNat x)
  | .clr i fd => sets[i]?.map fun x =>
    sets.set i (if fdSetsize ≤ fd then x else x.erase fd.toNat)
  | .free i => sets[i]?.map fun _ => sets.set i ∅

def contents (blocks : Heap) : Option Nat → Option (Finset Nat)
  | none => some ∅
  | some a => (block blocks a).map Block.fdset

def Sound (blocks : Heap) : Prop :=
  ∀ a b, block blocks a = some b → b.nfd = b.fdset.card ∧ b.fdset.Nonempty

structure Rep (s : State) (sets : List (Finset Nat)) : Prop where
  counted : Counted Block.ncopy id s.blocks s.handles
  denotes : ∀ i : Nat, s.handles[i]?.map (contents s.blocks) = sets[i]?.map some
  sound : Sound s.blocks

structure Turns (s : State) (i : Nat) (x : Finset Nat) (blocks : Heap) (h : Option Nat) : Prop where
  counted : Counted Block.ncopy id blocks (s.handles.set i h)
  denotes : contents blocks h = some x
  sound : Sound blocks
  others : ∀ (j : Nat) (h' : Option Nat), j ≠ i → s.handles[j]? = some h' → contents blocks h' = contents s.blocks h'

theorem block_eq_some {blocks : Heap} {a : Nat} {b : Block} :
    block blocks a = some b ↔ blocks[a]? = some (some b) := by
  rw [block,Option.join_eq_some_iff]

theorem block_set {blocks : Heap} {a : Nat} {b : Block} (ha : block blocks a = some b) (o : Option Block)
    (c : Nat) : block (blocks.set a o) c = if c = a then o else block blocks c :=
  join_set (lt_of_get (block_eq_some.mp ha)) o c

theorem block_append (blocks : Heap) (o : Option Block) (c : Nat) :
    block (blocks ++ [o]) c = if c = blocks.length then o else block blocks c :=
  join_append blocks o c

theorem block_lt {blocks : Heap} {a : Nat} {b : Block} (h : block blocks a = some b) :
    a < blocks.length :=
  lt_of_get (block_eq_some.mp h)

theorem set_of_get {α : Type*} {l : List α} {i : Nat} {x : α} (h : l[i]? = some x) : l.set i x = l := by
  obtain ⟨hlt,rfl⟩ := List.getElem?_eq_some_iff.mp h
  exact List.set_getElem_self hlt

theorem Sound.set {blocks : Heap} (hs : Sound blocks) {a : Nat} {b b' : Block}
    (hb : block blocks a = some b) (hcard : b'.nfd = b'.fdset.card) (hne : b'.fdset.Nonempty) :
    Sound (blocks.set a (some b')) := by
  intro c d hc
  rw [block_set hb] at hc
  split_ifs at hc
  · obtain rfl := Option.some.inj hc
    exact ⟨hcard,hne⟩
  · exact hs c d hc

theorem Sound.append {blocks : Heap} (hs : Sound blocks) {b : Block} (hcard : b.nfd = b.fdset.card)
    (hne : b.fdset.Nonempty) : Sound (blocks ++ [some b]) := by
  intro c d hc
  rw [block_append] at hc
  split_ifs at hc
  · obtain rfl := Option.some.inj hc
    exact ⟨hcard,hne⟩
  · exact hs c d hc

theorem contents_recount {blocks : Heap} {a : Nat} {b : Block} (hb : block blocks a = some b) (n : Int)
    (h : Option Nat) : contents (blocks.set a (some { b with ncopy := n })) h = contents blocks h := by
  cases h with
  | none => rfl
  | some c =>
    rw [contents,contents,block_set hb]
    split_ifs with hca
    · rw [hca,hb]
      rfl
    · rfl

section Steps

variable {s : State} {sets : List (Finset Nat)} {i : Nat} {h : Option Nat} {x : Finset Nat}

theorem Rep.set_at (hr : Rep s sets) (hh : s.handles[i]? = some h) :
    ∃ x, sets[i]? = some x ∧ contents s.blocks h = some x := by
  have hd := hr.denotes i
  rw [hh,Option.map_some] at hd
  obtain ⟨x,hx,hc⟩ := Option.map_eq_some_iff.mp hd.symm
  exact ⟨x,hx,hc.symm⟩

theorem Rep.turns (hr : Rep s sets) {blocks : Heap} (hi : i < s.handles.length)
    (ht : Turns s i x blocks h) : Rep ⟨blocks, s.handles.set i h⟩ (sets.set i x) where
  counted := ht.counted
  sound := ht.sound
  denotes := by
    intro j
    have hlen : i < sets.length := by
      obtain ⟨y,hy,-⟩ := hr.set_at (List.getElem?_eq_getElem hi)
      exact (List.getElem?_eq_some_iff.mp hy).1
    rcases eq_or_ne i j with rfl | hne
    · simp [hi,hlen,ht.denotes]
    · rw [List.getElem?_set_ne hne,List.getElem?_set_ne hne,← hr.denotes j]
      cases hj : s.handles[j]? with
      | none => rfl
      | some h' => exact congrArg some (ht.others j h' (Ne.symm hne) hj)

theorem Rep.same (hr : Rep s sets) (hh : s.handles[i]? = some h) (hx : contents s.blocks h = some x) :
    Turns s i x s.blocks h where
  counted := by
    rw [set_of_get hh]
    exact hr.counted
  denotes := hx
  sound := hr.sound
  others := fun _ _ _ _ => rfl

theorem Rep.unshare (hr : Rep s sets) {a : Nat} {b : Block} (hh : s.handles[i]? = some (some a))
    (hb : block s.blocks a = some b) (hmany : 1 < b.ncopy) :
    Turns s i ∅ (s.blocks.set a (some { b with ncopy := b.ncopy - 1 })) none where
  counted := hr.counted.drop hh (block_eq_some.mp hb) (by
    rw [if_neg (by omega)]
    rfl)
  denotes := rfl
  sound := hr.sound.set hb (hr.sound a b hb).1 (hr.sound a b hb).2
  others := fun _ h' _ _ => contents_recount hb _ h'

theorem Rep.others_of_sole (hr : Rep s sets) {a : Nat} {b : Block} (hh : s.handles[i]? = some (some a))
    (hb : block s.blocks a = some b) (hone : ¬ 1 < b.ncopy) (o : Option Block) {j : Nat} {h' : Option Nat}
    (hj : j ≠ i) (hh' : s.handles[j]? = some h') :
    contents (s.blocks.set a o) h' = contents s.blocks h' := by
  cases h' with
  | none => rfl
  | some c =>
    rw [contents,contents,block_set hb,if_neg]
    rintro rfl
    exact hj (hr.counted.sole hh (block_eq_some.mp hb) (by omega) hh' rfl)

theorem Rep.release (hr : Rep s sets) {a : Nat} {b : Block} (hh : s.handles[i]? = some (some a))
    (hb : block s.blocks a = some b) (hone : ¬ 1 < b.ncopy) :
    Turns s i ∅ (s.blocks.set a none) none where
  counted := hr.counted.drop hh (block_eq_some.mp hb) (by
    have hcount := hr.counted.count_eq hh (block_eq_some.mp hb)
    have hmem : id a ∈ users id s.handles := mem_users hh
    have hpos := Multiset.count_pos.mpr hmem
    rw [id] at hcount hpos
    rw [if_pos (by omega)]
    rfl)
  denotes := rfl
  sound := by
    intro c b' hc
    rw [block_set hb] at hc
    split_ifs at hc with hca
    exact hr.sound c b' hc
  others := fun _ _ hj hh' => hr.others_of_sole hh hb hone none hj hh'

theorem Rep.inPlace (hr : Rep s sets) {a : Nat} {b : Block} {n : Int} (hh : s.handles[i]? = some (some a))
    (hb : block s.blocks a = some b) (hone : ¬ 1 < b.ncopy) (hn : n = x.card) (hne : x.Nonempty) :
    Turns s i x (s.blocks.set a (some ⟨b.ncopy, n, x⟩)) (some a) where
  counted := by
    rw [set_of_get hh]
    exact hr.counted.write (block_eq_some.mp hb) rfl
  denotes := by rw [contents,block_set hb,if_pos rfl]; rfl
  sound := hr.sound.set hb hn hne
  others := fun _ _ hj hh' => hr.others_of_sole hh hb hone _ hj hh'

theorem Turns.assign (hr : Rep s sets) {blocks : Heap} {y : Finset Nat} {n : Int}
    (hi : i < s.handles.length) (ht : Turns s i y blocks none) (hn : n = x.card) (hne : x.Nonempty) :
    Turns s i x (blocks ++ [some ⟨1, n, x⟩]) (some blocks.length) where
  counted := by
    have hnull : (s.handles.set i none)[i]? = some none := List.getElem?_set_self hi
    have hc := ht.counted.assign (v := blocks.length) (b := ⟨1, n, x⟩) hnull rfl rfl
    rwa [List.set_set] at hc
  denotes := by rw [contents,block_append,if_pos rfl]; rfl
  sound := ht.sound.append hn hne
  others := by
    intro j h' hj hh'
    rw [← ht.others j h' hj hh']
    cases h' with
    | none => rfl
    | some c =>
      rw [contents,contents,block_append,if_neg]
      rintro rfl
      obtain ⟨z,-,hz⟩ := hr.set_at hh'
      rw [← ht.others j _ hj hh'] at hz
      obtain ⟨b,hb,-⟩ := Option.map_eq_some_iff.mp hz
      exact absurd (block_lt hb) (Nat.lt_irrefl _)

theorem set_turns (hr : Rep s sets) {fd : Int} {r : Heap × Option Nat} (hh : s.handles[i]? = some h)
    (hx : contents s.blocks h = some x) (hset : fdsyssetSet fd s.blocks h = some r) :
    Turns s i (if fdSetsize ≤ fd then x else insert fd.toNat x) r.1 r.2 := by
  have hi := (List.getElem?_eq_some_iff.mp hh).1
  rw [fdsyssetSet.eq_def] at hset
  split_ifs at hset with hbig hneg
  · obtain rfl := Option.some.inj hset
    rw [if_pos hbig]
    exact hr.same hh hx
  rw [if_neg hbig]
  cases h with
  | none =>
    obtain rfl := Option.some.inj hset
    obtain rfl := Option.some.inj hx
    exact (hr.same hh rfl).assign hr hi rfl (Finset.insert_nonempty _ _)
  | some a =>
    obtain ⟨b,hb,hset⟩ := Option.bind_eq_some_iff.mp hset
    obtain rfl : b.fdset = x := by simpa [contents,hb] using hx
    obtain ⟨hnfd,-⟩ := hr.sound a b hb
    have hne := Finset.insert_nonempty fd.toNat b.fdset
    split_ifs at hset with hin hmany
    · obtain rfl := Option.some.inj hset
      rw [Finset.insert_eq_self.mpr hin]
      exact hr.same hh hx
    all_goals
      have hcard : b.nfd + 1 = (insert fd.toNat b.fdset).card := by
        rw [Finset.card_insert_of_notMem hin,hnfd]
        rfl
    · obtain rfl := Option.some.inj hset
      have ht := (hr.unshare hh hb hmany).assign hr hi hcard hne
      rwa [List.length_set] at ht
    · obtain rfl := Option.some.inj hset
      exact hr.inPlace hh hb hmany hcard hne

theorem clr_turns (hr : Rep s sets) {fd : Int} {r : Heap × Option Nat} (hh : s.handles[i]? = some h)
    (hx : contents s.blocks h = some x) (hclr : fdsyssetClr fd s.blocks h = some r) :
    Turns s i (if fdSetsize ≤ fd then x else x.erase fd.toNat) r.1 r.2 := by
  have hi := (List.getElem?_eq_some_iff.mp hh).1
  rw [fdsyssetClr.eq_def] at hclr
  by_cases hbig : fdSetsize ≤ fd
  · rw [if_pos hbig] at hclr ⊢
    obtain rfl := Option.some.inj hclr
    exact hr.same hh hx
  rw [if_neg hbig] at hclr ⊢
  cases h with
  | none =>
    obtain rfl := Option.some.inj hclr
    obtain rfl := Option.some.inj hx
    exact hr.same hh rfl
  | some a =>
    dsimp only at hclr
    split_ifs at hclr with hneg
    obtain ⟨b,hb,hclr⟩ := Option.bind_eq_some_iff.mp hclr
    obtain rfl : b.fdset = x := by simpa [contents,hb] using hx
    obtain ⟨hnfd,-⟩ := hr.sound a b hb
    by_cases hin : fd.toNat ∈ b.fdset
    · have hcard := Finset.card_erase_add_one hin
      have hempty : b.nfd = 1 → b.fdset.erase fd.toNat = ∅ := fun h1 =>
        Finset.card_eq_zero.mp (by omega)
      have hrest : b.nfd ≠ 1 → (b.fdset.erase fd.toNat).Nonempty := fun h1 =>
        Finset.card_pos.mp (by omega)
      simp only [hin,if_true] at hclr
      split_ifs at hclr with hmany hlast hlast
      all_goals obtain rfl := Option.some.inj hclr
      · rw [hempty hlast]
        exact hr.unshare hh hb hmany
      · exact (hr.unshare hh hb hmany).assign hr hi (by omega) (hrest hlast)
      · rw [hempty hlast]
        exact hr.release hh hb hmany
      · exact hr.inPlace hh hb hmany (by omega) (hrest hlast)
    · rw [if_neg hin] at hclr
      obtain rfl := Option.some.inj hclr
      rw [Finset.erase_eq_of_notMem hin]
      exact hr.same hh hx

theorem free_turns (hr : Rep s sets) {blocks : Heap} (hh : s.handles[i]? = some h)
    (hfree : fdsyssetFree s.blocks h = some blocks) : Turns s i ∅ blocks none := by
  cases h with
  | none =>
    obtain rfl := Option.some.inj hfree
    exact hr.same hh rfl
  | some a =>
    obtain ⟨b,hb,rfl⟩ := Option.map_eq_some_iff.mp hfree
    split_ifs with hmany
    · exact hr.unshare hh hb hmany
    · exact hr.release hh hb hmany

theorem Rep.push (hr : Rep s sets) {blocks : Heap}
    (hcount : Counted Block.ncopy id blocks (s.handles ++ [h])) (hx : contents s.blocks h = some x)
    (hsame : ∀ h, contents blocks h = contents s.blocks h)
    (hsound : Sound blocks) : Rep ⟨blocks, s.handles ++ [h]⟩ (sets ++ [x]) where
  counted := hcount
  sound := hsound
  denotes := by
    intro j
    have hmap : s.handles.map (contents s.blocks) = sets.map some :=
      List.ext_getElem? fun j => by simpa using hr.denotes j
    have hall : (s.handles ++ [h]).map (contents blocks) = (sets ++ [x]).map some := by
      simp [funext hsame,hmap,hx]
    rw [← List.getElem?_map,← List.getElem?_map,hall]

theorem copy_rep (hr : Rep s sets) {r : Heap × Option Nat} (hh : s.handles[i]? = some h)
    (hx : contents s.blocks h = some x) (hcopy : fdsyssetCopy s.blocks h = some r) :
    Rep ⟨r.1, s.handles ++ [r.2]⟩ (sets ++ [x]) := by
  cases h with
  | none =>
    obtain rfl := Option.some.inj hcopy
    exact hr.push hr.counted.idle hx (fun _ => rfl) hr.sound
  | some a =>
    obtain ⟨b,hb,hcopy⟩ := Option.bind_eq_some_iff.mp hcopy
    split_ifs at hcopy
    obtain rfl := Option.some.inj hcopy
    exact hr.push (hr.counted.share hh (block_eq_some.mp hb) rfl rfl) hx (contents_recount hb _)
      (hr.sound.set hb (hr.sound a b hb).1 (hr.sound a b hb).2)

theorem update_rep (hr : Rep s sets) {f : Heap → Option Nat → Option (Heap × Option Nat)}
    {g : Finset Nat → Finset Nat} {s' : State} (hup : s.update i f = some s')
    (hturn : ∀ h x r, s.handles[i]? = some h → contents s.blocks h = some x →
      f s.blocks h = some r → Turns s i (g x) r.1 r.2) :
    ∃ sets', (sets[i]?.map fun x => sets.set i (g x)) = some sets' ∧ Rep s' sets' := by
  obtain ⟨h,hh,hup⟩ := Option.bind_eq_some_iff.mp hup
  obtain ⟨r,hf,rfl⟩ := Option.map_eq_some_iff.mp hup
  obtain ⟨x,hx,hc⟩ := hr.set_at hh
  refine ⟨sets.set i (g x),by rw [hx]; rfl,?_⟩
  exact hr.turns (List.getElem?_eq_some_iff.mp hh).1 (hturn h x r hh hc hf)

theorem step_rep {s' : State} {o : Op} (hr : Rep s sets) (hstep : step s o = some s') :
    ∃ sets', history sets o = some sets' ∧ Rep s' sets' := by
  cases o with
  | fresh =>
    obtain rfl := Option.some.inj hstep
    exact ⟨_,rfl,hr.push hr.counted.idle rfl (fun _ => rfl) hr.sound⟩
  | copy i =>
    obtain ⟨h,hh,hstep⟩ := Option.bind_eq_some_iff.mp hstep
    obtain ⟨r,hf,rfl⟩ := Option.map_eq_some_iff.mp hstep
    obtain ⟨x,hx,hc⟩ := hr.set_at hh
    exact ⟨sets ++ [x],by rw [history,hx]; rfl,copy_rep hr hh hc hf⟩
  | set i fd => exact update_rep hr hstep fun h x r hh hx hf => set_turns hr hh hx hf
  | clr i fd => exact update_rep hr hstep fun h x r hh hx hf => clr_turns hr hh hx hf
  | free i =>
    refine update_rep (g := fun _ => ∅) hr
      (f := fun blocks h => (fdsyssetFree blocks h).map fun blocks => (blocks, none)) hstep
      fun h x r hh hx hf => ?_
    obtain ⟨blocks,hfree,rfl⟩ := Option.map_eq_some_iff.mp hf
    exact free_turns hr hh hfree

theorem run_rep {ops : List Op} {s' : State} (hr : Rep s sets) (hrun : exec step s ops = some s') :
    ∃ sets', exec history sets ops = some sets' ∧ Rep s' sets' := by
  induction ops generalizing s sets with
  | nil =>
    obtain rfl := Option.some.inj hrun
    exact ⟨sets,rfl,hr⟩
  | cons o ops ih =>
    obtain ⟨t,hstep,hrun⟩ := Option.bind_eq_some_iff.mp hrun
    obtain ⟨sets',hhist,hr'⟩ := step_rep hr hstep
    obtain ⟨sets'',hexec,hr''⟩ := ih hr' hrun
    exact ⟨sets'',by rw [exec,hhist]; exact hexec,hr''⟩

theorem Rep.ncopy (hr : Rep s sets) {a : Nat} {b : Block} (hb : block s.blocks a = some b) :
    b.ncopy = s.handles.count (some a) ∧ some a ∈ s.handles := by
  obtain ⟨i,u,hu,rfl⟩ := hr.counted.user (block_eq_some.mp hb)
  refine ⟨?_,List.mem_of_getElem? hu⟩
  rw [hr.counted.count_eq hu (block_eq_some.mp hb),count_users,List.count]
  congr 2
  funext v
  cases v <;> simp [beq_eq_decide]

theorem Rep.block_of_handle (hr : Rep s sets) {a : Nat} (hh : s.handles[i]? = some (some a)) :
    ∃ b, block s.blocks a = some b :=
  (hr.counted.object hh).imp fun _ => block_eq_some.mpr

theorem update_isSome {f : Heap → Option Nat → Option (Heap × Option Nat)} (hi : i < s.handles.length)
    (hf : ∀ h, s.handles[i]? = some h → (f s.blocks h).isSome = true) : (s.update i f).isSome = true := by
  have hh := List.getElem?_eq_getElem hi
  rw [State.update,hh,Option.bind_some,Option.isSome_map]
  exact hf _ hh

theorem set_isSome (hr : Rep s sets) {fd : Int} (hfd : 0 ≤ fd) (hh : s.handles[i]? = some h) :
    (fdsyssetSet fd s.blocks h).isSome = true := by
  rw [fdsyssetSet.eq_def,if_neg (Int.not_lt.mpr hfd)]
  cases h with
  | none => split_ifs <;> rfl
  | some a =>
    obtain ⟨b,hb⟩ := hr.block_of_handle hh
    simp only [hb,Option.bind_some]
    split_ifs <;> rfl

theorem clr_isSome (hr : Rep s sets) {fd : Int} (hfd : 0 ≤ fd) (hh : s.handles[i]? = some h) :
    (fdsyssetClr fd s.blocks h).isSome = true := by
  rw [fdsyssetClr.eq_def]
  cases h with
  | none => split_ifs <;> rfl
  | some a =>
    obtain ⟨b,hb⟩ := hr.block_of_handle hh
    simp only [hb,Option.bind_some,if_neg (Int.not_lt.mpr hfd)]
    split_ifs <;> rfl

theorem step_isSome (hr : Rep s sets) {o : Op} (hdef : Defined s o) : (step s o).isSome = true := by
  cases o with
  | fresh => rfl
  | copy i =>
    obtain ⟨hi,hmax⟩ := hdef
    have hh := List.getElem?_eq_getElem hi
    rw [step,hh,Option.bind_some,Option.isSome_map]
    cases hget : s.handles[i] with
    | none => rfl
    | some a =>
      rw [hget] at hh
      obtain ⟨b,hb⟩ := hr.block_of_handle hh
      have hcount : s.handles.count (some a) ≤ s.handles.length := List.count_le_length
      have hlt : b.ncopy ≠ intMax := by
        rw [(hr.ncopy hb).1]
        omega
      rw [fdsyssetCopy,hb,Option.bind_some,if_neg hlt]
      rfl
  | set i fd => exact update_isSome hdef.1 fun h hh => set_isSome hr hdef.2 hh
  | clr i fd => exact update_isSome hdef.1 fun h hh => clr_isSome hr hdef.2 hh
  | free i =>
    rw [step]
    refine update_isSome hdef fun h hh => ?_
    rw [Option.isSome_map]
    cases h with
    | none => rfl
    | some a =>
      obtain ⟨b,hb⟩ := hr.block_of_handle hh
      rw [fdsyssetFree,hb]
      rfl

end Steps

theorem init_rep : Rep init [] where
  counted := rfl
  denotes := fun _ => rfl
  sound := by
    intro a b hb
    cases hb

theorem fdsysset_copy_on_write {ops : List Op} {s : State} (h : exec step init ops = some s) :
    ∃ sets, exec history [] ops = some sets ∧ s.handles.map (contents s.blocks) = sets.map some ∧
      (∀ a b, block s.blocks a = some b →
        b.ncopy = s.handles.count (some a) ∧ b.nfd = b.fdset.card) ∧
      (∀ a, (block s.blocks a).isSome = true ↔ some a ∈ s.handles) ∧
      ∀ o, Defined s o → (step s o).isSome = true := by
  obtain ⟨sets,hexec,hr⟩ := run_rep init_rep h
  refine ⟨sets,hexec,List.ext_getElem? fun j => by simpa using hr.denotes j,
    fun a b hb => ⟨(hr.ncopy hb).1,(hr.sound a b hb).1⟩,fun a => ⟨fun hs => ?_,fun hmem => ?_⟩,
    fun o => step_isSome hr⟩
  · obtain ⟨b,hb⟩ := Option.isSome_iff_exists.mp hs
    exact (hr.ncopy hb).2
  · obtain ⟨i,hi⟩ := List.mem_iff_getElem?.mp hmem
    obtain ⟨b,hb⟩ := hr.block_of_handle hi
    exact Option.isSome_of_eq_some hb

def sharing : List Op := [.fresh, .set 0 3, .copy 0, .set 1 4, .clr 0 3]

theorem sharing_separates : exec step init sharing = some ⟨[none, some ⟨1, 2, {4, 3}⟩], [none, some 1]⟩ ∧
    ∃ sets, exec history [] sharing = some sets ∧ [some ∅, some {4, 3}] = sets.map some := by
  have hrun : exec step init sharing = some ⟨[none, some ⟨1, 2, {4, 3}⟩], [none, some 1]⟩ := rfl
  obtain ⟨sets,hexec,hmap,-⟩ := fdsysset_copy_on_write hrun
  exact ⟨hrun,sets,hexec,hmap⟩

def named (sets : List (Finset Nat)) : Op → Option (List (Finset Nat))
  | .set i fd => sets[i]?.map fun x => sets.set i (insert fd.toNat x)
  | .clr i fd => sets[i]?.map fun x => sets.set i (x.erase fd.toNat)
  | o => history sets o

theorem large_fd_ignored : ¬ ∀ (ops : List Op) (s : State), exec step init ops = some s →
    ∃ sets, exec named [] ops = some sets ∧ s.handles.map (contents s.blocks) = sets.map some := by
  intro h
  obtain ⟨sets,hexec,hmap⟩ := h [.fresh, .set 0 1024] ⟨[], [none]⟩ rfl
  obtain rfl : [{1024}] = sets := Option.some.inj hexec
  exact absurd hmap (by decide)

end ViewOS.Fdsysset
