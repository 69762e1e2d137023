import ViewOS.Lib.Run
import ViewOS.Userfilter.Packet

namespace ViewOS.Userfilter.Hooks

open Transition

def hookOf : Nat → Option UfHook
  | 0 => some .preRouting
  | 1 => some .localIn
  | 2 => some .forward
  | 3 => some .localOut
  | 4 => some .postRouting
  | _ => none

section Insert

-- H are the addresses of the handler descriptors.
variable {H : Type} (priority : H → Int)

-- The list from current on, with the new item put before the first greater priority.
def insertLoop (h : H) : List H → List H
  | [] => [h]
  | current :: next =>
    if priority current > priority h then h :: current :: next else current :: insertLoop h next

structure StableSorted (registered list : List H) : Prop where
  sorted : list.Pairwise fun a b => priority a ≤ priority b
  same : ∀ p, list.filter (priority · = p) = registered.filter (priority · = p)

variable {priority} {h : H} {list registered : List H}

theorem mem_insertLoop {a : H} : a ∈ insertLoop priority h list ↔ a = h ∨ a ∈ list := by
  induction list with
  | nil => simp [insertLoop]
  | cons current next ih =>
    rw [insertLoop]
    split_ifs
    · exact List.mem_cons
    · rw [List.mem_cons,ih,List.mem_cons,or_left_comm]

theorem insertLoop_sorted (hs : list.Pairwise fun a b => priority a ≤ priority b) :
    (insertLoop priority h list).Pairwise fun a b => priority a ≤ priority b := by
  induction list with
  | nil => exact List.pairwise_singleton _ _
  | cons current next ih =>
    obtain ⟨hall,hnext⟩ := List.pairwise_cons.mp hs
    rw [insertLoop]
    split_ifs with hgt
    · refine List.pairwise_cons.mpr ⟨fun a ha => ?_,hs⟩
      rcases List.mem_cons.mp ha with rfl | ha
      · exact hgt.le
      · exact hgt.le.trans (hall a ha)
    · refine List.pairwise_cons.mpr ⟨fun a ha => ?_,ih hnext⟩
      rcases mem_insertLoop.mp ha with rfl | ha
      · exact not_lt.mp hgt
      · exact hall a ha

theorem filter_insertLoop (hs : list.Pairwise fun a b => priority a ≤ priority b) (p : Int) :
    (insertLoop priority h list).filter (priority · = p) =
      (list ++ [h]).filter (priority · = p) := by
  induction list with
  | nil => rfl
  | cons current next ih =>
    obtain ⟨hall,hnext⟩ := List.pairwise_cons.mp hs
    rw [insertLoop]
    split_ifs with hgt
    · rw [List.filter_append,List.filter_cons]
      split_ifs with hp
      · -- No handler from current on has the priority of the new one.
        have hnone : (current :: next).filter (priority · = p) = [] := by
          rw [List.filter_eq_nil_iff]
          intro a ha
          have hle : priority current ≤ priority a := by
            rcases List.mem_cons.mp ha with rfl | ha
            · exact le_rfl
            · exact hall a ha
          simp only [decide_eq_true_eq] at hp ⊢
          omega
        rw [hnone,List.nil_append,List.filter_singleton,hp]
        rfl
      · rw [List.filter_singleton,Bool.eq_false_of_not_eq_true hp]
        exact (List.append_nil _).symm
    · rw [List.cons_append,List.filter_cons,List.filter_cons,ih hnext]

theorem StableSorted.insert (hs : StableSorted priority registered list) (h : H) :
    StableSorted priority (registered ++ [h]) (insertLoop priority h list) := by
  refine ⟨insertLoop_sorted hs.sorted,fun p => ?_⟩
  rw [filter_insertLoop hs.sorted,List.filter_append,List.filter_append,hs.same p]

structure State (H : Type) where
  lists : UfHook → List H
  registered : UfHook → List H

def change (lists : UfHook → List H) (point : Option UfHook) (f : List H → List H) :
    UfHook → List H :=
  match point with
  | none => lists
  | some point => Function.update lists point (f (lists point))

def Ordered (priority : H → Int) (s : State H) : Prop :=
  ∀ point, StableSorted priority (s.registered point) (s.lists point)

theorem Ordered.change {s : State H} (hs : Ordered priority s) (point : Option UfHook)
    {f g : List H → List H} (hfg : ∀ registered list, StableSorted priority registered list →
      StableSorted priority (f registered) (g list)) :
    Ordered priority ⟨change s.lists point g, change s.registered point f⟩ := by
  cases point with
  | none => exact hs
  | some point =>
    intro point'
    rcases eq_or_ne point' point with rfl | hne
    · simpa [Hooks.change] using hfg _ _ (hs point')
    · simpa [Hooks.change,hne] using hs point'

def ufRegisterHook (priority : H → Int) (hooknum : H → Nat) (mem : Bool) (lists : UfHook → List H)
    (h : H) : Int × (UfHook → List H) :=
  match hookOf (hooknum h) with
  | none => (-1, lists)
  | some point =>
    if mem then (1, Function.update lists point (insertLoop priority h (lists point)))
    else (-1, lists)

theorem ufRegisterHook_eq (hooknum : H → Nat) (mem : Bool) (lists : UfHook → List H) (h : H) :
    (ufRegisterHook priority hooknum mem lists h).2 =
      if mem then change lists (hookOf (hooknum h)) (insertLoop priority h) else lists := by
  cases hpoint : hookOf (hooknum h) <;> cases mem <;> simp [ufRegisterHook,change,hpoint]

end Insert

section Lists

variable {H : Type} [DecidableEq H] (priority : H → Int) (hooknum : H → Nat)

def removeLoop (h : H) : List H → Option (List H)
  | [] => none
  | current :: next =>
    if current = h then some next else (removeLoop h next).map (current :: ·)

def ufUnregisterHook (lists : UfHook → List H) (h : H) : Int × (UfHook → List H) :=
  match hookOf (hooknum h) with
  | none => (-1, lists)
  | some point =>
    match removeLoop h (lists point) with
    | some list => (1, Function.update lists point list)
    | none => (0, lists)

inductive Op (H : Type) where
  | register (h : H) (mem : Bool)
  | unregister (h : H)

def step (s : State H) : Op H → Option (State H)
  | .register h mem =>
    some ⟨(ufRegisterHook priority hooknum mem s.lists h).2,
      if mem then change s.registered (hookOf (hooknum h)) (· ++ [h]) else s.registered⟩
  | .unregister h =>
    some ⟨(ufUnregisterHook hooknum s.lists h).2,
      change s.registered (hookOf (hooknum h)) (·.erase h)⟩

def init : State H := ⟨fun _ => [], fun _ => []⟩

variable {priority hooknum} {list registered : List H}

theorem removeLoop_eq (h : H) (list : List H) : (removeLoop h list).getD list = list.erase h := by
  induction list with
  | nil => rfl
  | cons current next ih =>
    rw [removeLoop]
    split_ifs with heq
    · rw [heq,List.erase_cons_head]
      rfl
    · rw [List.erase_cons_tail (by simpa using heq),← ih]
      cases removeLoop h next <;> rfl

theorem ufUnregisterHook_eq (lists : UfHook → List H) (h : H) :
    (ufUnregisterHook hooknum lists h).2 = change lists (hookOf (hooknum h)) (·.erase h) := by
  cases hpoint : hookOf (hooknum h) with
  | none => simp [ufUnregisterHook,change,hpoint]
  | some point =>
    have heq := removeLoop_eq h (lists point)
    cases hrm : removeLoop h (lists point) with
    | none =>
      rw [hrm] at heq
      simp [ufUnregisterHook,change,hpoint,hrm,← heq]
    | some next =>
      rw [hrm] at heq
      simp [ufUnregisterHook,change,hpoint,hrm,← heq]

theorem filter_erase (q : H → Bool) (h : H) (list : List H) :
    (list.erase h).filter q = if q h then (list.filter q).erase h else list.filter q := by
  induction list with
  | nil => simp
  | cons current next ih =>
    rcases eq_or_ne current h with rfl | hne
    · rw [List.erase_cons_head,List.filter_cons]
      split_ifs
      · exact (List.erase_cons_head ..).symm
      · rfl
    · rw [List.erase_cons_tail (by simpa using hne),List.filter_cons,List.filter_cons,ih]
      split_ifs
      · exact (List.erase_cons_tail (by simpa using hne)).symm
      all_goals rfl

theorem StableSorted.erase (hs : StableSorted priority registered list) (h : H) :
    StableSorted priority (registered.erase h) (list.erase h) := by
  refine ⟨hs.sorted.sublist List.erase_sublist,fun p => ?_⟩
  rw [filter_erase,filter_erase,hs.same p]

theorem Ordered.step {s t : State H} {op : Op H} (hs : Ordered priority s)
    (hstep : step priority hooknum s op = some t) : Ordered priority t := by
  cases op with
  | register h mem =>
    obtain rfl := Option.some.inj hstep
    rw [ufRegisterHook_eq]
    cases mem with
    | true => exact hs.change _ fun _ _ hl => hl.insert h
    | false => exact hs
  | unregister h =>
    obtain rfl := Option.some.inj hstep
    rw [ufUnregisterHook_eq]
    exact hs.change _ fun _ _ hl => hl.erase h

end Lists

section Visit

variable {H S : Type} (hook : H → S → UfVerdict × S)

-- S is the packet and whatever else a handler reads and changes.
def ufIterate : Nat → List H → S → Option (UfVerdict × S)
  | 0, _, _ => none
  | _ + 1, [], s => some (.accept, s)
  | fuel + 1, currhook :: next, s =>
    match hook currhook s with
    | (.accept, s) => ufIterate fuel next s
    | (.again, s) => ufIterate fuel (currhook :: next) s
    | (ret, s) => some (ret, s)

def visitResult : UfVerdict → Int
  | .accept => 1
  | .drop => -1
  | .stolen => 0
  | .again => 2

-- The result, whether the packet was freed, and the state left.
def ufVisitHook (freebuf : Bool) (fuel : Nat) (list : List H) (s : S) : Option (Int × Bool × S) :=
  (ufIterate hook fuel list s).map fun r => (visitResult r.1, r.1 == .drop && freebuf, r.2)

-- The handler is called until it answers something other than repeat.
inductive Answers (h : H) : S → UfVerdict → S → Prop where
  | once {s s' : S} {v : UfVerdict} : hook h s = (v, s') → v ≠ .again → Answers h s v s'
  | again {s t s' : S} {v : UfVerdict} :
    hook h s = (.again, t) → Answers h t v s' → Answers h s v s'

inductive Visit : List H → S → UfVerdict → S → Prop where
  | nil (s : S) : Visit [] s .accept s
  | accept {h : H} {list : List H} {s t s' : S} {v : UfVerdict} :
    Answers hook h s .accept t → Visit list t v s' → Visit (h :: list) s v s'
  | stop {h : H} {list : List H} {s s' : S} {v : UfVerdict} :
    Answers hook h s v s' → v ≠ .accept → Visit (h :: list) s v s'

variable {hook}

theorem Visit.again {h : H} {list : List H} {s t s' : S} {v : UfVerdict}
    (hs : hook h s = (.again, t)) (hv : Visit hook (h :: list) t v s') :
    Visit hook (h :: list) s v s' := by
  cases hv with
  | accept ha hl => exact .accept (.again hs ha) hl
  | stop ha hne => exact .stop (.again hs ha) hne

theorem visit_of_ufIterate {fuel : Nat} {list : List H} {s s' : S} {v : UfVerdict}
    (h : ufIterate hook fuel list s = some (v, s')) : Visit hook list s v s' := by
  induction fuel generalizing list s with
  | zero => cases h
  | succ fuel ih =>
    cases list with
    | nil =>
      obtain ⟨rfl,rfl⟩ := Prod.mk.inj (Option.some.inj h)
      exact .nil _
    | cons currhook next =>
      rw [ufIterate] at h
      split at h
      · next t ht => exact .accept (.once ht (by decide)) (ih h)
      · next t ht => exact (ih h).again ht
      · next ret t hacc hagain ht =>
          obtain ⟨rfl,rfl⟩ := Prod.mk.inj (Option.some.inj h)
          exact .stop (.once ht hagain) hacc

theorem Answers.accept {h : H} {list : List H} {s t : S} {v : UfVerdict} {r : UfVerdict × S}
    (ha : Answers hook h s v t) (hv : v = .accept)
    (hl : ∃ fuel, ufIterate hook fuel list t = some r) :
    ∃ fuel, ufIterate hook fuel (h :: list) s = some r := by
  induction ha with
  | once hs _ =>
    obtain ⟨fuel,hfuel⟩ := hl
    exact ⟨fuel + 1,by rw [ufIterate,hs,hv]; exact hfuel⟩
  | again hs _ ih =>
    obtain ⟨fuel,hfuel⟩ := ih hv hl
    exact ⟨fuel + 1,by rw [ufIterate,hs]; exact hfuel⟩

theorem Answers.stop {h : H} {s t : S} {v : UfVerdict} (ha : Answers hook h s v t)
    (hv : v ≠ .accept) (list : List H) :
    ∃ fuel, ufIterate hook fuel (h :: list) s = some (v, t) := by
  induction ha with
  | @once s t v hs hne =>
    refine ⟨1,?_⟩
    rw [ufIterate,hs]
    cases v with
    | accept => exact absurd rfl hv
    | again => exact absurd rfl hne
    | drop => rfl
    | stolen => rfl
  | again hs _ ih =>
    obtain ⟨fuel,hfuel⟩ := ih hv
    exact ⟨fuel + 1,by rw [ufIterate,hs]; exact hfuel⟩

theorem ufIterate_iff {list : List H} {s s' : S} {v : UfVerdict} :
    (∃ fuel, ufIterate hook fuel list s = some (v, s')) ↔ Visit hook list s v s' := by
  constructor
  · rintro ⟨fuel,h⟩
    exact visit_of_ufIterate h
  · intro h
    induction h with
    | nil s => exact ⟨1,rfl⟩
    | accept ha _ ih => exact ha.accept rfl ih
    | stop ha hv => exact ha.stop hv _

theorem Answers.ne_again {h : H} {s s' : S} {v : UfVerdict} (ha : Answers hook h s v s') :
    v ≠ .again := by
  induction ha with
  | once _ hne => exact hne
  | again _ _ ih => exact ih

theorem Visit.ne_again {list : List H} {s s' : S} {v : UfVerdict} (hv : Visit hook list s v s') :
    v ≠ .again := by
  induction hv with
  | nil => exact nofun
  | accept _ _ ih => exact ih
  | stop ha _ => exact ha.ne_again

theorem ufVisitHook_iff {freebuf freed : Bool} {list : List H} {s s' : S} {ret : Int} :
    (∃ fuel, ufVisitHook hook freebuf fuel list s = some (ret, freed, s')) ↔
      (Visit hook list s .accept s' ∧ ret = 1 ∧ freed = false) ∨
      (Visit hook list s .drop s' ∧ ret = -1 ∧ freed = freebuf) ∨
      (Visit hook list s .stolen s' ∧ ret = 0 ∧ freed = false) := by
  constructor
  · rintro ⟨fuel,h⟩
    obtain ⟨⟨v,t⟩,hr,heq⟩ := Option.map_eq_some_iff.mp h
    obtain ⟨rfl,rfl,rfl⟩ : visitResult v = ret ∧ (v == .drop && freebuf) = freed ∧ t = s' := by
      simpa using heq
    have hv := visit_of_ufIterate hr
    cases v with
    | accept => exact Or.inl ⟨hv,rfl,rfl⟩
    | drop => exact Or.inr (Or.inl ⟨hv,rfl,rfl⟩)
    | stolen => exact Or.inr (Or.inr ⟨hv,rfl,rfl⟩)
    | again => exact absurd rfl hv.ne_again
  · rintro (⟨hv,rfl,rfl⟩ | ⟨hv,rfl,rfl⟩ | ⟨hv,rfl,rfl⟩)
    all_goals
      obtain ⟨fuel,hfuel⟩ := ufIterate_iff.mpr hv
      exact ⟨fuel,by rw [ufVisitHook,hfuel]; rfl⟩

end Visit

theorem hook_lists_sorted_and_visited {H S : Type} [DecidableEq H] (priority : H → Int)
    (hooknum : H → Nat) (s : State H) (h : Run (step priority hooknum) (fun _ _ => True) init s)
    (hook : H → UfHook → S → UfVerdict × S) (point : UfHook) :
    StableSorted priority (s.registered point) (s.lists point) ∧
    ∀ (freebuf freed : Bool) (w w' : S) (ret : Int),
      (∃ fuel, ufVisitHook (hook · point) freebuf fuel (s.lists point) w = some (ret, freed, w')) ↔
        (Visit (hook · point) (s.lists point) w .accept w' ∧ ret = 1 ∧ freed = false) ∨
        (Visit (hook · point) (s.lists point) w .drop w' ∧ ret = -1 ∧ freed = freebuf) ∨
        (Visit (hook · point) (s.lists point) w .stolen w' ∧ ret = 0 ∧ freed = false) := by
  have hinit : Ordered priority (init : State H) := fun _ => ⟨List.Pairwise.nil,fun _ => rfl⟩
  have hs : Ordered priority s := h.invariant (fun _ _ _ ht _ hstep => ht.step hstep) hinit
  exact ⟨hs point,fun _ _ _ _ _ => ufVisitHook_iff⟩

-- Handlers are their own priorities here; 3 asks for a repetition once, 7 drops the packet.
def replies (h : Nat) (_ : UfHook) (w : Nat) : UfVerdict × Nat :=
  if h = 7 then (.drop, w + 1) else if w = 0 then (.again, 1) else (.accept, w + 1)

theorem hook_lists_two_handlers : StableSorted (fun n : Nat => (n : Int)) [7, 3] [3, 7] ∧
    ∃ fuel, ufVisitHook (replies · .preRouting) true fuel [3, 7] 0 = some (-1, true, 3) := by
  obtain ⟨s,hs⟩ : ∃ s, exec (step (fun n : Nat => (n : Int)) fun _ => 0) init
    [.register 7 true,.register 5 true,.register 3 true,.unregister 5] = some s := ⟨_,rfl⟩
  have hrun := Run.of_exec hs (Meets.of_forall (fun _ _ => trivial) _ _)
  obtain ⟨hsorted,hvisit⟩ := hook_lists_sorted_and_visited _ _ s hrun replies .preRouting
  obtain rfl := Option.some.inj hs
  have hthree : Answers (replies · .preRouting) 3 0 .accept 2 := .again rfl (.once rfl (by decide))
  exact ⟨hsorted,(hvisit true true 0 3 (-1)).mpr (Or.inr (Or.inl
    ⟨.accept hthree (.stop (.once rfl (by decide)) (by decide)),rfl,rfl⟩))⟩

end ViewOS.Userfilter.Hooks
