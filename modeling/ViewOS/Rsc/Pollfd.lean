import Mathlib.Data.List.Perm.Basic
import ViewOS.Lib.Compact
import ViewOS.Lib.Run

namespace ViewOS.Rsc.Pollfd

open Transition

inductive Kind where
  | listening
  | reqResp
  | eventSub
  | subscribed
  deriving DecidableEq

-- key stands for the connection, descriptor and events of a subscription.
structure Entry where
  id : Nat
  kind : Kind
  key : Nat
  deriving DecidableEq

-- pollfd[i] and clients[i]: none is fd -1, and a client that is NULL.
structure Slot where
  pollfd : Option Entry
  client : Option Entry
  revents : Bool
  deriving DecidableEq

def empty : Slot := ⟨none, none, false⟩

inductive Phase where
  | idle
  | scan (i : Nat)
  | done
  deriving DecidableEq

-- live, next and hole are not in the program: hole is set by a deregistration below the last slot.
structure State where
  slots : List Slot
  nfds : Nat
  deleted : Bool
  phase : Phase
  live : List Entry
  next : Nat
  hole : Bool

def clientOf (e : Entry) : Option Entry := if e.kind = .listening then none else some e

def fillFirst (new : Slot) : List Slot → Option (List Slot)
  | [] => none
  | t :: slots =>
    if t.pollfd = none then some (new :: slots) else (fillFirst new slots).map (t :: ·)

-- none is a write outside of the array. A key that is none is one whose descriptor is -1: its slot
-- is counted and looks free.
def pollfdAdd (s : State) (kind : Kind) (key : Option Nat) : Option State :=
  let e : Entry := ⟨s.next, kind, key.getD 0⟩
  let new : Slot := ⟨key.map fun _ => e, clientOf e, false⟩
  let slots :=
    if s.slots.length ≤ s.nfds then
      some ((s.slots.take s.nfds ++
        List.replicate (s.slots.length + 10 - s.nfds) empty).set s.nfds new)
    else fillFirst new s.slots
  slots.map fun slots =>
    { s with slots := slots, nfds := s.nfds + 1, live := e :: s.live, next := s.next + 1 }

-- none is free_client(NULL).
def pollfdDel (s : State) (i : Nat) : Option State :=
  match s.slots[i]? with
  | none => some s
  | some t => t.client.map fun e =>
    { s with slots := s.slots.set i empty, nfds := s.nfds - 1, live := s.live.erase e }

def compactLoop : Nat → List Slot → Nat → Nat → List Slot
  | 0, slots, _, _ => slots
  | n + 1, slots, i, j =>
    match slots[i]? with
    | none => slots
    | some t =>
      if t.pollfd = none then compactLoop n slots (i + 1) j
      else compactLoop n (if j < i then (slots.set j t).set i empty else slots) (i + 1) (j + 1)

def pollfdCompact (slots : List Slot) : List Slot := compactLoop slots.length slots 0 0

def polled (nfds : Nat) (ready : Nat → Bool) : Nat → List Slot → List Slot
  | _, [] => []
  | i, t :: slots =>
    (if i < nfds then { t with revents := t.pollfd.isSome && ready i } else t) ::
      polled nfds ready (i + 1) slots

inductive Action where
  | close
  | accept (kind : Option Kind)
  | serve
  | register (key : Option Nat)
  | deregister (key : Nat)

def closeConnection (s : State) (i : Nat) : Option State :=
  (pollfdDel s i).map fun s => { s with deleted := true }

def subscription (key : Nat) (t : Slot) : Bool :=
  match t.pollfd, t.client with
  | some e, some c => c.kind = .subscribed && e.key = key
  | _, _ => false

def act (s : State) (i : Nat) (e : Entry) : Action → Option State
  | .close => closeConnection s i
  | .accept kind =>
    if e.kind = .listening then kind.elim (some s) fun kind => pollfdAdd s kind (some 0) else none
  | .serve => if e.kind = .listening then none else some s
  | .register key => if e.kind = .eventSub then pollfdAdd s .subscribed key else none
  | .deregister key =>
    if e.kind = .eventSub then
      match s.slots.findIdx? (subscription key) with
      | none => some s
      | some j => (pollfdDel s j).map fun t => { t with hole := s.hole || j + 1 != s.nfds }
    else none

inductive Op where
  | poll (ready : Option (Nat → Bool))
  | slot (a : Action) (brk : Bool)
  | finish

def serveSlot (s : State) (i : Nat) (a : Action) (brk : Bool) (t : Slot) : Option State :=
  if t.revents then
    (t.pollfd.bind fun e => act s i e a).map fun s =>
      { s with phase := if brk then .done else .scan (i + 1) }
  else some { s with phase := .scan (i + 1) }

def finish (s : State) : State :=
  { s with slots := if s.deleted then pollfdCompact s.slots else s.slots, phase := .idle }

def step (s : State) : Op → Option State
  | .poll ready =>
    if s.phase = .idle then
      some (ready.elim s fun ready => { s with
        slots := polled s.nfds ready 0 s.slots, phase := .scan 0, deleted := false, hole := false })
    else none
  | .slot a brk =>
    match s.phase with
    | .scan i => if i < s.nfds then s.slots[i]?.bind (serveSlot s i a brk) else none
    | _ => none
  | .finish =>
    match s.phase with
    | .scan i => if i < s.nfds then none else some (finish s)
    | .done => some (finish s)
    | .idle => none

def listenEntry (id : Nat) : Entry := ⟨id, .listening, 0⟩

def listenSlot (id : Nat) : Slot := ⟨some (listenEntry id), none, false⟩

def init : State where
  slots := listenSlot 0 :: listenSlot 1 :: List.replicate 8 empty
  nfds := 2
  deleted := false
  phase := .idle
  live := [listenEntry 1, listenEntry 0]
  next := 2
  hole := false

-- A round that deregisters below the last slot also closes a connection, and no descriptor that is
-- registered is -1.
def Repaired (s : State) : Op → Prop
  | .slot (.register key) _ => key ≠ none
  | .finish => s.hole = true → s.deleted = true
  | _ => True

def fds (slots : List Slot) : List (Option Entry) := slots.map Slot.pollfd

def Slot.Ok (t : Slot) : Prop :=
  (t.pollfd = none → t = empty) ∧ ∀ e, t.pollfd = some e → t.client = clientOf e

def Packed (slots : List Slot) : Prop :=
  (fds slots).Pairwise fun x y => x = none → y = none

structure Table (slots : List Slot) (nfds : Nat) (live : List Entry) : Prop where
  count : nfds = (fds slots).countP Option.isSome
  ok : ∀ t ∈ slots, t.Ok
  perm : ((fds slots).filterMap id).Perm live

section Table

variable {slots slots' a b rest : List Slot} {nfds i m : Nat} {live : List Entry} {t new : Slot}
  {e : Entry}

theorem ok_empty : empty.Ok := ⟨fun _ => rfl,fun _ h => absurd h (by simp [empty])⟩

theorem ok_new (e : Entry) : Slot.Ok ⟨some e, clientOf e, false⟩ :=
  ⟨fun h => absurd h (by simp),fun e' h => by rw [Option.some.inj h]⟩

theorem countP_fds_append : (fds (a ++ t :: b)).countP Option.isSome =
    (fds a).countP Option.isSome + ((if t.pollfd.isSome then 1 else 0) +
      (fds b).countP Option.isSome) := by
  simp only [fds,List.map_append,List.map_cons,List.countP_append,List.countP_cons]
  omega

theorem ok_set (h : ∀ x ∈ a ++ t :: b, x.Ok) (hnew : new.Ok) : ∀ x ∈ a ++ new :: b, x.Ok := by
  obtain ⟨ha,hb⟩ := List.forall_mem_append.mp h
  exact List.forall_mem_append.mpr ⟨ha,List.forall_mem_cons.mpr
    ⟨hnew,(List.forall_mem_cons.mp hb).2⟩⟩

theorem Table.put (h : Table (a ++ t :: b) nfds live) (ht : t.pollfd = none) (hnew : new.Ok)
    (he : new.pollfd = some e) : Table (a ++ new :: b) (nfds + 1) (e :: live) := by
  refine ⟨?_,ok_set h.ok hnew,?_⟩
  · rw [h.count,countP_fds_append,countP_fds_append,ht,he]
    simp only [Option.isSome_none,Option.isSome_some,Bool.false_eq_true,if_false,if_true]
    omega
  · have hperm := h.perm
    simp only [fds,List.map_append,List.map_cons,List.filterMap_append,ht,he,
      List.filterMap_cons,id] at hperm ⊢
    exact List.perm_middle.trans (hperm.cons e)

theorem Table.clear (h : Table (a ++ t :: b) nfds live) (ht : t.pollfd = some e) :
    Table (a ++ empty :: b) (nfds - 1) (live.erase e) := by
  refine ⟨?_,ok_set h.ok ok_empty,?_⟩
  · rw [h.count,countP_fds_append,countP_fds_append,ht,empty]
    simp only [Option.isSome_none,Option.isSome_some,Bool.false_eq_true,if_false,if_true]
    omega
  · have hperm := h.perm
    simp only [fds,List.map_append,List.map_cons,List.filterMap_append,ht,empty,
      List.filterMap_cons,id] at hperm ⊢
    have herase := (List.perm_middle.symm.trans hperm).erase e
    rwa [List.erase_cons_head] at herase

theorem Table.grow (h : Table slots nfds live) (m : Nat) :
    Table (slots ++ List.replicate m empty) nfds live := by
  refine ⟨?_,?_,?_⟩
  · rw [h.count]
    simp [fds,empty,List.countP_replicate]
  · intro x hx
    rcases List.mem_append.mp hx with hx | hx
    · exact h.ok x hx
    · rw [List.eq_of_mem_replicate hx]
      exact ok_empty
  · have hperm := h.perm
    simpa [fds,empty] using hperm

theorem fillFirst_eq_some (h : fillFirst new slots = some slots') :
    ∃ a t b, slots = a ++ t :: b ∧ t.pollfd = none ∧ slots' = a ++ new :: b ∧
      ∀ x ∈ a, x.pollfd ≠ none := by
  induction slots generalizing slots' with
  | nil => simp [fillFirst] at h
  | cons t slots ih =>
    rw [fillFirst] at h
    split at h
    · rename_i ht
      exact ⟨[],t,slots,rfl,ht,(Option.some.inj h).symm,by simp⟩
    · rename_i ht
      obtain ⟨slots'',hfill,rfl⟩ := Option.map_eq_some_iff.mp h
      obtain ⟨a,t',b,rfl,ht',rfl,ha⟩ := ih hfill
      refine ⟨t :: a,t',b,rfl,ht',rfl,fun x hx => ?_⟩
      rcases List.mem_cons.mp hx with rfl | hx
      · exact ht
      · exact ha x hx

theorem packed_append : Packed (a ++ t :: b) ↔ Packed a ∧ Packed b ∧
    (t.pollfd = none → ∀ x ∈ b, x.pollfd = none) ∧
      ∀ x ∈ a, x.pollfd = none → t.pollfd = none ∧ ∀ y ∈ b, y.pollfd = none := by
  simp only [Packed,fds,List.map_append,List.map_cons,List.pairwise_append,List.pairwise_cons,
    List.mem_map,List.mem_cons,forall_exists_index,and_imp,forall_apply_eq_imp_iff₂]
  constructor
  · rintro ⟨ha,⟨ht,hb⟩,hab⟩
    exact ⟨ha,hb,fun hnone x hx => ht x hx hnone,fun x hx hnone =>
      ⟨hab x hx _ (Or.inl rfl) hnone,fun y hy => hab x hx _ (Or.inr ⟨y,hy,rfl⟩) hnone⟩⟩
  · rintro ⟨ha,hb,ht,hab⟩
    refine ⟨ha,⟨fun x hx hnone => ht hnone x hx,hb⟩,fun x hx y hy hnone => ?_⟩
    rcases hy with rfl | ⟨y,hy,rfl⟩
    · exact (hab x hx hnone).1
    · exact (hab x hx hnone).2 y hy

theorem packed_grown (h : ∀ x ∈ slots, x.pollfd ≠ none) (m : Nat) :
    Packed (slots ++ List.replicate m empty) := by
  have hfree : ∀ y ∈ fds (List.replicate m empty), y = none := fun y hy => by
    obtain ⟨t,ht,rfl⟩ := List.mem_map.mp hy
    rw [List.eq_of_mem_replicate ht]
    rfl
  have htaken : ∀ x ∈ fds slots, x ≠ none := fun x hx => by
    obtain ⟨t,ht,rfl⟩ := List.mem_map.mp hx
    exact h t ht
  rw [Packed,fds,List.map_append]
  exact List.pairwise_append.mpr
    ⟨List.pairwise_of_forall_mem_list fun x hx _ _ hnone => absurd hnone (htaken x hx),
      List.pairwise_of_forall_mem_list fun _ _ y hy _ => hfree y hy,fun _ _ y hy _ => hfree y hy⟩

theorem Packed.put (h : Packed (a ++ t :: b))
    (ha : ∀ x ∈ a, x.pollfd ≠ none) (hnew : new.pollfd ≠ none) : Packed (a ++ new :: b) := by
  obtain ⟨h₁,h₂,-,-⟩ := packed_append.mp h
  exact packed_append.mpr ⟨h₁,h₂,fun hnone => absurd hnone hnew,fun x hx hnone =>
    absurd hnone (ha x hx)⟩

theorem countP_fds_le (slots : List Slot) : (fds slots).countP Option.isSome ≤ slots.length := by
  have hle := @List.countP_le_length _ Option.isSome (fds slots)
  rwa [fds,List.length_map] at hle

theorem countP_fds_eq_length : (fds slots).countP Option.isSome = slots.length ↔
    ∀ x ∈ slots, x.pollfd ≠ none := by
  have heq := List.countP_eq_length (p := Option.isSome) (l := fds slots)
  rw [fds,List.length_map] at heq
  rw [fds,heq]
  simp [Option.isSome_iff_ne_none]

theorem countP_fds_none (h : ∀ x ∈ slots, x.pollfd = none) :
    (fds slots).countP Option.isSome = 0 := by
  rw [List.countP_eq_zero]
  intro o ho
  obtain ⟨x,hx,rfl⟩ := List.mem_map.mp ho
  simp [h x hx]

theorem Packed.isSome_iff (h : Packed slots) (hcount : nfds = (fds slots).countP Option.isSome)
    (ht : slots[i]? = some t) : t.pollfd.isSome ↔ i < nfds := by
  obtain ⟨a,b,rfl,rfl,-⟩ := Compact.split_at ht
  obtain ⟨-,-,hb,ha⟩ := packed_append.mp h
  rw [hcount,countP_fds_append]
  cases hp : t.pollfd with
  | none =>
    have hle := countP_fds_le a
    rw [countP_fds_none (hb hp)]
    simp only [Option.isSome_none,Bool.false_eq_true,if_false,false_iff]
    omega
  | some e =>
    have hall : ∀ x ∈ a, x.pollfd ≠ none := fun x hx hnone =>
      absurd ((ha x hx hnone).1.symm.trans hp) (by simp)
    rw [countP_fds_eq_length.mpr hall]
    simp only [Option.isSome_some,if_true,true_iff]
    omega

theorem Packed.clear_last (h : Packed (a ++ t :: b)) (ht : t.pollfd = some e)
    (hlast : a.length + 1 = (fds (a ++ t :: b)).countP Option.isSome) :
    Packed (a ++ empty :: b) := by
  obtain ⟨h₁,h₂,-,ha⟩ := packed_append.mp h
  have hall : ∀ x ∈ a, x.pollfd ≠ none := fun x hx hnone =>
    absurd ((ha x hx hnone).1.symm.trans ht) (by simp)
  rw [countP_fds_append,countP_fds_eq_length.mpr hall,ht] at hlast
  have hzero : (fds b).countP Option.isSome = 0 := by
    simp only [Option.isSome_some,if_true] at hlast
    omega
  have hnone : ∀ x ∈ b, x.pollfd = none := by
    intro x hx
    have hx' := List.countP_eq_zero.mp hzero _ (List.mem_map_of_mem hx)
    simpa using hx'
  exact packed_append.mpr ⟨h₁,h₂,fun _ => hnone,fun x hx hx' => absurd hx' (hall x hx)⟩

theorem fds_polled (nfds : Nat) (ready : Nat → Bool) (i : Nat) (slots : List Slot) :
    fds (polled nfds ready i slots) = fds slots := by
  induction slots generalizing i with
  | nil => rfl
  | cons t slots ih =>
    have htail := ih (i + 1)
    simp only [fds,polled,List.map_cons] at htail ⊢
    rw [htail]
    split
    · rfl
    · rfl

theorem ok_polled {nfds : Nat} {ready : Nat → Bool} {i : Nat} (h : ∀ t ∈ slots, t.Ok) :
    ∀ t ∈ polled nfds ready i slots, t.Ok := by
  induction slots generalizing i with
  | nil => exact h
  | cons y slots ih =>
    obtain ⟨hy,hslots⟩ := List.forall_mem_cons.mp h
    refine List.forall_mem_cons.mpr ⟨?_,ih hslots⟩
    split
    · refine ⟨fun hnone => ?_,hy.2⟩
      obtain rfl := hy.1 hnone
      rfl
    · exact hy

theorem Table.polled (h : Table slots nfds live) (ready : Nat → Bool) :
    Table (polled nfds ready 0 slots) nfds live :=
  ⟨by rw [fds_polled]; exact h.count,ok_polled h.ok,by rw [fds_polled]; exact h.perm⟩

theorem compactLoop_eq (kept : List Slot) (m : Nat) (h : ∀ t ∈ rest, t.Ok) :
    compactLoop rest.length (kept ++ (List.replicate m empty ++ rest)) (kept.length + m)
      kept.length = kept ++ (rest.filter (·.pollfd.isSome) ++
        List.replicate (m + rest.countP (·.pollfd.isNone)) empty) := by
  induction rest generalizing kept m with
  | nil => simp [compactLoop]
  | cons t rest ih =>
    obtain ⟨ht,hrest⟩ := List.forall_mem_cons.mp h
    have hget : (kept ++ (List.replicate m empty ++ t :: rest))[kept.length + m]? = some t := by
      rw [List.getElem?_append_right (by omega),List.getElem?_append_right (by simp)]
      simp
    rw [List.length_cons,compactLoop,hget]
    dsimp only
    cases hp : t.pollfd with
    | none =>
      obtain rfl := ht.1 hp
      have hslots : kept ++ (List.replicate m empty ++ empty :: rest) =
          kept ++ (List.replicate (m + 1) empty ++ rest) := by
        rw [List.replicate_succ']
        simp
      rw [if_pos rfl,hslots,Nat.add_assoc,ih kept (m + 1) hrest]
      simp [hp]
      omega
    | some e =>
      have hslots : (if kept.length < kept.length + m then
          ((kept ++ (List.replicate m empty ++ t :: rest)).set kept.length t).set
            (kept.length + m) empty else kept ++ (List.replicate m empty ++ t :: rest)) =
          (kept ++ [t]) ++ (List.replicate m empty ++ rest) := by
        cases m with
        | zero => simp
        | succ m =>
          rw [if_pos (by omega),List.set_append_right _ _ (Nat.le_refl _),Nat.sub_self,
            List.replicate_succ,List.cons_append,List.set_cons_zero,
            List.set_append_right _ _ (by omega),Nat.add_sub_cancel_left,List.set_cons_succ,
            List.set_append_right _ _ (by simp),← List.replicate_succ,List.replicate_succ']
          simp
      have hnext := ih (kept ++ [t]) m hrest
      rw [List.length_append,List.length_singleton] at hnext
      rw [if_neg (by simp),hslots,Nat.add_right_comm,hnext]
      simp [hp]

theorem Table.taken (h : Table slots nfds live) :
    Table (slots.filter (·.pollfd.isSome)) nfds live := by
  have hfds : fds (slots.filter (·.pollfd.isSome)) = (fds slots).filter Option.isSome := by
    rw [fds,fds,List.filter_map]
    rfl
  refine ⟨?_,fun t ht => h.ok t (List.mem_of_mem_filter ht),?_⟩
  · rw [hfds,List.countP_filter,h.count]
    simp
  · rw [hfds,List.filterMap_filter]
    have hid : (fun x : Option Entry => if x.isSome = true then id x else none) = id := by
      funext x
      cases x with
      | none => rfl
      | some e => rfl
    rw [hid]
    exact h.perm

theorem Table.compact (h : Table slots nfds live) :
    Table (pollfdCompact slots) nfds live ∧ Packed (pollfdCompact slots) := by
  have heq := compactLoop_eq [] 0 h.ok
  simp only [List.length_nil,List.replicate_zero,List.nil_append,Nat.zero_add] at heq
  rw [pollfdCompact,heq]
  exact ⟨h.taken.grow _,packed_grown (fun x hx =>
    Option.isSome_iff_ne_none.mp (List.mem_filter.mp hx).2) _⟩

theorem Table.mem_live (h : Table slots nfds live) : e ∈ live ↔ ∃ (i : Nat) (t : Slot),
    slots[i]? = some t ∧ t.pollfd = some e := by
  rw [← h.perm.mem_iff]
  simp only [fds,List.mem_filterMap,List.mem_map,id]
  constructor
  · rintro ⟨o,⟨t,ht,rfl⟩,he⟩
    obtain ⟨i,hi⟩ := List.getElem?_of_mem ht
    exact ⟨i,t,hi,he⟩
  · rintro ⟨i,t,hi,he⟩
    exact ⟨_,⟨t,List.mem_of_getElem? hi,rfl⟩,he⟩

theorem Slot.Ok.client_eq (h : t.Ok) : t.client = t.pollfd.bind clientOf := by
  cases hp : t.pollfd with
  | none =>
    rw [h.1 hp]
    rfl
  | some e => exact h.2 e hp

theorem Slot.Ok.taken (h : t.Ok) (hrev : t.revents = true) : ∃ e, t.pollfd = some e := by
  cases hp : t.pollfd with
  | none => simp [h.1 hp,empty] at hrev
  | some e => exact ⟨e,rfl⟩

end Table

structure Inv (s : State) : Prop where
  table : Table s.slots s.nfds s.live
  fresh : ∀ e ∈ s.live, e.id < s.next
  nodup : s.live.Nodup
  packed : s.deleted = true ∨ s.hole = true ∨ Packed s.slots
  idle : s.phase = .idle → Packed s.slots

section Steps

variable {s t : State} {kind : Kind} {key i : Nat} {e : Entry} {o : Op} {ac : Action}

structure Moved (s t : State) : Prop where
  table : Table t.slots t.nfds t.live
  packed : s.deleted = true ∨ s.hole = true ∨ Packed s.slots →
    t.deleted = true ∨ t.hole = true ∨ Packed t.slots
  fresh : s.next ≤ t.next
  live : ∀ e ∈ t.live, e ∈ s.live ∨ s.next ≤ e.id ∧ e.id < t.next
  nodup : s.live.Nodup → (∀ e ∈ s.live, e.id < s.next) → t.live.Nodup

theorem Moved.refl (h : Inv s) : Moved s s :=
  ⟨h.table,fun hp => hp,Nat.le_refl _,fun _ he => Or.inl he,fun hn _ => hn⟩

theorem pollfdAdd_moved (h : Table s.slots s.nfds s.live) (hadd : pollfdAdd s kind (some key) = some t) :
    Moved s t := by
  rw [pollfdAdd] at hadd
  obtain ⟨slots,hslots,rfl⟩ := Option.map_eq_some_iff.mp hadd
  have hle := countP_fds_le s.slots
  obtain ⟨a,x,b,hx,hgrown,hpacked,ha,rfl⟩ : ∃ a x b, x.pollfd = none ∧
      Table (a ++ x :: b) s.nfds s.live ∧ (Packed s.slots → Packed (a ++ x :: b)) ∧
      (∀ y ∈ a, y.pollfd ≠ none) ∧
      slots = a ++ ⟨some ⟨s.next, kind, key⟩, clientOf ⟨s.next, kind, key⟩, false⟩ :: b := by
    split at hslots
    · rename_i hfull
      have hcount := h.count
      have hnfds : s.nfds = s.slots.length := by omega
      have hall := countP_fds_eq_length.mp (hcount.symm.trans hnfds)
      have hroom : s.slots.length + 10 - s.slots.length = 9 + 1 := by omega
      refine ⟨s.slots,empty,List.replicate 9 empty,rfl,h.grow 10,fun _ => packed_grown hall 10,
        hall,?_⟩
      rw [← Option.some.inj hslots,hnfds,List.take_length,hroom,List.replicate_succ,
        List.set_append_right _ _ (Nat.le_refl _),Nat.sub_self,List.set_cons_zero]
      rfl
    · obtain ⟨a,x,b,hs,hx,rfl,ha⟩ := fillFirst_eq_some hslots
      rw [hs] at h ⊢
      exact ⟨a,x,b,hx,h,fun hp => hp,ha,rfl⟩
  refine ⟨hgrown.put hx (ok_new _) rfl,?_,Nat.le_succ _,fun e he => ?_,fun hn hfresh => ?_⟩
  · exact Or.imp_right (Or.imp_right fun hp => (hpacked hp).put ha (by simp))
  · rcases List.mem_cons.mp he with rfl | he
    · exact Or.inr ⟨Nat.le_refl _,Nat.lt_succ_self _⟩
    · exact Or.inl he
  · exact List.nodup_cons.mpr ⟨fun hmem => absurd (hfresh _ hmem) (Nat.lt_irrefl _),hn⟩

theorem pollfdDel_eq_some (h : Table s.slots s.nfds s.live) (hdel : pollfdDel s i = some t) :
    t = s ∨ ∃ a x b e, s.slots = a ++ x :: b ∧ a.length = i ∧ x.pollfd = some e ∧
      t = { s with slots := a ++ empty :: b, nfds := s.nfds - 1, live := s.live.erase e } := by
  rw [pollfdDel] at hdel
  cases hx : s.slots[i]? with
  | none =>
    rw [hx] at hdel
    exact Or.inl (Option.some.inj hdel).symm
  | some x =>
    rw [hx] at hdel
    obtain ⟨e,he,rfl⟩ := Option.map_eq_some_iff.mp hdel
    obtain ⟨a,b,hs,hlen,hset⟩ := Compact.split_at hx
    have hok := h.ok x (List.mem_of_getElem? hx)
    obtain ⟨e',hp,hclient⟩ := Option.bind_eq_some_iff.mp (hok.client_eq.symm.trans he)
    rw [clientOf] at hclient
    split at hclient
    · exact absurd hclient (by simp)
    · exact Or.inr ⟨a,x,b,e,hs,hlen,hp.trans hclient,by rw [hset]⟩

theorem pollfdDel_flags (h : Table s.slots s.nfds s.live) (hdel : pollfdDel s i = some t) :
    t.deleted = s.deleted ∧ t.hole = s.hole := by
  rcases pollfdDel_eq_some h hdel with rfl | ⟨a,x,b,e,-,-,-,rfl⟩
  · exact ⟨rfl,rfl⟩
  · exact ⟨rfl,rfl⟩

theorem pollfdDel_moved (h : Table s.slots s.nfds s.live) (hdel : pollfdDel s i = some t)
    (deleted hole : Bool) (hd : s.deleted = true → deleted = true)
    (hh : s.hole = true → hole = true) (hp : deleted = true ∨ hole = true ∨ i + 1 = s.nfds) :
    Moved s { t with deleted := deleted, hole := hole } := by
  rcases pollfdDel_eq_some h hdel with rfl | ⟨a,x,b,e,hs,rfl,hx,rfl⟩
  · exact ⟨h,Or.imp hd (Or.imp_left hh),Nat.le_refl _,fun _ he => Or.inl he,fun hn _ => hn⟩
  · refine ⟨(hs ▸ h).clear hx,fun hpacked => ?_,Nat.le_refl _,
      fun _ he => Or.inl (List.mem_of_mem_erase he),fun hn _ => hn.erase e⟩
    rcases hp with hp | hp | hp
    · exact Or.inl hp
    · exact Or.inr (Or.inl hp)
    · refine (hpacked.imp hd (Or.imp hh fun hpack => ?_))
      have hcount := h.count
      rw [hs] at hpack hcount
      exact hpack.clear_last hx (hp.trans hcount)

theorem act_moved (h : Inv s) (hfd : ac ≠ .register none) (hact : act s i e ac = some t) :
    Moved s t := by
  cases ac with
  | close =>
    obtain ⟨u,hu,rfl⟩ := Option.map_eq_some_iff.mp hact
    have hm := pollfdDel_moved h.table hu true s.hole (fun _ => rfl) (fun hs => hs) (Or.inl rfl)
    rwa [← (pollfdDel_flags h.table hu).2] at hm
  | accept kind =>
    rw [act] at hact
    split at hact
    · cases kind with
      | none =>
        obtain rfl := Option.some.inj hact
        exact Moved.refl h
      | some kind => exact pollfdAdd_moved h.table hact
    · exact absurd hact (by simp)
  | serve =>
    rw [act] at hact
    split at hact
    · exact absurd hact (by simp)
    · obtain rfl := Option.some.inj hact
      exact Moved.refl h
  | register key =>
    obtain ⟨key,rfl⟩ := Option.ne_none_iff_exists'.mp fun hkey => hfd (congrArg Action.register hkey)
    rw [act] at hact
    split at hact
    · exact pollfdAdd_moved h.table hact
    · exact absurd hact (by simp)
  | deregister key =>
    rw [act] at hact
    split at hact
    · split at hact
      · obtain rfl := Option.some.inj hact
        exact Moved.refl h
      · rename_i j _
        obtain ⟨u,hu,rfl⟩ := Option.map_eq_some_iff.mp hact
        have hm := pollfdDel_moved h.table hu s.deleted (s.hole || j + 1 != s.nfds)
          (fun hs => hs) (fun hs => by simp [hs]) (by
            rcases eq_or_ne (j + 1) s.nfds with heq | hne
            · exact Or.inr (Or.inr heq)
            · exact Or.inr (Or.inl (by simp [hne])))
        rwa [← (pollfdDel_flags h.table hu).1] at hm
    · exact absurd hact (by simp)

theorem Moved.inv (h : Inv s) (hm : Moved s t) {phase : Phase} (hphase : phase ≠ .idle) :
    Inv { t with phase := phase } := by
  refine ⟨hm.table,fun e he => ?_,hm.nodup h.nodup h.fresh,hm.packed h.packed,
    fun hidle => absurd hidle hphase⟩
  rcases hm.live e he with hold | hnew
  · exact Nat.lt_of_lt_of_le (h.fresh e hold) hm.fresh
  · exact hnew.2

theorem serveSlot_inv {brk : Bool} {x : Slot} (h : Inv s) (hfd : ac ≠ .register none)
    (hst : serveSlot s i ac brk x = some t) :
    Inv t ∧ s.next ≤ t.next ∧ ∀ e ∈ t.live, e ∈ s.live ∨ s.next ≤ e.id := by
  rw [serveSlot] at hst
  split at hst
  · obtain ⟨u,hu,rfl⟩ := Option.map_eq_some_iff.mp hst
    obtain ⟨e,-,hact⟩ := Option.bind_eq_some_iff.mp hu
    have hm := act_moved h hfd hact
    refine ⟨hm.inv h ?_,hm.fresh,fun e he => (hm.live e he).imp_right And.left⟩
    cases brk with
    | true => exact Phase.noConfusion
    | false => exact Phase.noConfusion
  · obtain rfl := Option.some.inj hst
    exact ⟨(Moved.refl h).inv h Phase.noConfusion,Nat.le_refl _,fun _ he => Or.inl he⟩

theorem finish_inv (h : Inv s) (hok : s.hole = true → s.deleted = true) : Inv (finish s) := by
  cases hd : s.deleted with
  | true =>
    obtain ⟨htable,hpacked⟩ := h.table.compact
    refine ⟨?_,h.fresh,h.nodup,Or.inl hd,fun _ => ?_⟩
    · rw [finish,if_pos hd]
      exact htable
    · rw [finish,if_pos hd]
      exact hpacked
  | false =>
    have hpacked : Packed s.slots := by
      rcases h.packed with hp | hp | hp
      · exact absurd (hd.symm.trans hp) (by simp)
      · exact absurd (hd.symm.trans (hok hp)) (by simp)
      · exact hp
    have hslots : (finish s).slots = s.slots := by rw [finish,hd]; rfl
    refine ⟨hslots ▸ h.table,h.fresh,h.nodup,?_,fun _ => hslots ▸ hpacked⟩
    exact Or.inr (Or.inr (hslots ▸ hpacked))

theorem Inv.step (h : Inv s) (hok : Repaired s o) (hst : step s o = some t) :
    Inv t ∧ s.next ≤ t.next ∧ ∀ e ∈ t.live, e ∈ s.live ∨ s.next ≤ e.id := by
  cases o with
  | poll ready =>
    rw [Pollfd.step] at hst
    split at hst
    · rename_i hidle
      obtain rfl := Option.some.inj hst
      cases ready with
      | none => exact ⟨h,Nat.le_refl _,fun _ he => Or.inl he⟩
      | some ready =>
        have hpacked : Packed (polled s.nfds ready 0 s.slots) := by
          rw [Packed,fds_polled]
          exact h.idle hidle
        exact ⟨⟨h.table.polled ready,h.fresh,h.nodup,Or.inr (Or.inr hpacked),Phase.noConfusion⟩,
          Nat.le_refl _,fun _ he => Or.inl he⟩
    · exact absurd hst (by simp)
  | slot a brk =>
    rw [Pollfd.step] at hst
    split at hst
    · split at hst
      · obtain ⟨x,-,hserve⟩ := Option.bind_eq_some_iff.mp hst
        exact serveSlot_inv h (fun heq => by subst heq; exact hok rfl) hserve
      · exact absurd hst (by simp)
    · exact absurd hst (by simp)
  | finish =>
    have hfin : t = Pollfd.finish s := by
      rw [Pollfd.step] at hst
      split at hst
      · split at hst
        · exact absurd hst (by simp)
        · exact (Option.some.inj hst).symm
      · exact (Option.some.inj hst).symm
      · exact absurd hst (by simp)
    rw [hfin]
    exact ⟨finish_inv h hok,Nat.le_refl _,fun _ he => Or.inl he⟩

theorem inv_init : Inv init := by
  have hpacked : Packed init.slots := by
    rw [Packed]
    decide
  refine ⟨⟨by decide,fun t ht => ?_,List.Perm.swap ..⟩,by decide,by decide,
    Or.inr (Or.inr hpacked),fun _ => hpacked⟩
  rcases List.mem_cons.mp ht with rfl | ht
  · exact ok_new (listenEntry 0)
  · rcases List.mem_cons.mp ht with rfl | ht
    · exact ok_new (listenEntry 1)
    · rw [List.eq_of_mem_replicate ht]
      exact ok_empty

theorem inv_run (hrun : Run step Repaired init s) : Inv s :=
  hrun.invariant (fun _ _ _ h hok hst => (h.step hok hst).1) inv_init

theorem dead_run (h : Inv s) (hrun : Run step Repaired s t) (he : e.id < s.next)
    (hdead : e ∉ s.live) : e ∉ t.live := by
  have hall : Inv t ∧ s.next ≤ t.next ∧ e ∉ t.live := by
    refine hrun.invariant (I := fun t => Inv t ∧ s.next ≤ t.next ∧ e ∉ t.live) ?_
      ⟨h,Nat.le_refl _,hdead⟩
    rintro u o v ⟨hu,hle,hnot⟩ hok hst
    obtain ⟨hv,hle',hlive⟩ := hu.step hok hst
    refine ⟨hv,Nat.le_trans hle hle',fun hmem => ?_⟩
    rcases hlive e hmem with hold | hnew
    · exact hnot hold
    · omega
  exact hall.2.2

end Steps

theorem pollfd_table_exact {s : State} (hrun : Run step Repaired init s) :
    (s.phase = .idle →
      (∀ i t, s.slots[i]? = some t → (t.pollfd.isSome ↔ i < s.nfds)) ∧
      ∀ e, e ∈ s.live ↔ ∃ i t, i < s.nfds ∧ s.slots[i]? = some t ∧ t.pollfd = some e) ∧
    (∀ (i : Nat) (t : Slot), s.slots[i]? = some t → t.client = t.pollfd.bind clientOf) ∧
    (∀ (i : Nat) (t : Slot), s.slots[i]? = some t → t.revents = true →
      ∃ e ∈ s.live, t.pollfd = some e) ∧
    ∀ e t, e.id < s.next → e ∉ s.live → Run step Repaired s t → e ∉ t.live := by
  have h := inv_run hrun
  have hok (i : Nat) (t : Slot) (ht : s.slots[i]? = some t) : t.Ok :=
    h.table.ok t (List.mem_of_getElem? ht)
  refine ⟨fun hidle => ?_,fun i t ht => (hok i t ht).client_eq,fun i t ht hrev => ?_,
    fun e t he hdead hrun' => dead_run h hrun' he hdead⟩
  · have hiff (i : Nat) (t : Slot) (ht : s.slots[i]? = some t) : t.pollfd.isSome ↔ i < s.nfds :=
      (h.idle hidle).isSome_iff h.table.count ht
    refine ⟨hiff,fun e => ?_⟩
    rw [h.table.mem_live]
    constructor
    · rintro ⟨i,t,ht,he⟩
      exact ⟨i,t,(hiff i t ht).mp (by rw [he]; rfl),ht,he⟩
    · rintro ⟨i,t,-,ht,he⟩
      exact ⟨i,t,ht,he⟩
  · obtain ⟨e,he⟩ := (hok i t ht).taken hrev
    exact ⟨e,h.table.mem_live.mpr ⟨i,t,ht,he⟩,he⟩

def round (i : Nat) (a : Action) : List Op :=
  .poll (some (· == i)) :: List.replicate i (.slot .serve false) ++ [.slot a true, .finish]

def subscribing : List Op :=
  round 1 (.accept (some .eventSub)) ++ round 2 (.register (some 7)) ++ round 2 (.register (some 8))

instance (s : State) : (o : Op) → Decidable (Repaired s o)
  | .slot (.register key) _ => inferInstanceAs (Decidable (key ≠ none))
  | .finish => inferInstanceAs (Decidable (s.hole = true → s.deleted = true))
  | .poll _ => .isTrue trivial
  | .slot .close _ | .slot (.accept _) _ | .slot .serve _ | .slot (.deregister _) _ => .isTrue trivial

theorem pollfd_table_exact_accepted : ∃ s, Run step Repaired init s ∧ s.nfds = 4 ∧
    ∀ (i : Nat) (t : Slot), s.slots[i]? = some t → (t.pollfd.isSome ↔ i < s.nfds) := by
  have hexec : exec step init (subscribing ++ round 2 (.deregister 8)) = some _ := rfl
  have hrun := Run.of_exec hexec (by decide : Meets step Repaired _ _)
  exact ⟨_,hrun,rfl,((pollfd_table_exact hrun).1 rfl).1⟩

theorem deregistered_unpolled : ¬∀ s, Run step (fun _ _ => True) init s → s.phase = .idle →
    ∀ (i : Nat) (t : Slot), s.slots[i]? = some t → (t.pollfd.isSome ↔ i < s.nfds) := by
  intro h
  have hexec : exec step init (subscribing ++ round 2 (.deregister 7)) = some _ := rfl
  have hrun := Run.of_exec hexec (Meets.of_forall (fun _ _ => trivial) _ _)
  have hslot := h _ hrun rfl 4 _ rfl
  exact absurd hslot (by decide)

end ViewOS.Rsc.Pollfd
