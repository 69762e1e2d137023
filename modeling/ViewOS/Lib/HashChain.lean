import Mathlib.Data.List.Nodup

namespace HashChain

inductive Ref (β α : Type*) where
  | head (b : β)
  | link (a : α)
  deriving DecidableEq

structure Heap (β α : Type*) where
  heads : β → Option α
  next : α → Option α
  pprev : α → Ref β α

variable {α β : Type*}

def Heap.get (m : Heap β α) : Ref β α → Option α
  | .head b => m.heads b
  | .link a => m.next a

section Update

variable [DecidableEq α] [DecidableEq β]

def Heap.set (m : Heap β α) (r : Ref β α) (v : Option α) : Heap β α :=
  match r with
  | .head b => { m with heads := Function.update m.heads b v }
  | .link a => { m with next := Function.update m.next a v }

def Heap.setBack (m : Heap β α) (a : Option α) (r : Ref β α) : Heap β α :=
  match a with
  | none => m
  | some a => { m with pprev := Function.update m.pprev a r }

def Heap.push (m : Heap β α) (b : β) (a : α) : Heap β α :=
  let m := m.setBack (m.heads b) (.link a)
  let m := m.set (.link a) (m.heads b)
  let m := m.setBack (some a) (.head b)
  m.set (.head b) (some a)

def Heap.unlink (m : Heap β α) (a : α) : Heap β α :=
  let m := m.set (m.pprev a) (m.next a)
  m.setBack (m.next a) (m.pprev a)

end Update

def Chain (m : Heap β α) : Ref β α → List α → Prop
  | r, [] => m.get r = none
  | r, a :: l => m.get r = some a ∧ m.pprev a = r ∧ Chain m (.link a) l

theorem Chain.congr {m n : Heap β α} {r : Ref β α} {l : List α} (h : Chain m r l)
    (hr : n.get r = m.get r) (hl : ∀ x ∈ l, n.next x = m.next x ∧ n.pprev x = m.pprev x) :
    Chain n r l := by
  induction l generalizing r with
  | nil => exact hr.trans h
  | cons a l ih =>
    obtain ⟨h1,h2,h3⟩ := h
    obtain ⟨hn,hp⟩ := hl a (by simp)
    exact ⟨hr.trans h1,hp.trans h2,ih h3 hn fun x hx => hl x (List.mem_cons_of_mem _ hx)⟩

theorem Chain.back {m : Heap β α} {r : Ref β α} {l s : List α} {a : α}
    (h : Chain m r (l ++ a :: s)) :
    m.get (m.pprev a) = some a ∧ m.next a = s.head? ∧
      m.pprev a = (l.getLast?).elim r .link := by
  induction l generalizing r with
  | nil =>
    obtain ⟨h1,h2,h3⟩ := h
    refine ⟨h2 ▸ h1,?_,h2⟩
    cases s with
    | nil => exact h3
    | cons c s => exact h3.1
  | cons x l ih =>
    obtain ⟨e1,e2,e3⟩ := ih h.2.2
    refine ⟨e1,e2,e3.trans ?_⟩
    cases l with
    | nil => rfl
    | cons y l => simp [List.getLast?_cons]

theorem Chain.pprev_ne_link {m : Heap β α} {r : Ref β α} {l s : List α} {a : α} (h : Chain m r (l ++ a :: s))
    (hn : (l ++ a :: s).Nodup) (hr : ∀ x ∈ l ++ a :: s, r ≠ .link x) :
    ∀ x ∈ a :: s, m.pprev a ≠ .link x := by
  intro x hx
  rw [h.back.2.2]
  rcases hl : l.getLast? with _ | z
  · exact hr x (by simp_all)
  · intro e
    obtain rfl : z = x := by simpa using e
    exact (List.nodup_append'.mp hn).2.2 (List.mem_of_getLast? hl) hx

structure Buckets (m : Heap β α) (row : β → List α) : Prop where
  chain : ∀ b, Chain m (.head b) (row b)
  nodup : ∀ b, (row b).Nodup
  apart : ∀ b c a, a ∈ row b → a ∈ row c → b = c

theorem Buckets.points_back {m : Heap β α} {row : β → List α} (h : Buckets m row) {a : α}
    {b : β} (ha : a ∈ row b) : m.get (m.pprev a) = some a := by
  obtain ⟨l,s,e⟩ := List.append_of_mem ha
  have hc := h.chain b
  rw [e] at hc
  exact hc.back.1

section Operations

variable [DecidableEq α] {m : Heap β α}

@[simp] theorem Heap.get_setBack (a : Option α) (r : Ref β α) : (m.setBack a r).get = m.get := by
  cases a <;> funext q <;> cases q <;> rfl

theorem Heap.pprev_setBack_of_ne {a : Option α} {x : α} (r : Ref β α) (h : a ≠ some x) :
    (m.setBack a r).pprev x = m.pprev x := by
  cases a with
  | none => rfl
  | some a =>
    have hx : x ≠ a := fun e => h (by rw [e])
    simp [Heap.setBack,hx]

@[simp] theorem Heap.pprev_setBack (a : α) (r : Ref β α) :
    (m.setBack (some a) r).pprev a = r := by
  simp [Heap.setBack]

variable [DecidableEq β]

@[simp] theorem Heap.get_set (r : Ref β α) (v : Option α) : (m.set r v).get r = v := by
  cases r <;> simp [Heap.set,Heap.get]

theorem Heap.get_set_of_ne {r q : Ref β α} (v : Option α) (h : q ≠ r) :
    (m.set r v).get q = m.get q := by
  cases r <;> cases q <;> simp_all [Heap.set,Heap.get]

@[simp] theorem Heap.pprev_set (r : Ref β α) (v : Option α) : (m.set r v).pprev = m.pprev := by
  cases r <;> rfl

@[simp] theorem Heap.get_push_head (b : β) (a : α) : (m.push b a).get (.head b) = some a := by
  simp [Heap.push]

@[simp] theorem Heap.get_push_link (b : β) (a : α) : (m.push b a).get (.link a) = m.heads b := by
  have h : (Ref.link a : Ref β α) ≠ .head b := by simp
  simp only [Heap.push,Heap.get_set_of_ne _ h,Heap.get_setBack,Heap.get_set]
  exact congrFun (Heap.get_setBack _ _) (.head b)

theorem Heap.get_push_of_ne {b : β} {a : α} {r : Ref β α} (hb : r ≠ .head b) (ha : r ≠ .link a) :
    (m.push b a).get r = m.get r := by
  simp only [Heap.push,Heap.get_set_of_ne _ hb,Heap.get_setBack,Heap.get_set_of_ne _ ha]

@[simp] theorem Heap.pprev_push (b : β) (a : α) : (m.push b a).pprev a = .head b := by
  simp [Heap.push]

theorem Heap.pprev_push_head {b : β} {a c : α} (hc : m.heads b = some c) (h : c ≠ a) :
    (m.push b a).pprev c = .link a := by
  simp [Heap.push,Heap.pprev_setBack_of_ne _ (fun e => h (Option.some.inj e).symm),hc]

theorem Heap.pprev_push_of_ne {b : β} {a x : α} (hc : m.heads b ≠ some x) (h : x ≠ a) :
    (m.push b a).pprev x = m.pprev x := by
  simp [Heap.push,Heap.pprev_setBack_of_ne _ (fun e => h (Option.some.inj e).symm),
    Heap.pprev_setBack_of_ne _ hc]

theorem Heap.get_unlink_pprev (a : α) : (m.unlink a).get (m.pprev a) = m.next a := by
  simp [Heap.unlink]

theorem Heap.get_unlink_of_ne {a : α} {r : Ref β α} (h : r ≠ m.pprev a) :
    (m.unlink a).get r = m.get r := by
  simp [Heap.unlink,Heap.get_set_of_ne _ h]

theorem Heap.pprev_unlink_next {a c : α} (ha : m.pprev a ≠ .link a) (hc : m.next a = some c) :
    (m.unlink a).pprev c = m.pprev a := by
  have e : (m.set (m.pprev a) (m.next a)).next a = some c :=
    (Heap.get_set_of_ne (m := m) (m.next a) ha.symm).trans hc
  simp [Heap.unlink,e]

theorem Heap.pprev_unlink_of_ne {a x : α} (ha : m.pprev a ≠ .link a) (hx : m.next a ≠ some x) :
    (m.unlink a).pprev x = m.pprev x := by
  have e : (m.set (m.pprev a) (m.next a)).next a = m.next a :=
    Heap.get_set_of_ne (m := m) (m.next a) ha.symm
  simp [Heap.unlink,e,Heap.pprev_setBack_of_ne _ hx]

theorem Chain.push {b : β} {a : α} {l : List α} (h : Chain m (.head b) l) (hl : l.Nodup)
    (ha : a ∉ l) : Chain (m.push b a) (.head b) (a :: l) := by
  refine ⟨Heap.get_push_head b a,Heap.pprev_push b a,?_⟩
  cases l with
  | nil => exact (Heap.get_push_link b a).trans h
  | cons c l =>
    obtain ⟨h1,_,h3⟩ := h
    obtain ⟨hc,hl⟩ := List.nodup_cons.mp hl
    have hne : ∀ x ∈ c :: l, x ≠ a := fun x hx e => ha (e ▸ hx)
    have hnext : ∀ x ∈ c :: l, (m.push b a).next x = m.next x := fun x hx =>
      Heap.get_push_of_ne (r := .link x) (by simp) (by simpa using hne x hx)
    refine ⟨(Heap.get_push_link b a).trans h1,
      Heap.pprev_push_head h1 (hne c (by simp)),h3.congr (hnext c (by simp)) fun x hx => ?_⟩
    refine ⟨hnext x (List.mem_cons_of_mem _ hx),
      Heap.pprev_push_of_ne ?_ (hne x (List.mem_cons_of_mem _ hx))⟩
    intro e
    exact hc (Option.some.inj (h1.symm.trans e) ▸ hx)

theorem Chain.push_other {b c : β} {a : α} {l : List α} (h : Chain m (.head c) l) (hbc : c ≠ b)
    (ha : a ∉ l) (hb : ∀ x ∈ m.heads b, x ∉ l) : Chain (m.push b a) (.head c) l := by
  refine h.congr (Heap.get_push_of_ne (by simpa using hbc) (by simp)) fun x hx => ?_
  have hxa : x ≠ a := fun e => ha (e ▸ hx)
  exact ⟨Heap.get_push_of_ne (r := .link x) (by simp) (by simpa using hxa),
    Heap.pprev_push_of_ne (fun e => hb x e hx) hxa⟩

theorem Chain.unlink {r : Ref β α} {l s : List α} {a : α} (h : Chain m r (l ++ a :: s))
    (hn : (l ++ a :: s).Nodup) (hr : ∀ x ∈ l ++ a :: s, r ≠ .link x) :
    Chain (m.unlink a) r (l ++ s) := by
  have hlink := h.pprev_ne_link hn hr
  have hself : m.pprev a ≠ .link a := hlink a (by simp)
  obtain ⟨_,hnext,hprev⟩ := h.back
  induction l generalizing r with
  | nil =>
    obtain ⟨_,rfl,h3⟩ := h
    cases s with
    | nil => exact (Heap.get_unlink_pprev a).trans h3
    | cons c s =>
      have hcs : c ∉ s := (List.nodup_cons.mp (List.nodup_cons.mp hn).2).1
      have hkeep : ∀ x ∈ c :: s, (m.unlink a).next x = m.next x := fun x hx =>
        Heap.get_unlink_of_ne (r := .link x) (hlink x (List.mem_cons_of_mem _ hx)).symm
      refine ⟨(Heap.get_unlink_pprev a).trans h3.1,Heap.pprev_unlink_next hself h3.1,
        h3.2.2.congr (hkeep c (by simp)) fun x hx => ⟨hkeep x (by simp [hx]),?_⟩⟩
      refine Heap.pprev_unlink_of_ne hself fun e => hcs ?_
      exact Option.some.inj (h3.1.symm.trans e) ▸ hx
  | cons x l ih =>
    obtain ⟨h1,h2,h3⟩ := h
    have hx : x ∉ l ++ a :: s := (List.nodup_cons.mp hn).1
    have hrp : r ≠ m.pprev a := by
      rw [hprev,List.getLast?_cons]
      exact hr _ (by
        rcases hl : l.getLast? with _ | z
        · simp
        · simpa using Or.inr (Or.inl (List.mem_of_getLast? hl)))
    refine ⟨(Heap.get_unlink_of_ne hrp).trans h1,?_,ih h3 (List.nodup_cons.mp hn).2 ?_ ?_⟩
    · refine (Heap.pprev_unlink_of_ne hself fun e => hx ?_).trans h2
      have hs : s.head? = some x := hnext.symm.trans e
      simpa using Or.inr (Or.inr (List.mem_of_head? hs))
    · intro y hy e
      exact hx (Ref.link.inj e ▸ hy)
    · exact h3.back.2.2

theorem Chain.unlink_other {b c : β} {l s t : List α} {a : α}
    (h : Chain m (.head b) (l ++ a :: s)) (hn : (l ++ a :: s).Nodup) (ht : Chain m (.head c) t)
    (hbc : c ≠ b) (hd : ∀ x ∈ t, x ∉ l ++ a :: s) : Chain (m.unlink a) (.head c) t := by
  have hself : m.pprev a ≠ .link a := h.pprev_ne_link hn (by simp) a (by simp)
  obtain ⟨_,hnext,hprev⟩ := h.back
  refine ht.congr (Heap.get_unlink_of_ne ?_) fun x hx => ⟨?_,?_⟩
  · rw [hprev]
    cases l.getLast? <;> simp [hbc]
  · refine Heap.get_unlink_of_ne (r := .link x) ?_
    rw [hprev]
    rcases hl : l.getLast? with _ | z
    · simp
    · intro e
      obtain rfl : x = z := by simpa using e
      exact hd x hx (List.mem_append_left _ (List.mem_of_getLast? hl))
  · refine Heap.pprev_unlink_of_ne hself fun e => hd x hx ?_
    have hs : s.head? = some x := hnext.symm.trans e
    exact List.mem_append_right _ (List.mem_cons_of_mem _ (List.mem_of_head? hs))

theorem Buckets.push {row : β → List α} (h : Buckets m row) {b : β} {a : α}
    (ha : ∀ c, a ∉ row c) : Buckets (m.push b a) (Function.update row b (a :: row b)) := by
  have hmem : ∀ c x, x ∈ Function.update row b (a :: row b) c ↔ (x ∈ row c ∨ x = a ∧ c = b) := by
    intro c x
    by_cases hc : c = b
    · subst hc
      simp [or_comm]
    · simp [hc]
  refine ⟨fun c => ?_,fun c => ?_,fun c d x hc hd => ?_⟩
  · by_cases hc : c = b
    · subst hc
      simpa using (h.chain c).push (h.nodup c) (ha c)
    · rw [Function.update_of_ne hc]
      refine (h.chain c).push_other hc (ha c) fun x hx hxc => hc (h.apart c b x hxc ?_)
      have hb := h.chain b
      rcases hrow : row b with _ | ⟨y,l⟩
      · rw [hrow] at hb
        simp [Chain,Heap.get] at hb
        simp [hb] at hx
      · rw [hrow] at hb
        obtain rfl : y = x := Option.some.inj (hb.1.symm.trans hx)
        simp
  · by_cases hc : c = b
    · subst hc
      simp [ha c,h.nodup c]
    · simpa [hc] using h.nodup c
  · rcases (hmem c x).mp hc with hc' | ⟨rfl,rfl⟩ <;>
      rcases (hmem d x).mp hd with hd' | ⟨hx,hdb⟩
    · exact h.apart c d x hc' hd'
    · exact absurd (hx ▸ hc') (ha c)
    · exact absurd hd' (ha d)
    · exact hdb.symm

theorem Buckets.unlink {row : β → List α} (h : Buckets m row) {b : β} {a : α} (ha : a ∈ row b) :
    Buckets (m.unlink a) (Function.update row b ((row b).erase a)) := by
  have hsub : ∀ c x, x ∈ Function.update row b ((row b).erase a) c → x ∈ row c := by
    intro c x hx
    by_cases hc : c = b
    · subst hc
      simp only [Function.update_self] at hx
      exact List.mem_of_mem_erase hx
    · simpa [hc] using hx
  obtain ⟨l,s,hls⟩ := List.append_of_mem ha
  have hb := h.chain b
  have hn := h.nodup b
  rw [hls] at hb hn
  have hal : a ∉ l := fun hl => (List.nodup_append'.mp hn).2.2 hl (by simp)
  refine ⟨fun c => ?_,fun c => ?_,fun c d x hc hd => h.apart c d x (hsub c x hc) (hsub d x hd)⟩
  · by_cases hc : c = b
    · subst hc
      rw [Function.update_self,hls,List.erase_append_right _ hal,List.erase_cons_head]
      exact hb.unlink hn (by simp)
    · rw [Function.update_of_ne hc]
      refine hb.unlink_other hn (h.chain c) hc fun x hx hxb => hc (h.apart c b x hx ?_)
      exact hls ▸ hxb
  · by_cases hc : c = b
    · subst hc
      simpa using (h.nodup c).erase a
    · simpa [hc] using h.nodup c

end Operations

end HashChain
