import ViewOS.Lfd.Table

namespace ViewOS.Lfd
open RefCount

def optRef : Option Nat → Multiset Nat
  | none => 0
  | some lfd => {lfd}

def PcbFile.refs (p : PcbFile) : Multiset Nat := (p.lfdlist.map optRef).sum

def fileRefs : Option PcbFile → Multiset Nat
  | none => 0
  | some p => p.refs

def heldRefs : Option Pcb → Multiset Nat
  | none => 0
  | some q => optRef q.held

def fdsRefs : Option Pcb → Multiset Nat
  | none => 0
  | some q => {q.fds}

def State.refs (s : State) : Multiset Nat :=
  (s.files.map fileRefs).sum + (s.procs.map heldRefs).sum

def State.users (s : State) : Multiset Nat := (s.procs.map fdsRefs).sum

theorem Rep.lfdClose_opt {t : Lfds} {refs : Multiset Nat} {lfd : Option Nat}
    (h : Rep t (optRef lfd + refs)) : ∃ t', Lfd.lfdClose t lfd = some t' ∧ Rep t' refs := by
  cases lfd with
  | none => exact ⟨t,rfl,by simpa [optRef] using h⟩
  | some lfd => exact h.lfdClose

theorem Rep.closeAll {t : Lfds} {refs : Multiset Nat} {xs : List (Option Nat)}
    (h : Rep t ((xs.map optRef).sum + refs)) :
    ∃ t', xs.foldlM Lfd.lfdClose t = some t' ∧ Rep t' refs := by
  induction xs generalizing t with
  | nil => exact ⟨t,rfl,by simpa using h⟩
  | cons x xs ih =>
    rw [List.map_cons,List.sum_cons,add_assoc] at h
    obtain ⟨u,hu,hrep⟩ := h.lfdClose_opt
    obtain ⟨t',ht,hrep'⟩ := ih hrep
    exact ⟨t',by simp [hu,ht],hrep'⟩

theorem Rep.dupAll {t : Lfds} {refs : Multiset Nat} {xs : List (Option Nat)} (h : Rep t refs)
    (hm : (xs.map optRef).sum ≤ refs)
    (hroom : ∀ l, (((xs.map optRef).sum + refs).count l : Int) ≤ shrtMax) :
    ∃ t', xs.foldlM Lfd.lfdDup t = some t' ∧ Rep t' ((xs.map optRef).sum + refs) := by
  induction xs generalizing t refs with
  | nil => exact ⟨t,rfl,by simpa using h⟩
  | cons x xs ih =>
    rw [List.map_cons,List.sum_cons] at hm hroom
    cases x with
    | none =>
      obtain ⟨t',ht,hrep⟩ := ih h (by simpa [optRef] using hm) (by simpa [optRef] using hroom)
      exact ⟨t',by simpa [Lfd.lfdDup] using ht,by simpa [optRef] using hrep⟩
    | some lfd =>
      have hlfd : lfd ∈ refs := Multiset.mem_of_le hm (by simp [optRef])
      have hlt := hroom lfd
      simp only [optRef,Multiset.count_add,Multiset.count_singleton_self] at hlt
      obtain ⟨u,hu,hrep⟩ := h.lfdDup hlfd (by push_cast at hlt; omega)
      have hle : (xs.map optRef).sum ≤ {lfd} + refs :=
        le_trans (Multiset.le_add_left _ _) (le_trans hm (Multiset.le_add_left _ _))
      have hsum : (xs.map optRef).sum + ({lfd} + refs) =
          optRef (some lfd) + (xs.map optRef).sum + refs := by
        rw [optRef]
        abel
      obtain ⟨t',ht,hrep'⟩ := ih hrep hle (by rw [hsum]; exact hroom)
      rw [hsum] at hrep'
      exact ⟨t',by simp [hu,ht],by simpa using hrep'⟩

theorem fd2lfd_some {p : PcbFile} {fd lfd : Nat} :
    fd2lfd p (some fd) = some lfd ↔ p.lfdlist[fd]? = some (some lfd) := by
  simp [fd2lfd,Option.join_eq_some_iff]

theorem refs_deregister {p : PcbFile} {fd lfd : Nat} (h : fd2lfd p (some fd) = some lfd) :
    p.refs = {lfd} + PcbFile.refs { p with lfdlist := p.lfdlist.set fd none } := by
  obtain ⟨r,h1,h2⟩ := sum_map_split optRef (fd2lfd_some.mp h)
  rw [PcbFile.refs,PcbFile.refs,h1,h2 none]
  simp [optRef]

theorem refs_grow (p : PcbFile) (fd : Nat) : ((grow p fd).map optRef).sum = p.refs := by
  unfold grow
  split_ifs
  · simp [PcbFile.refs,optRef]
  · rfl

theorem grow_length (p : PcbFile) (fd : Nat) : fd < (grow p fd).length := by
  unfold grow olfdStep
  split_ifs with h
  · simp
    omega
  · omega

theorem grow_free {p : PcbFile} {fd : Nat} (h : fd2lfd p (some fd) = none) :
    (grow p fd)[fd]? = some none := by
  have hl := grow_length p fd
  unfold grow at *
  split_ifs at * with hfd
  · rw [List.getElem?_append_right hfd,List.getElem?_replicate_of_lt]
    simp only [List.length_append,List.length_replicate] at hl
    omega
  · rw [fd2lfd,Option.bind_some,List.getElem?_eq_getElem hl,Option.join_some] at h
    rw [List.getElem?_eq_getElem hl,h]

theorem refs_register {p : PcbFile} {fd : Nat} (h : fd2lfd p (some fd) = none) (lfd : Nat) :
    (lfdRegister p fd lfd).refs = {lfd} + p.refs := by
  obtain ⟨r,h1,h2⟩ := sum_map_split optRef (grow_free h)
  rw [← refs_grow p fd,h1,PcbFile.refs,lfdRegister]
  dsimp only
  rw [h2 (some lfd)]
  simp [optRef]

end ViewOS.Lfd
