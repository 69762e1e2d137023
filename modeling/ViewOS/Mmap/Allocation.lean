import ViewOS.Lib.Run
import ViewOS.Lib.Tiling
import ViewOS.Mmap.Chunks

namespace ViewOS.Mmap
open Tiling Transition

def endOf (A : Arch) (l : List Entry) : Nat :=
  match l.getLast? with
  | none => 0
  | some e => (e.pgoffset + e.pgsize) % A.ulong

inductive Allocated (A : Arch) (r : Request) (n : Nat) (l : List Entry) :
    List Entry → Nat → Nat → Prop
  | exact {l₁ l₂ : List Entry} {e : Entry} (hl : l = l₁ ++ e :: l₂) (hfree : e.path = none)
      (hsize : e.pgsize = r.pgsize) : Allocated A r n l (l₁ ++ take r e :: l₂) n e.id
  | split {l₁ l₂ : List Entry} {e : Entry} (hl : l = l₁ ++ e :: l₂) (hfree : e.path = none)
      (hsize : r.pgsize < e.pgsize) :
      Allocated A r n l (l₁ ++ take r { e with pgsize := r.pgsize } ::
        { unused n ((e.pgoffset + r.pgsize) % A.ulong) (e.pgsize - r.pgsize) with
          lastuse := A.lruBit } :: l₂) (n + 1) e.id
  | grow {l₁ : List Entry} {e : Entry} (hl : l = l₁ ++ [e]) (hfree : e.path = none)
      (hfull : ∀ e ∈ l, e.path = none → e.pgsize < r.pgsize) :
      Allocated A r n l (l₁ ++ [take r { e with pgsize := r.pgsize }]) n e.id
  | extend (hfull : ∀ e ∈ l, e.path = none → e.pgsize < r.pgsize) :
      Allocated A r n l (l ++ [take r (unused n (endOf A l) r.pgsize)]) (n + 1) n

section Loop

variable {A : Arch} {r : Request}

theorem allocate_fit {pre post : List Entry} {scan : Entry} {n : Nat} (fuel : Nat)
    (hfree : scan.path = none) (hsize : r.pgsize ≤ scan.pgsize) :
    ∃ l n', allocate A r (fuel + 1) n pre scan post = some (⟨l, n'⟩, scan.id) ∧
      Allocated A r n (pre ++ scan :: post) l n' scan.id := by
  unfold allocate
  rw [if_pos ⟨hfree,hsize⟩]
  by_cases hlt : r.pgsize < scan.pgsize
  · rw [if_pos hlt]
    exact ⟨_,_,rfl,.split rfl hfree hlt⟩
  · rw [if_neg hlt]
    exact ⟨_,_,rfl,.exact rfl hfree (by omega)⟩

theorem allocate_exact {pre post : List Entry} {scan : Entry} {n : Nat} (fuel : Nat)
    (hfree : scan.path = none) (hsize : scan.pgsize = r.pgsize) :
    allocate A r (fuel + 1) n pre scan post = some (⟨pre ++ take r scan :: post, n⟩, scan.id) := by
  unfold allocate
  rw [if_pos ⟨hfree,hsize.ge⟩,if_neg (by omega)]

theorem allocate_spec {post pre : List Entry} {scan : Entry} {n fuel : Nat}
    (hfuel : post.length + 2 ≤ fuel) (hpre : ∀ e ∈ pre, e.path = none → e.pgsize < r.pgsize) :
    ∃ l n' id, allocate A r fuel n pre scan post = some (⟨l, n'⟩, id) ∧
      Allocated A r n (pre ++ scan :: post) l n' id := by
  induction post generalizing pre scan fuel with
  | nil =>
    obtain ⟨k,rfl⟩ : ∃ k, fuel = k + 2 := ⟨fuel - 2,by simp at hfuel; omega⟩
    by_cases hfit : scan.path = none ∧ r.pgsize ≤ scan.pgsize
    · obtain ⟨l,n',h,ha⟩ := allocate_fit (A := A) (k + 1) hfit.1 hfit.2
      exact ⟨l,n',_,h,ha⟩
    have hfull : ∀ e ∈ pre ++ [scan], e.path = none → e.pgsize < r.pgsize := by
      intro e he hfree
      rcases List.mem_append.mp he with he | he
      · exact hpre e he hfree
      · obtain rfl := List.mem_singleton.mp he
        exact Nat.lt_of_not_le fun hle => hfit ⟨hfree,hle⟩
    rw [allocate,if_neg hfit]
    dsimp only
    by_cases hfree : scan.path = none
    · rw [if_pos hfree,@allocate_exact A r pre [] { scan with pgsize := r.pgsize } n k hfree rfl]
      exact ⟨_,_,_,rfl,.grow rfl hfree hfull⟩
    · rw [if_neg hfree,allocate_exact k rfl rfl]
      have hend : endOf A (pre ++ [scan]) = (scan.pgoffset + scan.pgsize) % A.ulong := by
        simp [endOf]
      exact ⟨_,_,_,rfl,hend ▸ .extend hfull⟩
  | cons scan' post ih =>
    obtain ⟨k,rfl⟩ : ∃ k, fuel = k + 1 := ⟨fuel - 1,by simp at hfuel; omega⟩
    by_cases hfit : scan.path = none ∧ r.pgsize ≤ scan.pgsize
    · obtain ⟨l,n',h,ha⟩ := allocate_fit (A := A) k hfit.1 hfit.2
      exact ⟨l,n',_,h,ha⟩
    rw [allocate,if_neg hfit]
    have hnext := @ih (pre ++ [scan]) scan' k (by simp at hfuel; omega) (by
      intro e he hfree
      rcases List.mem_append.mp he with he | he
      · exact hpre e he hfree
      · obtain rfl := List.mem_singleton.mp he
        exact Nat.lt_of_not_le fun hle => hfit ⟨hfree,hle⟩)
    simpa using hnext

theorem allocate_succ {post pre : List Entry} {scan : Entry} {n fuel : Nat} {x : SecretFile × Nat}
    (h : allocate A r fuel n pre scan post = some x) :
    allocate A r (fuel + 1) n pre scan post = some x := by
  induction fuel generalizing n pre scan post with
  | zero => simp [allocate] at h
  | succ fuel ih =>
    unfold allocate at h ⊢
    cases post with
    | nil =>
      split_ifs at h ⊢
      · exact h
      · exact h
      · exact ih h
      · exact ih h
    | cons scan' post =>
      dsimp only at h ⊢
      split_ifs at h ⊢
      · exact h
      · exact h
      · exact ih h

theorem length_joinFree (scan : Entry) (next : List Entry) :
    (joinFree A scan next).length ≤ next.length + 1 := by
  induction next generalizing scan with
  | nil => simp [joinFree]
  | cons victim next ih =>
    rw [joinFree]
    split_ifs
    · have := ih { scan with pgsize := (scan.pgsize + victim.pgsize) % A.ulong }
      simp only [List.length_cons]
      omega
    · have := ih victim
      simp only [List.length_cons]
      omega

theorem length_mmapCompact (l : List Entry) : (mmapCompact A l).length ≤ l.length := by
  unfold mmapCompact
  cases l with
  | nil => simp
  | cons e l => simpa using length_joinFree (A := A) (age e) (l.map age)

theorem mmapSfAllocate_le {s : SecretFile} {fuel : Nat} {x : SecretFile × Nat}
    (hfuel : allocFuel s ≤ fuel) (h : mmapSfAllocate A (allocFuel s) s r = some x) :
    mmapSfAllocate A fuel s r = some x := by
  induction fuel, hfuel using Nat.le_induction with
  | base => exact h
  | succ fuel _ ih =>
    unfold mmapSfAllocate at ih ⊢
    cases hc : mmapCompact A s.chunks with
    | nil =>
      rw [hc] at ih
      exact allocate_succ ih
    | cons scan next =>
      rw [hc] at ih
      exact allocate_succ ih

theorem mmapSfAllocate_spec (A : Arch) (s : SecretFile) (r : Request) :
    ∃ l n id, mmapSfAllocate A (allocFuel s) s r = some (⟨l, n⟩, id) ∧
      Allocated A r s.next (mmapCompact A s.chunks) l n id := by
  have hlen := length_mmapCompact (A := A) s.chunks
  unfold mmapSfAllocate allocFuel
  cases hc : mmapCompact A s.chunks with
  | nil =>
    dsimp only
    rw [allocate_exact _ rfl rfl]
    exact ⟨_,_,_,rfl,.extend (l := []) (by simp)⟩
  | cons scan next =>
    rw [hc,List.length_cons] at hlen
    exact @allocate_spec A r next [] scan s.next (s.chunks.length + 2) (by omega) (by simp)

theorem mmapSfAllocate_some {A : Arch} {s : SecretFile} {r : Request} {l : List Entry} {n id : Nat}
    (h : mmapSfAllocate A (allocFuel s) s r = some (⟨l, n⟩, id)) :
    Allocated A r s.next (mmapCompact A s.chunks) l n id := by
  obtain ⟨l',n',id',h',halloc⟩ := mmapSfAllocate_spec A s r
  cases h'.symm.trans h
  exact halloc

end Loop

end ViewOS.Mmap
