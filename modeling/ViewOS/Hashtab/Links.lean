import ViewOS.Lib.RingList
import ViewOS.Hashtab.Model

namespace ViewOS.Hashtab
open HashChain

def Table.chains (t : Table) : Heap HashHead Nat := ⟨t.hash, t.nexthash, t.pprevhash⟩

structure SameRings (t u : Table) : Prop where
  prev : u.prev = t.prev
  next : u.next = t.next
  htHead : u.htHead = t.htHead

structure SameContent (t u : Table) : Prop where
  elem : u.elem = t.elem
  live : u.live = t.live
  epochNow : u.epochNow = t.epochNow

theorem linkType_content (t : Table) (type : CheckType) (new : Nat) :
    SameContent t (linkType t type new) := by
  unfold linkType
  split <;> exact ⟨rfl,rfl,rfl⟩

theorem linkType_chains (t : Table) (type : CheckType) (new : Nat) :
    (linkType t type new).chains = t.chains := by
  unfold linkType
  split <;> rfl

theorem linkType_htHead (t : Table) (type : CheckType) (new : Nat) :
    (linkType t type new).htHead = Function.update t.htHead type (some new) := by
  unfold linkType
  split <;> rfl

theorem linkType_append {t : Table} {type : CheckType} {z new : Nat} (h : t.htHead type = some z)
    (hn : t.next z ≠ new) :
    (linkType t type new).next =
        Function.update (Function.update t.next new (t.next z)) z new ∧
      (linkType t type new).prev =
        Function.update (Function.update t.prev new z) (t.next z) new := by
  simp [linkType,h,Table.setNext,Table.setPrev,Table.setHead,hn.symm]

theorem linkType_first {t : Table} {type : CheckType} (new : Nat) (h : t.htHead type = none) :
    (linkType t type new).next = Function.update t.next new new ∧
      (linkType t type new).prev = Function.update t.prev new new := by
  simp [linkType,h,Table.setNext,Table.setPrev,Table.setHead]

theorem linkHash_content (t : Table) (h : HashHead) (new : Nat) :
    SameContent t (linkHash t h new) := by
  unfold linkHash
  cases t.hash h <;> exact ⟨rfl,rfl,rfl⟩

theorem linkHash_rings (t : Table) (h : HashHead) (new : Nat) : SameRings t (linkHash t h new) := by
  unfold linkHash
  cases t.hash h <;> exact ⟨rfl,rfl,rfl⟩

theorem linkHash_chains (t : Table) (h : HashHead) (new : Nat) :
    (linkHash t h new).chains = t.chains.push h new := by
  unfold linkHash Heap.push
  cases hh : t.hash h <;>
    simp [Table.chains,Heap.setBack,Heap.set,hh,Table.setPprevhash,Table.setNexthash,
      Table.setHash]

theorem unlinkType_content (t : Table) (ht : Nat) : SameContent t (unlinkType t ht) := by
  unfold unlinkType
  dsimp only
  split_ifs <;> exact ⟨rfl,rfl,rfl⟩

theorem unlinkType_chains (t : Table) (ht : Nat) : (unlinkType t ht).chains = t.chains := by
  unfold unlinkType
  dsimp only
  split_ifs <;> rfl

theorem unlinkType_htHead (t : Table) (ht : Nat) :
    (unlinkType t ht).htHead =
      if t.htHead (t.elem ht).type = some ht then
        Function.update t.htHead (t.elem ht).type
          (if t.next ht = ht then none else some (t.prev ht))
      else t.htHead := by
  unfold unlinkType
  dsimp only
  split_ifs <;> rfl

theorem unlinkType_remove (t : Table) (ht : Nat) :
    (unlinkType t ht).next = Function.update t.next (t.prev ht) (t.next ht) ∧
      (unlinkType t ht).prev = Function.update t.prev (t.next ht) (t.prev ht) := by
  have hnext : Function.update t.next (t.prev ht) (t.next ht) ht = t.next ht := by
    by_cases hp : ht = t.prev ht
    · rw [← hp,Function.update_self]
    · rw [Function.update_of_ne hp]
  unfold unlinkType
  dsimp only
  split_ifs <;> simp [Table.setNext,Table.setPrev,Table.setHead,hnext]

theorem unlinkHash_content (t : Table) (ht : Nat) : SameContent t (unlinkHash t ht) := by
  unfold unlinkHash Table.store
  cases t.pprevhash ht <;> dsimp only <;> split <;> exact ⟨rfl,rfl,rfl⟩

theorem unlinkHash_rings (t : Table) (ht : Nat) : SameRings t (unlinkHash t ht) := by
  unfold unlinkHash Table.store
  cases t.pprevhash ht <;> dsimp only <;> split <;> exact ⟨rfl,rfl,rfl⟩

theorem unlinkHash_chains (t : Table) (ht : Nat) :
    (unlinkHash t ht).chains = t.chains.unlink ht := by
  unfold unlinkHash Table.store Heap.unlink
  cases hp : t.pprevhash ht <;> dsimp only <;> split <;>
    simp_all [Table.chains,Heap.setBack,Heap.set,Table.setPprevhash,Table.setNexthash,
      Table.setHash]

end ViewOS.Hashtab
