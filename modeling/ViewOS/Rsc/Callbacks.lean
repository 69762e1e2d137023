import Mathlib.Data.List.Perm.Basic
import ViewOS.Lib.Compact

namespace ViewOS.Rsc.Callbacks

inductive Ack where
  | notInit
  | fdReady
  | fdReg
  | fdDeregReady
  | fdDeregNotReady
  deriving DecidableEq

structure RegCb where
  fd : Int
  how : Int
  ack : Ack
  cbExecuted : Bool
  deriving DecidableEq

def emptyEntry : RegCb := ⟨-1, -1, .notInit, false⟩

structure RegCbs where
  v : List RegCb
  nentry : Nat
  deriving DecidableEq

def initRegCb : RegCbs := ⟨List.replicate 10 emptyEntry, 0⟩

-- The loop for the first entry with fd -1, which is then written.
def takeFree (new : RegCb) : List RegCb → Option (List RegCb × Nat)
  | [] => none
  | c :: v =>
    if c.fd = -1 then some (new :: v, 0)
    else (takeFree new v).map fun r => (c :: r.1, r.2 + 1)

-- none where an assertion fails.
def regCbAdd (p : RegCbs) (fd how : Int) : Option (RegCbs × Nat) :=
  let new : RegCb := ⟨fd, how, .notInit, false⟩
  if p.v.length ≤ p.nentry then
    some (⟨(p.v.take p.nentry ++ List.replicate (p.v.length + 10 - p.nentry) emptyEntry).set
      p.nentry new, p.nentry + 1⟩, p.nentry)
  else (takeFree new p.v).map fun r => (⟨r.1, p.nentry + 1⟩, r.2)

def regCbDel (p : RegCbs) (i : Nat) : RegCbs :=
  if i < p.v.length then ⟨p.v.set i emptyEntry, p.nentry - 1⟩ else p

def search (p : RegCbs) (fd how : Int) : Option Nat :=
  p.v.findIdx? fun c => c.fd = fd && c.how = how

def key (c : RegCb) : Option (Int × Int) := if c.fd = -1 then none else some (c.fd, c.how)

def keys (p : RegCbs) : List (Int × Int) := p.v.filterMap key

structure Wf (p : RegCbs) : Prop where
  count : p.nentry = (keys p).length
  nodup : (keys p).Nodup

section Table

variable {p : RegCbs} {a b v : List RegCb} {c new : RegCb} {i n : Nat} {fd how : Int}
  {r : List RegCb × Nat}

theorem key_eq_some (h : c.fd ≠ -1) : key c = some (c.fd, c.how) := if_neg h

theorem key_empty : key emptyEntry = none := rfl

theorem takeFree_eq_some (h : takeFree new v = some r) : ∃ a c b, v = a ++ c :: b ∧ c.fd = -1 ∧
    r = (a ++ new :: b, a.length) := by
  induction v generalizing r with
  | nil => simp [takeFree] at h
  | cons x v ih =>
    rw [takeFree] at h
    split at h
    · rename_i hx
      exact ⟨[],x,v,rfl,hx,(Option.some.inj h).symm⟩
    · obtain ⟨r',hr,rfl⟩ := Option.map_eq_some_iff.mp h
      obtain ⟨a,c,b,rfl,hc,rfl⟩ := ih hr
      exact ⟨x :: a,c,b,rfl,hc,rfl⟩

theorem takeFree_isSome (h : (v.filterMap key).length < v.length) : ∃ r, takeFree new v = some r := by
  induction v with
  | nil => simp at h
  | cons x v ih =>
    rw [takeFree]
    split
    · exact ⟨_,rfl⟩
    · rename_i hx
      obtain ⟨r,hr⟩ := ih (by
        rw [List.filterMap_cons,key_eq_some hx] at h
        exact Nat.lt_of_succ_lt_succ h)
      exact ⟨_,by rw [hr]; rfl⟩

theorem keys_put {b : List RegCb} (hc : key c = none) (hnew : new.fd ≠ -1) :
    ((a ++ new :: b).filterMap key).Perm ((new.fd, new.how) :: (a ++ c :: b).filterMap key) := by
  rw [List.filterMap_append,List.filterMap_append,List.filterMap_cons,List.filterMap_cons,hc,
    key_eq_some hnew]
  exact List.perm_middle

theorem Wf.put (h : Wf p) (hv : p.v = a ++ c :: b) (hc : c.fd = -1) (hnew : new.fd ≠ -1)
    (hnot : (new.fd, new.how) ∉ keys p) : Wf ⟨a ++ new :: b, p.nentry + 1⟩ := by
  have hperm : (keys ⟨a ++ new :: b, p.nentry + 1⟩).Perm ((new.fd, new.how) :: keys p) := by
    rw [keys,keys,hv]
    exact keys_put (if_pos hc) hnew
  refine ⟨?_,hperm.nodup_iff.mpr (List.nodup_cons.mpr ⟨hnot,h.nodup⟩)⟩
  rw [hperm.length_eq,List.length_cons,← h.count]

theorem length_keys_le (p : RegCbs) : (keys p).length ≤ p.v.length := List.length_filterMap_le ..

theorem keys_grow (v : List RegCb) (n : Nat) :
    (v ++ List.replicate n emptyEntry).filterMap key = v.filterMap key := by
  rw [List.filterMap_append,List.filterMap_replicate_of_none key_empty,List.append_nil]

theorem Wf.grow (h : Wf p) (n : Nat) : Wf ⟨p.v ++ List.replicate n emptyEntry, p.nentry⟩ := by
  have hkeys : keys ⟨p.v ++ List.replicate n emptyEntry, p.nentry⟩ = keys p := keys_grow p.v n
  exact ⟨hkeys.symm ▸ h.count,hkeys.symm ▸ h.nodup⟩

theorem Wf.add (h : Wf p) (hfd : fd ≠ -1) (hnot : (fd, how) ∉ keys p) :
    ∃ q i, regCbAdd p fd how = some (q, i) ∧ Wf q ∧ (keys q).Perm ((fd, how) :: keys p) ∧
      q.v[i]? = some ⟨fd, how, .notInit, false⟩ := by
  rw [regCbAdd]
  have hlen := length_keys_le p
  have hcount := h.count
  split
  · have hn : p.nentry = p.v.length := by omega
    have hroom : p.v.length + 10 - p.v.length = 9 + 1 := by omega
    have hkeys := keys_grow p.v 10
    rw [hn,List.take_length,hroom,List.replicate_succ,List.set_append_right _ _ (Nat.le_refl _),
      Nat.sub_self,List.set_cons_zero,← hn]
    refine ⟨_,_,rfl,(h.grow 10).put rfl rfl hfd ?_,?_,by simp [hn]⟩
    · rw [keys,hkeys]
      exact hnot
    · rw [keys,keys,← hkeys]
      exact keys_put rfl hfd
  · obtain ⟨r,hr⟩ := @takeFree_isSome p.v ⟨fd, how, .notInit, false⟩ (by rw [keys] at hcount; omega)
    obtain ⟨a,c,b,hv,hc,rfl⟩ := takeFree_eq_some hr
    refine ⟨_,_,by rw [hr]; rfl,h.put hv hc hfd hnot,?_,by simp⟩
    rw [keys,keys,hv]
    exact keys_put (if_pos hc) hfd

theorem Wf.del (h : Wf p) (hc : p.v[i]? = some c) (hfd : c.fd ≠ -1) :
    Wf (regCbDel p i) ∧ (keys (regCbDel p i)).Perm ((keys p).erase (c.fd, c.how)) := by
  obtain ⟨a,b,hv,hi,hset⟩ := Compact.split_at hc
  have hlt := (List.getElem?_eq_some_iff.mp hc).1
  rw [regCbDel,if_pos hlt,hset]
  have hkeys : (keys p).Perm ((c.fd, c.how) :: keys ⟨a ++ emptyEntry :: b, p.nentry - 1⟩) := by
    rw [keys,hv]
    exact keys_put key_empty hfd
  have herase := hkeys.erase (c.fd, c.how)
  rw [List.erase_cons_head] at herase
  have hnodup := hkeys.nodup_iff.mp h.nodup
  refine ⟨⟨?_,(List.nodup_cons.mp hnodup).2⟩,herase.symm⟩
  have hlen := hkeys.length_eq
  rw [List.length_cons,← h.count] at hlen
  exact Nat.sub_eq_of_eq_add hlen

theorem Wf.congr {q : RegCbs} (h : Wf p) (hn : q.nentry = p.nentry) (hkeys : keys q = keys p) :
    Wf q := ⟨by rw [hn,hkeys]; exact h.count,hkeys ▸ h.nodup⟩

theorem search_eq_some (h : search p fd how = some i) :
    ∃ c, p.v[i]? = some c ∧ c.fd = fd ∧ c.how = how := by
  obtain ⟨hlt,hmatch,-⟩ := List.findIdx?_eq_some_iff_getElem.mp h
  exact ⟨_,List.getElem?_eq_getElem hlt,by simpa using hmatch⟩

theorem search_eq_none (h : search p fd how = none) : (fd, how) ∉ keys p := by
  intro hmem
  obtain ⟨c,hc,hkey⟩ := List.mem_filterMap.mp hmem
  have hno := List.findIdx?_eq_none_iff.mp h c hc
  rw [key] at hkey
  split at hkey
  · exact absurd hkey (by simp)
  · obtain ⟨rfl,rfl⟩ := Prod.mk.inj (Option.some.inj hkey)
    simp at hno

theorem wf_init : Wf initRegCb := ⟨by decide,by decide⟩

theorem keys_modify {f : RegCb → RegCb} (hf : ∀ c, key (f c) = key c) (i : Nat) :
    (v.modify i f).filterMap key = v.filterMap key := by
  induction v generalizing i with
  | nil => rw [List.modify_nil]
  | cons x v ih =>
    cases i with
    | zero => rw [List.modify_zero_cons,List.filterMap_cons,List.filterMap_cons,hf]
    | succ i => rw [List.modify_succ_cons,List.filterMap_cons,List.filterMap_cons,ih]

end Table

end ViewOS.Rsc.Callbacks
