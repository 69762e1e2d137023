import ViewOS.Treepoch.Bitstring
import ViewOS.Lib.AddrTree

namespace ViewOS.Treepoch
open AddrTree

def Links (m : Nat → Node) (par : Option Nat) (_ : List Bool) (t : ATree) : Prop :=
  (m t.addr).parent = par ∧ ∀ b, (m t.addr).sub b = (t.child b).map ATree.addr

def Depths (m : Nat → Node) (_ : Option Nat) (path : List Bool) (t : ATree) : Prop :=
  (m t.addr).len = path.length ∧
    ∀ b ∈ path.getLast?, getbit (m t.addr).bitstr (path.length - 1) = b

def Heights (m : Nat → Node) (_ : Option Nat) (_ : List Bool) (t : ATree) : Prop :=
  (m t.addr).subheight = t.height

def Counts (m : Nat → Node) (w : Nat → Nat) (_ : Option Nat) (_ : List Bool) (t : ATree) : Prop :=
  (m t.addr).nproc = t.weight w

def Rises (m : Nat → Node) (par : Option Nat) (_ : List Bool) (t : ATree) : Prop :=
  ∀ p ∈ par, (m p).rise ≤ (m t.addr).rise

def Bits (m : Nat → Node) (_ : Option Nat) (path : List Bool) (t : ATree) : Prop :=
  ∀ i b, path[i]? = some b → (m t.addr).bitstr.getLsbD i = b

section Modify

variable (s : State) (a b : Nat) (f : Node → Node)

@[simp] theorem modify_mem_self : (s.modify a f).mem a = f (s.mem a) := by
  simp [State.modify]

theorem modify_mem_of_ne (h : b ≠ a) : (s.modify a f).mem b = s.mem b := by
  simp [State.modify,h]

@[simp] theorem modify_next : (s.modify a f).next = s.next := rfl

@[simp] theorem modify_teRoot : (s.modify a f).teRoot = s.teRoot := rfl

@[simp] theorem modify_epochNow : (s.modify a f).epochNow = s.epochNow := rfl

@[simp] theorem modify_nextviewid : (s.modify a f).nextviewid = s.nextviewid := rfl

end Modify

theorem decr_of_pos {n : Nat} (h : 0 < n) : decr n = n - 1 := by
  rw [decr,if_neg (by omega)]

@[simp] theorem deUpdateSubstr_none (fuel : Nat) (s : State) (v : Bool) :
    deUpdateSubstr fuel s none v = some s := by cases fuel <;> rfl

@[simp] theorem deUpdateHeight_none (fuel : Nat) (s : State) :
    deUpdateHeight fuel s none = some s := by cases fuel <;> rfl

@[simp] theorem teDelproc_none (fuel : Nat) (s : State) : teDelproc fuel s none = some s := by
  cases fuel <;> rfl

@[simp] theorem teNewproc_none (fuel : Nat) (s : State) : teNewproc fuel s none = some s := by
  cases fuel <;> rfl

def relabelNode (d : Nat) (v : Bool) (n : Node) : Node :=
  { n with len := d + 1, bitstr := setbit n.bitstr d v }

def relabel : Nat → Bool → ATree → (Nat → Node) → Nat → Node
  | d, v, .leaf a, m => Function.update m a (relabelNode d v (m a))
  | d, v, .node a l r, m =>
    relabel (d + 1) true r (relabel (d + 1) false l (Function.update m a (relabelNode d v (m a))))

theorem relabel_of_notMem {t : ATree} {b : Nat} (h : b ∉ t.addrs) (d : Nat) (v : Bool)
    (m : Nat → Node) : relabel d v t m b = m b := by
  induction t generalizing d v m with
  | leaf a =>
    simp only [ATree.addrs,List.mem_singleton] at h
    simp [relabel,h]
  | node a l r ihl ihr =>
    simp only [ATree.addrs,List.mem_cons,List.mem_append,not_or] at h
    simp [relabel,ihr h.2.2,ihl h.2.1,h.1]

theorem relabel_fields (d : Nat) (v : Bool) (t : ATree) (m : Nat → Node) (b : Nat) :
    ∃ len bits, relabel d v t m b = { m b with len := len, bitstr := bits } := by
  have hnode : ∀ (m : Nat → Node) (d : Nat) (v : Bool) (a : Nat),
      ∃ len bits, Function.update m a (relabelNode d v (m a)) b =
        { m b with len := len, bitstr := bits } := by
    intro m d v a
    by_cases hb : b = a
    · subst hb; exact ⟨d + 1,setbit (m b).bitstr d v,by simp [relabelNode]⟩
    · exact ⟨(m b).len,(m b).bitstr,by simp [hb]⟩
  induction t generalizing d v m with
  | leaf a => exact hnode m d v a
  | node a l r ihl ihr =>
    obtain ⟨k0,x0,h0⟩ := hnode m d v a
    obtain ⟨k1,x1,h1⟩ := ihl (d + 1) false (Function.update m a (relabelNode d v (m a)))
    obtain ⟨k2,x2,h2⟩ := ihr (d + 1) true
      (relabel (d + 1) false l (Function.update m a (relabelNode d v (m a))))
    exact ⟨k2,x2,by rw [relabel,h2,h1,h0]⟩

-- The numbering touches only the labels.
@[simp] theorem relabel_kept (d : Nat) (v : Bool) (t : ATree) (m : Nat → Node) (b : Nat) :
    (relabel d v t m b).parent = (m b).parent ∧ (relabel d v t m b).sub = (m b).sub ∧
      (relabel d v t m b).rise = (m b).rise ∧ (relabel d v t m b).nproc = (m b).nproc ∧
      (relabel d v t m b).subheight = (m b).subheight := by
  obtain ⟨len,bits,h⟩ := relabel_fields d v t m b
  rw [h]
  exact ⟨rfl,rfl,rfl,rfl,rfl⟩

theorem relabel_root {t : ATree} (hn : t.addrs.Nodup) (d : Nat) (v : Bool) (m : Nat → Node) :
    relabel d v t m t.addr = relabelNode d v (m t.addr) := by
  cases t with
  | leaf a => simp [relabel,ATree.addr]
  | node a l r =>
    simp only [ATree.addrs,List.nodup_cons,List.mem_append,not_or] at hn
    simp [relabel,ATree.addr,relabel_of_notMem hn.1.1,relabel_of_notMem hn.1.2]

theorem relabel_depths {t : ATree} (hn : t.addrs.Nodup) (d : Nat) (v : Bool) (m : Nat → Node)
    (par : Option Nat) {q : List Bool} (hp : q.length = d) :
    t.Forall (Depths (relabel d v t m)) par (q ++ [v]) := by
  induction t generalizing d v m par q with
  | leaf a =>
    simp [ATree.Forall,Depths,relabel,ATree.addr,relabelNode,hp,getbit_setbit]
  | node a l r ihl ihr =>
    have hroot := relabel_root hn d v m
    simp only [ATree.addrs,List.nodup_cons,List.mem_append,not_or,List.nodup_append'] at hn
    refine ⟨?_,?_,?_⟩
    · simp [Depths,hroot,relabelNode,hp,getbit_setbit]
    · have hl := ihl hn.2.1 (d + 1) false (Function.update m a (relabelNode d v (m a))) (some a)
        (q := q ++ [v]) (by simp [hp])
      refine hl.imp fun par' path' y hy _ _ hd => ?_
      have hb : y.addr ∉ r.addrs := fun h => hn.2.2.2 (hy y.addr_mem_addrs) h
      simpa only [Depths,relabel,relabel_of_notMem hb] using hd
    · exact ihr hn.2.2.1 (d + 1) true _ (some a) (q := q ++ [v]) (by simp [hp])

theorem relabel_bitstr {t : ATree} (hn : t.addrs.Nodup) (d e : Nat) (v : Bool) (m : Nat → Node)
    (par : Option Nat) {q : List Bool} (hp : e + q.length = d) :
    t.Forall (fun _ r y => ∀ u ∈ r.getLast?,
      (relabel d v t m y.addr).bitstr = setbit (m y.addr).bitstr (e + r.length - 1) u)
      par (q ++ [v]) := by
  induction t generalizing d v m par q with
  | leaf a =>
    simp [ATree.Forall,relabel,ATree.addr,relabelNode,← hp,← Nat.add_assoc]
  | node a l r ihl ihr =>
    have hroot := relabel_root hn d v m
    simp only [ATree.addrs,List.nodup_cons,List.mem_append,not_or,List.nodup_append'] at hn
    have hkeep : ∀ {l : List Nat} b, a ∉ l → b ∈ l →
        Function.update m a (relabelNode d v (m a)) b = m b :=
      fun b ha hb => Function.update_of_ne (ne_of_mem_of_not_mem hb ha) _ _
    refine ⟨?_,?_,?_⟩
    · beta_reduce
      rw [hroot]
      simp [relabelNode,← hp,← Nat.add_assoc]
    · have hl := ihl hn.2.1 (d + 1) false (Function.update m a (relabelNode d v (m a))) (some a)
        (q := q ++ [v]) (by simp [← hp,Nat.add_assoc])
      refine hl.imp fun par' path' y hy _ _ hd u hu => ?_
      have hyl := hy y.addr_mem_addrs
      simpa only [relabel,relabel_of_notMem (hn.2.2.2 hyl),hkeep _ hn.1.1 hyl] using hd u hu
    · have hr := ihr hn.2.2.1 (d + 1) true
        (relabel (d + 1) false l (Function.update m a (relabelNode d v (m a)))) (some a)
        (q := q ++ [v]) (by simp [← hp,Nat.add_assoc])
      refine hr.imp fun par' path' y hy _ _ hd u hu => ?_
      have hyr := hy y.addr_mem_addrs
      have hb : y.addr ∉ l.addrs := fun h => hn.2.2.2 h hyr
      simpa only [relabel,relabel_of_notMem hb,hkeep _ hn.1.2 hyr] using hd u hu

theorem deUpdateSubstr_eq {t : ATree} {s : State} {p n : Nat} {q : List Bool} (v : Bool)
    (hl : t.Forall (Links s.mem) (some p) q) (hn : t.addrs.Nodup) (hp : p ∉ t.addrs)
    (hf : t.height < n) :
    deUpdateSubstr n s (some t.addr) v =
      some { s with mem := relabel (s.mem p).len v t s.mem } := by
  induction t generalizing s p n q v with
  | leaf a =>
    obtain ⟨k,rfl⟩ : ∃ k, n = k + 1 := ⟨n - 1,by omega⟩
    obtain ⟨hpar,hsub⟩ := hl
    simp only [ATree.addr] at hpar
    simp only [ATree.addr,ATree.child,Option.map_none] at hsub
    simp [deUpdateSubstr,hpar,hsub,ATree.addr,relabel,relabelNode,State.modify]
  | node a l r ihl ihr =>
    obtain ⟨k,rfl⟩ : ∃ k, n = k + 1 := ⟨n - 1,by omega⟩
    obtain ⟨⟨hpar,hsub⟩,hl,hr⟩ := hl
    simp only [ATree.addr] at hpar
    have hsl : (s.mem a).sub false = some l.addr := by simpa [ATree.child,ATree.addr] using hsub false
    have hsr : (s.mem a).sub true = some r.addr := by simpa [ATree.child,ATree.addr] using hsub true
    simp only [ATree.addrs,List.nodup_cons,List.mem_append,not_or,List.nodup_append'] at hn
    simp only [ATree.height] at hf
    let s1 := s.modify a fun n =>
      { n with len := (s.mem p).len + 1, bitstr := setbit n.bitstr (s.mem p).len v }
    have h1 : s1.mem a = relabelNode (s.mem p).len v (s.mem a) := by simp [s1,relabelNode]
    have hkeep : ∀ (t' : ATree) (m : Nat → Node), a ∉ t'.addrs →
        (∀ b ∈ t'.addrs, (m b).parent = (s.mem b).parent ∧ (m b).sub = (s.mem b).sub) →
        ∀ q, t'.Forall (Links s.mem) (some a) q → t'.Forall (Links m) (some a) q := by
      intro t' m _ hm q
      refine ATree.Forall.imp fun par' path' y hy _ _ hlk => ?_
      obtain ⟨e1,e2⟩ := hm _ (hy y.addr_mem_addrs)
      simpa only [Links,e1,e2] using hlk
    have hl1 : l.Forall (Links s1.mem) (some a) (q ++ [false]) := by
      refine hkeep l s1.mem hn.1.1 (fun b hb => ?_) _ hl
      have hne : b ≠ a := fun h => hn.1.1 (h ▸ hb)
      simp [s1,modify_mem_of_ne _ _ _ _ hne]
    have el := ihl (s := s1) (p := a) (n := k) false hl1 hn.2.1 hn.1.1 (by omega)
    let s2 : State := { s1 with mem := relabel (s1.mem a).len false l s1.mem }
    have h2 : s2.mem a = s1.mem a := relabel_of_notMem hn.1.1 _ _ _
    have hr2 : r.Forall (Links s2.mem) (some a) (q ++ [true]) := by
      refine hkeep r s2.mem hn.1.2 (fun b hb => ?_) _ hr
      have hne : b ≠ a := fun h => hn.1.2 (h ▸ hb)
      simp [s2,s1,modify_mem_of_ne _ _ _ _ hne]
    have er := ihr (s := s2) (p := a) (n := k) true hr2 hn.2.2.1 hn.1.2 (by omega)
    have es : deUpdateSubstr (k + 1) s (some (ATree.node a l r).addr) v =
        (deUpdateSubstr k s1 (some l.addr) false).bind fun s' =>
          deUpdateSubstr k s' ((s'.mem a).sub true) true := by
      simp [deUpdateSubstr,ATree.addr,hpar,hsl,s1]
    have e2 : (s2.mem a).sub true = some r.addr := by rw [h2,h1]; exact hsr
    rw [es,el]
    change deUpdateSubstr k s2 ((s2.mem a).sub true) true = _
    rw [e2,er,h2,h1]
    simp only [relabel,s2,h1]
    rfl

end ViewOS.Treepoch
