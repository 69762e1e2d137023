import ViewOS.Lib.Run
import ViewOS.Userfilter.Session

namespace ViewOS.Userfilter.Ports

open Transition

structure State where
  ports : Nat → Bool
  used : PortTable → Nat → Bool

inductive Op where
  | getnew (proto : TrackProtocol) (min max : BitVec 16)
  | free (proto : TrackProtocol) (port : BitVec 16)

def mark (used : PortTable → Nat → Bool) (table : PortTable) (port : Nat) (value : Bool) :
    PortTable → Nat → Bool :=
  Function.update used table (Function.update (used table) port value)

def step (s : State) : Op → Option State
  | .getnew proto min max =>
    match natPortsTable proto, natPortsGetnew s.ports proto min.toNat max.toNat with
    | some table, some (port, ports) => some ⟨ports, mark s.used table port true⟩
    | _, _ => some s
  | .free proto port =>
    match natPortsTable proto with
    | some table =>
      some ⟨natPortsFree s.ports proto port.toNat, mark s.used table port.toNat false⟩
    | none => some s

def init : State := ⟨fun _ => true, fun _ _ => false⟩

def scanned (ports : Nat → Bool) (base : Nat) (i : Nat) : Nat → List Nat
  | 0 => []
  | n + 1 => i :: if ports (base + i) then [] else scanned ports base (i + 1) n

def Agrees (ports : Nat → Bool) (used : PortTable → Nat → Bool) : Prop :=
  ∀ (table : PortTable) (port : Nat), port < portsTableBits →
    ports (table.base + port) = !used table port

def Law (s : State) : Op → Prop
  | .getnew proto min max => ∀ table, natPortsTable proto = some table →
    (∀ i ∈ scanned s.ports table.base min.toNat (max.toNat - min.toNat), i < portsTableBits) ∧
    match natPortsGetnew s.ports proto min.toNat max.toNat with
    | some (port, ports) => min.toNat ≤ port ∧ port ≤ max.toNat ∧ s.used table port = false ∧
      Agrees ports (mark s.used table port true)
    | none => ∀ port, min.toNat ≤ port → port ≤ max.toNat → s.used table port = true
  | .free proto port => ∀ table, natPortsTable proto = some table →
    port.toNat < portsTableBits ∧
    Agrees (natPortsFree s.ports proto port.toNat) (mark s.used table port.toNat false)

-- The upper end of the range is not looked at, and the last eight ports have no bit.
def Fits (s : State) : Op → Prop
  | .getnew proto min max => ∀ table, natPortsTable proto = some table →
    (∃ port, min.toNat ≤ port ∧ port < max.toNat ∧ port < portsTableBits ∧
      s.used table port = false) ∨
    ∀ port, min.toNat ≤ port → port ≤ max.toNat → s.used table port = true
  | .free proto port => natPortsTable proto ≠ none → port.toNat < portsTableBits

structure Sound (s : State) : Prop where
  agrees : Agrees s.ports s.used
  inside : ∀ table port, s.used table port = true → port < portsTableBits

section Scan

variable {ports : Nat → Bool} {base i n j : Nat}

theorem getnewRange_some (h : getnewRange ports base i n = some j) : i ≤ j ∧ j < i + n ∧
    ports (base + j) = true ∧ ∀ k, i ≤ k → k < j → ports (base + k) = false := by
  induction n generalizing i with
  | zero => cases h
  | succ n ih =>
    rw [getnewRange] at h
    split_ifs at h with hi
    · obtain rfl := Option.some.inj h
      exact ⟨le_rfl,by omega,hi,fun k h1 h2 => by omega⟩
    · obtain ⟨h1,h2,h3,h4⟩ := ih h
      refine ⟨by omega,by omega,h3,fun k hk hkj => ?_⟩
      rcases eq_or_lt_of_le hk with rfl | hlt
      · exact Bool.eq_false_of_not_eq_true hi
      · exact h4 k hlt hkj

theorem getnewRange_none (h : getnewRange ports base i n = none) :
    ∀ k, i ≤ k → k < i + n → ports (base + k) = false := by
  induction n generalizing i with
  | zero => intro k h1 h2; omega
  | succ n ih =>
    rw [getnewRange] at h
    split_ifs at h with hi
    intro k hk hlt
    rcases eq_or_lt_of_le hk with rfl | hlt'
    · exact Bool.eq_false_of_not_eq_true hi
    · exact ih h k hlt' (by omega)

theorem mem_scanned : j ∈ scanned ports base i n ↔
    i ≤ j ∧ j < i + n ∧ ∀ k, i ≤ k → k < j → ports (base + k) = false := by
  induction n generalizing i with
  | zero => exact iff_of_false (List.not_mem_nil) fun h => by omega
  | succ n ih =>
    rw [scanned,List.mem_cons]
    constructor
    · rintro (rfl | hj)
      · exact ⟨le_rfl,by omega,fun k h1 h2 => by omega⟩
      · split_ifs at hj with hi
        · cases hj
        · obtain ⟨h1,h2,h3⟩ := ih.mp hj
          refine ⟨by omega,by omega,fun k hk hkj => ?_⟩
          rcases eq_or_lt_of_le hk with rfl | hlt
          · exact Bool.eq_false_of_not_eq_true hi
          · exact h3 k hlt hkj
    · rintro ⟨h1,h2,h3⟩
      rcases eq_or_lt_of_le h1 with rfl | hlt
      · exact Or.inl rfl
      · rw [if_neg (by rw [h3 i le_rfl hlt]; decide)]
        exact Or.inr (ih.mpr ⟨hlt,by omega,fun k hk hkj => h3 k (by omega) hkj⟩)

end Scan

section Tables

variable {ports : Nat → Bool} {used : PortTable → Nat → Bool} {table : PortTable} {port : Nat}

theorem base_add_inj {table' : PortTable} {port' : Nat} (h : port < portsTableBits)
    (h' : port' < portsTableBits) (heq : table.base + port = table'.base + port') :
    table = table' ∧ port = port' := by
  rw [portsTableBits] at h h'
  cases table <;> cases table' <;> simp only [PortTable.base,portsTableBits] at heq <;>
    first | exact ⟨rfl,by omega⟩ | omega

theorem Agrees.update (h : Agrees ports used) (hport : port < portsTableBits) (value : Bool) :
    Agrees (Function.update ports (table.base + port) (!value)) (mark used table port value) := by
  intro table' port' hport'
  rcases eq_or_ne (table'.base + port') (table.base + port) with heq | hne
  · obtain ⟨rfl,rfl⟩ := base_add_inj hport' hport heq
    rw [heq,Function.update_self,mark,Function.update_self,Function.update_self]
  · rw [Function.update_of_ne hne,h table' port' hport',mark]
    rcases eq_or_ne table' table with rfl | htable
    · have hne' : port' ≠ port := fun he => hne (by rw [he])
      rw [Function.update_self,Function.update_of_ne hne']
    · rw [Function.update_of_ne htable]

end Tables

variable {s t : State}

theorem Sound.free_law (h : Sound s) (proto : TrackProtocol) (port : BitVec 16) :
    Law s (.free proto port) ↔ Fits s (.free proto port) := by
  constructor
  · intro hlaw hne
    obtain ⟨table,htable⟩ := Option.ne_none_iff_exists'.mp hne
    exact (hlaw table htable).1
  · intro hfits table htable
    have hport : port.toNat < portsTableBits := hfits (by rw [htable]; exact Option.some_ne_none _)
    refine ⟨hport,?_⟩
    rw [natPortsFree,htable]
    exact h.agrees.update hport false

theorem Sound.getnew_law (h : Sound s) (proto : TrackProtocol) (min max : BitVec 16) :
    Law s (.getnew proto min max) ↔ Fits s (.getnew proto min max) := by
  refine forall₂_congr fun table htable => ?_
  rw [natPortsGetnew,htable]
  dsimp only
  have hbit : ∀ port < portsTableBits, s.ports (table.base + port) = !s.used table port :=
    h.agrees table
  cases hscan : getnewRange s.ports table.base min.toNat (max.toNat - min.toNat) with
  | some port =>
    obtain ⟨h1,h2,h3,h4⟩ := getnewRange_some hscan
    have hmem : port ∈ scanned s.ports table.base min.toNat (max.toNat - min.toNat) :=
      mem_scanned.mpr ⟨h1,h2,h4⟩
    constructor
    · rintro ⟨hin,-,-,hfree,-⟩
      exact Or.inl ⟨port,h1,by omega,hin port hmem,hfree⟩
    · intro hfits
      -- The scan stops at the first free port, at or below the one the condition names.
      have hlt : port < portsTableBits := by
        rcases hfits with ⟨p,hp1,hp2,hp3,hp4⟩ | hall
        · rcases lt_or_ge p port with hp | hp
          · have hfalse := h4 p hp1 hp
            rw [hbit p hp3,hp4] at hfalse
            cases hfalse
          · omega
        · exact h.inside table port (hall port h1 (by omega))
      refine ⟨fun i hi => ?_,h1,by omega,?_,h.agrees.update hlt true⟩
      · obtain ⟨-,-,hi⟩ := mem_scanned.mp hi
        rcases lt_or_ge port i with hp | hp
        · rw [hi port h1 hp] at h3
          cases h3
        · omega
      · rw [hbit port hlt] at h3
        exact Bool.not_eq_true' _ |>.mp h3
  | none =>
    have hnone := getnewRange_none hscan
    constructor
    · exact fun hlaw => Or.inr hlaw.2
    · rintro (⟨p,hp1,hp2,hp3,hp4⟩ | hall)
      · have hfalse := hnone p hp1 (by omega)
        rw [hbit p hp3,hp4] at hfalse
        cases hfalse
      · refine ⟨fun i hi => ?_,hall⟩
        obtain ⟨hi1,hi2,-⟩ := mem_scanned.mp hi
        exact h.inside table i (hall i hi1 (by omega))

theorem Sound.law_iff (h : Sound s) (op : Op) : Law s op ↔ Fits s op := by
  cases op with
  | getnew proto min max => exact h.getnew_law proto min max
  | free proto port => exact h.free_law proto port

theorem mark_inside {used : PortTable → Nat → Bool} {table : PortTable} {port : Nat} {value : Bool}
    (h : ∀ table port, used table port = true → port < portsTableBits)
    (hport : port < portsTableBits) (table' : PortTable) (port' : Nat)
    (hmark : mark used table port value table' port' = true) : port' < portsTableBits := by
  rcases eq_or_ne port' port with rfl | hne
  · exact hport
  · rcases eq_or_ne table' table with rfl | htable
    · rw [mark,Function.update_self,Function.update_of_ne hne] at hmark
      exact h _ _ hmark
    · rw [mark,Function.update_of_ne htable] at hmark
      exact h _ _ hmark

theorem Sound.step (h : Sound s) {op : Op} (hfits : Fits s op) (hstep : step s op = some t) :
    Sound t := by
  have hlaw := (h.law_iff op).mpr hfits
  cases op with
  | getnew proto min max =>
    rw [Ports.step] at hstep
    split at hstep
    · next table port ports htable hget =>
        obtain rfl := Option.some.inj hstep
        have hport := hlaw table htable
        rw [hget] at hport
        refine ⟨hport.2.2.2.2,mark_inside h.inside ?_⟩
        rw [natPortsGetnew,htable] at hget
        obtain ⟨p,hscan,hp⟩ := Option.map_eq_some_iff.mp hget
        obtain rfl : p = port := congrArg Prod.fst hp
        obtain ⟨h1,h2,-,h4⟩ := getnewRange_some hscan
        exact hport.1 p (mem_scanned.mpr ⟨h1,h2,h4⟩)
    · obtain rfl := Option.some.inj hstep
      exact h
  | free proto port =>
    rw [Ports.step] at hstep
    split at hstep
    · next table htable =>
        obtain rfl := Option.some.inj hstep
        exact ⟨(hlaw table htable).2,mark_inside h.inside (hlaw table htable).1⟩
    · obtain rfl := Option.some.inj hstep
      exact h

theorem sound_init : Sound init := ⟨fun _ _ _ => rfl,fun _ _ h => nomatch h⟩

theorem natPorts_law_iff (s : State) (h : Run step Fits init s) (op : Op) :
    Sound s ∧ (Law s op ↔ Fits s op) := by
  have hsound : Sound s := h.invariant (fun _ _ _ ht hfits hstep => ht.step hfits hstep) sound_init
  exact ⟨hsound,hsound.law_iff op⟩

theorem natPorts_taken_and_freed : ∃ s, Run step Fits init s ∧ s.used .tcp 1024 = false ∧
    s.used .tcp 1025 = true ∧ s.used .udp 1024 = true ∧ Sound s := by
  have htake : ∀ s proto table port, natPortsTable proto = some table →
      1024 ≤ port ∧ port < 1030 ∧ port < portsTableBits → s.used table port = false →
      Fits s (.getnew proto 1024 1030) := by
    intro s proto table port ht hport hfree t htable
    obtain rfl : table = t := Option.some.inj (ht.symm.trans htable)
    exact Or.inl ⟨port,hport.1,hport.2.1,hport.2.2,hfree⟩
  have h₁ : Run step Fits init _ :=
    (Run.refl init).tail (htake init .tcp .tcp 1024 rfl (by decide) rfl) rfl
  have h₂ := h₁.tail (htake _ .tcp .tcp 1025 rfl (by decide) rfl) rfl
  have h₃ := h₂.tail (htake _ .udp .udp 1024 rfl (by decide) rfl) rfl
  have hfree : ∀ s, Fits s (.free .tcp 1024) := fun _ _ => by decide
  have h₄ := h₃.tail (hfree _) rfl
  exact ⟨_,h₄,rfl,rfl,rfl,(natPorts_law_iff _ h₄ (.free .tcp 1025)).1⟩

theorem natPorts_single_port : ¬∀ (s : State) (op : Op), Run step Law init s → Law s op := by
  intro hall
  have hnone := (hall init (.getnew .tcp 80 80) (.refl init) .tcp rfl).2 80 (by decide) (by decide)
  cases hnone

end ViewOS.Userfilter.Ports
