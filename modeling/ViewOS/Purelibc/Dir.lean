import Mathlib.Data.List.Basic

namespace ViewOS.Purelibc

-- A directory as the kernel gives it: what is left from an offset, and the offset after n entries.
structure Directory (E : Type) where
  entries : Nat → List E
  next : Nat → Nat → Nat
  seeks : Bool
  entries_next : ∀ p n, entries (next p n) = (entries p).drop n

-- buf is the buffer from the record returned last; bufsize is 0 when there is none.
structure DirStream (E : Type) where
  pos : Nat
  buf : List E
  bufpos : Int

section Dir

variable {E : Type} (d : Directory E) (reclen : E → Nat)

def opendir : DirStream E := ⟨0, [], 0⟩

-- more + 1 records fit in the buffer.
def getdents64 (more : Nat) (s : DirStream E) : DirStream E :=
  let buf := (d.entries s.pos).take (more + 1)
  ⟨d.next s.pos buf.length, buf, if buf.isEmpty then s.bufpos else 0⟩

def readdir64 (more : Nat) (s : DirStream E) : Option E × DirStream E :=
  match s.buf with
  | e :: e' :: buf => (some e', { s with buf := e' :: buf, bufpos := s.bufpos + reclen e })
  | e :: [] =>
    let t := getdents64 d more { s with bufpos := s.bufpos + reclen e }
    (t.buf.head?, t)
  | [] =>
    let t := getdents64 d more s
    (t.buf.head?, t)

def lseekSet (offset : Int) (pos : Nat) : Nat :=
  if d.seeks = true ∧ 0 ≤ offset then offset.toNat else pos

def lseekCur (pos : Nat) : Int := if d.seeks = true then pos else -1

def seekdir (offset : Int) (s : DirStream E) : DirStream E := ⟨lseekSet d offset s.pos, [], 0⟩

def telldir (s : DirStream E) : Int :=
  if lseekCur d s.pos ≠ -1 then -1 else lseekCur d s.pos + s.bufpos

inductive DirCall where
  | readdir64 (more : Nat)
  | telldir
  | seekdir (offset : Int)

def dirStep (s : DirStream E) : DirCall → DirStream E
  | .readdir64 more => (readdir64 d reclen more s).2
  | .telldir => s
  | .seekdir offset => seekdir d offset s

def dirRun (s : DirStream E) (calls : List DirCall) : DirStream E :=
  calls.foldl (dirStep d reclen) s

def reads : List Nat → DirStream E → List (Option E)
  | [], _ => []
  | more :: mores, s => (readdir64 d reclen more s).1 :: reads mores (readdir64 d reclen more s).2

def firsts : Nat → List E → List (Option E)
  | 0, _ => []
  | n + 1, l => l.head? :: firsts n l.tail

def remaining (s : DirStream E) : List E := s.buf.tail ++ d.entries s.pos

variable {d reclen}

theorem getdents64_remaining (more : Nat) (s : DirStream E) :
    (getdents64 d more s).buf.head? = (d.entries s.pos).head? ∧
      remaining d (getdents64 d more s) = (d.entries s.pos).tail := by
  cases h : d.entries s.pos with
  | nil => simp [getdents64,remaining,d.entries_next,h]
  | cons e l =>
    have hrest : l.take more ++ l.drop (min more l.length) = l := by
      rcases Nat.le_total more l.length with hle | hge
      · rw [Nat.min_eq_left hle,List.take_append_drop]
      · rw [Nat.min_eq_right hge,List.take_of_length_le hge,List.drop_length,List.append_nil]
    simp [getdents64,remaining,d.entries_next,h,hrest]

theorem readdir64_remaining (more : Nat) (s : DirStream E) :
    (readdir64 d reclen more s).1 = (remaining d s).head? ∧
      remaining d (readdir64 d reclen more s).2 = (remaining d s).tail := by
  obtain ⟨pos,buf,bufpos⟩ := s
  cases buf with
  | nil => exact getdents64_remaining more _
  | cons e buf =>
    cases buf with
    | nil => exact getdents64_remaining more _
    | cons e' buf => exact ⟨rfl,rfl⟩

theorem reads_eq_firsts (mores : List Nat) (s : DirStream E) :
    reads d reclen mores s = firsts mores.length (remaining d s) := by
  induction mores generalizing s with
  | nil => rfl
  | cons more mores ih =>
    obtain ⟨hhead,htail⟩ := @readdir64_remaining E d reclen more s
    rw [reads,ih,hhead,htail]
    rfl

theorem firsts_inj {l l' : List E} (h : ∀ n, firsts n l = firsts n l') : l = l' := by
  induction l generalizing l' with
  | nil =>
    cases l' with
    | nil => rfl
    | cons e l' => exact absurd (h 1) (by simp [firsts])
  | cons e l ih =>
    cases l' with
    | nil => exact absurd (h 1) (by simp [firsts])
    | cons e' l' =>
      have hhead : e = e' := by simpa [firsts] using h 1
      have htail : l = l' := ih fun n => (List.cons.inj (h (n + 1))).2
      rw [hhead,htail]

theorem lseekSet_telldir (s : DirStream E) (pos : Nat) : lseekSet d (telldir d s) pos = pos := by
  cases h : d.seeks with
  | false => simp [lseekSet,h]
  | true =>
    have hcur : lseekCur d s.pos ≠ -1 := by
      rw [lseekCur,if_pos h]
      omega
    simp [lseekSet,telldir,hcur]

theorem remaining_seekdir (s t : DirStream E) :
    remaining d (seekdir d (telldir d s) t) = d.entries t.pos := by
  simp [remaining,seekdir,lseekSet_telldir]

end Dir

theorem seekdir_telldir {E : Type} (d : Directory E) (reclen : E → Nat)
    (before after : List DirCall) :
    let s := dirRun d reclen opendir before
    let t := dirRun d reclen s after
    (∀ e l, remaining d s = e :: l → ∀ mores,
      reads d reclen mores (seekdir d (telldir d s) t) = firsts mores.length (e :: l)) ↔
    remaining d s = [] ∨ d.entries t.pos = remaining d s := by
  intro s t
  cases hs : remaining d s with
  | nil => simp
  | cons e l =>
    constructor
    · intro h
      refine Or.inr (firsts_inj fun n => ?_)
      have hreads := h e l rfl (List.replicate n 0)
      rwa [reads_eq_firsts,remaining_seekdir,List.length_replicate] at hreads
    · intro h e' l' heq mores
      have hpos : d.entries t.pos = e :: l := by simpa using h
      rw [reads_eq_firsts,remaining_seekdir,hpos,heq]

def threeEntries : Directory Nat :=
  ⟨fun p => [1, 2, 3].drop p, fun p n => p + n, true, fun p n => by rw [List.drop_drop]⟩

theorem seekdir_loses_entry : ¬∀ (d : Directory Nat) (reclen : Nat → Nat)
    (before after : List DirCall) (e : Nat) (l : List Nat),
      remaining d (dirRun d reclen opendir before) = e :: l → ∀ mores,
        reads d reclen mores (seekdir d (telldir d (dirRun d reclen opendir before))
          (dirRun d reclen (dirRun d reclen opendir before) after)) =
            firsts mores.length (e :: l) := by
  intro h
  have hread := h threeEntries (fun _ => 24) [.readdir64 1] [] 2 [3] rfl [0]
  exact absurd hread (by decide)

end ViewOS.Purelibc
