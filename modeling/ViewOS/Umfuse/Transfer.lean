import ViewOS.Lib.Trace
import ViewOS.Umfuse.Handle

namespace ViewOS.Umfuse
open Trace

structure Cursor where
  file : File
  pos : Int
  accmode : Accmode
  append : Bool
  deriving DecidableEq

def Cursor.opened (file : File) (flags : Flags) : Cursor := ⟨file, 0, flags.accmode, flags.append⟩

def Cursor.size (c : Cursor) : Int := c.file.data.length

def Cursor.start (c : Cursor) : Int := if c.append then c.size else c.pos

def Cursor.read (c : Cursor) (count : Nat) : Result × Cursor :=
  if c.accmode = .wronly then (.error ebadf, c)
  else match fopsRead c.file count c.pos with
    | .error errno => (.error errno, c)
    | .ok buf => (.bytes buf, { c with pos := c.pos + buf.length })

def Cursor.write (c : Cursor) (buf : List UInt8) : Result × Cursor :=
  if c.accmode = .rdonly then (.error ebadf, c)
  else match fopsWrite c.file buf c.start with
    | .error errno => (.error errno, { c with pos := c.start })
    | .ok f => (.value buf.length, { c with file := f, pos := c.start + buf.length })

def Cursor.pread (c : Cursor) (count : Nat) (offset : Int) : Result × Cursor :=
  if c.accmode = .wronly then (.error ebadf, c)
  else match fopsRead c.file count offset with
    | .error errno => (.error errno, c)
    | .ok buf => (.bytes buf, c)

def Cursor.pwrite (c : Cursor) (buf : List UInt8) (offset : Int) : Result × Cursor :=
  if c.accmode = .rdonly then (.error ebadf, c)
  else match fopsWrite c.file buf offset with
    | .error errno => (.error errno, c)
    | .ok f => (.value buf.length, { c with file := f })

def Cursor.target (c : Cursor) (offset : Int) : Whence → Int
  | .set => offset
  | .cur => c.pos + offset
  | .end => c.size + offset

def Cursor.lseek (c : Cursor) (offset : Int) (whence : Whence) : Result × Cursor :=
  (.value (c.target offset whence), { c with pos := c.target offset whence })

def Cursor.perform (c : Cursor) : Op → Result × Cursor
  | .read count => c.read count
  | .write buf => c.write buf
  | .pread count offset => c.pread count offset.toInt
  | .pwrite buf offset => c.pwrite buf offset.toInt
  | .lseek offset whence => c.lseek offset.toInt whence

def observed (s : State) (o : Op) : (Result × Int) × State :=
  (((perform s o).1, (perform s o).2.ft.pos.toInt), (perform s o).2)

def Cursor.observed (c : Cursor) (o : Op) : (Result × Int) × Cursor :=
  (((c.perform o).1, (c.perform o).2.pos), (c.perform o).2)

abbrev State.cursor (s : State) : Cursor := ⟨s.file, s.ft.pos.toInt, s.ft.accmode, s.ft.append⟩

def Fits (x : Int) : Prop := -2 ^ 63 ≤ x ∧ x < 2 ^ 63

def Transparent (s : State) : Op → Prop
  | .read count => s.ft.accmode ≠ .wronly → s.ft.pos = s.ft.size →
      0 ≤ s.ft.pos.toInt ∧ (count = 0 ∨ s.file.data.length ≤ s.ft.pos.toInt)
  | .pread count offset => s.ft.accmode ≠ .wronly → s.ft.size ≤ offset →
      0 ≤ offset.toInt ∧ (count = 0 ∨ s.file.data.length ≤ offset.toInt)
  | .write _ => s.ft.accmode ≠ .rdonly → s.ft.append → s.file.data.length % 2 ^ 32 ≠ 2 ^ 32 - 1
  | .pwrite _ _ => True
  | .lseek offset whence => Fits (s.cursor.target offset.toInt whence)

instance (s : State) : (o : Op) → Decidable (Transparent s o)
  | .read _ => inferInstanceAs (Decidable (_ → _ → _ ∧ _))
  | .pread _ _ => inferInstanceAs (Decidable (_ → _ → _ ∧ _))
  | .write _ => inferInstanceAs (Decidable (_ → _ → _))
  | .pwrite _ _ => inferInstanceAs (Decidable True)
  | .lseek _ _ => inferInstanceAs (Decidable (_ ∧ _))

theorem toInt_ofNat {n : Nat} (h : n < 2 ^ 63) : (Int64.ofNat n).toInt = n := Int64.toInt_ofNat_of_lt h

theorem toInt_add_iff (a b : Int64) : (a + b).toInt = a.toInt + b.toInt ↔ Fits (a.toInt + b.toInt) := by
  have hle := Int64.le_toInt (a + b)
  have hlt := Int64.toInt_lt (a + b)
  constructor
  · intro h
    rw [← h]
    exact ⟨hle,hlt⟩
  · rintro ⟨hle,hlt⟩
    rw [Int64.toInt_add]
    exact Int.bmod_eq_of_le (by omega) (by omega)

theorem toInt_size (f : File) : f.size.toInt = f.data.length := toInt_ofNat f.short

theorem size_toInt32 (f : File) : f.size.toInt32 = -1 ↔ f.data.length % 2 ^ 32 = 2 ^ 32 - 1 := by
  have hneg : (-1 : Int32).toInt = -1 := by decide
  rw [← Int32.toInt_inj,Int64.toInt_toInt32,toInt_size,hneg,Int.bmod_def]
  split_ifs <;> omega

theorem fopsRead_nil_iff (f : File) (count : Nat) (off : Int) :
    fopsRead f count off = .ok [] ↔ 0 ≤ off ∧ (count = 0 ∨ f.data.length ≤ off) := by
  unfold fopsRead
  split_ifs with hneg
  · simp only [false_iff,not_and]
    intro hle
    omega
  · simp only [Except.ok.injEq,List.take_eq_nil_iff,List.drop_eq_nil_iff]
    omega

theorem fopsRead_end {f : File} {count : Nat} {off : Int} {buf : List UInt8}
    (h : fopsRead f count off = .ok buf) : buf = [] ∨ 0 ≤ off ∧ off + buf.length ≤ f.data.length := by
  unfold fopsRead at h
  split_ifs at h with hneg
  obtain rfl := Except.ok.inj h
  by_cases hempty : (f.data.drop off.toNat).take count = []
  · exact Or.inl hempty
  · right
    have hlen := List.length_pos_iff.mpr hempty
    rw [List.length_take,List.length_drop] at hlen ⊢
    omega

theorem fopsWrite_end {f g : File} {buf : List UInt8} {off : Int} (h : fopsWrite f buf off = .ok g) :
    0 ≤ off ∧ off + buf.length < 2 ^ 63 := by
  unfold fopsWrite at h
  split_ifs at h with hneg hshort
  omega

theorem fopsWrite_error {f : File} {buf : List UInt8} {off errno : Int}
    (h : fopsWrite f buf off = .error errno) : errno ≠ eperm := by
  unfold fopsWrite at h
  split_ifs at h
  · obtain rfl := Except.error.inj h
    decide
  · obtain rfl := Except.error.inj h
    decide

section Calls

variable {s : State} {buf : List UInt8} {count : Nat} {offset : Int64} {whence : Whence}

theorem advance {pos : Int64} {n : Nat} (hn : n < 2 ^ 63) (h : pos.toInt + n < 2 ^ 63) :
    (pos + Int64.ofNat n).toInt = pos.toInt + n := by
  have hpos := Int64.le_toInt pos
  have hfits : Fits (pos.toInt + (Int64.ofNat n).toInt) := by
    rw [toInt_ofNat hn]
    exact ⟨by omega,h⟩
  rw [(toInt_add_iff pos (Int64.ofNat n)).mpr hfits,toInt_ofNat hn]

theorem read_sound (h : Transparent s (.read count)) :
    Prod.map id State.cursor (umfuseRead s count) = s.cursor.read count := by
  simp only [umfuseRead,Cursor.read]
  by_cases hacc : s.ft.accmode = .wronly
  · rw [if_pos hacc,if_pos hacc]
    rfl
  · rw [if_neg hacc,if_neg hacc]
    by_cases hpos : s.ft.pos = s.ft.size
    · rw [if_pos hpos,(fopsRead_nil_iff _ _ _).mpr (h hacc hpos)]
      simp [State.cursor]
    · rw [if_neg hpos]
      cases hread : fopsRead s.file count s.ft.pos.toInt with
      | error errno => rfl
      | ok buf =>
        have hlt := Int64.toInt_lt s.ft.pos
        have hshort := s.file.short
        have hend : buf.length < 2 ^ 63 ∧ s.ft.pos.toInt + buf.length < 2 ^ 63 := by
          rcases fopsRead_end hread with rfl | ⟨hle,hend⟩
          · exact ⟨by decide,by simpa using hlt⟩
          · omega
        simp only [Prod.map,State.cursor,id,advance hend.1 hend.2]

theorem read_exact (h : (umfuseRead s count).1 = (s.cursor.read count).1) :
    Transparent s (.read count) := by
  intro hacc hpos
  simp only [umfuseRead,Cursor.read,if_neg hacc,
    if_pos hpos] at h
  apply (fopsRead_nil_iff s.file count s.ft.pos.toInt).mp
  cases hread : fopsRead s.file count s.ft.pos.toInt with
  | error errno => simp [hread] at h
  | ok buf =>
    rw [hread] at h
    rw [← Result.bytes.inj h]

theorem pread_sound (h : Transparent s (.pread count offset)) :
    Prod.map id State.cursor (umfusePread64 s count offset) = s.cursor.pread count offset.toInt := by
  simp only [umfusePread64,Cursor.pread]
  by_cases hacc : s.ft.accmode = .wronly
  · rw [if_pos hacc,if_pos hacc]
    rfl
  · rw [if_neg hacc,if_neg hacc]
    by_cases hsize : s.ft.size ≤ offset
    · rw [if_pos hsize,(fopsRead_nil_iff _ _ _).mpr (h hacc hsize)]
      rfl
    · rw [if_neg hsize]
      cases fopsRead s.file count offset.toInt <;> rfl

theorem pread_exact (h : (umfusePread64 s count offset).1 = (s.cursor.pread count offset.toInt).1) :
    Transparent s (.pread count offset) := by
  intro hacc hsize
  simp only [umfusePread64,Cursor.pread,if_neg hacc,if_pos hsize] at h
  apply (fopsRead_nil_iff s.file count offset.toInt).mp
  cases hread : fopsRead s.file count offset.toInt with
  | error errno => simp [hread] at h
  | ok buf =>
    rw [hread] at h
    rw [← Result.bytes.inj h]

theorem pwrite_sound :
    Prod.map id State.cursor (umfusePwrite64 s buf offset) = s.cursor.pwrite buf offset.toInt := by
  simp only [umfusePwrite64,Cursor.pwrite]
  split_ifs
  · rfl
  · cases fopsWrite s.file buf offset.toInt <;> rfl

def State.atStart (s : State) : State :=
  if s.ft.append then { s with ft := { s.ft with pos := s.file.size } } else s

theorem cursor_atStart : s.atStart.cursor = { s.cursor with pos := s.cursor.start } := by
  unfold State.atStart Cursor.start Cursor.size
  split_ifs
  · rw [State.cursor,State.cursor,toInt_size]
  · rfl

theorem umfuseWrite_eq (hacc : s.ft.accmode ≠ .rdonly) : umfuseWrite s buf =
    if s.ft.append ∧ s.file.data.length % 2 ^ 32 = 2 ^ 32 - 1 then (.error eperm, s.atStart)
    else writeAt s.atStart buf := by
  have hzero : ¬ (0 : Int64).toInt32 = -1 := by decide
  rw [umfuseWrite,if_neg hacc]
  cases happend : s.ft.append with
  | false => simp [State.atStart,happend]
  | true =>
    simp [State.atStart,happend,umfuseLseek64,size_toInt32]

theorem writeAt_sound : Prod.map id State.cursor (writeAt s buf) =
    match fopsWrite s.file buf s.ft.pos.toInt with
    | .error errno => (.error errno, s.cursor)
    | .ok f => (.value buf.length, { s.cursor with file := f, pos := s.ft.pos.toInt + buf.length }) := by
  rw [writeAt]
  cases hwrite : fopsWrite s.file buf s.ft.pos.toInt with
  | error errno => rfl
  | ok f =>
    obtain ⟨hle,hlt⟩ := fopsWrite_end hwrite
    simp only [Prod.map,id,State.cursor,advance (by omega) hlt]

theorem write_sound (h : Transparent s (.write buf)) :
    Prod.map id State.cursor (umfuseWrite s buf) = s.cursor.write buf := by
  by_cases hacc : s.ft.accmode = .rdonly
  · rw [umfuseWrite,if_pos hacc,Cursor.write,if_pos (by exact hacc)]
    rfl
  · have hstart : s.atStart.ft.pos.toInt = s.cursor.start := congrArg Cursor.pos cursor_atStart
    have hfile : s.atStart.file = s.file := congrArg Cursor.file cursor_atStart
    rw [umfuseWrite_eq hacc,if_neg fun hbad => h hacc hbad.1 hbad.2,Cursor.write,
      if_neg (by exact hacc),writeAt_sound,hstart,hfile,cursor_atStart]

theorem write_exact (h : (umfuseWrite s buf).1 = (s.cursor.write buf).1) : Transparent s (.write buf) := by
  intro hacc happend hlen
  rw [umfuseWrite_eq hacc,if_pos ⟨happend,hlen⟩,Cursor.write,if_neg (by exact hacc)] at h
  cases hwrite : fopsWrite s.cursor.file buf s.cursor.start with
  | error errno =>
    rw [hwrite] at h
    exact fopsWrite_error hwrite (Result.error.inj h).symm
  | ok f =>
    rw [hwrite] at h
    cases h

theorem lseek_target : (umfuseLseek64 s offset whence).1.toInt = s.cursor.target offset.toInt whence ↔
    Fits (s.cursor.target offset.toInt whence) := by
  cases whence with
  | set => exact ⟨fun _ => ⟨Int64.le_toInt offset,Int64.toInt_lt offset⟩,fun _ => rfl⟩
  | cur => exact toInt_add_iff s.ft.pos offset
  | «end» =>
    have hsum := toInt_add_iff s.file.size offset
    rw [toInt_size] at hsum
    exact hsum

theorem lseek_cursor : (umfuseLseek64 s offset whence).2.cursor =
    { s.cursor with pos := (umfuseLseek64 s offset whence).1.toInt } := by
  cases whence <;> rfl

theorem perform_sound {o : Op} (h : Transparent s o) :
    Prod.map id State.cursor (perform s o) = s.cursor.perform o := by
  cases o with
  | read count => exact read_sound h
  | write buf => exact write_sound h
  | pread count offset => exact pread_sound h
  | pwrite buf offset => exact pwrite_sound
  | lseek offset whence =>
    simp only [perform,Prod.map,id,lseek_cursor,lseek_target.mpr h]
    rfl

theorem perform_exact {o : Op} (h : (perform s o).1 = (s.cursor.perform o).1) : Transparent s o := by
  cases o with
  | read count => exact read_exact h
  | write buf => exact write_exact h
  | pread count offset => exact pread_exact h
  | pwrite buf offset => exact trivial
  | lseek offset whence => exact lseek_target.mp (Result.value.inj h)

end Calls

theorem observed_eq_iff (s : State) (os : List Op) :
    outputs observed s os = outputs Cursor.observed s.cursor os ↔ Along observed Transparent s os := by
  apply outputs_eq_iff (r := fun s c => s.cursor = c) _ _ rfl
  · rintro s c o rfl hok
    have hsound := perform_sound hok
    have hresult : (perform s o).1 = (s.cursor.perform o).1 := congrArg Prod.fst hsound
    have hcursor : (perform s o).2.cursor = (s.cursor.perform o).2 := congrArg Prod.snd hsound
    exact ⟨Prod.ext hresult (congrArg Cursor.pos hcursor),hcursor⟩
  · rintro s c o rfl hobs
    exact perform_exact (congrArg Prod.fst hobs)

theorem umfuseOpen_cursor {fuse : Mount} {fs : Option File} {flags : Flags} {garbage : Stat} {s : State}
    (h : umfuseOpen fuse fs flags garbage = .ok s) : s.cursor = Cursor.opened s.file flags := by
  simp only [umfuseOpen] at h
  split_ifs at h
  cases hfile : openFile fuse flags fs with
  | error errno =>
    rw [hfile] at h
    cases h
  | ok f =>
    rw [hfile] at h
    obtain rfl := Except.ok.inj h
    rfl

theorem handle_transfers_iff {fuse : Mount} {fs : Option File} {flags : Flags} {garbage : Stat}
    {s : State} (h : umfuseOpen fuse fs flags garbage = .ok s) (os : List Op) :
    outputs observed s os = outputs Cursor.observed (Cursor.opened s.file flags) os ↔
      Along observed Transparent s os := by
  rw [← umfuseOpen_cursor h]
  exact observed_eq_iff s os

def plain : Mount := ⟨false, none⟩

def readWrite : Flags := ⟨.rdwr, false, false, false, false, false⟩

def threeBytes : File := ⟨[1, 2, 3], by decide⟩

def throughEnd : List Op :=
  [.read 2, .read 5, .lseek 2 .end, .write [7], .pread 2 1, .lseek 0 .set, .pwrite [9] 0, .read 4]

def threeOpened : State := ⟨threeBytes, ⟨0, 3, .rdwr, false⟩⟩

theorem throughEnd_transfers :
    umfuseOpen plain (some threeBytes) readWrite ⟨0, false⟩ = .ok threeOpened ∧
    Along observed Transparent threeOpened throughEnd ∧
    (outputs observed threeOpened throughEnd =
      outputs Cursor.observed (Cursor.opened threeBytes readWrite) throughEnd ↔
      Along observed Transparent threeOpened throughEnd) := by
  have hopen : umfuseOpen plain (some threeBytes) readWrite ⟨0,false⟩ = .ok threeOpened := rfl
  exact ⟨hopen,by decide +kernel,handle_transfers_iff hopen throughEnd⟩

def emptyOpened : State := ⟨.empty, ⟨0, 0, .rdwr, false⟩⟩

def writeAndRead : List Op := [.write [1, 2, 3, 4, 5], .lseek 0 .set, .read 5]

theorem written_not_read :
    umfuseOpen plain (some .empty) readWrite ⟨0, false⟩ = .ok emptyOpened ∧
    outputs observed emptyOpened writeAndRead = [(.value 5, 5), (.value 0, 0), (.bytes [], 0)] ∧
    outputs Cursor.observed (Cursor.opened .empty readWrite) writeAndRead =
      [(.value 5, 5), (.value 0, 0), (.bytes [1, 2, 3, 4, 5], 5)] :=
  ⟨rfl,by decide +kernel,by decide +kernel⟩

end ViewOS.Umfuse
