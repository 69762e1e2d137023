import Mathlib.Data.List.Nodup
import Mathlib.Data.Nat.Find

namespace ViewOS.Viewfs.Listing

abbrev Name := List UInt8

def privateName : Name := [0x2e, 0x2d]

def dtReg : UInt8 := 8

structure Dirent where
  name : Name
  type : UInt8
  ino : Nat

structure Umdirent extends Dirent where
  reclen : Nat
  off : Nat

def wordlen : Nat := 8

def wordAlign (x : Nat) : Nat := (x + wordlen) / wordlen * wordlen

def sizeDirent64Noname : Nat := 19

def recordLength (name : Name) : Nat := wordAlign (sizeDirent64Noname + name.length + 1)

def mergeNewentry (name : Name) : List Umdirent → Bool
  | [] => true
  | e :: old => if e.name = name then false else mergeNewentry name old

def listed (wipeout rootdir : Bool) (old : List Umdirent) (de : Dirent) : Bool :=
  !(wipeout && de.type != dtReg) && mergeNewentry de.name old &&
    !(rootdir && de.name == privateName)

def newEntry (wipeout : Bool) (offset : Nat) (de : Dirent) : Umdirent :=
  if wipeout then { de with reclen := 0, off := offset }
  else
    { de with
      reclen := recordLength de.name
      off := offset + wordAlign (12 + de.name.length) }

-- The circular list is kept from its first entry to its head, which is the last one.
def addLoop (wipeout rootdir : Bool) (old : List Umdirent) :
    List Dirent → List Umdirent → Nat → List Umdirent
  | [], head, _ => head
  | de :: dir, head, offset =>
    if listed wipeout rootdir old de then
      addLoop wipeout rootdir old dir (head ++ [newEntry wipeout offset de])
        (newEntry wipeout offset de).off
    else addLoop wipeout rootdir old dir head offset

def umadddirinfo (dir : List Dirent) (head : List Umdirent) (wipeout rootdir : Bool) :
    List Umdirent :=
  addLoop wipeout rootdir head dir head
    (head.getLast?.elim 0 fun e => e.off + wordAlign (12 + e.name.length))

structure Merged where
  upper : List Dirent
  wiped : List Dirent
  lower : List Dirent
  rootdir : Bool
  upperNodup : (upper.map (·.name)).Nodup
  lowerNodup : (lower.map (·.name)).Nodup

def Merged.umfilldirinfo (d : Merged) : List Umdirent :=
  umadddirinfo d.lower (umadddirinfo d.wiped (umadddirinfo d.upper [] false d.rootdir) true false)
    false false

def record (e : Umdirent) : Umdirent := { e with ino := if e.ino = 0 then 2 else e.ino }

def serve (count : Nat) : Nat → List Umdirent → List Umdirent × List Umdirent
  | _, [] => ([], [])
  | curoffs, e :: rest =>
    if curoffs + e.reclen < count then
      let next := serve count (curoffs + e.reclen) rest
      (if 0 < e.reclen then record e :: next.1 else next.1, next.2)
    else ([], e :: rest)

-- dirpos is kept as the entries behind it up to dirinfo, none for the null pointer. A first
-- call that moves nowhere leaves dirpos at dirinfo, behind which there is nothing.
def getdents64 (dirinfo : List Umdirent) (dirpos : Option (List Umdirent)) (count : Nat) :
    List Umdirent × Option (List Umdirent) :=
  if dirinfo = [] then ([], dirpos)
  else match dirpos with
    | none =>
      let next := serve count 0 dirinfo
      (next.1, some (if next.2.length = dirinfo.length then [] else next.2))
    | some rest => ((serve count 0 rest).1, some (serve count 0 rest).2)

section
variable (dirinfo : List Umdirent) (counts : Nat → Nat)

def dirpos : Nat → Option (List Umdirent)
  | 0 => none
  | n + 1 => (getdents64 dirinfo (dirpos n) (counts n)).2

def answer (n : Nat) : List Umdirent := (getdents64 dirinfo (dirpos dirinfo counts n) (counts n)).1

def answers (n : Nat) : List Umdirent := (List.range n).flatMap (answer dirinfo counts)

end

def Merged.Visible (d : Merged) (x : Name) : Prop :=
  (x ∈ d.upper.map (·.name) ∧ ¬ (d.rootdir = true ∧ x = privateName)) ∨
    (x ∈ d.lower.map (·.name) ∧ ∀ w ∈ d.wiped, w.type = dtReg → w.name ≠ x)

def Listed (d : Merged) (counts : Nat → Nat) : Prop :=
  ∃ n, answer d.umfilldirinfo counts n = [] ∧
    (∀ i < n, answer d.umfilldirinfo counts i ≠ []) ∧
    ((answers d.umfilldirinfo counts n).map (·.name)).Nodup ∧
    ∀ x, x ∈ (answers d.umfilldirinfo counts n).map (·.name) ↔ d.Visible x

def real (l : List Umdirent) : List Umdirent := l.filter (0 < ·.reclen)

theorem real_append (l m : List Umdirent) : real (l ++ m) = real l ++ real m :=
  List.filter_append l m

theorem mergeNewentry_iff (name : Name) (old : List Umdirent) :
    mergeNewentry name old = true ↔ name ∉ old.map (·.name) := by
  induction old with
  | nil => simp [mergeNewentry]
  | cons e old ih =>
    rw [mergeNewentry]
    split_ifs with h
    · simp [h]
    · simp [ih,Ne.symm h]

theorem recordLength_pos (name : Name) : 0 < recordLength name := by
  simp only [recordLength,wordAlign,wordlen,sizeDirent64Noname]
  omega

theorem newEntry_name (wipeout : Bool) (offset : Nat) (de : Dirent) :
    (newEntry wipeout offset de).name = de.name := by
  rw [newEntry]
  split_ifs <;> rfl

theorem newEntry_reclen (wipeout : Bool) (offset : Nat) (de : Dirent) :
    (newEntry wipeout offset de).reclen = if wipeout then 0 else recordLength de.name := by
  rw [newEntry]
  split_ifs <;> rfl

theorem addLoop_spec (wipeout rootdir : Bool) (old : List Umdirent) (dir : List Dirent) :
    ∀ head offset, ∃ new, addLoop wipeout rootdir old dir head offset = head ++ new ∧
      new.map (·.name) = (dir.filter (listed wipeout rootdir old)).map (·.name) ∧
      ∀ e ∈ new, e.reclen = if wipeout then 0 else recordLength e.name := by
  induction dir with
  | nil => exact fun head _ => ⟨[],(List.append_nil head).symm,rfl,by simp⟩
  | cons de dir ih =>
    intro head offset
    cases h : listed wipeout rootdir old de with
    | true =>
      obtain ⟨new,hn,hm,hr⟩ := ih (head ++ [newEntry wipeout offset de])
        (newEntry wipeout offset de).off
      refine ⟨newEntry wipeout offset de :: new,?_,?_,List.forall_mem_cons.mpr ⟨?_,hr⟩⟩
      · rw [addLoop,if_pos h,hn,List.append_assoc]
        rfl
      · rw [List.filter_cons_of_pos h,List.map_cons,List.map_cons,hm,newEntry_name]
      · rw [newEntry_reclen,newEntry_name]
    | false =>
      obtain ⟨new,hn,hm,hr⟩ := ih head offset
      have hx : ¬ listed wipeout rootdir old de = true := ne_true_of_eq_false h
      exact ⟨new,by rw [addLoop,if_neg hx,hn],by rw [hm,List.filter_cons_of_neg hx],hr⟩

theorem real_eq_self {l : List Umdirent} (h : ∀ e ∈ l, e.reclen = recordLength e.name) :
    real l = l :=
  List.filter_eq_self.mpr fun e he => decide_eq_true (by rw [h e he]; exact recordLength_pos _)

theorem real_eq_nil {l : List Umdirent} (h : ∀ e ∈ l, e.reclen = 0) : real l = [] :=
  List.filter_eq_nil_iff.mpr fun e he => by simp [h e he]

-- Upper and lower entries have a length, whiteouts have none and only hide lower ones.
theorem umfilldirinfo_spec (d : Merged) :
    ∃ up low, real d.umfilldirinfo = up ++ low ∧
      (∀ e ∈ up ++ low, e.reclen = recordLength e.name) ∧
      up.map (·.name) = (d.upper.filter (listed false d.rootdir [])).map (·.name) ∧
      ∃ old, low.map (·.name) = (d.lower.filter (listed false false old)).map (·.name) ∧
        ∀ x, x ∈ old.map (·.name) ↔
          x ∈ up.map (·.name) ∨ ∃ w ∈ d.wiped, w.type = dtReg ∧ w.name = x := by
  obtain ⟨up,hu,hun,hur⟩ := addLoop_spec false d.rootdir [] d.upper [] 0
  obtain ⟨wip,hw,hwn,hwr⟩ := addLoop_spec true false up d.wiped up
    (up.getLast?.elim 0 fun e => e.off + wordAlign (12 + e.name.length))
  obtain ⟨low,hl,hln,hlr⟩ := addLoop_spec false false (up ++ wip) d.lower (up ++ wip)
    ((up ++ wip).getLast?.elim 0 fun e => e.off + wordAlign (12 + e.name.length))
  have hd : d.umfilldirinfo = up ++ wip ++ low := by
    rw [Merged.umfilldirinfo,umadddirinfo,umadddirinfo,umadddirinfo]
    simp only [List.getLast?_nil,Option.elim_none,hu,List.nil_append,hw,hl]
  simp only [Bool.false_eq_true,if_false,if_true] at hur hwr hlr
  refine ⟨up,low,?_,?_,hun,up ++ wip,hln,fun x => ?_⟩
  · rw [hd,real_append,real_append,real_eq_self hur,real_eq_self hlr,real_eq_nil hwr,
      List.append_nil]
  · exact fun e he => (List.mem_append.mp he).elim (hur e) (hlr e)
  · rw [List.map_append,List.mem_append,hwn]
    by_cases hx : x ∈ up.map (·.name)
    · exact iff_of_true (.inl hx) (.inl hx)
    · simp only [hx,false_or,List.mem_map,List.mem_filter]
      constructor
      · rintro ⟨w,⟨hw,hl⟩,rfl⟩
        simp only [listed,Bool.and_eq_true] at hl
        exact ⟨w,hw,by simpa using hl.1.1,rfl⟩
      · rintro ⟨w,hw,ht,rfl⟩
        exact ⟨w,⟨hw,by simp [listed,ht,mergeNewentry_iff,hx]⟩,rfl⟩

theorem mem_listed (rootdir : Bool) (old : List Umdirent) (dir : List Dirent) (x : Name) :
    x ∈ (dir.filter (listed false rootdir old)).map (·.name) ↔
      x ∈ dir.map (·.name) ∧ x ∉ old.map (·.name) ∧ ¬ (rootdir = true ∧ x = privateName) := by
  have hl : ∀ e : Dirent, listed false rootdir old e = true ↔
      e.name ∉ old.map (·.name) ∧ ¬ (rootdir = true ∧ e.name = privateName) := by
    intro e
    rw [listed,← mergeNewentry_iff]
    cases rootdir <;> simp
  constructor
  · intro hx
    obtain ⟨e,he,rfl⟩ := List.mem_map.mp hx
    rw [List.mem_filter,hl] at he
    exact ⟨List.mem_map_of_mem he.1,he.2⟩
  · rintro ⟨hx,h⟩
    obtain ⟨e,he,rfl⟩ := List.mem_map.mp hx
    exact List.mem_map_of_mem (List.mem_filter.mpr ⟨he,(hl e).mpr h⟩)

theorem real_names (d : Merged) :
    ((real d.umfilldirinfo).map (·.name)).Nodup ∧
      ∀ x, x ∈ (real d.umfilldirinfo).map (·.name) ↔ d.Visible x := by
  obtain ⟨up,low,he,-,hu,old,hl,ho⟩ := umfilldirinfo_spec d
  have hup : ∀ x, x ∈ up.map (·.name) ↔
      x ∈ d.upper.map (·.name) ∧ ¬ (d.rootdir = true ∧ x = privateName) := by
    intro x
    rw [hu,mem_listed]
    simp
  have hlow : ∀ x, x ∈ low.map (·.name) ↔
      x ∈ d.lower.map (·.name) ∧ x ∉ old.map (·.name) := by
    intro x
    rw [hl,mem_listed]
    simp
  rw [he,List.map_append]
  refine ⟨List.Nodup.append ?_ ?_ fun x hx hx' => ?_,fun x => ?_⟩
  · rw [hu]
    exact d.upperNodup.sublist (List.filter_sublist.map _)
  · rw [hl]
    exact d.lowerNodup.sublist (List.filter_sublist.map _)
  · exact ((hlow x).mp hx').2 ((ho x).mpr (.inl hx))
  · rw [List.mem_append,hlow,ho,Merged.Visible,← hup]
    by_cases hx : x ∈ up.map (·.name)
    · exact iff_of_true (.inl hx) (.inl hx)
    · simp only [hx,false_or]
      refine and_congr_right fun _ => ⟨fun h w hw ht hn => h ⟨w,hw,ht,hn⟩,?_⟩
      rintro h ⟨w,hw,ht,hn⟩
      exact h w hw ht hn

theorem serve_spec (count : Nat) (rest : List Umdirent) : ∀ curoffs, ∃ passed,
    rest = passed ++ (serve count curoffs rest).2 ∧
      (serve count curoffs rest).1 = (real passed).map record := by
  induction rest with
  | nil => exact fun _ => ⟨[],rfl,rfl⟩
  | cons e rest ih =>
    intro curoffs
    by_cases h : curoffs + e.reclen < count
    · rw [serve,if_pos h]
      obtain ⟨passed,hp,ho⟩ := ih (curoffs + e.reclen)
      refine ⟨e :: passed,congrArg (e :: ·) hp,?_⟩
      dsimp only
      rw [ho,real,real,List.filter_cons]
      by_cases hr : 0 < e.reclen <;> simp [hr]
    · rw [serve,if_neg h]
      exact ⟨[],rfl,rfl⟩

theorem serve_progress {count : Nat} {rest : List Umdirent}
    (hf : ∀ e ∈ rest, e.reclen < count) (hs : (serve count 0 rest).1 = []) : real rest = [] := by
  induction rest with
  | nil => rfl
  | cons e rest ih =>
    rw [serve,if_pos (by rw [Nat.zero_add]; exact hf e List.mem_cons_self)] at hs
    dsimp only at hs
    by_cases hr : 0 < e.reclen
    · simp [hr] at hs
    · have hz : e.reclen = 0 := Nat.eq_zero_of_not_pos hr
      rw [if_neg hr,hz] at hs
      rw [real,List.filter_cons_of_neg (by simp [hr])]
      exact ih (fun e' he => hf e' (List.mem_cons_of_mem _ he)) hs

section
variable {dirinfo : List Umdirent} {counts : Nat → Nat}

def pending (dirinfo : List Umdirent) (counts : Nat → Nat) (n : Nat) : List Umdirent :=
  (dirpos dirinfo counts n).getD dirinfo

theorem answer_eq (n : Nat) (hd : dirinfo ≠ []) :
    answer dirinfo counts n = (serve (counts n) 0 (pending dirinfo counts n)).1 := by
  rw [answer,getdents64.eq_def,if_neg hd,pending]
  cases dirpos dirinfo counts n <;> rfl

theorem pending_succ (n : Nat) (hd : dirinfo ≠ []) (ha : answer dirinfo counts n ≠ []) :
    pending dirinfo counts (n + 1) = (serve (counts n) 0 (pending dirinfo counts n)).2 := by
  rw [answer_eq n hd] at ha
  obtain ⟨passed,hp,ho⟩ := serve_spec (counts n) (pending dirinfo counts n) 0
  rw [pending,dirpos,getdents64.eq_def,if_neg hd]
  rw [pending] at ha hp ho ⊢
  cases hq : dirpos dirinfo counts n with
  | some rest => rfl
  | none =>
    rw [hq] at ha hp ho
    refine if_neg fun hl => ha ?_
    have hx := congrArg List.length hp
    rw [Option.getD_none,List.length_append] at hx
    rw [ho,show passed = [] from List.eq_nil_of_length_eq_zero (by omega)]
    rfl

theorem answers_real (hd : dirinfo ≠ []) (n : Nat) (ha : ∀ i < n, answer dirinfo counts i ≠ []) :
    ∃ passed, dirinfo = passed ++ pending dirinfo counts n ∧
      answers dirinfo counts n = (real passed).map record ∧ n ≤ passed.length := by
  induction n with
  | zero => exact ⟨[],rfl,rfl,le_rfl⟩
  | succ n ih =>
    obtain ⟨passed,hp,ho,hl⟩ := ih fun i hi => ha i (Nat.lt_succ_of_lt hi)
    have hn := ha n n.lt_succ_self
    obtain ⟨more,hm,hs⟩ := serve_spec (counts n) (pending dirinfo counts n) 0
    refine ⟨passed ++ more,?_,?_,?_⟩
    · rw [pending_succ n hd hn,List.append_assoc,← hm]
      exact hp
    · rw [answers,List.range_succ,List.flatMap_append,← answers,ho,List.flatMap_singleton,
        answer_eq n hd,hs,real_append,List.map_append]
    · rw [answer_eq n hd,hs] at hn
      have : more ≠ [] := fun h => hn (by rw [h]; rfl)
      have := List.length_pos_iff.mpr this
      rw [List.length_append]
      omega

theorem exists_empty (hd : dirinfo ≠ []) : ∃ n, answer dirinfo counts n = [] := by
  by_contra hn
  obtain ⟨passed,hp,-,hl⟩ := @answers_real dirinfo counts hd (dirinfo.length + 1)
    fun i _ hi => hn ⟨i,hi⟩
  have hx := congrArg List.length hp
  rw [List.length_append] at hx
  omega

theorem first_empty_real (hd : dirinfo ≠ []) (hf : ∀ n, ∀ e ∈ dirinfo, e.reclen < counts n) :
    ∃ n, answer dirinfo counts n = [] ∧ (∀ i < n, answer dirinfo counts i ≠ []) ∧
      answers dirinfo counts n = (real dirinfo).map record := by
  classical
  have he := @exists_empty dirinfo counts hd
  refine ⟨Nat.find he,Nat.find_spec he,fun i => Nat.find_min he,?_⟩
  obtain ⟨passed,hp,ho,-⟩ := answers_real hd _ fun i => Nat.find_min he
  have hz := Nat.find_spec he
  rw [answer_eq _ hd] at hz
  have hr := serve_progress
    (fun e h => hf _ e (by rw [hp]; exact List.mem_append_right _ h)) hz
  rw [ho]
  conv_rhs => rw [hp,real_append,hr,List.append_nil]

end

theorem record_names (l : List Umdirent) : (l.map record).map (·.name) = l.map (·.name) := by
  rw [List.map_map]
  rfl

theorem umfilldirinfo_fits {d : Merged} {count : Nat} (hr : real d.umfilldirinfo ≠ [])
    (hc : ∀ x, d.Visible x → recordLength x < count) :
    ∀ e ∈ d.umfilldirinfo, e.reclen < count := by
  obtain ⟨up,low,hs,hl,-⟩ := umfilldirinfo_spec d
  have hf : ∀ e ∈ real d.umfilldirinfo, e.reclen < count := by
    intro e he
    rw [hl e (hs ▸ he)]
    exact hc _ (((real_names d).2 _).mp (List.mem_map_of_mem he))
  intro e he
  by_cases h : 0 < e.reclen
  · exact hf e (List.mem_filter.mpr ⟨he,decide_eq_true h⟩)
  · rw [Nat.eq_zero_of_not_pos h]
    exact Nat.zero_lt_of_lt (hf _ (List.head_mem hr))

theorem merged_listing_exact (d : Merged) (counts : Nat → Nat)
    (hc : ∀ n x, d.Visible x → recordLength x < counts n) : Listed d counts := by
  have hn := real_names d
  by_cases hr : real d.umfilldirinfo = []
  · refine ⟨0,?_,fun i hi => absurd hi (Nat.not_lt_zero i),List.nodup_nil,?_⟩
    · by_cases hd : d.umfilldirinfo = []
      · rw [answer,getdents64.eq_def,if_pos hd]
      · obtain ⟨passed,hp,ho⟩ := serve_spec (counts 0) d.umfilldirinfo 0
        rw [hp,real_append,List.append_eq_nil_iff] at hr
        rw [answer_eq 0 hd]
        exact ho.trans (by rw [hr.1]; rfl)
    · intro x
      rw [← hn.2,hr]
      rfl
  · have hd : d.umfilldirinfo ≠ [] := fun h => hr (by rw [h]; rfl)
    obtain ⟨n,he,hb,ha⟩ := first_empty_real hd fun n => umfilldirinfo_fits hr (hc n)
    refine ⟨n,he,hb,?_⟩
    rw [ha,record_names]
    exact hn

def oneFile : Merged :=
  ⟨[⟨[0x61], dtReg, 1⟩], [], [], true, List.nodup_singleton _, List.nodup_nil⟩

-- a and b above, b, c and d below, c wiped out; a buffer of 32 bytes takes one record.
def threeLayers : Merged :=
  ⟨[⟨[0x61], dtReg, 1⟩, ⟨[0x62], dtReg, 2⟩], [⟨[0x63], dtReg, 3⟩],
    [⟨[0x62], dtReg, 4⟩, ⟨[0x63], dtReg, 5⟩, ⟨[0x64], dtReg, 6⟩], true, by decide, by decide⟩

theorem merged_listing_roomy : Listed threeLayers fun _ => 32 :=
  merged_listing_exact _ _ fun _ x hx => by
    have hname : ∀ x ∈ (threeLayers.upper ++ threeLayers.lower).map (·.name), recordLength x < 32 := by
      decide
    refine hname x ?_
    rw [List.map_append,List.mem_append]
    exact hx.imp And.left And.left

theorem fitting_record_refused :
    ¬ ∀ (d : Merged) (counts : Nat → Nat),
      (∀ n x, d.Visible x → recordLength x ≤ counts n) → Listed d counts := by
  intro h
  obtain ⟨n,-,hb,-,hx⟩ := h oneFile (fun _ => 24) fun _ x hx => by
    rcases hx with h | h
    · rw [List.mem_singleton.mp h.1]
      decide
    · exact absurd h.1 List.not_mem_nil
  obtain rfl : n = 0 := Nat.eq_zero_of_not_pos fun hn => hb 0 hn rfl
  exact absurd ((hx [0x61]).mpr (.inl ⟨List.mem_singleton_self _,by decide⟩)) List.not_mem_nil

end ViewOS.Viewfs.Listing
