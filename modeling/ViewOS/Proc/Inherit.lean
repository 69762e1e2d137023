import ViewOS.Proc.Invariant

namespace ViewOS.Proc
open Shared Transition

def World.fsOf (w : World) (p : Nat) : Option PcbFs := (w.pcb p).bind fun q => w.pcbFs q.fdfs

def World.tableOf (w : World) (p : Nat) : Option Lfd.PcbFile :=
  (w.lfd.proc p).bind fun q => w.lfd.file q.fds

def World.treepoch (w : World) (p : Nat) : Option Nat := (w.views.tst p).treepoch

def World.fdfs (w : World) (p : Nat) : Option Nat := (w.pcb p).map Pcb.fdfs

def World.fds (w : World) (p : Nat) : Option Nat := (w.lfd.proc p).map Lfd.Pcb.fds

def PcbFs.dirs (f : PcbFs) : List Char × List Char × Nat := (f.cwd, f.root, f.mask)

def Pcb.creds (q : Pcb) : Misc.Ids × Misc.Ids × List UInt32 := (q.uid, q.gid, q.grouplist)

structure Takes (w : World) (p : Nat) (flags : Flags) (w' : World) (c : Nat) : Prop where
  view : w'.treepoch c = w.treepoch p
  dirs : (w'.fsOf c).map PcbFs.dirs = (w.fsOf p).map PcbFs.dirs
  fdfs : ∀ i, w.pcb i ≠ none → (w'.fdfs i = w'.fdfs c ↔ flags.fs ∧ w.fdfs i = w.fdfs p)
  lfdlist : (w'.tableOf c).map Lfd.PcbFile.lfdlist = (w.tableOf p).map Lfd.PcbFile.lfdlist
  fds : ∀ i, w.pcb i ≠ none → (w'.fds i = w'.fds c ↔ flags.files ∧ w.fds i = w.fds p)

structure Inherits (w : World) (p : Nat) (flags : Flags) (w' : World) (c : Nat) : Prop
    extends Takes w p flags w' c where
  creds : (w'.pcb c).map Pcb.creds = (w.pcb p).map Pcb.creds

def Pcb.given (q : Pcb) : Misc.Ids × Misc.Ids × List UInt32 :=
  ({ q.uid with fs := q.uid.e }, { q.gid with fs := q.gid.e }, q.grouplist)

structure Alike (w : World) (q p : Nat) (flags : Flags) : Prop where
  view : w.treepoch q = w.treepoch p
  dirs : (w.fsOf q).map PcbFs.dirs = (w.fsOf p).map PcbFs.dirs
  fdfs : flags.fs → w.fdfs q = w.fdfs p
  lfdlist : (w.tableOf q).map Lfd.PcbFile.lfdlist = (w.tableOf p).map Lfd.PcbFile.lfdlist
  fds : flags.files → w.fds q = w.fds p
  creds : (w.pcb q).map Pcb.given = (w.pcb p).map Pcb.creds

def Intact (w : World) (q : Nat) (flags : Flags) : Prop :=
  flags.files = false → ∀ p ∈ w.tableOf q, ∀ x ∈ p.lfdlist, ∀ l ∈ x, w.lfd.lfds.entry l ≠ none

theorem dupAll_isSome (t : Lfd.Lfds) (xs : List (Option Nat)) :
    (xs.foldlM Lfd.lfdDup t).isSome ↔ ∀ x ∈ xs, ∀ l ∈ x, t.entry l ≠ none := by
  induction xs generalizing t with
  | nil => simp
  | cons x xs ih =>
    cases x with
    | none => simpa [Lfd.lfdDup] using ih t
    | some l =>
      cases he : t.entry l with
      | none => simp [Lfd.lfdDup,he]
      | some e =>
        have hsame : ∀ a, (t.store l (.live { e with count := Lfd.short (e.count + 1) })).entry a ≠
            none ↔ t.entry a ≠ none := by
          intro a
          rw [Lfd.entry_store]
          split_ifs with ha
          · simp [ha,he]
          · rfl
        simp only [List.foldlM_cons,Lfd.lfdDup,he,Option.bind_eq_bind,Option.bind_some,ih,
          hsame]
        simp [he]

section Clone

variable {w w' : World} {p q : Nat} {flags : Flags}

theorem Inv.table (h : Inv w) (hq : w.pcb q ≠ none) :
    ∃ pc t, w.lfd.proc q = some pc ∧ w.lfd.file pc.fds = some t ∧ w.tableOf q = some t := by
  obtain ⟨pc,hpc⟩ := Option.ne_none_iff_exists'.mp ((h.procs q).mpr hq)
  obtain ⟨t,ht⟩ := h.tables.object (Lfd.proc_eq_some.mp hpc)
  have ht := Lfd.file_eq_some.mpr ht
  exact ⟨pc,t,hpc,ht,by rw [World.tableOf,hpc,Option.bind_some,ht]⟩

theorem Inv.addproc_isSome (h : Inv w) (hq : w.pcb q ≠ none) :
    (Lfd.umprocAddproc w.lfd q flags.files).isSome ↔ Intact w q flags := by
  obtain ⟨pc,t,hpc,ht,htable⟩ := h.table hq
  cases hf : flags.files with
  | true => simp [Lfd.umprocAddproc,hpc,ht,Intact,hf]
  | false =>
    have hdup : (Lfd.umprocAddproc w.lfd q false).isSome =
        (t.lfdlist.foldlM Lfd.lfdDup w.lfd.lfds).isSome := by
      simp only [Lfd.umprocAddproc,hpc,ht,Option.bind_eq_bind,Option.bind_some,
        Bool.false_eq_true,if_false]
      cases t.lfdlist.foldlM Lfd.lfdDup w.lfd.lfds <;> rfl
    rw [hdup,dupAll_isSome]
    simp [Intact,hf,htable]

theorem pcb_length (w : World) : w.pcb w.pcbs.length = none := by simp [World.pcb]

theorem Inv.exists_cloned (h : Inv w) (hq : w.pcb q ≠ none) :
    (∃ w', Cloned w q flags w') ↔ Intact w q flags := by
  constructor
  · rintro ⟨w',hc⟩
    exact (h.addproc_isSome hq).mp (by rw [hc.lfd]; rfl)
  · intro hi
    obtain ⟨lfd,hlfd⟩ := Option.isSome_iff_exists.mp ((h.addproc_isSome hq).mpr hi)
    have hnew : w.pcbs.length ∉ w.views.live := by simp [h.live,pcb_length]
    obtain ⟨views,hviews⟩ := @Treepoch.Good.progress _ (.pcbPlus q w.pcbs.length) h.good trivial
      ⟨(h.live q).mpr hq,hnew⟩
    obtain ⟨p,hp⟩ := Option.ne_none_iff_exists'.mp hq
    obtain ⟨fs,hfs⟩ := h.fs.object (pcb_eq_some.mp hp)
    exact ⟨⟨views,lfd,heapAfter w p fs flags,w.pcbs ++ [some (child w q p flags)]⟩,hlfd,hviews,
      p,fs,hp,pcbFs_eq_some.mpr hfs,rfl,rfl⟩

theorem Cloned.dirs (hc : Cloned w q flags w') :
    (w'.fsOf w.pcbs.length).map PcbFs.dirs = (w.fsOf q).map PcbFs.dirs := by
  obtain ⟨p,fs,hp,hfs,hpcbs,hheap⟩ := hc.pcbs
  have hlt := lt_of_get (pcbFs_eq_some.mp hfs)
  have hnew : w'.pcb w.pcbs.length = some (child w q p flags) := by
    rw [World.pcb,hpcbs,join_append,if_pos rfl]
  rw [World.fsOf,World.fsOf,hnew,hp,Option.bind_some,Option.bind_some,hfs,World.pcbFs,hheap]
  cases hf : flags.fs with
  | true => simp [heapAfter,child,hf,hlt,PcbFs.dirs]
  | false => simp [heapAfter,child,hf,PcbFs.dirs]

theorem Cloned.fdfs (h : Inv w) (hc : Cloned w q flags w') {i : Nat} (hi : w.pcb i ≠ none) :
    w'.fdfs i = w'.fdfs w.pcbs.length ↔ flags.fs ∧ w.fdfs i = w.fdfs q := by
  obtain ⟨p,hp,hpcb⟩ := hc.pcb
  have hne : i ≠ w.pcbs.length := fun he => hi (he ▸ pcb_length w)
  obtain ⟨u,hu⟩ := Option.ne_none_iff_exists'.mp hi
  obtain ⟨fs,hfs⟩ := h.fs.object (pcb_eq_some.mp hu)
  have hlt := lt_of_get hfs
  rw [World.fdfs,World.fdfs,World.fdfs,World.fdfs,hpcb,hpcb,if_neg hne,if_pos rfl,hu,hp]
  cases hf : flags.fs with
  | true => simp [child,hf]
  | false => simpa [child,hf] using hlt.ne

theorem Cloned.files (h : Inv w) (hc : Cloned w q flags w') :
    ∃ pc t, w.lfd.proc q = some pc ∧ w.lfd.file pc.fds = some t ∧
      (∀ i, w'.lfd.proc i = if i = w.pcbs.length then
        some ⟨if flags.files then pc.fds else w.lfd.files.length, none⟩ else w.lfd.proc i) ∧
      (w'.tableOf w.pcbs.length).map Lfd.PcbFile.lfdlist = some t.lfdlist := by
  obtain ⟨pc,t,hpc,ht,hs⟩ := Lfd.umprocAddproc_some hc.lfd
  have hlt := lt_of_get (Lfd.file_eq_some.mp ht)
  refine ⟨pc,t,hpc,ht,?_⟩
  cases hf : flags.files with
  | true =>
    rw [hf,if_pos rfl] at hs
    have hproc : ∀ i, w'.lfd.proc i =
        if i = w.pcbs.length then some ⟨pc.fds,none⟩ else w.lfd.proc i := by
      intro i
      rw [hs,Lfd.State.proc,join_append,h.length]
      rfl
    refine ⟨hproc,?_⟩
    rw [World.tableOf,hproc,if_pos rfl,hs]
    simp [Lfd.State.file,hlt]
  | false =>
    rw [hf,if_neg (by simp)] at hs
    obtain ⟨u,-,hs⟩ := hs
    have hproc : ∀ i, w'.lfd.proc i =
        if i = w.pcbs.length then some ⟨w.lfd.files.length,none⟩ else w.lfd.proc i := by
      intro i
      rw [hs,Lfd.State.proc,join_append,h.length]
      rfl
    refine ⟨hproc,?_⟩
    rw [World.tableOf,hproc,if_pos rfl,hs]
    simp [Lfd.State.file]

theorem Cloned.fds (h : Inv w) (hc : Cloned w q flags w') {i : Nat} (hi : w.pcb i ≠ none) :
    w'.fds i = w'.fds w.pcbs.length ↔ flags.files ∧ w.fds i = w.fds q := by
  obtain ⟨pc,t,hpc,ht,hproc,-⟩ := hc.files h
  have hne : i ≠ w.pcbs.length := fun he => hi (he ▸ pcb_length w)
  obtain ⟨u,tu,hu,htu,-⟩ := h.table hi
  have hlt := lt_of_get (Lfd.file_eq_some.mp htu)
  rw [World.fds,World.fds,World.fds,World.fds,hproc,hproc,if_neg hne,if_pos rfl,hu,hpc]
  cases hf : flags.files with
  | true => simp
  | false => simpa using hlt.ne

theorem Cloned.takes (h : Inv w) (hc : Cloned w q flags w') : Takes w q flags w' w.pcbs.length := by
  refine ⟨?_,hc.dirs,fun i hi => hc.fdfs h hi,?_,fun i hi => hc.fds h hi⟩
  · rw [World.treepoch,tst_of_pcbPlus hc.views,Function.update_self]
    rfl
  · obtain ⟨pc,t,hpc,ht,-,hlist⟩ := hc.files h
    rw [hlist,World.tableOf,hpc,Option.bind_some,ht]
    rfl

theorem Cloned.inherits_iff (h : Inv w) (hc : Cloned w q flags w') :
    Inherits w p flags w' w.pcbs.length ↔ Alike w q p flags := by
  have ht := hc.takes h
  obtain ⟨a,ha,hpcb⟩ := hc.pcb
  have hq : w.pcb q ≠ none := by simp [ha]
  have hcreds : (w'.pcb w.pcbs.length).map Pcb.creds = (w.pcb q).map Pcb.given := by
    rw [hpcb,if_pos rfl,ha]
    rfl
  constructor
  · intro hi
    refine ⟨ht.view.symm.trans hi.view,ht.dirs.symm.trans hi.dirs,fun hf => ?_,
      ht.lfdlist.symm.trans hi.lfdlist,fun hf => ?_,hcreds.symm.trans hi.creds⟩
    · exact ((hi.fdfs q hq).mp ((ht.fdfs q hq).mpr ⟨hf,rfl⟩)).2
    · exact ((hi.fds q hq).mp ((ht.fds q hq).mpr ⟨hf,rfl⟩)).2
  · intro hl
    refine ⟨⟨ht.view.trans hl.view,ht.dirs.trans hl.dirs,fun i hi => ?_,
      ht.lfdlist.trans hl.lfdlist,fun i hi => ?_⟩,hcreds.trans hl.creds⟩
    · rw [ht.fdfs i hi]
      exact and_congr_right fun hf => by rw [hl.fdfs hf]
    · rw [ht.fds i hi]
      exact and_congr_right fun hf => by rw [hl.fds hf]

end Clone

theorem clone_inherits_iff {cwd : List Char} {mask : Nat} {uid gid : Misc.Ids}
    {grouplist : List UInt32} {w₀ w : World} {p : Nat} {a : Pcb} {flags : Flags}
    (hroot : pcbPlusRoot cwd mask uid gid grouplist = some w₀)
    (hrun : Run step (fun _ _ => True) w₀ w) (hp : w.pcb p = some a) :
    (∃ w', step w (.clone p flags) = some w' ∧ Inherits w p flags w' w.pcbs.length) ↔
      ∃ q, parentOf p a flags = some q ∧ Alike w q p flags ∧ Intact w q flags := by
  have h : Inv w := hrun.invariant (fun _ _ _ hi _ hs => hi.step hs) (inv_root hroot)
  have hlive : ∀ q, parentOf p a flags = some q → w.pcb q ≠ none := by
    intro q hq
    unfold parentOf at hq
    split_ifs at hq
    · exact h.parent p a hp q hq
    · obtain rfl := Option.some.inj hq
      simp [hp]
  constructor
  · rintro ⟨w',hs,hi⟩
    obtain ⟨b,q,hb,hq,hc⟩ := pcbConstructor_some.mp hs
    obtain rfl := Option.some.inj (hp.symm.trans hb)
    exact ⟨q,hq,(hc.inherits_iff h).mp hi,(h.exists_cloned (hlive q hq)).mp ⟨w',hc⟩⟩
  · rintro ⟨q,hq,halike,hintact⟩
    obtain ⟨w',hc⟩ := (h.exists_cloned (hlive q hq)).mpr hintact
    exact ⟨w',pcbConstructor_some.mpr ⟨a,q,hp,hq,hc⟩,(hc.inherits_iff h).mpr halike⟩

def rootWorld : Option World := pcbPlusRoot ['/', 'h'] 18 ⟨0, 0, 0, 0⟩ ⟨0, 0, 0, 0⟩ [0]

def jail : List Op :=
  [.clone 0 ⟨false, false, false⟩, .views (.pcbNewfork 1), .setFs 1 ['/', 'j'] ['/', 'j'] 63,
    .setIds 1 ⟨7, 7, 7, 7⟩ ⟨8, 8, 8, 8⟩ [9], .call 1 (.openIn false (some 5) 4 false),
    .call 1 (.out (some 3) true)]

def jailed : Option World := rootWorld.bind fun w => exec step w jail

theorem jailed_child_inherits :
    ∃ w w', jailed = some w ∧ step w (.clone 1 ⟨false, false, false⟩) = some w' ∧
      (w.fsOf 1).map PcbFs.root = some ['/', 'j'] ∧ Inherits w 1 ⟨false, false, false⟩ w' 2 := by
  have hok : jailed.any fun w => w.pcbs.length = 2 ∧ (w.pcb 1).isSome ∧
      (w.fsOf 1).map PcbFs.root = some ['/','j'] ∧
      (w.pcb 1).map Pcb.given = (w.pcb 1).map Pcb.creds ∧
      ∀ p ∈ w.tableOf 1, ∀ x ∈ p.lfdlist, ∀ l ∈ x, w.lfd.lfds.entry l ≠ none := by
    decide +kernel
  obtain ⟨w,hw,hall⟩ := (Option.any_eq_true _ _).mp hok
  obtain ⟨hlen,hsome,hdir,hcreds,hintact⟩ := of_decide_eq_true hall
  obtain ⟨w₀,hroot,hexec⟩ := Option.bind_eq_some_iff.mp hw
  obtain ⟨a,ha⟩ := Option.isSome_iff_exists.mp hsome
  have hrun := Run.of_exec hexec (Meets.of_forall (fun _ _ => trivial) jail w₀)
  obtain ⟨w',hs,hi⟩ : ∃ w', step w (.clone 1 ⟨false,false,false⟩) = some w' ∧
      Inherits w 1 ⟨false,false,false⟩ w' w.pcbs.length :=
    (clone_inherits_iff hroot hrun ha).mpr
      ⟨1,rfl,⟨rfl,rfl,fun _ => rfl,rfl,fun _ => rfl,hcreds⟩,fun _ => hintact⟩
  exact ⟨w,w',hw,hs,hdir,hlen ▸ hi⟩

theorem jail_left :
    ∃ w w', jailed = some w ∧ step w (.clone 1 ⟨true, false, false⟩) = some w' ∧
      w'.treepoch 2 = w'.treepoch 0 ∧ w'.treepoch 2 ≠ w'.treepoch 1 ∧
      (w'.fsOf 1).map PcbFs.root = some ['/', 'j'] ∧ (w'.fsOf 2).map PcbFs.root = some ['/'] ∧
      ((w'.pcb 1).map fun q => q.uid.e) = some 7 ∧ ((w'.pcb 2).map fun q => q.uid.e) = some 0 ∧
      (w'.tableOf 2).map Lfd.PcbFile.lfdlist = some [] := by
  have hok : jailed.any fun w => (step w (.clone 1 ⟨true,false,false⟩)).any fun w' =>
      w'.treepoch 2 = w'.treepoch 0 ∧ w'.treepoch 2 ≠ w'.treepoch 1 ∧
      (w'.fsOf 1).map PcbFs.root = some ['/','j'] ∧ (w'.fsOf 2).map PcbFs.root = some ['/'] ∧
      ((w'.pcb 1).map fun q => q.uid.e) = some 7 ∧ ((w'.pcb 2).map fun q => q.uid.e) = some 0 ∧
      (w'.tableOf 2).map Lfd.PcbFile.lfdlist = some [] := by
    decide +kernel
  obtain ⟨w,hw,hstep⟩ := (Option.any_eq_true _ _).mp hok
  obtain ⟨w',hw',hall⟩ := (Option.any_eq_true _ _).mp hstep
  exact ⟨w,w',hw,hw',of_decide_eq_true hall⟩

end ViewOS.Proc
