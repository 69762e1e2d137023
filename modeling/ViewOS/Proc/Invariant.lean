import ViewOS.Lfd.Accounts
import ViewOS.Lfd.Frame
import ViewOS.Proc.Model
import ViewOS.Treepoch.Wellformed

namespace ViewOS.Proc
open Shared

section Views

variable {σ σ' : Treepoch.Sys} {op : Treepoch.Op}

def liveAfter (live : Finset Nat) : Treepoch.Op → Finset Nat
  | .pcbPlusRoot p => insert p live
  | .pcbPlus _ p => insert p live
  | .pcbMinus p => live.erase p
  | _ => live

theorem live_of_step (h : Treepoch.step σ op = some σ') : σ'.live = liveAfter σ.live op := by
  have h : Treepoch.perform σ op = some σ' := by
    unfold Treepoch.step at h
    split_ifs at h
    exact h
  cases op <;> simp only [Treepoch.perform,Option.bind_eq_bind,Option.bind_eq_some_iff] at h
  case pcbPlusRoot p =>
    obtain ⟨_,_,_,_,h⟩ := h
    exact Option.some.inj h ▸ rfl
  case pcbPlus pp p =>
    obtain ⟨_,_,h⟩ := h
    exact Option.some.inj h ▸ rfl
  case pcbNewfork p =>
    obtain ⟨_,_,h⟩ := h
    exact Option.some.inj h ▸ rfl
  case pcbMinus p =>
    obtain ⟨_,_,h⟩ := h
    exact Option.some.inj h ▸ rfl
  case syscall p => exact Option.some.inj h ▸ rfl
  case addService p k => exact Option.some.inj h ▸ rfl
  case matching p k =>
    obtain ⟨_,_,_,_,h⟩ := h
    exact Option.some.inj h ▸ rfl

theorem tst_of_pcbPlus {pp p : Nat} (h : Treepoch.step σ (.pcbPlus pp p) = some σ') :
    σ'.tst = Function.update σ.tst p (σ.tst pp) := by
  unfold Treepoch.step at h
  split_ifs at h
  simp only [Treepoch.perform,Treepoch.tstNewproc,Option.bind_eq_bind,Option.bind_eq_some_iff] at h
  obtain ⟨_,⟨_,_,hx⟩,h⟩ := h
  obtain rfl := Option.some.inj hx
  exact Option.some.inj h ▸ rfl

end Views

structure Inv (w : World) : Prop where
  good : Treepoch.Good w.views
  live : ∀ p, p ∈ w.views.live ↔ w.pcb p ≠ none
  procs : ∀ p, w.lfd.proc p ≠ none ↔ w.pcb p ≠ none
  length : w.lfd.procs.length = w.pcbs.length
  tables : Lfd.Tables w.lfd
  fs : Counted PcbFs.count Pcb.fdfs w.fs w.pcbs
  parent : ∀ p q, w.pcb p = some q → ∀ a ∈ q.pp, w.pcb a ≠ none

section Steps

variable {w w' : World} {pid pp : Nat}

theorem pcb_eq_some {q : Pcb} : w.pcb pid = some q ↔ w.pcbs[pid]? = some (some q) := by
  simp [World.pcb,Option.join_eq_some_iff]

theorem pcbFs_eq_some {a : Nat} {f : PcbFs} : w.pcbFs a = some f ↔ w.fs[a]? = some (some f) := by
  simp [World.pcbFs,Option.join_eq_some_iff]

def heapAfter (w : World) (p : Pcb) (fs : PcbFs) (flags : Flags) : List (Option PcbFs) :=
  if flags.fs then w.fs.set p.fdfs (some { fs with count := fs.count + 1 })
  else w.fs ++ [some { fs with count := 1 }]

def child (w : World) (q : Nat) (p : Pcb) (flags : Flags) : Pcb :=
  ⟨some q, if flags.fs then p.fdfs else w.fs.length, { p.uid with fs := p.uid.e },
    { p.gid with fs := p.gid.e }, p.hte, p.grouplist⟩

structure Cloned (w : World) (q : Nat) (flags : Flags) (w' : World) : Prop where
  lfd : Lfd.umprocAddproc w.lfd q flags.files = some w'.lfd
  views : Treepoch.step w.views (.pcbPlus q w.pcbs.length) = some w'.views
  pcbs : ∃ p fs, w.pcb q = some p ∧ w.pcbFs p.fdfs = some fs ∧
    w'.pcbs = w.pcbs ++ [some (child w q p flags)] ∧ w'.fs = heapAfter w p fs flags

theorem pcbConstructor_some {flags : Flags} :
    pcbConstructor w pp flags = some w' ↔
      ∃ invoker q, w.pcb pp = some invoker ∧ parentOf pp invoker flags = some q ∧
        Cloned w q flags w' := by
  simp only [pcbConstructor,pcbPlus,Option.bind_eq_bind,Option.bind_eq_some_iff]
  constructor
  · rintro ⟨_,⟨invoker,hi,q,hq,p,hp,fs,hfs,views,hviews,hx⟩,lfd,hlfd,hw⟩
    obtain rfl := Option.some.inj hx
    obtain rfl := Option.some.inj hw
    refine ⟨invoker,q,hi,hq,hlfd,hviews,p,fs,hp,hfs,?_,?_⟩
    · cases hf : flags.fs <;> simp [child,hf]
    · cases hf : flags.fs <;> simp [heapAfter,hf]
  · rintro ⟨invoker,q,hi,hq,hlfd,hviews,p,fs,hp,hfs,hpcbs,hheap⟩
    refine ⟨_,⟨invoker,hi,q,hq,p,hp,fs,hfs,_,hviews,rfl⟩,_,hlfd,?_⟩
    obtain ⟨views,lfd,heap,pcbs⟩ := w'
    obtain rfl : pcbs = _ := hpcbs
    obtain rfl : heap = _ := hheap
    cases hf : flags.fs <;> simp [child,heapAfter,hf]

theorem Cloned.pcb {q : Nat} {flags : Flags} (hc : Cloned w q flags w') :
    ∃ p, w.pcb q = some p ∧
      ∀ i, w'.pcb i = if i = w.pcbs.length then some (child w q p flags) else w.pcb i := by
  obtain ⟨p,fs,hp,-,hpcbs,-⟩ := hc.pcbs
  refine ⟨p,hp,fun i => ?_⟩
  rw [World.pcb,hpcbs,join_append]
  rfl

theorem Cloned.procs {q : Nat} {flags : Flags} (hc : Cloned w q flags w') :
    ∃ pc, w'.lfd.procs = w.lfd.procs ++ [some pc] := by
  obtain ⟨pc,p,-,-,h⟩ := Lfd.umprocAddproc_some hc.lfd
  cases hf : flags.files with
  | true =>
    rw [hf,if_pos rfl] at h
    exact ⟨_,congrArg Lfd.State.procs h⟩
  | false =>
    rw [hf,if_neg (by simp)] at h
    obtain ⟨t,-,h⟩ := h
    exact ⟨_,congrArg Lfd.State.procs h⟩

theorem Inv.cloned {q : Nat} {flags : Flags} (h : Inv w) (hc : Cloned w q flags w') : Inv w' := by
  obtain ⟨p,hp,hpcb⟩ := hc.pcb
  obtain ⟨pc,hprocs⟩ := hc.procs
  obtain ⟨p',fs,hp',hfs,hpcbs,hheap⟩ := hc.pcbs
  obtain rfl := Option.some.inj (hp.symm.trans hp')
  have hkept : ∀ i, w.pcb i ≠ none → w'.pcb i ≠ none := by
    intro i hi
    rw [hpcb]
    split_ifs
    · simp
    · exact hi
  refine ⟨h.good.after hc.views,fun i => ?_,fun i => ?_,?_,?_,?_,fun i r hi a ha => ?_⟩
  · rw [live_of_step hc.views,liveAfter,Finset.mem_insert,hpcb,h.live]
    split_ifs with hi <;> simp [hi]
  · rw [Lfd.State.proc,hprocs,join_append,h.length,hpcb]
    split_ifs with hi
    · simp
    · exact h.procs i
  · simp [hprocs,hpcbs,h.length]
  · exact h.tables.perform (o := .addproc q flags.files) hc.lfd
  · rw [hpcbs,hheap,heapAfter]
    split_ifs with hf
    · exact h.fs.share (pcb_eq_some.mp hp) (pcbFs_eq_some.mp hfs) (by simp [child,hf]) rfl
    · exact h.fs.add (by simp [child,hf]) rfl
  · rw [hpcb] at hi
    split_ifs at hi with hnew
    · obtain rfl := Option.some.inj hi
      obtain rfl : q = a := by simpa [child] using ha
      exact hkept q (by simp [hp])
    · exact hkept a (h.parent i r hi a ha)

theorem cutPp_fdfs (pid : Nat) (u : Pcb) : (cutPp pid u).fdfs = u.fdfs := by
  unfold cutPp
  split_ifs <;> rfl

theorem droppcb_some (h : droppcb w pid = some w') :
    ∃ pc fs, w.pcb pid = some pc ∧ w.pcbFs pc.fdfs = some fs ∧
      Lfd.umprocDelproc w.lfd pid = some w'.lfd ∧
      Treepoch.step w.views (.pcbMinus pid) = some w'.views ∧
      w'.pcbs = (w.pcbs.map (Option.map (cutPp pid))).set pid none ∧
      w'.fs = w.fs.set pc.fdfs
        (if fs.count - 1 = 0 then none else some { fs with count := fs.count - 1 }) := by
  simp only [droppcb,pcbMinus,Option.bind_eq_bind,Option.bind_eq_some_iff] at h
  obtain ⟨lfd,hlfd,pc',hpc',fs,hfs,views,hviews,hw⟩ := h
  obtain rfl := Option.some.inj hw
  have hcut : (w.pcb pid).map (cutPp pid) = some pc' := by
    rw [← hpc',World.pcb,World.pcb,List.getElem?_map]
    cases w.pcbs[pid]? with
    | none => rfl
    | some x => rfl
  obtain ⟨pc,hpc,rfl⟩ := Option.map_eq_some_iff.mp hcut
  rw [cutPp_fdfs] at hfs
  exact ⟨pc,fs,hpc,hfs,hlfd,hviews,rfl,by rw [cutPp_fdfs]⟩

theorem mem_cutPp_pp {u : Pcb} {a : Nat} (h : a ∈ (cutPp pid u).pp) : a ∈ u.pp ∧ a ≠ pid := by
  unfold cutPp at h
  split_ifs at h with hpp
  · simp at h
  · refine ⟨h,?_⟩
    rintro rfl
    exact hpp h

theorem Inv.exit (h : Inv w) (hs : droppcb w pid = some w') : Inv w' := by
  obtain ⟨pc,fs,hpc,hfs,hlfd,hviews,hpcbs,hheap⟩ := droppcb_some hs
  obtain ⟨q,p,hq,-,t,f,hlfd',-⟩ := Lfd.umprocDelproc_some hlfd
  have hlt : pid < w.pcbs.length := lt_of_get (pcb_eq_some.mp hpc)
  have hpcb : ∀ i, w'.pcb i = if i = pid then none else (w.pcb i).map (cutPp pid) := by
    intro i
    rw [World.pcb,hpcbs,join_set (by simpa using hlt),List.getElem?_map,World.pcb]
    cases w.pcbs[i]? with
    | none => rfl
    | some x => rfl
  have hprocs : w'.lfd.procs = w.lfd.procs.set pid none := by rw [hlfd']
  refine ⟨h.good.after hviews,fun i => ?_,fun i => ?_,?_,?_,?_,fun i r hi a ha => ?_⟩
  · rw [live_of_step hviews,liveAfter,Finset.mem_erase,hpcb,h.live]
    split_ifs with hi <;> simp [hi]
  · rw [Lfd.State.proc,hprocs,join_set (h.length ▸ hlt),hpcb]
    split_ifs with hi
    · simp
    · rw [ne_eq (Option.map _ _),Option.map_eq_none_iff]
      exact h.procs i
  · simp [hprocs,hpcbs,h.length]
  · exact h.tables.perform (o := .delproc pid) hlfd
  · have hmap := h.fs.map (cutPp_fdfs pid)
    have hget : (w.pcbs.map (Option.map (cutPp pid)))[pid]? = some (some (cutPp pid pc)) := by
      rw [List.getElem?_map,pcb_eq_some.mp hpc]
      rfl
    rw [hpcbs,hheap,← cutPp_fdfs pid pc]
    refine hmap.drop hget (by rw [cutPp_fdfs]; exact pcbFs_eq_some.mp hfs) ?_
    split_ifs <;> rfl
  · rw [hpcb] at hi
    split_ifs at hi with hne
    obtain ⟨u,hu,rfl⟩ := Option.map_eq_some_iff.mp hi
    obtain ⟨ha,hane⟩ := mem_cutPp_pp ha
    rw [hpcb,if_neg hane]
    simpa using h.parent i u hu a ha

theorem Inv.setIds {uid gid : Misc.Ids} {grouplist : List UInt32} (h : Inv w)
    (hs : setIds w pid uid gid grouplist = some w') : Inv w' := by
  obtain ⟨pc,hpc,hs⟩ := Option.bind_eq_some_iff.mp hs
  obtain rfl := Option.some.inj hs
  have hlt := lt_of_get (pcb_eq_some.mp hpc)
  have hpcb : ∀ i, (w.pcbs.set pid (some { pc with uid := uid, gid := gid, grouplist := grouplist }))[i]?.join =
      if i = pid then some { pc with uid := uid, gid := gid, grouplist := grouplist }
      else w.pcb i := join_set hlt _
  have hsome : ∀ i, (w.pcbs.set pid
      (some { pc with uid := uid, gid := gid, grouplist := grouplist }))[i]?.join ≠ none ↔
      w.pcb i ≠ none := by
    intro i
    rw [hpcb]
    split_ifs with hi
    · simp [hi,hpc]
    · rfl
  refine ⟨h.good,fun i => (h.live i).trans (hsome i).symm,fun i => (h.procs i).trans (hsome i).symm,
    by simpa using h.length,h.tables,h.fs.update (pcb_eq_some.mp hpc) rfl,
    fun i r hi a ha => (hsome a).mpr ?_⟩
  rw [World.pcb,hpcb] at hi
  split_ifs at hi with hpid
  · obtain rfl := Option.some.inj hi
    exact h.parent pid pc hpc a ha
  · exact h.parent i r hi a ha

theorem Inv.setFs {cwd root : List Char} {mask : Nat} (h : Inv w)
    (hs : setFs w pid cwd root mask = some w') : Inv w' := by
  simp only [Proc.setFs,Option.bind_eq_bind,Option.bind_eq_some_iff] at hs
  obtain ⟨pc,hpc,fs,hfs,hs⟩ := hs
  obtain rfl := Option.some.inj hs
  exact { h with fs := h.fs.write (pcbFs_eq_some.mp hfs) rfl }

theorem Inv.views {op : Treepoch.Op} {views : Treepoch.Sys} (h : Inv w) (hk : keepsProcs op)
    (hs : Treepoch.step w.views op = some views) : Inv { w with views := views } := by
  have hlive : views.live = w.views.live := by
    rw [live_of_step hs]
    cases op <;> first | rfl | simp [keepsProcs] at hk
  exact { h with good := h.good.after hs, live := fun p => by rw [hlive]; exact h.live p }

theorem Inv.call {c : Lfd.Call} {lfd : Lfd.State} (h : Inv w)
    (hs : Lfd.perform w.lfd (.call pid c) = some lfd) : Inv { w with lfd := lfd } := by
  have htables := h.tables.perform hs
  obtain ⟨q,p,hq,hp,htouch,-⟩ := Lfd.call_turn hs
  cases htouch with
  | same => exact h
  | put pending hb t =>
    have hlt := lt_of_get (Lfd.proc_eq_some.mp hq)
    refine { h with procs := fun i => ?_, length := ?_, tables := htables }
    · rw [Lfd.State.proc,Lfd.State.put,join_set hlt]
      split_ifs with hi
      · have hlive := (h.procs pid).mp (by simp [hq])
        exact iff_of_true (by simp) (hi ▸ hlive)
      · exact h.procs i
    · simpa [Lfd.State.put] using h.length

theorem Inv.step {op : Op} (h : Inv w) (hs : step w op = some w') : Inv w' := by
  cases op with
  | clone pid flags =>
    obtain ⟨invoker,q,_,_,hc⟩ := pcbConstructor_some.mp hs
    exact h.cloned hc
  | exit pid => exact h.exit hs
  | setFs pid cwd root mask => exact h.setFs hs
  | setIds pid uid gid grouplist => exact h.setIds hs
  | views op =>
    simp only [Proc.step,Option.bind_eq_bind] at hs
    split_ifs at hs with hk
    · obtain ⟨views,hv,hs⟩ := Option.bind_eq_some_iff.mp hs
      exact Option.some.inj hs ▸ h.views hk hv
    · simp at hs
  | call pid c =>
    obtain ⟨lfd,hl,hs⟩ := Option.bind_eq_some_iff.mp hs
    exact Option.some.inj hs ▸ h.call hl

end Steps

theorem inv_root {cwd : List Char} {mask : Nat} {uid gid : Misc.Ids} {grouplist : List UInt32}
    {w : World} (h : pcbPlusRoot cwd mask uid gid grouplist = some w) : Inv w := by
  simp only [pcbPlusRoot,Option.bind_eq_bind,Option.bind_eq_some_iff] at h
  obtain ⟨views,hv,h⟩ := h
  obtain rfl := Option.some.inj h
  have hlive := live_of_step hv
  refine ⟨Treepoch.Good.after (Or.inl ⟨rfl,rfl⟩) hv,fun p => ?_,fun p => ?_,rfl,?_,?_,?_⟩
  · rw [hlive]
    cases p <;> simp [liveAfter,Treepoch.Sys.empty,World.pcb]
  · cases p <;> simp [Lfd.State.init,Lfd.State.proc,World.pcb]
  · exact Lfd.files_counted.mp Lfd.inv_init.files
  · funext a
    cases a with
    | zero => rfl
    | succ a => simp [counts,users,RefCount.tally]
  · intro p q hp a ha
    cases p with
    | zero =>
      obtain rfl : _ = q := by simpa [World.pcb] using hp
      obtain rfl : 0 = a := by simpa using ha
      simp [World.pcb]
    | succ p => simp [World.pcb] at hp

end ViewOS.Proc
