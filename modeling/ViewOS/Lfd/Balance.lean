import ViewOS.Lfd.References
import ViewOS.Lib.Shared

namespace ViewOS.Lfd
open RefCount Shared

def fileCounts (files : List (Option PcbFile)) (a : Nat) : Option Int :=
  files[a]?.join.map PcbFile.count

structure Inv (s : State) : Prop where
  rep : Rep s.lfds s.refs
  files : fileCounts s.files = tally s.users

theorem proc_eq_some {s : State} {pid : Nat} {q : Pcb} :
    s.proc pid = some q ↔ s.procs[pid]? = some (some q) := by
  simp [State.proc,Option.join_eq_some_iff]

theorem file_eq_some {s : State} {a : Nat} {p : PcbFile} :
    s.file a = some p ↔ s.files[a]? = some (some p) := by
  simp [State.file,Option.join_eq_some_iff]

theorem fdsRefs_eq : fdsRefs = fun q => q.elim 0 fun q => {q.fds} := by
  funext q
  cases q <;> rfl

theorem files_counted {s : State} :
    fileCounts s.files = tally s.users ↔ Counted PcbFile.count Pcb.fds s.files s.procs := by
  rw [State.users,fdsRefs_eq]
  exact Iff.rfl

theorem Inv.file {s : State} (h : Inv s) {pid : Nat} {q : Pcb} (hq : s.proc pid = some q) :
    ∃ p, s.file q.fds = some p := by
  obtain ⟨p,hp⟩ := (files_counted.mp h.files).object (proc_eq_some.mp hq)
  exact ⟨p,file_eq_some.mpr hp⟩

theorem Inv.split {s : State} (h : Inv s) {pid : Nat} {q : Pcb} {p : PcbFile}
    (hq : s.proc pid = some q) (hp : s.file q.fds = some p) :
    ∃ r, Rep s.lfds (p.refs + (optRef q.held + r)) ∧
      ∀ t p' pending, p'.count = p.count →
        Rep t (p'.refs + (optRef (pending.bind Pending.held) + r)) →
        Inv (s.put pid { q with pending := pending } p' t) := by
  obtain ⟨r1,hf,hf'⟩ := sum_map_split fileRefs (file_eq_some.mp hp)
  obtain ⟨r2,hh,hh'⟩ := sum_map_split heldRefs (proc_eq_some.mp hq)
  refine ⟨r1 + r2,?_,fun t p' pending hcount hrep => ⟨?_,?_⟩⟩
  · have hrefs : s.refs = p.refs + (optRef q.held + (r1 + r2)) := by
      rw [State.refs,hf,hh,fileRefs,heldRefs]
      abel
    exact hrefs ▸ h.rep
  · have hrefs : (s.put pid { q with pending := pending } p' t).refs =
        p'.refs + (optRef (pending.bind Pending.held) + (r1 + r2)) := by
      rw [State.refs,State.put,hf',hh',fileRefs,heldRefs,Pcb.held]
      abel
    exact hrefs ▸ hrep
  · have hput := ((files_counted.mp h.files).write (file_eq_some.mp hp) hcount).update
      (proc_eq_some.mp hq) (v := { q with pending := pending }) rfl
    exact files_counted.mpr hput

theorem Inv.clone {s : State} (h : Inv s) {pp : Nat} {q : Pcb} {p : PcbFile}
    (hp : s.file q.fds = some p) (hq : s.proc pp = some q) :
    Inv ⟨s.lfds, s.files.set q.fds (some { p with count := p.count + 1 }),
      s.procs ++ [some ⟨q.fds,none⟩]⟩ := by
  obtain ⟨r1,hf,hf'⟩ := sum_map_split fileRefs (file_eq_some.mp hp)
  refine ⟨?_,?_⟩
  · have hrefs : State.refs ⟨s.lfds,s.files.set q.fds (some { p with count := p.count + 1 }),
        s.procs ++ [some ⟨q.fds,none⟩]⟩ = s.refs := by
      rw [State.refs,State.refs,hf',hf]
      simp [heldRefs,Pcb.held,optRef,fileRefs,PcbFile.refs]
    exact hrefs ▸ h.rep
  · have hshare := (files_counted.mp h.files).share (proc_eq_some.mp hq) (file_eq_some.mp hp)
      (v := ⟨q.fds,none⟩) rfl (b := { p with count := p.count + 1 }) rfl
    exact files_counted.mpr hshare

theorem Inv.fork {s : State} (h : Inv s) {p : PcbFile} {t : Lfds} (hrep : Rep t (p.refs + s.refs)) :
    Inv ⟨t, s.files ++ [some ⟨1, p.lfdlist⟩], s.procs ++ [some ⟨s.files.length, none⟩]⟩ := by
  refine ⟨?_,?_⟩
  · have hrefs : State.refs ⟨t,s.files ++ [some ⟨1,p.lfdlist⟩],
        s.procs ++ [some ⟨s.files.length,none⟩]⟩ = p.refs + s.refs := by
      rw [State.refs,State.refs,List.map_append,List.sum_append,List.map_append,List.sum_append]
      simp only [List.map_cons,List.map_nil,List.sum_cons,List.sum_nil,fileRefs,heldRefs,
        Pcb.held,Option.bind_none,optRef,PcbFile.refs]
      abel
    exact hrefs ▸ hrep
  · exact files_counted.mpr ((files_counted.mp h.files).add rfl rfl)

theorem Inv.exit {s : State} (h : Inv s) {pid : Nat} {q : Pcb} {p : PcbFile}
    (hq : s.proc pid = some q) (hp : s.file q.fds = some p) (hheld : q.held = none) {f : Option PcbFile}
    (hf : f.map PcbFile.count = if p.count - 1 = 0 then none else some (p.count - 1)) {t : Lfds}
    (hrep : ∀ r, Rep s.lfds (p.refs + r) → Rep t (fileRefs f + r)) :
    Inv ⟨t, s.files.set q.fds f, s.procs.set pid none⟩ := by
  obtain ⟨r1,hf1,hf1'⟩ := sum_map_split fileRefs (file_eq_some.mp hp)
  obtain ⟨r2,hh,hh'⟩ := sum_map_split heldRefs (proc_eq_some.mp hq)
  refine ⟨?_,?_⟩
  · have hold : s.refs = p.refs + (r1 + r2) := by
      rw [State.refs,hf1,hh,fileRefs,heldRefs,hheld,optRef]
      abel
    have hnew : State.refs ⟨t,s.files.set q.fds f,s.procs.set pid none⟩ = fileRefs f + (r1 + r2) := by
      rw [State.refs,hf1',hh',heldRefs]
      abel
    exact hnew ▸ hrep _ (hold ▸ h.rep)
  · exact files_counted.mpr
      ((files_counted.mp h.files).drop (proc_eq_some.mp hq) (file_eq_some.mp hp) hf)

end ViewOS.Lfd
