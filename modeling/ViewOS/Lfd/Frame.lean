import ViewOS.Lfd.Acts

namespace ViewOS.Lfd
open Shared

def Tables (s : State) : Prop := Counted PcbFile.count Pcb.fds s.files s.procs

theorem umprocDelproc_some {s s' : State} {pid : Nat} (h : umprocDelproc s pid = some s') :
    ∃ q p, s.proc pid = some q ∧ s.file q.fds = some p ∧ ∃ t f,
      s' = ⟨t, s.files.set q.fds f, s.procs.set pid none⟩ ∧
        f.map PcbFile.count = if p.count - 1 = 0 then none else some (p.count - 1) := by
  simp only [umprocDelproc,Option.bind_eq_bind,Option.bind_eq_some_iff] at h
  obtain ⟨q,hq,p,hp,h⟩ := h
  refine ⟨q,p,hq,hp,?_⟩
  split_ifs at h with hlast
  · obtain ⟨t,_,h⟩ := Option.bind_eq_some_iff.mp h
    exact ⟨t,none,(Option.some.inj h).symm,by simp [hlast]⟩
  · exact ⟨s.lfds,_,(Option.some.inj h).symm,by simp [hlast]⟩

theorem Tables.perform {s s' : State} {o : Op} (h : Tables s) (hs : perform s o = some s') :
    Tables s' := by
  cases o with
  | addproc pp cloneFiles =>
    obtain ⟨q,p,hq,hp,hs⟩ := umprocAddproc_some hs
    cases cloneFiles with
    | true =>
      obtain rfl : s' = _ := by simpa using hs
      exact Counted.share h (proc_eq_some.mp hq) (file_eq_some.mp hp) (v := ⟨q.fds,none⟩) rfl rfl
    | false =>
      obtain ⟨t,_,rfl⟩ : ∃ t, _ ∧ s' = _ := by simpa using hs
      exact Counted.add h rfl rfl
  | delproc pid =>
    obtain ⟨q,p,hq,hp,t,f,rfl,hf⟩ := umprocDelproc_some hs
    exact Counted.drop h (proc_eq_some.mp hq) (file_eq_some.mp hp) hf
  | call pid c =>
    obtain ⟨q,p,hq,hp,hs⟩ := call_turn hs
    cases hs.touches with
    | same => exact h
    | put pending hb t =>
      exact (Counted.write h (file_eq_some.mp hp) hb).update (proc_eq_some.mp hq)
        (v := { q with pending := pending }) rfl

end ViewOS.Lfd
