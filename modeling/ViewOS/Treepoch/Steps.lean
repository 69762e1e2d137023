import ViewOS.Treepoch.System

namespace ViewOS.Treepoch
open AddrTree

section Specs

variable {σ : Sys} {T : ATree} {p pp k : Nat}

theorem Inv.site (h : Inv σ T) (hp : p ∈ σ.live) :
    ∃ C a, T = Ctx.plug C (.leaf a) ∧ σ.tst p = ⟨(σ.tst p).epoch, some a⟩ := by
  obtain ⟨a,ha,ht⟩ := h.atLeaf p hp
  obtain ⟨C,rfl⟩ := Ctx.exists_plug_leaf ha
  exact ⟨C,a,rfl,by rw [← ht]⟩

theorem pcbPlusRoot_spec (hroot : σ.te.teRoot = none) (hp : p ∉ σ.live) :
    ∃ te, step σ (.pcbPlusRoot p) =
        some { σ with te := te, live := insert p σ.live,
                      tst := Function.update σ.tst p ⟨σ.te.epochNow,some σ.te.next⟩ } ∧
      Rep te (.leaf σ.te.next) ∧ te.next = σ.te.next + 1 ∧ te.epochNow = σ.te.epochNow + 1 ∧
      (te.mem σ.te.next).nproc = 1 := by
  obtain ⟨s',e,hrep,hn,he,hz⟩ := forkRoot_rep hroot
  have e2 := teNewproc_spec (C := []) hrep
  refine ⟨_,?_,hrep.tally (· + 1) [σ.te.next],hn,he,?_⟩
  · simp only [step,Enabled,hroot,hp,not_false_eq_true,and_self,if_true,perform,e,
      tstNewproc,Option.bind_eq_bind,Option.bind_some,e2]
    rfl
  · simp [tally,hz]

theorem pcbPlus_spec {C : List Frame} {a : Nat} (h : Inv σ (Ctx.plug C (.leaf a)))
    (hpp : pp ∈ σ.live) (hp : p ∉ σ.live) (ha : σ.tst pp = ⟨(σ.tst pp).epoch, some a⟩) :
    step σ (.pcbPlus pp p) =
      some { σ with te := { σ.te with mem := tally (· + 1) (a :: Ctx.spine C) σ.te.mem },
                    live := insert p σ.live, tst := Function.update σ.tst p (σ.tst pp) } := by
  have e := teNewproc_spec h.rep
  have ht : (σ.tst pp).treepoch = some a := by rw [ha]
  simp [step,Enabled,hpp,hp,perform,tstNewproc,ht,e]

theorem pcbNewfork_spec {C : List Frame} {a : Nat} (h : Inv σ (Ctx.plug C (.leaf a)))
    (hp : p ∈ σ.live) (ha : σ.tst p = ⟨(σ.tst p).epoch, some a⟩) :
    (occupancy σ a = 1 ∨ C.length ≥ maxDepth) ∧ step σ (.pcbNewfork p) = some σ ∨
      (occupancy σ a ≠ 1 ∧ C.length < maxDepth) ∧ ∃ te, step σ (.pcbNewfork p) =
          some { σ with te := te,
                        tst := Function.update σ.tst p ⟨σ.te.epochNow,some σ.te.next⟩ } ∧
        ForkEffect σ.te te C a := by
  rw [← leaf_nproc h.counts]
  rcases tstNewfork_spec (e := (σ.tst p).epoch) h.rep with ⟨hc,e⟩ | ⟨hc,te,e,he⟩
  · refine Or.inl ⟨hc,?_⟩
    simp only [step,Enabled,hp,if_true,perform]
    rw [ha,e]
    simp only [Option.bind_eq_bind,Option.bind_some]
    rw [← ha,Function.update_eq_self]
  · refine Or.inr ⟨hc,te,?_,he⟩
    simp only [step,Enabled,hp,if_true,perform]
    rw [ha,e]
    rfl

theorem pcbMinus_spec {C : List Frame} {a : Nat} (h : Inv σ (Ctx.plug C (.leaf a)))
    (hp : p ∈ σ.live) (ha : σ.tst p = ⟨(σ.tst p).epoch, some a⟩) :
    (2 ≤ occupancy σ a ∨ C = []) ∧ step σ (.pcbMinus p) =
        some { σ with te := { σ.te with mem := tally decr (a :: Ctx.spine C) σ.te.mem },
                      live := σ.live.erase p } ∨
      occupancy σ a = 1 ∧ ∃ f D te, C = f :: D ∧ step σ (.pcbMinus p) =
          some { σ with te := te, live := σ.live.erase p } ∧ Collapse σ.te te f D a := by
  have hw := h.occupied ⟨p,hp⟩
  have ht : (σ.tst p).treepoch = some a := by rw [ha]
  have hpos := occupancy_pos hp ht
  by_cases h2 : 2 ≤ occupancy σ a ∨ C = []
  · refine Or.inl ⟨h2,?_⟩
    have e := teDelproc_stay h.rep h.counts hw h2
    simp [step,Enabled,hp,perform,tstDelproc,ht,e]
  · simp only [not_or] at h2
    obtain ⟨f,D,rfl⟩ := List.exists_cons_of_ne_nil h2.2
    have h1 : occupancy σ a = 1 := by omega
    obtain ⟨te,e,hc⟩ := teDelproc_collapse h.rep h.counts hw h1
    refine Or.inr ⟨h1,f,D,te,rfl,?_,hc⟩
    simp [step,Enabled,hp,perform,tstDelproc,ht,e]

theorem syscall_spec (hp : p ∈ σ.live) : step σ (.syscall p) =
    some { σ with tst := Function.update σ.tst p { σ.tst p with epoch := σ.te.epochNow } } := by
  simp [step,Enabled,hp,perform,getEpoch]

theorem addService_spec (hp : p ∈ σ.live) : step σ (.addService p k) =
    some { σ with te := { σ.te with epochNow := σ.te.epochNow + 1 },
                  svc := Function.update σ.svc k
                    (some ⟨σ.te.epochNow,(σ.tst p).treepoch⟩) } := by
  simp [step,Enabled,hp,perform,tstTimestamp,newEpoch]

theorem matching_spec {σ' : Sys} (h : step σ (.matching p k) = some σ') :
    p ∈ σ.live ∧ ∃ service service' r, σ.svc k = some service ∧
      tstMatchingepoch σ.te service (some (σ.tst p)) = some (service', r) ∧
      σ' = { σ with svc := Function.update σ.svc k (some service') } := by
  unfold step at h
  split at h
  case isFalse => simp at h
  case isTrue hen =>
    simp only [perform,Option.bind_eq_bind] at h
    obtain ⟨service,hs,h⟩ := Option.bind_eq_some_iff.mp h
    obtain ⟨⟨service',r⟩,hm,h⟩ := Option.bind_eq_some_iff.mp h
    exact ⟨hen.1,service,service',r,hs,hm,by simpa using h.symm⟩

theorem enabled_of_step {op : Op} {σ' : Sys} (h : step σ op = some σ') : Enabled σ op := by
  unfold step at h
  split at h
  · assumption
  · simp at h

end Specs

end ViewOS.Treepoch
