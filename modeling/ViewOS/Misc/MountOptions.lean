import ViewOS.Lib.Substring

namespace ViewOS.MountOptions

open Substring

def perm : List Char := "perm".toList

def permanent : List Char := "permanent".toList

def ghost : List Char := "ghost".toList

def msGhost : BitVec 64 := 1#64 <<< 22

def optionMatch (word opts : List Char) : Bool := firstDelimited ',' word opts

def permanentMount (opts : Option (List Char)) : Bool :=
  opts.any fun opts => optionMatch permanent opts || optionMatch perm opts

def wrapInMountFlags (mountflags : BitVec 64) (data : Option (List Char)) : BitVec 64 :=
  let mountflags := mountflags &&& ~~~msGhost
  if data.any (optionMatch ghost) then mountflags ||| msGhost else mountflags

def Listed (word opts : List Char) : Prop := word ∈ opts.splitOn ','

def Unhidden (word opts : List Char) : Prop :=
  ∃ before after, opts.splitOn ',' = before ++ word :: after ∧ ∀ o ∈ before, ¬word <:+: o

instance (word opts : List Char) : Decidable (Listed word opts) :=
  inferInstanceAs (Decidable (_ ∈ _))

variable {word opts : List Char}

theorem Unhidden.listed (h : Unhidden word opts) : Listed word opts := by
  obtain ⟨before,after,hsplit,-⟩ := h
  rw [Listed,hsplit]
  exact List.mem_append_right before List.mem_cons_self

theorem optionMatch_iff (hne : word ≠ []) (hcomma : ',' ∉ word) (opts : List Char) :
    optionMatch word opts = true ↔ Unhidden word opts := by
  rw [optionMatch,firstDelimited_iff hne hcomma,List.find?_eq_some_iff_append]
  constructor
  · rintro ⟨-,before,after,hsplit,hnone⟩
    exact ⟨before,after,hsplit,fun o ho => by simpa using hnone o ho⟩
  · rintro ⟨before,after,hsplit,hnone⟩
    exact ⟨by simp,before,after,hsplit,fun o ho => by simpa using hnone o ho⟩

theorem permanentMount_iff (opts : List Char) :
    permanentMount (some opts) = true ↔ Unhidden permanent opts ∨ Unhidden perm opts := by
  rw [permanentMount,Option.any_some,Bool.or_eq_true,optionMatch_iff (by decide) (by decide),
    optionMatch_iff (by decide) (by decide)]

theorem ghost_set_iff (mountflags : BitVec 64) (data : Option (List Char)) :
    wrapInMountFlags mountflags data &&& msGhost ≠ 0#64 ↔ data.any (optionMatch ghost) = true := by
  have hset : (mountflags &&& ~~~msGhost ||| msGhost) &&& msGhost = msGhost := by
    ext i hi
    simp only [BitVec.getElem_and,BitVec.getElem_or]
    cases msGhost[i] <;> simp
  have hclear : mountflags &&& ~~~msGhost &&& msGhost = 0#64 := by
    ext i hi
    simp only [BitVec.getElem_and,BitVec.getElem_not,BitVec.getElem_zero]
    cases msGhost[i] <;> simp
  have hghost : msGhost ≠ 0#64 := by decide
  rw [wrapInMountFlags]
  cases data.any (optionMatch ghost) with
  | true => exact iff_of_true (hset.symm ▸ hghost) rfl
  | false => exact iff_of_false (fun hne => hne hclear) Bool.false_ne_true

theorem options_recognised_iff (opts : List Char) (mountflags : BitVec 64) :
    ((permanentMount (some opts) = true ↔ Listed perm opts ∨ Listed permanent opts) ↔
        (Listed perm opts ∨ Listed permanent opts →
          Unhidden perm opts ∨ Unhidden permanent opts)) ∧
      ((wrapInMountFlags mountflags (some opts) &&& msGhost ≠ 0#64 ↔ Listed ghost opts) ↔
        (Listed ghost opts → Unhidden ghost opts)) := by
  have hperm : Unhidden permanent opts ∨ Unhidden perm opts →
      Listed perm opts ∨ Listed permanent opts :=
    fun h => h.symm.imp Unhidden.listed Unhidden.listed
  rw [permanentMount_iff,ghost_set_iff,Option.any_some,optionMatch_iff (by decide) (by decide)]
  constructor
  · rw [or_comm (a := Unhidden perm opts)]
    exact ⟨Iff.mpr,fun h => ⟨hperm,h⟩⟩
  · exact ⟨Iff.mpr,fun h => ⟨Unhidden.listed,h⟩⟩

theorem exact_option_hidden :
    ¬∀ opts : List Char,
      permanentMount (some opts) = true ↔ Listed perm opts ∨ Listed permanent opts := by
  intro hall
  have hlisted : Listed perm "noperm,perm".toList := by decide
  have hfound := (hall "noperm,perm".toList).mpr (.inl hlisted)
  exact absurd hfound (by decide)

end ViewOS.MountOptions
