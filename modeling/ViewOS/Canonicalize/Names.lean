import Mathlib.Data.List.Basic
import Mathlib.Data.List.TakeWhile
import ViewOS.Canonicalize.Model

namespace ViewOS.Canonicalize

def Ordinary (c : Path) : Prop := c ≠ [] ∧ '/' ∉ c ∧ c ≠ ['.'] ∧ c ≠ ['.', '.']

instance (c : Path) : Decidable (Ordinary c) := inferInstanceAs (Decidable (_ ∧ _))

def text : List Path → Path
  | [] => []
  | c :: cs => '/' :: c ++ text cs

def str (dir : List Path) : Path := if dir = [] then ['/'] else text dir

def Names (dir : List Path) : Prop := ∀ c ∈ dir, Ordinary c

instance (dir : List Path) : Decidable (Names dir) := inferInstanceAs (Decidable (∀ c ∈ dir, _))

def AtSlash (s : Path) : Prop := s = [] ∨ s.head? = some '/'

@[simp] theorem str_nil : str [] = ['/'] := rfl

@[simp] theorem text_nil : text [] = [] := rfl

theorem text_cons (c : Path) (cs : List Path) : text (c :: cs) = '/' :: (c ++ text cs) := rfl

theorem str_of_ne_nil {dir : List Path} (h : dir ≠ []) : str dir = text dir := if_neg h

@[simp] theorem text_append (a b : List Path) : text (a ++ b) = text a ++ text b := by
  induction a with
  | nil => rfl
  | cons c a ih => simp [text_cons,ih]

theorem atSlash_text_append (cs : List Path) {tail : Path} (h : AtSlash tail) :
    AtSlash (text cs ++ tail) := by
  cases cs with
  | nil => exact h
  | cons c cs => exact Or.inr rfl

theorem names_append {a b : List Path} : Names (a ++ b) ↔ Names a ∧ Names b := by
  simp [Names,or_imp,forall_and]

theorem names_snoc {dir : List Path} {c : Path} (h : Names dir) (hc : Ordinary c) :
    Names (dir ++ [c]) :=
  names_append.mpr ⟨h,by simpa [Names] using hc⟩

theorem Ordinary.last_ne_slash {c : Path} (h : Ordinary c) (s : Path) :
    (s ++ c).getLast? ≠ some '/' := by
  rw [List.getLast?_append_of_ne_nil _ h.1]
  exact fun e => h.2.1 (List.mem_of_getLast? e)

theorem text_last_ne_slash {dir : List Path} (hn : Names dir) : (text dir).getLast? ≠ some '/' := by
  rcases List.eq_nil_or_concat dir with rfl | ⟨a,c,rfl⟩
  · simp
  · rw [List.concat_eq_append] at hn ⊢
    have hc : Ordinary c := hn c (by simp)
    have e : text (a ++ [c]) = (text a ++ ['/']) ++ c := by simp [text_cons]
    rw [e]
    exact hc.last_ne_slash _

theorem addComponent_str {dir : List Path} (hn : Names dir) (c : Path) :
    addComponent (str dir) c = str (dir ++ [c]) := by
  rw [str_of_ne_nil (by simp : dir ++ [c] ≠ [])]
  by_cases hd : dir = []
  · subst hd
    simp [addComponent,text_cons]
  · rw [str_of_ne_nil hd,addComponent,if_pos (text_last_ne_slash hn)]
    simp [text_cons]

theorem addSlash_str {dir : List Path} (hn : Names dir) :
    addSlash (str dir) = text dir ++ ['/'] := by
  by_cases hd : dir = []
  · subst hd
    rfl
  · rw [str_of_ne_nil hd,addSlash,if_pos (text_last_ne_slash hn)]

theorem str_length_le (dir : List Path) : (str dir).length ≤ (text dir).length + 1 := by
  unfold str
  split_ifs with hd
  · simp
  · exact Nat.le_succ _

theorem str_length_root (root x : List Path) :
    (str root).length ≤ (text (root ++ x) ++ ['/']).length := by
  have := str_length_le root
  simp
  omega

theorem component_ordinary {s : Path} (h0 : component s ≠ []) (h1 : component s ≠ ['.'])
    (h2 : component s ≠ ['.', '.']) : Ordinary (component s) := by
  refine ⟨h0,fun h => ?_,h1,h2⟩
  simpa using List.mem_takeWhile_imp h

theorem component_append {c tail : Path} (hc : Ordinary c) (ht : AtSlash tail) :
    component (c ++ tail) = c ∧ remainder (c ++ tail) = tail := by
  have hd : (c ++ tail).dropWhile (· = '/') = c ++ tail := by
    obtain ⟨a,c',rfl⟩ := List.exists_cons_of_ne_nil hc.1
    have ha : a ≠ '/' := fun e => hc.2.1 (by simp [e])
    simp [ha]
  have hall : ∀ x ∈ c, decide (x ≠ '/') = true := fun x hx => by
    simpa using fun e : x = '/' => hc.2.1 (e ▸ hx)
  have htake : tail.takeWhile (· ≠ '/') = [] ∧ tail.dropWhile (· ≠ '/') = tail := by
    rcases ht with rfl | ht
    · simp
    · cases tail with
      | nil => simp
      | cons x t =>
        obtain rfl : x = '/' := by simpa using ht
        simp
  unfold component remainder
  rw [hd,List.takeWhile_append_of_pos hall,List.dropWhile_append_of_pos hall,htake.1,htake.2]
  simp

@[simp] theorem component_slash (s : Path) : component ('/' :: s) = component s := by
  simp [component]

@[simp] theorem remainder_slash (s : Path) : remainder ('/' :: s) = remainder s := by
  simp [remainder]

theorem remainder_length_lt {s : Path} (h : component s ≠ []) :
    (remainder s).length < s.length := by
  have h1 : (s.dropWhile (· = '/')).length ≤ s.length := (List.dropWhile_sublist _).length_le
  have h2 := congrArg List.length
    (List.takeWhile_append_dropWhile (p := (· ≠ '/')) (l := s.dropWhile (· = '/')))
  have h3 := List.length_pos_iff.mpr h
  simp only [List.length_append] at h2
  unfold component at h3
  unfold remainder
  omega

end ViewOS.Canonicalize
