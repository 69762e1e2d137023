import Mathlib.Tactic.Common

namespace Fields

variable {α : Type*} [DecidableEq α] {sep : α} {a rest : List α}

end Fields
