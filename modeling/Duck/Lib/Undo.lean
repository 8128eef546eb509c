import Mathlib.Data.List.Basic
import Mathlib.Tactic.Common

namespace Undo

-- The records of a log take back what has been done since `t`, the last one first.
inductive Covers (undo : ρ → σ → Option σ) (t : σ) : List ρ → σ → Prop
  | nil  : Covers undo t [] t
  | push : Covers undo t log s → (undo r u = some s) → Covers undo t (log ++ [r]) u

namespace Covers

variable {undo : ρ → σ → Option σ} {log records : List ρ} {s t u : σ} {r : ρ}

theorem eq_of_nil (h : Covers undo t [] s) : s = t := by
  generalize hl : [] = log at h
  cases h
  case nil  => rfl
  case push => simp at hl

-- What is covered last is undone first.
theorem of_push (h : Covers undo t (log ++ [r]) u) : ∃ s, undo r u = some s ∧ Covers undo t log s := by
  generalize hl : log ++ [r] = log' at h
  cases h
  case nil       => simp at hl
  case push h hr =>
    obtain ⟨rfl, hr'⟩ := List.append_inj' hl rfl
    obtain rfl := List.singleton_inj.mp hr'
    exact ⟨_, hr, h⟩

end Covers
end Undo
