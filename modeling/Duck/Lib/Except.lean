import Mathlib.Tactic.Common

namespace Except

variable {x : Except ε α}

@[simp]
theorem ok_bind (f : α → Except ε β) : (ok a >>= f) = f a :=
  rfl

@[simp]
theorem error_bind (f : α → Except ε β) : (error e >>= f) = error e :=
  rfl

@[simp]
theorem pure_eq_ok : (pure a : Except ε α) = ok a :=
  rfl

theorem error_ne_ok : (error e : Except ε α) ≠ ok a := by
  intro h
  cases h

theorem bind_eq_ok {f : α → Except ε β} : (x >>= f) = ok b ↔ ∃ a, x = ok a ∧ f a = ok b := by
  cases x
  case error => exact ⟨nofun, fun ⟨_, h, _⟩ => nomatch h⟩
  case ok a  => exact ⟨fun h => ⟨a, rfl, h⟩, fun ⟨_, rfl, h⟩ => h⟩

theorem bind_eq_error {f : α → Except ε β} :
    (x >>= f) = error e ↔ x = error e ∨ ∃ a, x = ok a ∧ f a = error e := by
  cases x <;> simp

theorem map_eq_ok {f : α → β} : (f <$> x) = ok b ↔ ∃ a, x = ok a ∧ f a = b := by
  cases x
  case error => exact ⟨nofun, fun ⟨_, h, _⟩ => nomatch h⟩
  case ok a  => exact ⟨fun h => ⟨a, rfl, ok.inj h⟩, fun ⟨_, rfl, h⟩ => congrArg ok h⟩

end Except
