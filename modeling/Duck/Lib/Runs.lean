import Mathlib.Data.List.Basic
import Mathlib.Tactic.Common

namespace Runs

-- A run of a labelled transition system, with the labels of its steps in order.
inductive Steps (step : σ → α → σ → Prop) : σ → List α → σ → Prop
  | refl : Steps step s [] s
  | step : step s₁ a s₂ → Steps step s₂ as s₃ → Steps step s₁ (a :: as) s₃

variable {step step' : σ → α → σ → Prop} {P : σ → Prop}

namespace Steps

theorem trans (h₁ : Steps step s₁ as s₂) (h₂ : Steps step s₂ bs s₃) : Steps step s₁ (as ++ bs) s₃ := by
  induction h₁
  case refl         => exact h₂
  case step e _ hi  => exact .step e (hi h₂)

theorem single (h : step s₁ a s₂) : Steps step s₁ [a] s₂ :=
  .step h .refl

theorem of_append (h : Steps step s (as ++ bs) t) : ∃ u, Steps step s as u ∧ Steps step u bs t := by
  induction as generalizing s
  case nil          => exact ⟨s, .refl, h⟩
  case cons a as hi =>
    cases h
    case step e h =>
      have ⟨u, h₁, h₂⟩ := hi h
      exact ⟨u, .step e h₁, h₂⟩

theorem mono (hm : ∀ {s a t}, step s a t → step' s a t) (h : Steps step s as t) :
    Steps step' s as t := by
  induction h
  case refl        => exact .refl
  case step e _ hi => exact .step (hm e) hi

-- What every step with a label of the run preserves, the run preserves.
theorem preserves_of_mem
    (h : Steps step s as t) (hp : ∀ {s a t}, a ∈ as → step s a t → P s → P t) (hs : P s) : P t := by
  induction h
  case refl        => exact hs
  case step e _ hi =>
    exact hi (fun ha => hp <| List.mem_cons_of_mem _ ha) (hp List.mem_cons_self e hs)

theorem preserves
    (h : Steps step s as t) (hp : ∀ {s a t}, step s a t → P s → P t) (hs : P s) : P t :=
  h.preserves_of_mem (fun _ => hp) hs

-- A step-by-step simulation carries a run over to a run with the same labels.
theorem simulates {step' : τ → α → τ → Prop} {R : σ → τ → Prop} (h : Steps step s as t)
    (hp : ∀ {s a t u}, step s a t → R s u → ∃ v, step' u a v ∧ R t v) (hs : R s u) :
    ∃ v, Steps step' u as v ∧ R t v := by
  induction h generalizing u
  case refl        => exact ⟨u, .refl, hs⟩
  case step e _ hi =>
    have ⟨_, e', hm⟩ := hp e hs
    have ⟨v, h', ht⟩ := hi hm
    exact ⟨v, .step e' h', ht⟩

end Steps

-- The states of the runs that start in a state of `init`.
def Reachable (init : σ → Prop) (step : σ → α → σ → Prop) (s : σ) : Prop :=
  ∃ s₀ as, init s₀ ∧ Steps step s₀ as s

namespace Reachable

variable {init : σ → Prop}

theorem start (h : init s) : Reachable init step s :=
  ⟨s, [], h, .refl⟩

theorem next (h : Reachable init step s) (e : step s a t) : Reachable init step t :=
  have ⟨s₀, as, h₀, hs⟩ := h
  ⟨s₀, as ++ [a], h₀, hs.trans (.single e)⟩

theorem steps (h : Reachable init step s) (hs : Steps step s as t) : Reachable init step t :=
  hs.preserves (fun e h => h.next e) h

theorem mono (hm : ∀ {s a t}, step s a t → step' s a t) (h : Reachable init step s) :
    Reachable init step' s :=
  have ⟨s₀, as, h₀, hs⟩ := h
  ⟨s₀, as, h₀, hs.mono hm⟩

-- An inductive invariant holds in every reachable state.
theorem invariant (h : Reachable init step s)
    (hi : ∀ {s}, init s → P s) (hp : ∀ {s a t}, step s a t → P s → P t) : P s :=
  have ⟨_, _, h₀, hs⟩ := h
  hs.preserves hp (hi h₀)

end Reachable
end Runs
