import Mathlib.Order.Interval.Finset.Nat
import Mathlib.Algebra.BigOperators.Group.Finset.Basic
import Mathlib.Algebra.Order.BigOperators.Group.Finset

namespace Intervals

-- The half-open intervals `[lo i, lo i + len i)` and `[lo j, lo j + len j)` do not meet.
def Apart (lo len : ι → ℕ) (i j : ι) : Prop :=
  lo i + len i ≤ lo j ∨ lo j + len j ≤ lo i

theorem Apart.symm (h : Apart lo len i j) : Apart lo len j i :=
  Or.symm h

theorem Apart.disjoint (h : Apart lo len i j) :
    Disjoint (Finset.Ico (lo i) (lo i + len i)) (Finset.Ico (lo j) (lo j + len j)) := by
  simp only [Finset.disjoint_left, Finset.mem_Ico]
  intro a hi hj
  cases h <;> omega

-- Intervals inside `[a, b)` that are pairwise apart are together no longer than `b - a`.
theorem sum_len_le {s : Finset ι} (lo len : ι → ℕ)
    (hd : ∀ i ∈ s, ∀ j ∈ s, i ≠ j → Apart lo len i j)
    (hl : ∀ i ∈ s, a ≤ lo i) (hu : ∀ i ∈ s, lo i + len i ≤ b) : ∑ i ∈ s, len i ≤ b - a := by
  classical
  have hc : ∑ i ∈ s, len i = (s.biUnion fun i => Finset.Ico (lo i) (lo i + len i)).card := by
    rw [Finset.card_biUnion fun i hi j hj hn => (hd i hi j hj hn).disjoint]
    simp
  have hs : (s.biUnion fun i => Finset.Ico (lo i) (lo i + len i)) ⊆ Finset.Ico a b := by
    simp only [Finset.subset_iff, Finset.mem_biUnion, Finset.mem_Ico]
    intro x ⟨i, hi, hx⟩
    have := hl i hi
    have := hu i hi
    omega
  simpa [hc] using Finset.card_le_card hs

end Intervals
