import Mathlib.Data.List.Nodup
import Mathlib.Logic.Function.Basic
import Mathlib.Tactic.Common

-- Who owns what, what has been acquired, and what its owner has released.
@[ext]
structure Ownership (ι α : Type) where
  owned    : ι → Option α
  acquired : List α
  released : List α

namespace Ownership

variable {ι α : Type} {o o' : Ownership ι α} {i j : ι} {a : α} {new : Option α}

-- What has been acquired has one owner until it is released, and is released once.
structure Linear (o : Ownership ι α) : Prop where
  held  : ∀ {i a}, o.owned i = some a → a ∈ o.acquired
  owner : ∀ {i j a}, o.owned i = some a → o.owned j = some a → i = j
  once  : o.released.Nodup
  gone  : ∀ a, a ∈ o.released ↔ a ∈ o.acquired ∧ ∀ i, o.owned i ≠ some a

theorem Linear.congr (h : o.Linear) (ho : o'.owned = o.owned) (ha : o'.acquired = o.acquired)
    (hr : o'.released = o.released) : o'.Linear :=
  Ownership.ext ho ha hr ▸ h

theorem Linear.not_released (h : o.Linear) (ha : o.owned i = some a) : a ∉ o.released :=
  fun hr => ((h.gone a).mp hr).2 i ha

variable [DecidableEq ι]

def acquire (o : Ownership ι α) (i : ι) (new : Option α) : Ownership ι α :=
  { o with owned := Function.update o.owned i new, acquired := new.toList ++ o.acquired }

def release (o : Ownership ι α) (i : ι) : Ownership ι α :=
  { o with owned := Function.update o.owned i none, released := (o.owned i).toList ++ o.released }

-- What `j` owns is owned by `i` from then on.
def give (o : Ownership ι α) (j i : ι) : Ownership ι α :=
  { o with owned := Function.update (Function.update o.owned j none) i (o.owned j) }

namespace Linear

theorem acquire (h : o.Linear) (hi : o.owned i = none) (hn : ∀ a ∈ new, a ∉ o.acquired) : (o.acquire i new).Linear where
  held {j a} ha := by
    simp only [Ownership.acquire, List.mem_append, Option.mem_toList] at ha ⊢
    by_cases hj : j = i
    case pos => exact .inl <| by rwa [hj, Function.update_self] at ha
    case neg => exact .inr <| h.held <| by rwa [Function.update_of_ne hj] at ha
  owner {j k a} hj hk := by
    simp only [Ownership.acquire] at hj hk
    by_cases hji : j = i <;> by_cases hki : k = i
    · exact hji.trans hki.symm
    · rw [hji, Function.update_self] at hj
      rw [Function.update_of_ne hki] at hk
      exact absurd (h.held hk) (hn a hj)
    · rw [hki, Function.update_self] at hk
      rw [Function.update_of_ne hji] at hj
      exact absurd (h.held hj) (hn a hk)
    · rw [Function.update_of_ne hji] at hj
      rw [Function.update_of_ne hki] at hk
      exact h.owner hj hk
  once := h.once
  gone a := by
    simp only [Ownership.acquire, List.mem_append, Option.mem_toList]
    constructor
    · intro hr
      have ⟨ha, ho⟩ := (h.gone a).mp hr
      refine ⟨.inr ha, fun j hj => ?_⟩
      by_cases hji : j = i
      case pos =>
        rw [hji, Function.update_self] at hj
        exact hn a hj ha
      case neg =>
        rw [Function.update_of_ne hji] at hj
        exact ho j hj
    · rintro ⟨ha | ha, ho⟩
      · exact absurd (by rw [Function.update_self, ha]) (ho i)
      · refine (h.gone a).mpr ⟨ha, fun j hj => ho j ?_⟩
        have hji : j ≠ i := by
          rintro rfl
          cases hi.symm.trans hj
        rwa [Function.update_of_ne hji]

theorem release (h : o.Linear) (i : ι) : (o.release i).Linear where
  held {j a} ha := by
    simp only [Ownership.release] at ha
    by_cases hj : j = i
    case pos =>
      rw [hj, Function.update_self] at ha
      cases ha
    case neg => exact h.held <| by rwa [Function.update_of_ne hj] at ha
  owner {j k a} hj hk := by
    simp only [Ownership.release] at hj hk
    by_cases hji : j = i <;> by_cases hki : k = i
    · exact hji.trans hki.symm
    · rw [hji, Function.update_self] at hj
      cases hj
    · rw [hki, Function.update_self] at hk
      cases hk
    · rw [Function.update_of_ne hji] at hj
      rw [Function.update_of_ne hki] at hk
      exact h.owner hj hk
  once := by
    simp only [Ownership.release]
    cases hi : o.owned i
    case none   => exact h.once
    case some a => exact List.nodup_cons.mpr ⟨h.not_released hi, h.once⟩
  gone a := by
    simp only [Ownership.release, List.mem_append, Option.mem_toList]
    constructor
    · rintro (ha | ha)
      · refine ⟨h.held ha, fun j hj => ?_⟩
        by_cases hji : j = i
        case pos =>
          rw [hji, Function.update_self] at hj
          cases hj
        case neg =>
          rw [Function.update_of_ne hji] at hj
          exact hji <| h.owner hj ha
      · have ⟨ha, ho⟩ := (h.gone a).mp ha
        refine ⟨ha, fun j hj => ?_⟩
        by_cases hji : j = i
        case pos =>
          rw [hji, Function.update_self] at hj
          cases hj
        case neg =>
          rw [Function.update_of_ne hji] at hj
          exact ho j hj
    · rintro ⟨ha, ho⟩
      by_cases hi : o.owned i = some a
      case pos => exact .inl hi
      case neg =>
        refine .inr <| (h.gone a).mpr ⟨ha, fun j hj => ?_⟩
        have hji : j ≠ i := by
          rintro rfl
          exact hi hj
        exact ho j <| by rwa [Function.update_of_ne hji]

-- Who owns it after it has been given away, and who did before.
theorem give_iff (hi : o.owned i = none) (hij : i ≠ j) :
    (∃ k, (o.give j i).owned k = some a) ↔ ∃ k, o.owned k = some a := by
  simp only [Ownership.give]
  constructor
  · rintro ⟨k, hk⟩
    by_cases hki : k = i
    case pos => exact ⟨j, by rwa [hki, Function.update_self] at hk⟩
    case neg =>
      rw [Function.update_of_ne hki] at hk
      by_cases hkj : k = j
      case pos =>
        rw [hkj, Function.update_self] at hk
        cases hk
      case neg => exact ⟨k, by rwa [Function.update_of_ne hkj] at hk⟩
  · rintro ⟨k, hk⟩
    by_cases hkj : k = j
    case pos => exact ⟨i, by rwa [Function.update_self, ←hkj]⟩
    case neg =>
      have hki : k ≠ i := by
        rintro rfl
        cases hi.symm.trans hk
      exact ⟨k, by rwa [Function.update_of_ne hki, Function.update_of_ne hkj]⟩

theorem give (h : o.Linear) (hi : o.owned i = none) (hij : i ≠ j) : (o.give j i).Linear where
  held ha := by
    obtain ⟨k, hk⟩ := (give_iff hi hij).mp ⟨_, ha⟩
    exact h.held hk
  owner {k l a} hk hl := by
    -- The owner before is `j` where it is `i` now.
    have hback {k} (hk : (o.give j i).owned k = some a) : o.owned (if k = i then j else k) = some a ∧ k ≠ j := by
      simp only [Ownership.give] at hk
      by_cases hki : k = i
      case pos =>
        subst hki
        rw [Function.update_self] at hk
        exact ⟨by rwa [if_pos rfl], hij⟩
      case neg =>
        rw [Function.update_of_ne hki] at hk
        by_cases hkj : k = j
        case pos =>
          rw [hkj, Function.update_self] at hk
          cases hk
        case neg => exact ⟨by rwa [if_neg hki, ←Function.update_of_ne hkj none o.owned], hkj⟩
    have ⟨hk, hkj⟩ := hback hk
    have ⟨hl, hlj⟩ := hback hl
    have he := h.owner hk hl
    split at he <;> split at he
    case isTrue.isTrue hk hl   => exact hk.trans hl.symm
    case isTrue.isFalse        => exact absurd he.symm hlj
    case isFalse.isTrue        => exact absurd he hkj
    case isFalse.isFalse       => exact he
  once := h.once
  gone a := by
    have hg := not_congr <| give_iff (a := a) hi hij
    rw [not_exists, not_exists] at hg
    exact (h.gone a).trans <| and_congr_right' hg.symm

end Linear
end Ownership
