import Duck.Common.Types
import Duck.Lib.Intervals
import Mathlib.Data.Finset.Range
import Mathlib.Logic.Function.Basic

namespace Duck

-- What a page is for: a map from slot numbers to bytes, together with the link of the page chain.
@[ext]
structure PageView where
  slotCount : ℕ
  nextPage  : PageID
  slots     : ℕ → Option (List UInt8)

namespace PageView

variable {v : PageView}

def empty : PageView where
  slotCount := 0
  nextPage  := invalidPageID
  slots     := fun _ => none

def bind (v : PageView) (i : ℕ) (bytes : List UInt8) : PageView where
  slotCount := max v.slotCount (i + 1)
  nextPage  := v.nextPage
  slots     := Function.update v.slots i (some bytes)

def unbind (v : PageView) (i : ℕ) : PageView :=
  { v with slots := Function.update v.slots i none }

def link (v : PageView) (pageId : PageID) : PageView :=
  { v with nextPage := pageId }

def bytesAt (v : PageView) (i : ℕ) : ℕ :=
  (v.slots i).elim 0 List.length

-- The bytes bound to slots.
def used (v : PageView) : ℕ :=
  ∑ i ∈ Finset.range v.slotCount, v.bytesAt i

-- The bytes taken by the header, the slot array and the tuples.
def occupied (v : PageView) : ℕ :=
  8 + 4 * v.slotCount + v.used

@[simp]
theorem bind_nextPage : (v.bind i bytes).nextPage = v.nextPage :=
  rfl

@[simp]
theorem unbind_nextPage : (v.unbind i).nextPage = v.nextPage :=
  rfl

@[simp]
theorem unbind_slotCount : (v.unbind i).slotCount = v.slotCount :=
  rfl

theorem bind_slotCount (h : i < v.slotCount) : (v.bind i bytes).slotCount = v.slotCount := by
  simp only [bind]
  omega

theorem bind_slotCount_new : (v.bind v.slotCount bytes).slotCount = v.slotCount + 1 := by
  simp only [bind]
  omega

@[simp]
theorem bind_slots_self : (v.bind i bytes).slots i = some bytes := by
  simp [bind]

theorem bind_slots_ne (h : j ≠ i) : (v.bind i bytes).slots j = v.slots j := by
  simp [bind, h]

@[simp]
theorem unbind_slots_self : (v.unbind i).slots i = none := by
  simp [unbind]

theorem unbind_slots_ne (h : j ≠ i) : (v.unbind i).slots j = v.slots j := by
  simp [unbind, h]

theorem bind_unbind {bytes : List UInt8} (h : i < v.slotCount) (hi : v.slots i = none) :
    (v.bind i bytes).unbind i = v := by
  ext1
  case slotCount => rw [unbind_slotCount, bind_slotCount h]
  case nextPage  => rfl
  case slots     => simp [bind, unbind, ←hi]

-- What a slot holds is counted once.
theorem used_unbind (h : i < v.slotCount) : (v.unbind i).used + v.bytesAt i = v.used := by
  have hm := Finset.mem_range.mpr h
  simp only [used, unbind_slotCount, ←Finset.add_sum_erase _ _ hm]
  have he : ∑ j ∈ (Finset.range v.slotCount).erase i, (v.unbind i).bytesAt j =
      ∑ j ∈ (Finset.range v.slotCount).erase i, v.bytesAt j := by
    apply Finset.sum_congr rfl
    intro j hj
    rw [bytesAt, unbind_slots_ne (Finset.ne_of_mem_erase hj), bytesAt]
  have hz : (v.unbind i).bytesAt i = 0 := by simp [bytesAt]
  omega

theorem used_bind (h : i < v.slotCount) (hi : v.slots i = none) :
    (v.bind i bytes).used = v.used + bytes.length := by
  have hc : (v.bind i bytes).slotCount = v.slotCount := bind_slotCount h
  have hb : ((v.bind i bytes).unbind i).used + _ = (v.bind i bytes).used := used_unbind (hc ▸ h)
  rw [bind_unbind h hi] at hb
  simp [←hb, bytesAt]

theorem used_bind_new : (v.bind v.slotCount bytes).used = v.used + bytes.length := by
  have he : ∑ j ∈ Finset.range v.slotCount, (v.bind v.slotCount bytes).bytesAt j = v.used := by
    apply Finset.sum_congr rfl
    intro j hj
    rw [bytesAt, bind_slots_ne (Finset.mem_range.mp hj).ne, bytesAt]
  rw [used, bind_slotCount_new, Finset.sum_range_succ, he]
  simp [bytesAt]

end PageView
end Duck
