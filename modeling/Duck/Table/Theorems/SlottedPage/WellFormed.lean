import Duck.Table.PageView
import Duck.Table.Theorems.SlottedPage.Fields

open Memory

namespace Duck.SlottedPage

structure Live (p : SlottedPage) (i : ℕ) : Prop where
  lt  : i < p.slotCount
  off : p.slotOffset i ≠ invalidSlotOffset

instance (p : SlottedPage) (i : ℕ) : Decidable (p.Live i) :=
  decidable_of_iff (i < p.slotCount ∧ p.slotOffset i ≠ invalidSlotOffset)
    ⟨fun ⟨lt, off⟩ => ⟨lt, off⟩, fun ⟨lt, off⟩ => ⟨lt, off⟩⟩

def bindings (p : SlottedPage) (i : ℕ) : Option (List UInt8) :=
  if p.Live i then p.data.slice (p.slotOffset i) (p.slotLength i) else none

def view (p : SlottedPage) : PageView where
  slotCount := p.slotCount
  nextPage  := p.nextPage
  slots     := p.bindings

-- The slot array and the data area do not meet, and every live tuple has a place of its own in the
-- data area.
structure WellFormed (p : SlottedPage) : Prop where
  slots_fit : 8 + 4 * p.slotCount ≤ p.freeSpaceOffset
  free_le   : p.freeSpaceOffset ≤ kPageSize
  live_ge   : ∀ {i}, p.Live i → p.freeSpaceOffset ≤ p.slotOffset i
  live_le   : ∀ {i}, p.Live i → p.slotOffset i + p.slotLength i ≤ kPageSize
  apart     : ∀ {i j}, p.Live i → p.Live j → i ≠ j → Intervals.Apart p.slotOffset p.slotLength i j

variable {p q : SlottedPage} {i j : ℕ}

@[simp]
theorem view_slotCount : p.view.slotCount = p.slotCount :=
  rfl

@[simp]
theorem view_nextPage : p.view.nextPage = p.nextPage :=
  rfl

@[simp]
theorem view_slots : p.view.slots = p.bindings :=
  rfl

theorem bindings_of_live (h : p.Live i) :
    p.bindings i = some (p.data.slice (p.slotOffset i) (p.slotLength i)) :=
  if_pos h

theorem bindings_of_not_live (h : ¬p.Live i) : p.bindings i = none :=
  if_neg h

theorem bindings_eq_none_iff : p.bindings i = none ↔ ¬p.Live i := by
  simp [bindings]

theorem live_of_bindings (h : p.bindings i = some bytes) : p.Live i := by
  by_contra hc
  simp [bindings_of_not_live hc] at h

theorem bytesAt_of_live (h : p.Live i) : p.view.bytesAt i = p.slotLength i := by
  simp [PageView.bytesAt, bindings_of_live h]

theorem bytesAt_of_not_live (h : ¬p.Live i) : p.view.bytesAt i = 0 := by
  simp [PageView.bytesAt, bindings_of_not_live h]

theorem bindings_slotCount : p.bindings p.slotCount = none :=
  bindings_of_not_live fun h => Nat.lt_irrefl _ h.lt

theorem hasSlot_iff : p.hasSlot i ↔ p.Live i := by
  simp only [hasSlot, decide_eq_true_eq]
  exact ⟨fun ⟨lt, off⟩ => ⟨lt, off⟩, fun ⟨lt, off⟩ => ⟨lt, off⟩⟩

theorem getTuple_eq : p.getTuple i = (p.bindings i).getD [] := by
  simp only [getTuple, bindings]
  by_cases h : p.Live i
  case pos =>
    have := h.lt
    have := h.off
    simp_all
  case neg =>
    have : p.slotCount ≤ i ∨ p.slotOffset i = invalidSlotOffset := by
      by_contra hc
      exact h ⟨by omega, fun he => hc (.inr he)⟩
    simp only [h, if_false, Option.getD_none, ite_eq_left_iff, ite_eq_left_iff]
    grind

-- Two pages that agree on a slot and on the data area bind it to the same bytes.
theorem WellFormed.bindings_congr (hw : p.WellFormed) (hc : i < q.slotCount ↔ i < p.slotCount)
    (ho : q.slotOffset i = p.slotOffset i) (hl : q.slotLength i = p.slotLength i)
    (hd : ∀ a, p.freeSpaceOffset ≤ a → a < kPageSize → q.data a = p.data a) :
    q.bindings i = p.bindings i := by
  have hlive : q.Live i ↔ p.Live i :=
    ⟨fun h => ⟨hc.mp h.lt, ho ▸ h.off⟩, fun h => ⟨hc.mpr h.lt, ho ▸ h.off⟩⟩
  by_cases h : p.Live i
  case neg => rw [bindings_of_not_live h, bindings_of_not_live (mt hlive.mp h)]
  case pos =>
    rw [bindings_of_live h, bindings_of_live (hlive.mpr h), ho, hl]
    have := hw.live_ge h
    have := hw.live_le h
    exact congrArg some <| slice_congr fun a _ _ => hd a (by omega) (by omega)

theorem WellFormed.used_le (hw : p.WellFormed) : p.view.used ≤ kPageSize - p.freeSpaceOffset := by
  let live := (Finset.range p.slotCount).filter p.Live
  have hu : p.view.used = ∑ i ∈ live, p.slotLength i := by
    rw [Finset.sum_filter]
    apply Finset.sum_congr rfl
    intro i _
    by_cases h : p.Live i
    case pos => simp [h, bytesAt_of_live]
    case neg => simp [h, bytesAt_of_not_live]
  rw [hu]
  apply Intervals.sum_len_le p.slotOffset
  · intro i hi j hj hn
    exact hw.apart (Finset.mem_filter.mp hi).2 (Finset.mem_filter.mp hj).2 hn
  · intro i hi
    exact hw.live_ge (Finset.mem_filter.mp hi).2
  · intro i hi
    exact hw.live_le (Finset.mem_filter.mp hi).2

theorem WellFormed.occupied_le (hw : p.WellFormed) : p.view.occupied ≤ kPageSize := by
  have := hw.used_le
  have := hw.slots_fit
  have := hw.free_le
  simp only [PageView.occupied, view_slotCount]
  omega

theorem WellFormed.slotCount_le (hw : p.WellFormed) : p.slotCount ≤ 2046 := by
  have := hw.slots_fit
  have := kPageSize_eq ▸ hw.free_le
  omega

theorem WellFormed.freeSpaceBytes_eq (hw : p.WellFormed) :
    p.freeSpaceBytes = (p.freeSpaceOffset - (8 + 4 * p.slotCount) : ℕ) := by
  have := hw.slots_fit
  simp only [freeSpaceBytes]
  omega

theorem WellFormed.freeSpaceBytes_le (hw : p.WellFormed) :
    p.freeSpaceBytes ≤ (kPageSize - p.view.occupied : ℕ) := by
  have := hw.used_le
  have := hw.free_le
  rw [hw.freeSpaceBytes_eq, PageView.occupied, view_slotCount]
  omega

end Duck.SlottedPage
