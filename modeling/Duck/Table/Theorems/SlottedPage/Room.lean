import Duck.Table.TableHeap
import Duck.Table.Theorems.SlottedPage.Holds

namespace Duck

-- The bytes can be bound to a dead slot or to a new one, whatever the layout of the page.
def PageView.CouldHold (v : PageView) (bytes : List UInt8) : Prop :=
  ∃ i ≤ v.slotCount, v.slots i = none ∧ (v.bind i bytes).occupied ≤ kPageSize

namespace SlottedPage

-- The free space of the page takes the bytes, and a slot for them where none is dead.
def Room (p : SlottedPage) (bytes : List UInt8) (pref : Option ℕ) : Prop :=
  8 + 4 * p.slotCount + bytes.length + p.slotCost pref ≤ p.freeSpaceOffset

-- The page takes the bytes, if need be after the compaction that it is known to need.
def Accepts (p : SlottedPage) (bytes : List UInt8) : Prop :=
  p.Room bytes none ∨ p.isCompacted = false ∧ p.compact.Room bytes none

-- Only a compaction would make the room, and the page is taken to be compacted.
structure Stuck (p : SlottedPage) (bytes : List UInt8) (pref : Option ℕ) : Prop where
  full      : ¬p.Room bytes pref
  compacted : p.isCompacted = true
  room      : p.compact.Room bytes pref

-- The page is stuck once the old tuple has been taken out of it for the new one.
structure StuckUpdate (p : SlottedPage) (i : ℕ) (bytes : List UInt8) : Prop where
  longer : p.slotLength i < bytes.length
  stuck  : (p.deleteTuple i).2.Stuck bytes (some i)

variable {p q : SlottedPage} {v : PageView} {i : ℕ} {bytes : List UInt8} {pref : Option ℕ}

theorem WellFormed.insertTuple_isSome (hw : p.WellFormed) (hl : bytes.length < 65536) :
    (p.insertTuple bytes pref).1.isSome ↔ p.Room bytes pref := by
  rw [hw.insertTuple_eq hl]
  by_cases h : p.Room bytes pref
  case neg => simp [h, if_neg (show ¬_ ≤ _ from h)]
  case pos =>
    rw [if_pos (show _ ≤ _ from h)]
    cases p.reusedSlot pref <;> simp [h]

theorem WellFormed.insertTuple_full (hw : p.WellFormed) (hl : bytes.length < 65536) (h : ¬p.Room bytes pref) :
    p.insertTuple bytes pref = (none, p) := by
  rw [hw.insertTuple_eq hl, if_neg (show ¬_ ≤ _ from h)]

namespace Holds

theorem dead_iff (h : p.Holds v) (hi : i < v.slotCount) : p.slotOffset i = invalidSlotOffset ↔ v.slots i = none := by
  have hl := h.live_iff (i := i)
  constructor
  · intro ho
    by_contra hn
    exact (hl.mpr hn).off ho
  · intro hn
    by_contra ho
    exact hl.mp ⟨h.slotCount_eq ▸ hi, ho⟩ hn

-- No slot has to be made exactly where one is dead.
theorem slotCost_none (h : p.Holds v) :
    ((∃ i < v.slotCount, v.slots i = none) ∧ p.slotCost none = 0) ∨
      (¬∃ i < v.slotCount, v.slots i = none) ∧ p.slotCost none = 4 := by
  obtain hs | ⟨i, hs⟩ := Option.eq_none_or_eq_some (p.reusedSlot none)
  case inl =>
    refine .inr ⟨?_, by simp [slotCost, hs]⟩
    rintro ⟨i, hi, hn⟩
    exact h.live_iff.mp (reusedSlot_none hs (h.slotCount_eq ▸ hi)) hn
  case inr =>
    obtain ⟨hi, ho⟩ := reusedSlot_some hs
    refine .inl ⟨⟨i, h.slotCount_eq ▸ hi, ?_⟩, by simp [slotCost, hs]⟩
    exact (h.dead_iff (h.slotCount_eq ▸ hi)).mp ho

theorem slotCost_some (h : p.Holds v) (hi : i < v.slotCount) (hn : v.slots i = none) : p.slotCost (some i) = 0 := by
  rw [slotCost, reusedSlot_prefered (h.slotCount_eq ▸ hi) ((h.dead_iff hi).mpr hn)]
  rfl

theorem occupied_bind (hi : i < v.slotCount) (hn : v.slots i = none) :
    (v.bind i bytes).occupied = v.occupied + bytes.length := by
  rw [PageView.occupied, PageView.occupied, PageView.bind_slotCount hi, PageView.used_bind hi hn]
  omega

theorem occupied_bind_new : (v.bind v.slotCount bytes).occupied = v.occupied + 4 + bytes.length := by
  rw [PageView.occupied, PageView.occupied, PageView.bind_slotCount_new, PageView.used_bind_new]
  omega

-- After a compaction the free space is all that the tuples and slots leave.
theorem compact_room (h : p.Holds v) : p.compact.Room bytes pref ↔
    v.occupied + bytes.length + p.compact.slotCost pref ≤ kPageSize := by
  have hf := compact_freeSpaceOffset h.wf
  have hc := compact_slotCount h.wf
  have ho := kPageSize_eq ▸ h.occupied_le
  rw [h.view] at hf
  simp only [Room, hf, hc, h.slotCount_eq, PageView.occupied, kPageSize_eq] at *
  omega

theorem compact_room_none (h : p.Holds v) : p.compact.Room bytes none ↔ v.CouldHold bytes := by
  rw [h.compact_room]
  obtain ⟨⟨i, hi, hn⟩, hc⟩ | ⟨hn, hc⟩ := h.compact.slotCost_none
  · rw [hc, Nat.add_zero]
    constructor
    · exact fun hr => ⟨i, hi.le, hn, (occupied_bind hi hn).trans_le hr⟩
    · rintro ⟨j, hj, hnj, hr⟩
      obtain hj | rfl := Nat.lt_or_eq_of_le hj
      · rwa [occupied_bind hj hnj] at hr
      · rw [occupied_bind_new] at hr
        omega
  · rw [hc]
    constructor
    · intro hr
      refine ⟨v.slotCount, le_rfl, ?_, by rw [occupied_bind_new]; omega⟩
      rw [←h.bindings_eq, ←h.slotCount_eq]
      exact bindings_slotCount
    · rintro ⟨j, hj, hnj, hr⟩
      obtain hj | rfl := Nat.lt_or_eq_of_le hj
      · exact absurd ⟨j, hj, hnj⟩ hn
      · rw [occupied_bind_new] at hr
        omega

theorem compact_room_some (h : p.Holds v) (hi : i < v.slotCount) (hn : v.slots i = none) :
    p.compact.Room bytes (some i) ↔ (v.bind i bytes).occupied ≤ kPageSize := by
  rw [h.compact_room, h.compact.slotCost_some hi hn, occupied_bind hi hn, Nat.add_zero]

open TableHeap

theorem tryInsert_isSome (h : p.Holds v) (hl : bytes.length < 65536) :
    (tryInsert p bytes).1.isSome ↔ p.Accepts bytes := by
  have hr : (p.insertTuple bytes none).1.isSome ↔ _ := h.wf.insertTuple_isSome hl
  have hc : (p.compact.insertTuple bytes none).1.isSome ↔ _ := h.compact.wf.insertTuple_isSome hl
  rw [Accepts, ←hr, ←hc, tryInsert]
  rcases hi : p.insertTuple bytes none with ⟨_ | rid, q⟩
  case some => simp
  case none =>
    obtain rfl := insertTuple_none hi
    cases hq : q.isCompacted <;> simp [hq]

-- A page that refuses bytes that it could hold is stuck.
theorem accepts_or (h : p.Holds v) (hh : v.CouldHold bytes) : p.Accepts bytes ∨ p.Stuck bytes none := by
  have hr := h.compact_room_none.mpr hh
  by_cases ha : p.Room bytes none
  case pos => exact .inl <| .inl ha
  case neg =>
    cases hc : p.isCompacted
    case false => exact .inl <| .inr ⟨hc, hr⟩
    case true  => exact .inr ⟨ha, hc, hr⟩

end Holds

theorem Stuck.refuses (h : p.Stuck bytes none) : ¬p.Accepts bytes := by
  rintro (hr | ⟨hc, _⟩)
  · exact h.full hr
  · exact absurd h.compacted (by simp [hc])

end SlottedPage
end Duck
