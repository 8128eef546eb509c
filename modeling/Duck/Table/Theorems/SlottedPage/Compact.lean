import Duck.Table.Theorems.SlottedPage.Operations

open Memory

namespace Duck.SlottedPage

variable {p : SlottedPage} {i j n : ℕ}

-- The bytes of the live tuples among the first `n` slots.
def liveBytes (p : SlottedPage) (n : ℕ) : ℕ :=
  ∑ i ∈ Finset.range n, p.view.bytesAt i

theorem liveBytes_slotCount : p.liveBytes p.slotCount = p.view.used :=
  rfl

theorem liveBytes_succ : p.liveBytes (n + 1) = p.liveBytes n + p.view.bytesAt n :=
  Finset.sum_range_succ ..

theorem liveBytes_of_live (h : p.Live i) : p.liveBytes (i + 1) = p.liveBytes i + p.slotLength i := by
  rw [liveBytes_succ, bytesAt_of_live h]

theorem liveBytes_mono (h : i ≤ j) : p.liveBytes i ≤ p.liveBytes j :=
  Finset.sum_le_sum_of_subset <| Finset.range_subset_range.mpr h

theorem liveBytes_lt (h : i < j) : p.liveBytes (i + 1) ≤ p.liveBytes j :=
  liveBytes_mono h

-- Where the compaction puts the tuple of slot `i`.
def compactOffset (p : SlottedPage) (i : ℕ) : ℕ :=
  kPageSize - p.liveBytes (i + 1)

def compactSlot (p : SlottedPage) (i : ℕ) : ℕ × ℕ :=
  if p.Live i then (p.compactOffset i, p.slotLength i) else (invalidSlotOffset, 0)

theorem WellFormed.liveBytes_le (hw : p.WellFormed) (h : n ≤ p.slotCount) :
    p.liveBytes n + (8 + 4 * p.slotCount) ≤ 8192 := by
  have := liveBytes_mono (p := p) h
  have := kPageSize_eq ▸ hw.occupied_le
  simp only [PageView.occupied, liveBytes_slotCount, view_slotCount] at *
  omega

theorem WellFormed.liveBytes_le_of_live (hw : p.WellFormed) (h : p.Live i) :
    p.liveBytes (i + 1) + (8 + 4 * p.slotCount) ≤ 8192 :=
  hw.liveBytes_le h.lt

-- The invariant of the compaction loop.
structure Compacted (p : SlottedPage) (n : ℕ) (c : Compaction) : Prop where
  slots  : c.slots = (List.range n).map p.compactSlot
  offset : c.offset = kPageSize - p.liveBytes n
  data   : ∀ i < n, p.Live i →
    c.data.slice (p.compactOffset i) (p.slotLength i) = p.data.slice (p.slotOffset i) (p.slotLength i)

theorem WellFormed.compactSlots_compacted (hw : p.WellFormed) (h : n ≤ p.slotCount) :
    p.Compacted n (p.compactSlots n) := by
  induction n
  case zero => exact { slots := rfl, offset := rfl, data := fun _ hi => absurd hi (Nat.not_lt_zero _) }
  case succ i hi =>
    have hc := hi (by omega)
    have hl := hw.liveBytes_le h
    have hs := liveBytes_succ (p := p) (n := i)
    by_cases ho : p.slotOffset i = invalidSlotOffset
    case pos =>
      have hd := not_live_of_invalid ho
      rw [bytesAt_of_not_live hd] at hs
      constructor
      case slots  => simp [compactSlots, ho, hc.slots, List.range_succ, compactSlot, hd]
      case offset => simp [compactSlots, ho, hc.offset, hs]
      case data   =>
        intro j hj hlive
        have hn : j ≠ i := fun he => hd (he ▸ hlive)
        simpa [compactSlots, ho] using hc.data j (by omega) hlive
    case neg =>
      have hd : p.Live i := ⟨h, ho⟩
      rw [bytesAt_of_live hd] at hs
      have hoff : (kPageSize - p.liveBytes i + 65536 - p.slotLength i) % 65536 = p.compactOffset i := by
        simp only [compactOffset, kPageSize_eq]
        omega
      constructor
      case slots  =>
        simp [compactSlots, ho, hc.slots, hc.offset, List.range_succ, compactSlot, hd, hoff]
      case offset => simp [compactSlots, ho, hc.offset, hoff, compactOffset]
      case data   =>
        intro j hj hlive
        simp only [compactSlots, ho, if_false, hc.offset, hoff]
        by_cases hn : j = i
        case pos =>
          subst hn
          have := slice_copy_self (p.compactSlots j).data (p.compactOffset j)
            (p.data.slice (p.slotOffset j) (p.slotLength j))
          rwa [slice_length] at this
        case neg =>
          -- Earlier tuples have been put above the new one.
          have hm := liveBytes_lt (p := p) (show j < i by omega)
          rw [slice_copy_disjoint, hc.data j (by omega) hlive]
          simp only [compactOffset, slice_length, kPageSize_eq]
          omega

theorem slotArray_length (slots : List (ℕ × ℕ)) :
    (slots.flatMap fun (offset, length) => Bytes.le 2 offset ++ Bytes.le 2 length).length =
      4 * slots.length := by
  induction slots
  case nil            => rfl
  case cons x slots h =>
    simp only [List.flatMap_cons, List.length_append, List.length_cons, Bytes.le_length, h]
    omega

-- The slot array as `compact` writes it.
theorem slotArray_slice {slots : List (ℕ × ℕ)} (m : Memory) (h : slots[i]? = some (o, l)) :
    let m := m.copy 8 <| slots.flatMap fun (offset, length) => Bytes.le 2 offset ++ Bytes.le 2 length
    m.read (8 + 4 * i) 2 = o % 65536 ∧ m.read (8 + 4 * i + 2) 2 = l % 65536 := by
  obtain ⟨hi, he⟩ := List.getElem?_eq_some_iff.mp h
  have hsplit : slots = slots.take i ++ (o, l) :: slots.drop (i + 1) := by
    rw [←he, List.getElem_cons_drop, List.take_append_drop]
  have hpre := slotArray_length (slots.take i)
  rw [List.length_take, Nat.min_eq_left hi.le] at hpre
  generalize slots.take i = pre at hsplit hpre
  generalize slots.drop (i + 1) = post at hsplit
  subst hsplit
  simp only [List.flatMap_append, List.flatMap_cons, ←List.append_assoc]
  generalize hfp : (pre.flatMap fun (offset, length) => Bytes.le 2 offset ++ Bytes.le 2 length) = fp at hpre
  generalize (post.flatMap fun (offset, length) => Bytes.le 2 offset ++ Bytes.le 2 length) = fq
  constructor
  · have hs := slice_copy_middle m 8 fp (Bytes.le 2 o) (Bytes.le 2 l ++ fq)
    rw [Bytes.le_length, hpre, ←List.append_assoc] at hs
    exact (congrArg Bytes.readLE hs).trans (Bytes.readLE_le_mod 2 o)
  · have hs := slice_copy_middle m 8 (fp ++ Bytes.le 2 o) (Bytes.le 2 l) fq
    rw [Bytes.le_length, List.length_append, Bytes.le_length, hpre, ←Nat.add_assoc] at hs
    exact (congrArg Bytes.readLE hs).trans (Bytes.readLE_le_mod 2 l)

section compact

-- `compact` in terms of the setters: the header, then the slots, then the tuples.
def compactHeader (p : SlottedPage) (offset : ℕ) : SlottedPage :=
  (((SlottedPage.mk (p.data.fill 0 kPageSize 0)).setNextPage p.nextPage).setSlotCount p.slotCount
    ).setFreeSpaceOffset offset

theorem compact_eq : p.compact =
    let c := p.compactSlots p.slotCount
    (((p.compactHeader c.offset).copyTo 8 <|
      c.slots.flatMap fun (offset, length) => Bytes.le 2 offset ++ Bytes.le 2 length
      ).copyTo c.offset <| c.data.slice c.offset (kPageSize - c.offset)) := by
  simp only [compact, copyTo, compactHeader, setNextPage, setSlotCount, setFreeSpaceOffset,
    Memory.write, copy_append, Bytes.le_length, List.length_append]

variable (hw : p.WellFormed)

include hw

theorem compactSlots_offset : (p.compactSlots p.slotCount).offset = kPageSize - p.view.used :=
  (hw.compactSlots_compacted le_rfl).offset

theorem compactSlots_offset_ge : 8 + 4 * p.slotCount ≤ (p.compactSlots p.slotCount).offset := by
  have := kPageSize_eq ▸ hw.occupied_le
  simp only [compactSlots_offset hw, PageView.occupied, view_slotCount, kPageSize_eq] at *
  omega

theorem compact_slotCount : p.compact.slotCount = p.slotCount := by
  have := compactSlots_offset_ge hw
  rw [compact_eq, copyTo_slotCount (by omega), copyTo_slotCount le_rfl]
  simp [compactHeader, slotCount_lt]

theorem compact_nextPage : p.compact.nextPage = p.nextPage := by
  have := compactSlots_offset_ge hw
  rw [compact_eq, copyTo_nextPage (by omega), copyTo_nextPage le_rfl]
  simp [compactHeader]

theorem compact_freeSpaceOffset : p.compact.freeSpaceOffset = kPageSize - p.view.used := by
  have := compactSlots_offset_ge hw
  rw [compact_eq, copyTo_freeSpaceOffset (by omega), copyTo_freeSpaceOffset le_rfl, compactHeader,
    setFreeSpaceOffset_freeSpaceOffset]
  all_goals
    simp only [compactSlots_offset hw, kPageSize_eq]
    try omega

omit hw in
theorem compactSlot_lt : (p.compactSlot i).1 < 65536 ∧ (p.compactSlot i).2 < 65536 := by
  have := p.slotLength_lt i
  simp only [compactSlot, compactOffset, kPageSize_eq]
  split
  · exact ⟨by omega, this⟩
  · decide

theorem compact_slot (h : i < p.slotCount) :
    (p.compact.slotOffset i, p.compact.slotLength i) = p.compactSlot i := by
  have hge := compactSlots_offset_ge hw
  have hs := (hw.compactSlots_compacted le_rfl).slots
  have hi : (p.compactSlots p.slotCount).slots[i]? = some (p.compactSlot i) := by simp [hs, h]
  have ⟨ho, hl⟩ := slotArray_slice (p.compactHeader (p.compactSlots p.slotCount).offset).data hi
  have ⟨hlo, hll⟩ := compactSlot_lt (p := p) (i := i)
  rw [compact_eq, copyTo_slotOffset (by omega), copyTo_slotLength (by omega)]
  exact Prod.ext (ho.trans (Nat.mod_eq_of_lt hlo)) (hl.trans (Nat.mod_eq_of_lt hll))

theorem compact_slot_live (h : p.Live i) :
    p.compact.slotOffset i = p.compactOffset i ∧ p.compact.slotLength i = p.slotLength i := by
  have := compact_slot hw h.lt
  rw [compactSlot, if_pos h] at this
  exact Prod.mk.inj this

theorem compact_live_iff : p.compact.Live i ↔ p.Live i := by
  have hc := compact_slotCount hw
  constructor <;> intro h
  case mp =>
    by_contra hd
    have hs := compact_slot hw (hc ▸ h.lt)
    rw [compactSlot, if_neg hd] at hs
    exact h.off (Prod.mk.inj hs).1
  case mpr =>
    have := hw.liveBytes_le_of_live h
    refine ⟨hc ▸ h.lt, ?_⟩
    simp only [(compact_slot_live hw h).1, compactOffset, kPageSize_eq, invalidSlotOffset]
    omega

theorem compact_slice (h : p.Live i) :
    p.compact.data.slice (p.compactOffset i) (p.slotLength i) =
      p.data.slice (p.slotOffset i) (p.slotLength i) := by
  have hm := liveBytes_lt (p := p) h.lt
  have hle := hw.liveBytes_le_of_live h
  have hs := liveBytes_of_live h
  have ho := compactSlots_offset hw
  rw [←(hw.compactSlots_compacted le_rfl).data i h.lt h]
  apply slice_congr
  intro a hl hu
  simp only [compactOffset, liveBytes_slotCount, kPageSize_eq] at *
  rw [compact_eq]
  exact copy_slice (by omega) (by simp only [kPageSize_eq]; omega)

theorem compact_becomes : Becomes p p.compact p.view := by
  have hc := compact_slotCount hw
  have hf := compact_freeSpaceOffset hw
  have hocc := kPageSize_eq ▸ hw.occupied_le
  have hu : p.liveBytes p.slotCount = p.view.used := rfl
  simp only [PageView.occupied, view_slotCount] at hocc
  constructor
  case wf =>
    constructor
    case slots_fit => simp only [hc, hf, kPageSize_eq]; omega
    case free_le   => simp only [hf, kPageSize_eq]; omega
    case live_ge   =>
      intro i hi
      have hi := (compact_live_iff hw).mp hi
      have := liveBytes_lt (p := p) hi.lt
      simp only [hf, (compact_slot_live hw hi).1, compactOffset, kPageSize_eq]
      omega
    case live_le =>
      intro i hi
      have hi := (compact_live_iff hw).mp hi
      have := hw.liveBytes_le_of_live hi
      have := liveBytes_of_live hi
      simp only [compact_slot_live hw hi, compactOffset, kPageSize_eq]
      omega
    case apart =>
      intro i j hi hj hn
      have hi := (compact_live_iff hw).mp hi
      have hj := (compact_live_iff hw).mp hj
      have := hw.liveBytes_le_of_live hi
      have := hw.liveBytes_le_of_live hj
      have := liveBytes_of_live hi
      have := liveBytes_of_live hj
      simp only [Intervals.Apart, compact_slot_live hw hi, compact_slot_live hw hj, compactOffset,
        kPageSize_eq]
      -- The slot with the greater index is the one put lower.
      cases Nat.lt_or_gt_of_ne hn
      case inl h => have := liveBytes_lt (p := p) h; omega
      case inr h => have := liveBytes_lt (p := p) h; omega
  case view =>
    ext1
    case slotCount => exact hc
    case nextPage  => exact compact_nextPage hw
    case slots =>
      funext i
      simp only [view_slots]
      by_cases hi : p.Live i
      case pos =>
        rw [bindings_of_live hi, bindings_of_live ((compact_live_iff hw).mpr hi),
          (compact_slot_live hw hi).1, (compact_slot_live hw hi).2, compact_slice hw hi]
      case neg => rw [bindings_of_not_live hi, bindings_of_not_live (mt (compact_live_iff hw).mp hi)]
  case tail =>
    intro a ha
    have hl := (hw.compactSlots_compacted le_rfl).slots
    have ho := compactSlots_offset hw
    simp only [kPageSize_eq] at ha ho
    rw [compact_eq, copyTo_data, copyTo_data, compactHeader, setFreeSpaceOffset_data (by omega),
      setSlotCount_data (by omega), setNextPage_data (by omega)]
    · exact fill_of_ge (by simpa using ha)
    · simp only [slotArray_length, hl, List.length_map, List.length_range]
      omega
    · simp only [slice_length, ho, kPageSize_eq]
      omega

-- Compaction makes all the room there is.
theorem compact_freeSpaceBytes : p.compact.freeSpaceBytes = (kPageSize - p.view.occupied : ℕ) := by
  have hb := compact_becomes hw
  have := kPageSize_eq ▸ hw.occupied_le
  rw [hb.wf.freeSpaceBytes_eq, compact_slotCount hw, compact_freeSpaceOffset hw]
  simp only [PageView.occupied, view_slotCount, kPageSize_eq] at *
  omega

end compact

end Duck.SlottedPage
