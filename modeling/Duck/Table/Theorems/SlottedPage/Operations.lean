import Duck.Table.Theorems.SlottedPage.WellFormed

open Memory

namespace Duck.SlottedPage

-- `q` is a well-formed page that shows `v`, and nothing behind the page has changed since `p`.
structure Becomes (p q : SlottedPage) (v : PageView) : Prop where
  wf   : q.WellFormed
  view : q.view = v
  tail : ∀ a, kPageSize ≤ a → q.data a = p.data a

variable {p q r : SlottedPage} {i j : ℕ} {bytes : List UInt8} {v : PageView}

theorem Becomes.refl (hw : p.WellFormed) : Becomes p p p.view where
  wf       := hw
  view     := rfl
  tail _ _ := rfl

theorem Becomes.trans (h₁ : Becomes p q v) (h₂ : Becomes q r w) : Becomes p r w where
  wf       := h₂.wf
  view     := h₂.view
  tail a h := (h₂.tail a h).trans (h₁.tail a h)

section init

theorem init_slotCount : p.init.slotCount = 0 := by
  simp [init]

theorem init_freeSpaceOffset : p.init.freeSpaceOffset = kPageSize := by
  simp [init]

theorem init_nextPage : p.init.nextPage = invalidPageID := by
  simp [init]

theorem init_not_live : ¬p.init.Live i :=
  fun h => absurd (init_slotCount ▸ h.lt) (Nat.not_lt_zero i)

theorem init_becomes : Becomes p p.init .empty where
  wf := {
    slots_fit := by simp [init_slotCount, init_freeSpaceOffset]
    free_le   := by simp [init_freeSpaceOffset]
    live_ge   := (init_not_live · |>.elim)
    live_le   := (init_not_live · |>.elim)
    apart     := fun h => (init_not_live h).elim
  }
  view := by
    ext1
    case slotCount => exact init_slotCount
    case nextPage  => exact init_nextPage
    case slots     => funext i; rw [view_slots, bindings_of_not_live init_not_live, PageView.empty]
  tail a h := by
    have : 8 ≤ a := by grind
    simp [init, setSlotCount_data this, setFreeSpaceOffset_data this, setNextPage_data this]

end init

theorem setNextPage_becomes (hw : p.WellFormed) :
    Becomes p (p.setNextPage pageId) (p.view.link pageId) where
  wf := {
    slots_fit := by simpa using hw.slots_fit
    free_le   := by simpa using hw.free_le
    live_ge   := fun h => by simpa using hw.live_ge ⟨by simpa using h.lt, by simpa using h.off⟩
    live_le   := fun h => by simpa using hw.live_le ⟨by simpa using h.lt, by simpa using h.off⟩
    apart     := fun h₁ h₂ hn => by
      simpa [Intervals.Apart] using hw.apart
        ⟨by simpa using h₁.lt, by simpa using h₁.off⟩ ⟨by simpa using h₂.lt, by simpa using h₂.off⟩ hn
  }
  view := by
    ext1
    case slotCount => exact setNextPage_slotCount
    case nextPage  => exact setNextPage_nextPage
    case slots     =>
      funext i
      have := hw.slots_fit
      exact hw.bindings_congr (by simp) (by simp) (by simp)
        fun a _ _ => setNextPage_data (by omega)
  tail a h := setNextPage_data (by grind)

section placeTuple

-- `bytes` fits between the slot array and the data area.
structure Fits (p : SlottedPage) (bytes : List UInt8) : Prop where
  le : 8 + 4 * p.slotCount + bytes.length ≤ p.freeSpaceOffset

variable (hw : p.WellFormed) (hf : p.Fits bytes)

include hw hf

theorem Fits.length_lt : bytes.length < 65536 := by
  have := hf.le
  have := kPageSize_eq ▸ hw.free_le
  omega

theorem placeTuple_eq : p.placeTuple i bytes =
    (((p.setSlotLength i bytes.length).setSlotOffset i (p.freeSpaceOffset + 65536 - bytes.length)
      ).setFreeSpaceOffset (p.freeSpaceOffset - bytes.length)
      ).copyTo (p.freeSpaceOffset - bytes.length) bytes := by
  have hl := hf.length_lt hw
  have := p.freeSpaceOffset_lt
  have := hf.le
  have ho : (p.freeSpaceOffset + 65536 - bytes.length) % 65536 = p.freeSpaceOffset - bytes.length := by
    omega
  simp [placeTuple, hl, setSlotOffset_slotOffset_mod, ho]

theorem placeTuple_slotCount : (p.placeTuple i bytes).slotCount = p.slotCount := by
  have := hf.le
  rw [placeTuple_eq hw hf, copyTo_slotCount (by omega)]
  simp

theorem placeTuple_nextPage : (p.placeTuple i bytes).nextPage = p.nextPage := by
  have := hf.le
  rw [placeTuple_eq hw hf, copyTo_nextPage (by omega)]
  simp

theorem placeTuple_freeSpaceOffset :
    (p.placeTuple i bytes).freeSpaceOffset = p.freeSpaceOffset - bytes.length := by
  have := hf.le
  have := p.freeSpaceOffset_lt
  rw [placeTuple_eq hw hf, copyTo_freeSpaceOffset (by omega), setFreeSpaceOffset_freeSpaceOffset (by omega)]

theorem placeTuple_slotOffset (h : i < p.slotCount) :
    (p.placeTuple i bytes).slotOffset i = p.freeSpaceOffset - bytes.length := by
  have := hf.le
  have := p.freeSpaceOffset_lt
  rw [placeTuple_eq hw hf, copyTo_slotOffset (by omega), setFreeSpaceOffset_slotOffset,
    setSlotOffset_slotOffset_mod]
  omega

theorem placeTuple_slotOffset_ne (h : j < p.slotCount) (hn : j ≠ i) :
    (p.placeTuple i bytes).slotOffset j = p.slotOffset j := by
  have := hf.le
  rw [placeTuple_eq hw hf, copyTo_slotOffset (by omega)]
  simp [hn]

theorem placeTuple_slotLength (h : i < p.slotCount) :
    (p.placeTuple i bytes).slotLength i = bytes.length := by
  have := hf.le
  rw [placeTuple_eq hw hf, copyTo_slotLength (by omega)]
  simp [hf.length_lt hw]

theorem placeTuple_slotLength_ne (h : j < p.slotCount) (hn : j ≠ i) :
    (p.placeTuple i bytes).slotLength j = p.slotLength j := by
  have := hf.le
  rw [placeTuple_eq hw hf, copyTo_slotLength (by omega)]
  simp [hn]

theorem placeTuple_data (hi : i < p.slotCount) (h : p.freeSpaceOffset ≤ a) :
    (p.placeTuple i bytes).data a = p.data a := by
  have := hf.le
  rw [placeTuple_eq hw hf, copyTo_data (by omega), setFreeSpaceOffset_data (by omega),
    setSlotOffset_data (by omega), setSlotLength_data (by omega)]

theorem placeTuple_slice :
    (p.placeTuple i bytes).data.slice (p.freeSpaceOffset - bytes.length) bytes.length = bytes := by
  rw [placeTuple_eq hw hf]
  exact slice_copy_self ..

theorem placeTuple_becomes (h : i < p.slotCount) (hd : ¬p.Live i) :
    Becomes p (p.placeTuple i bytes) (p.view.bind i bytes) := by
  have hc := placeTuple_slotCount hw hf (i := i)
  have ho := placeTuple_slotOffset hw hf h
  have hl := placeTuple_slotLength hw hf h
  have hfs := placeTuple_freeSpaceOffset hw hf (i := i)
  have hle := hf.le
  have hk := hw.free_le
  -- The other slots keep their ranges, all of them above the new one.
  have hlive : ∀ {j}, (p.placeTuple i bytes).Live j → j ≠ i → p.Live j := fun hj hn =>
    ⟨hc ▸ hj.lt, placeTuple_slotOffset_ne hw hf (hc ▸ hj.lt) hn ▸ hj.off⟩
  have ho' : ∀ {j}, p.Live j → j ≠ i → (p.placeTuple i bytes).slotOffset j = p.slotOffset j :=
    fun hj hn => placeTuple_slotOffset_ne hw hf hj.lt hn
  have hl' : ∀ {j}, p.Live j → j ≠ i → (p.placeTuple i bytes).slotLength j = p.slotLength j :=
    fun hj hn => placeTuple_slotLength_ne hw hf hj.lt hn
  constructor
  case wf =>
    constructor
    case slots_fit => omega
    case free_le   => omega
    case live_ge =>
      intro j hj
      by_cases hn : j = i
      case pos => subst hn; omega
      case neg =>
        have := hw.live_ge (hlive hj hn)
        rw [ho' (hlive hj hn) hn]
        omega
    case live_le =>
      intro j hj
      by_cases hn : j = i
      case pos => subst hn; omega
      case neg => rw [ho' (hlive hj hn) hn, hl' (hlive hj hn) hn]; exact hw.live_le (hlive hj hn)
    case apart =>
      intro j k hj hk hn
      simp only [Intervals.Apart]
      by_cases hji : j = i
      case pos =>
        subst hji
        have := hw.live_ge (hlive hk hn.symm)
        rw [ho, hl, ho' (hlive hk hn.symm) hn.symm]
        omega
      case neg =>
        rw [ho' (hlive hj hji) hji, hl' (hlive hj hji) hji]
        by_cases hki : k = i
        case pos =>
          subst hki
          have := hw.live_ge (hlive hj hji)
          rw [ho, hl]
          omega
        case neg =>
          rw [ho' (hlive hk hki) hki, hl' (hlive hk hki) hki]
          exact hw.apart (hlive hj hji) (hlive hk hki) hn
  case view =>
    ext1
    case slotCount => rw [PageView.bind_slotCount h, view_slotCount, hc, view_slotCount]
    case nextPage  => exact placeTuple_nextPage hw hf
    case slots =>
      funext j
      by_cases hn : j = i
      case pos =>
        subst hn
        have hj : (p.placeTuple j bytes).Live j := ⟨hc ▸ h, by rw [ho, invalidSlotOffset]; omega⟩
        rw [PageView.bind_slots_self, view_slots, bindings_of_live hj, ho, hl, placeTuple_slice hw hf]
      case neg =>
        rw [PageView.bind_slots_ne hn, view_slots, view_slots]
        by_cases hj : j < p.slotCount
        case pos =>
          exact hw.bindings_congr (by rw [hc]) (placeTuple_slotOffset_ne hw hf hj hn)
            (placeTuple_slotLength_ne hw hf hj hn) fun a ha _ => placeTuple_data hw hf h ha
        case neg =>
          rw [bindings_of_not_live (hj ·.lt), bindings_of_not_live (hj <| hc ▸ ·.lt)]
  case tail => exact fun a ha => placeTuple_data hw hf h (hk.trans ha)

end placeTuple

section insertTuple

theorem findEmptySlot_some (h : p.findEmptySlot = some i) :
    i < p.slotCount ∧ p.slotOffset i = invalidSlotOffset :=
  ⟨List.mem_range.mp <| List.mem_of_find?_eq_some h, by simpa using List.find?_some h⟩

theorem findEmptySlot_none (h : p.findEmptySlot = none) (hi : i < p.slotCount) : p.Live i :=
  ⟨hi, by simpa using List.find?_eq_none.mp h i (List.mem_range.mpr hi)⟩

-- The slot that `insert_tuple` reuses, if any.
def reusedSlot (p : SlottedPage) (preferedSlot : Option ℕ) : Option ℕ :=
  preferedSlot.filter (fun i => i < p.slotCount ∧ p.slotOffset i = invalidSlotOffset)
    <|> p.findEmptySlot

theorem reusedSlot_some (h : p.reusedSlot pref = some i) :
    i < p.slotCount ∧ p.slotOffset i = invalidSlotOffset := by
  simp only [reusedSlot, Option.orElse_eq_orElse, Option.orElse_eq_or, Option.or_eq_some_iff] at h
  cases h
  case inl h => simpa using (Option.filter_eq_some_iff.mp h).2
  case inr h => exact findEmptySlot_some h.2

theorem reusedSlot_none (h : p.reusedSlot pref = none) (hi : i < p.slotCount) : p.Live i := by
  simp only [reusedSlot, Option.orElse_eq_orElse, Option.orElse_eq_or, Option.or_eq_none_iff] at h
  exact findEmptySlot_none h.2 hi

theorem reusedSlot_prefered (hi : i < p.slotCount) (ho : p.slotOffset i = invalidSlotOffset) :
    p.reusedSlot (some i) = some i := by
  simp [reusedSlot, Option.filter, hi, ho]

theorem not_live_of_invalid (h : p.slotOffset i = invalidSlotOffset) : ¬p.Live i :=
  (·.off h)

theorem WellFormed.allocateSlot_becomes (hw : p.WellFormed)
    (hf : 8 + 4 * (p.slotCount + 1) ≤ p.freeSpaceOffset) :
    Becomes p p.allocateSlot.2 { p.view with slotCount := p.slotCount + 1 } := by
  have hc : p.allocateSlot.2.slotCount = p.slotCount + 1 := by
    have := hw.slotCount_le
    simp [allocateSlot, show p.slotCount + 1 < 65536 by omega]
  have ho : p.allocateSlot.2.slotOffset p.slotCount = invalidSlotOffset := by
    simp [allocateSlot]
  have ho' : ∀ {i}, i ≠ p.slotCount → p.allocateSlot.2.slotOffset i = p.slotOffset i := by
    intro i hi
    simp [allocateSlot, hi]
  have hl : ∀ i, p.allocateSlot.2.slotLength i = p.slotLength i := by
    simp [allocateSlot]
  have hfs : p.allocateSlot.2.freeSpaceOffset = p.freeSpaceOffset := by
    simp [allocateSlot]
  have hd : ∀ a, p.freeSpaceOffset ≤ a → p.allocateSlot.2.data a = p.data a := by
    intro a ha
    rw [allocateSlot, setSlotOffset_data (by omega), setSlotCount_data (by omega)]
  have hne : ∀ {i}, p.allocateSlot.2.Live i → i ≠ p.slotCount := fun h he => h.off (he ▸ ho)
  have hlive : ∀ {i}, p.allocateSlot.2.Live i → p.Live i := by
    intro i h
    have := hc ▸ h.lt
    have := hne h
    exact ⟨by omega, ho' (hne h) ▸ h.off⟩
  constructor
  case wf =>
    constructor
    case slots_fit => rw [hc, hfs]; exact hf
    case free_le   => rw [hfs]; exact hw.free_le
    case live_ge   => intro i h; rw [hfs, ho' (hne h)]; exact hw.live_ge (hlive h)
    case live_le   => intro i h; rw [ho' (hne h), hl]; exact hw.live_le (hlive h)
    case apart     =>
      intro i j hi hj hn
      have := hw.apart (hlive hi) (hlive hj) hn
      simpa only [Intervals.Apart, ho' (hne hi), ho' (hne hj), hl] using this
  case view =>
    ext1
    case slotCount => exact hc
    case nextPage  => simp [allocateSlot]
    case slots =>
      funext i
      simp only [view_slots]
      by_cases hi : i = p.slotCount
      case pos => subst hi; rw [bindings_of_not_live (not_live_of_invalid ho), bindings_slotCount]
      case neg => exact hw.bindings_congr (by omega) (ho' hi) (hl i) fun a ha _ => hd a ha
  case tail => exact fun a ha => hd a (hw.free_le.trans ha)

theorem insertTuple_none (h : p.insertTuple bytes pref = (none, q)) : q = p := by
  simp only [insertTuple] at h
  grind

-- Apart from the slot, an insertion needs room for the bytes and, where no slot can be reused, for
-- a new slot.
def slotCost (p : SlottedPage) (preferedSlot : Option ℕ) : ℕ :=
  if p.reusedSlot preferedSlot = none then 4 else 0

theorem WellFormed.insertTuple_eq (hw : p.WellFormed) (hl : bytes.length < 65536) :
    p.insertTuple bytes pref =
      if 8 + 4 * p.slotCount + bytes.length + p.slotCost pref ≤ p.freeSpaceOffset then
        match p.reusedSlot pref with
        | some i => (some ⟨invalidPageID, i⟩, p.placeTuple i bytes)
        | none   => (some ⟨invalidPageID, p.slotCount⟩, p.allocateSlot.2.placeTuple p.slotCount bytes)
      else
        (none, p) := by
  have := hw.slots_fit
  have hm : bytes.length % 65536 = bytes.length := Nat.mod_eq_of_lt hl
  have hr : p.reusedSlot pref = (pref.filter (fun i => i < p.slotCount ∧ p.slotOffset i = invalidSlotOffset)
    <|> p.findEmptySlot) := rfl
  have ha : p.allocateSlot.1 = p.slotCount := rfl
  obtain hs | ⟨i, hs⟩ := Option.eq_none_or_eq_some (p.reusedSlot pref)
  all_goals
    simp only [insertTuple, ←hr, hm, hw.freeSpaceBytes_eq, slotCost, hs, ha]
    grind

theorem WellFormed.insertTuple_reused
    (hw : p.WellFormed) (hl : bytes.length < 65536) (hr : p.reusedSlot pref = some i) :
    p.insertTuple bytes pref =
      if 8 + 4 * p.slotCount + bytes.length ≤ p.freeSpaceOffset then
        (some ⟨invalidPageID, i⟩, p.placeTuple i bytes)
      else
        (none, p) := by
  have hc : p.slotCost pref = 0 := by simp [slotCost, hr]
  simp only [hw.insertTuple_eq hl, hr, hc, Nat.add_zero]

theorem WellFormed.insertTuple_some (hw : p.WellFormed) (hl : bytes.length < 65536)
    (h : p.insertTuple bytes pref = (some rid, q)) :
    rid.slotNum ≤ p.slotCount ∧ p.bindings rid.slotNum = none ∧
      Becomes p q (p.view.bind rid.slotNum bytes) := by
  rw [hw.insertTuple_eq hl] at h
  have hf : 8 + 4 * p.slotCount + bytes.length + p.slotCost pref ≤ p.freeSpaceOffset := by grind
  simp only [hf, if_true] at h
  cases hr : p.reusedSlot pref <;> simp only [hr, Prod.mk.injEq, Option.some.injEq] at h
  case some i =>
    obtain ⟨rfl, rfl⟩ := h
    have ⟨hi, ho⟩ := reusedSlot_some hr
    have hd := not_live_of_invalid ho
    exact ⟨hi.le, bindings_of_not_live hd, placeTuple_becomes hw ⟨by omega⟩ hi hd⟩
  case none =>
    obtain ⟨rfl, rfl⟩ := h
    simp only [slotCost, hr, if_true] at hf
    have ha := hw.allocateSlot_becomes (by omega)
    have hc : p.allocateSlot.2.slotCount = p.slotCount + 1 := congrArg PageView.slotCount ha.view
    have hs : p.allocateSlot.2.freeSpaceOffset = p.freeSpaceOffset := by simp [allocateSlot]
    have hd : ¬p.allocateSlot.2.Live p.slotCount := not_live_of_invalid (by simp [allocateSlot])
    refine ⟨le_refl _, bindings_slotCount, ?_⟩
    have hf' : Fits p.allocateSlot.2 bytes := ⟨by omega⟩
    have hb := ha.trans <| placeTuple_becomes ha.wf hf' (hc ▸ Nat.lt_succ_self _) hd
    rw [ha.view] at hb
    convert hb using 1
    ext1 <;> simp [PageView.bind]

end insertTuple

section tryUpdateInPlace

theorem tryUpdateInPlace_false (h : p.tryUpdateInPlace rid bytes = (false, q)) : q = p := by
  simp only [tryUpdateInPlace] at h
  grind

theorem tryUpdateInPlace_live (h : p.tryUpdateInPlace rid bytes = (true, q)) : p.Live rid.slotNum := by
  simp only [tryUpdateInPlace] at h
  exact ⟨by grind, by grind⟩

theorem WellFormed.tryUpdateInPlace_true (hw : p.WellFormed) (hl : bytes.length < 65536)
    (h : p.tryUpdateInPlace rid bytes = (true, q)) :
    Becomes p q (p.view.bind rid.slotNum bytes) := by
  have hi := tryUpdateInPlace_live h
  generalize hs : rid.slotNum = i at *
  have hm : bytes.length % 65536 = bytes.length := Nat.mod_eq_of_lt hl
  have hlen : bytes.length ≤ p.slotLength i := by
    simp only [tryUpdateInPlace, hm, hs] at h
    grind
  have hq : q = (p.copyTo (p.slotOffset i) bytes).setSlotLength i bytes.length := by
    simp only [tryUpdateInPlace, hm, hs] at h
    grind
  have hsf := hw.slots_fit
  have hge := hw.live_ge hi
  have hle := hw.live_le hi
  have hc : q.slotCount = p.slotCount := by rw [hq, setSlotLength_slotCount, copyTo_slotCount (by omega)]
  have hfs : q.freeSpaceOffset = p.freeSpaceOffset := by
    rw [hq, setSlotLength_freeSpaceOffset, copyTo_freeSpaceOffset (by omega)]
  have ho : ∀ {j}, j < p.slotCount → q.slotOffset j = p.slotOffset j := by
    intro j hj
    rw [hq, setSlotLength_slotOffset, copyTo_slotOffset (by omega)]
  have hsl : q.slotLength i = bytes.length := by rw [hq, setSlotLength_slotLength hl]
  have hsl' : ∀ {j}, j < p.slotCount → j ≠ i → q.slotLength j = p.slotLength j := by
    intro j hj hn
    rw [hq, setSlotLength_slotLength_ne hn, copyTo_slotLength (by omega)]
  have hd : ∀ a, p.freeSpaceOffset ≤ a → a < p.slotOffset i ∨ p.slotOffset i + bytes.length ≤ a →
      q.data a = p.data a := by
    intro a ha hr
    have := hi.lt
    rw [hq, setSlotLength_data (by omega)]
    cases hr
    case inl hr => exact copy_of_lt hr
    case inr hr => exact copy_of_ge hr
  have hlive : ∀ {j}, q.Live j → p.Live j := fun h => ⟨hc ▸ h.lt, ho (hc ▸ h.lt) ▸ h.off⟩
  have hshrunk : ∀ {j}, q.Live j → q.slotLength j ≤ p.slotLength j := by
    intro j hj
    by_cases hn : j = i
    case pos => rw [hn, hsl]; exact hlen
    case neg => rw [hsl' (hlive hj).lt hn]
  constructor
  case wf =>
    constructor
    case slots_fit => rw [hc, hfs]; exact hsf
    case free_le   => rw [hfs]; exact hw.free_le
    case live_ge   => intro j hj; rw [hfs, ho (hlive hj).lt]; exact hw.live_ge (hlive hj)
    case live_le   =>
      intro j hj
      have := hw.live_le (hlive hj)
      have := hshrunk hj
      rw [ho (hlive hj).lt]
      omega
    case apart =>
      intro j k hj hk hn
      have := hw.apart (hlive hj) (hlive hk) hn
      have := hshrunk hj
      have := hshrunk hk
      simp only [Intervals.Apart, ho (hlive hj).lt, ho (hlive hk).lt] at *
      omega
  case view =>
    ext1
    case slotCount => rw [PageView.bind_slotCount hi.lt, view_slotCount, hc, view_slotCount]
    case nextPage  => rw [view_nextPage, hq, setSlotLength_nextPage, copyTo_nextPage (by omega)]; rfl
    case slots =>
      funext j
      by_cases hn : j = i
      case pos =>
        have hj : q.Live i := ⟨hc ▸ hi.lt, ho hi.lt ▸ hi.off⟩
        rw [hn, PageView.bind_slots_self, view_slots, bindings_of_live hj, ho hi.lt, hsl, hq]
        congr 1
        have := hi.lt
        rw [setSlotLength, slice_write_disjoint (by omega)]
        exact slice_copy_self ..
      case neg =>
        rw [PageView.bind_slots_ne hn, view_slots, view_slots]
        by_cases hj : p.Live j
        case neg =>
          rw [bindings_of_not_live hj, bindings_of_not_live (mt hlive hj)]
        case pos =>
          have hqj : q.Live j := ⟨hc ▸ hj.lt, ho hj.lt ▸ hj.off⟩
          rw [bindings_of_live hj, bindings_of_live hqj, ho hj.lt, hsl' hj.lt hn]
          congr 1
          have := hw.live_ge hj
          have := hw.apart hj hi hn
          simp only [Intervals.Apart] at this
          exact slice_congr fun a _ _ => hd a (by omega) (by omega)
  case tail => exact fun a ha => hd a (by grind) (by grind)

end tryUpdateInPlace

section deleteTuple

theorem deleteTuple_eq : p.deleteTuple i =
    if p.Live i then (true, p.setSlotOffset i invalidSlotOffset) else (false, p) := by
  by_cases h : p.Live i
  case pos =>
    have := h.lt
    have := h.off
    simp_all [deleteTuple]
  case neg =>
    have : p.slotCount ≤ i ∨ p.slotOffset i = invalidSlotOffset := by
      by_contra hc
      exact h ⟨by omega, fun he => hc (.inr he)⟩
    simp only [deleteTuple, h, if_false]
    grind

theorem WellFormed.setSlotOffset_invalid_becomes (hw : p.WellFormed) (hi : i < p.slotCount) :
    Becomes p (p.setSlotOffset i invalidSlotOffset) (p.view.unbind i) := by
  have hsf := hw.slots_fit
  have hd : ∀ a, p.freeSpaceOffset ≤ a → (p.setSlotOffset i invalidSlotOffset).data a = p.data a :=
    fun a ha => setSlotOffset_data (by omega)
  have hne : ∀ {j}, (p.setSlotOffset i invalidSlotOffset).Live j → j ≠ i := by
    intro j h he
    exact h.off (by simp [he])
  have hlive : ∀ {j}, (p.setSlotOffset i invalidSlotOffset).Live j → p.Live j := fun h =>
    ⟨by simpa using h.lt, setSlotOffset_slotOffset_ne (hne h) ▸ h.off⟩
  constructor
  case wf =>
    constructor
    case slots_fit => simpa using hsf
    case free_le   => simpa using hw.free_le
    case live_ge   => intro j h; simpa [hne h] using hw.live_ge (hlive h)
    case live_le   => intro j h; simpa [hne h] using hw.live_le (hlive h)
    case apart     =>
      intro j k hj hk hn
      simpa [Intervals.Apart, hne hj, hne hk] using hw.apart (hlive hj) (hlive hk) hn
  case view =>
    ext1
    case slotCount => simp
    case nextPage  => simp
    case slots =>
      funext j
      by_cases hn : j = i
      case pos => rw [hn, PageView.unbind_slots_self, view_slots, bindings_of_not_live (hne · rfl)]
      case neg =>
        rw [PageView.unbind_slots_ne hn, view_slots, view_slots]
        exact hw.bindings_congr (by simp) (by simp [hn]) (by simp) fun a ha _ => hd a ha
  case tail => exact fun a ha => hd a (hw.free_le.trans ha)

theorem WellFormed.deleteTuple_true (hw : p.WellFormed) (h : p.deleteTuple i = (true, q)) :
    p.Live i ∧ Becomes p q (p.view.unbind i) := by
  rw [deleteTuple_eq] at h
  by_cases hi : p.Live i <;> simp only [hi, if_true, if_false, Prod.mk.injEq] at h
  case pos => exact ⟨hi, h.2 ▸ hw.setSlotOffset_invalid_becomes hi.lt⟩
  case neg => simp at h

theorem deleteTuple_false (h : p.deleteTuple i = (false, q)) : ¬p.Live i ∧ q = p := by
  rw [deleteTuple_eq] at h
  by_cases hi : p.Live i <;> simp_all

end deleteTuple

end Duck.SlottedPage
