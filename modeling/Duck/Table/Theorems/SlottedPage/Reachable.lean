import Duck.Table.Theorems.SlottedPage.Compact
import Mathlib.Order.CompletePartialOrder

namespace Duck.SlottedPage

-- A call on a page that fails no assertion.
inductive Step (p : SlottedPage) : SlottedPage → Prop
  | init    : Step p p.init
  | link    : Step p (p.setNextPage pageId)
  | insert  : bytes.length ≤ 65535 → Step p (p.insertTuple bytes pref).2
  | delete  : Step p (p.deleteTuple i).2
  | update  : bytes.length ≤ 65535 → Step p (p.tryUpdateInPlace rid bytes).2
  | compact : Step p p.compact
  | restore : bytes.length ≤ 65535 → p.restoreTuple i bytes = some q → Step p q

inductive Reachable : SlottedPage → Prop
  | init (p : SlottedPage) : Reachable p.init
  | step {p q} : Reachable p → Step p q → Reachable q

variable {p q : SlottedPage} {i j : ℕ} {bytes : List UInt8}

section restoreTuple

-- The page that `restore_tuple` inserts into.
def restorePage (p : SlottedPage) (tupleSize : ℕ) : SlottedPage :=
  if p.freeSpaceBytes < tupleSize then p.compact else p

variable (hw : p.WellFormed)

include hw

theorem restorePage_becomes : Becomes p (p.restorePage n) p.view := by
  simp only [restorePage]
  split
  case isTrue  => exact compact_becomes hw
  case isFalse => exact .refl hw

theorem le_restorePage_iff : n ≤ (p.restorePage n).freeSpaceBytes ↔ p.view.occupied + n ≤ kPageSize := by
  have := hw.freeSpaceBytes_le
  have := compact_freeSpaceBytes hw
  have := hw.occupied_le
  simp only [restorePage]
  split <;> omega

-- On a dead slot, `restore_tuple` fails exactly when the page lacks the room even after compaction.
theorem WellFormed.restoreTuple_eq
    (hl : bytes.length < 65536) (hi : i < p.slotCount) (hd : ¬p.Live i) :
    p.restoreTuple i bytes =
      if p.view.occupied + bytes.length ≤ kPageSize then
        some ((p.restorePage bytes.length).placeTuple i bytes)
      else
        none := by
  have ho : p.slotOffset i = invalidSlotOffset := by
    by_contra ho
    exact hd ⟨hi, ho⟩
  have hb := restorePage_becomes hw (n := bytes.length)
  have hc : (p.restorePage bytes.length).slotCount = p.slotCount := congrArg PageView.slotCount hb.view
  have hr : (p.restorePage bytes.length).reusedSlot (some i) = some i := by
    apply reusedSlot_prefered (hc ▸ hi)
    have hs := congrFun (congrArg PageView.slots hb.view) i
    simp only [view_slots, bindings_of_not_live hd, bindings_eq_none_iff] at hs
    by_contra ho
    exact hs ⟨hc ▸ hi, ho⟩
  have hins := hb.wf.insertTuple_reused hl hr
  have hle := le_restorePage_iff hw (n := bytes.length)
  have hm : bytes.length % 65536 = bytes.length := Nat.mod_eq_of_lt hl
  have hp : (if p.freeSpaceBytes < bytes.length then p.compact else p) =
      p.restorePage bytes.length := rfl
  simp only [restoreTuple, hi, ho, and_self, if_true, hm]
  simp only [hp, hle, hins]
  by_cases hf : p.view.occupied + bytes.length ≤ kPageSize
  case neg => simp [hf]
  case pos =>
    have hle := hle.mpr hf
    have := hb.wf.slots_fit
    rw [hb.wf.freeSpaceBytes_eq] at hle
    have : 8 + 4 * (p.restorePage bytes.length).slotCount + bytes.length ≤
        (p.restorePage bytes.length).freeSpaceOffset := by omega
    simp only [hf, this, if_true]

theorem WellFormed.restoreTuple_some (hl : bytes.length < 65536) (h : p.restoreTuple i bytes = some q) :
    i < p.slotCount ∧ p.bindings i = none ∧ Becomes p q (p.view.bind i bytes) := by
  have ⟨hi, ho⟩ : i < p.slotCount ∧ p.slotOffset i = invalidSlotOffset := by
    by_contra hc
    rw [restoreTuple, if_neg hc] at h
    cases h
  have hd := not_live_of_invalid ho
  rw [WellFormed.restoreTuple_eq hw hl hi hd, Option.ite_none_right_eq_some, Option.some.injEq] at h
  obtain ⟨hf, rfl⟩ := h
  have hb := restorePage_becomes hw (n := bytes.length)
  have hle := (le_restorePage_iff hw).mpr hf
  have := hb.wf.slots_fit
  rw [hb.wf.freeSpaceBytes_eq] at hle
  have hc : (p.restorePage bytes.length).slotCount = p.slotCount := congrArg PageView.slotCount hb.view
  have hd' : ¬(p.restorePage bytes.length).Live i := by
    rw [←bindings_eq_none_iff, ←view_slots, hb.view]
    exact bindings_of_not_live hd
  refine ⟨hi, bindings_of_not_live hd, ?_⟩
  have hf : (p.restorePage bytes.length).Fits bytes := ⟨by omega⟩
  have hp := hb.trans <| placeTuple_becomes hb.wf hf (hc ▸ hi) hd'
  rwa [hb.view] at hp

end restoreTuple

theorem WellFormed.insertTuple (hw : p.WellFormed) (hl : bytes.length < 65536) :
    (p.insertTuple bytes pref).2.WellFormed := by
  match h : p.insertTuple bytes pref with
  | (none,     q) => exact insertTuple_none h ▸ hw
  | (some rid, q) => exact (hw.insertTuple_some hl h).2.2.wf

theorem WellFormed.deleteTuple (hw : p.WellFormed) : (p.deleteTuple i).2.WellFormed := by
  match h : p.deleteTuple i with
  | (false, q) => exact (deleteTuple_false h).2 ▸ hw
  | (true,  q) => exact (hw.deleteTuple_true h).2.wf

theorem WellFormed.tryUpdateInPlace (hw : p.WellFormed) (hl : bytes.length < 65536) :
    (p.tryUpdateInPlace rid bytes).2.WellFormed := by
  match h : p.tryUpdateInPlace rid bytes with
  | (false, q) => exact tryUpdateInPlace_false h ▸ hw
  | (true,  q) => exact (hw.tryUpdateInPlace_true hl h).wf

theorem WellFormed.step (hw : p.WellFormed) (h : Step p q) : q.WellFormed := by
  cases h
  case init         => exact init_becomes.wf
  case link         => exact (setNextPage_becomes hw).wf
  case insert hl    => exact hw.insertTuple (by omega)
  case delete       => exact hw.deleteTuple
  case update hl    => exact hw.tryUpdateInPlace (by omega)
  case compact      => exact (compact_becomes hw).wf
  case restore hl h => exact (restoreTuple_some hw (by omega) h).2.2.wf

theorem Reachable.wellFormed {p} : Reachable p → p.WellFormed
  | .init _    => init_becomes.wf
  | .step hr h => hr.wellFormed.step h

-- The page as a map from slot numbers to bytes, each operation with the bindings it leaves.
structure ActsAsMap (p : SlottedPage) : Prop where
  slots_fit     : 8 + 4 * p.slotCount ≤ p.freeSpaceOffset
  free_le       : p.freeSpaceOffset ≤ 8192
  live_in       : ∀ {i}, p.Live i →
    p.freeSpaceOffset ≤ p.slotOffset i ∧ p.slotOffset i + p.slotLength i ≤ 8192
  live_disjoint : ∀ {i j}, p.Live i → p.Live j → i ≠ j →
    Disjoint (Set.Ico (p.slotOffset i) (p.slotOffset i + p.slotLength i))
      (Set.Ico (p.slotOffset j) (p.slotOffset j + p.slotLength j))
  get           : ∀ {i}, p.getTuple i = (p.bindings i).getD []
  insert_some   : ∀ {bytes pref rid q}, bytes.length ≤ 65535 →
    p.insertTuple bytes pref = (some rid, q) → rid.slotNum ≤ p.slotCount ∧
      p.bindings rid.slotNum = none ∧ q.bindings = Function.update p.bindings rid.slotNum (some bytes)
  insert_none   : ∀ {bytes pref q}, p.insertTuple bytes pref = (none, q) → q.bindings = p.bindings
  delete_true   : ∀ {i q}, p.deleteTuple i = (true, q) →
    p.Live i ∧ q.bindings = Function.update p.bindings i none
  delete_false  : ∀ {i q}, p.deleteTuple i = (false, q) → ¬p.Live i ∧ q.bindings = p.bindings
  update_true   : ∀ {bytes rid q}, bytes.length ≤ 65535 → p.tryUpdateInPlace rid bytes = (true, q) →
    p.Live rid.slotNum ∧ q.bindings = Function.update p.bindings rid.slotNum (some bytes)
  update_false  : ∀ {bytes rid q}, p.tryUpdateInPlace rid bytes = (false, q) → q.bindings = p.bindings
  compact       : p.compact.bindings = p.bindings ∧ p.compact.nextPage = p.nextPage
  restore       : ∀ {bytes i q}, bytes.length ≤ 65535 → p.restoreTuple i bytes = some q →
    i < p.slotCount ∧ p.bindings i = none ∧ q.bindings = Function.update p.bindings i (some bytes)

theorem Becomes.bindings (h : Becomes p q v) : q.bindings = v.slots :=
  congrArg PageView.slots h.view

theorem Reachable.actsAsMap (hr : Reachable p) : p.ActsAsMap := by
  have hw := hr.wellFormed
  constructor
  case slots_fit     => exact hw.slots_fit
  case free_le       => exact hw.free_le
  case live_in       => exact fun h => ⟨hw.live_ge h, hw.live_le h⟩
  case live_disjoint =>
    intro i j hi hj hn
    have ha := hw.apart hi hj hn
    rw [Set.disjoint_left]
    rintro a ⟨_, _⟩ ⟨_, _⟩
    simp only [Intervals.Apart] at ha
    omega
  case get           => exact getTuple_eq
  case insert_some   =>
    intro bytes pref rid q hl h
    obtain ⟨hi, hd, hb⟩ := hw.insertTuple_some (by omega) h
    exact ⟨hi, hd, hb.bindings⟩
  case insert_none   => exact fun h => insertTuple_none h ▸ rfl
  case delete_true   =>
    intro i q h
    obtain ⟨hi, hb⟩ := hw.deleteTuple_true h
    exact ⟨hi, hb.bindings⟩
  case delete_false  =>
    intro i q h
    obtain ⟨hi, hq⟩ := deleteTuple_false h
    exact ⟨hi, hq ▸ rfl⟩
  case update_true   =>
    intro bytes rid q hl h
    exact ⟨tryUpdateInPlace_live h, (hw.tryUpdateInPlace_true (by omega) h).bindings⟩
  case update_false  => exact fun h => tryUpdateInPlace_false h ▸ rfl
  case compact       =>
    have hb := compact_becomes hw
    exact ⟨hb.bindings, congrArg PageView.nextPage hb.view⟩
  case restore       =>
    intro bytes i q hl h
    obtain ⟨hi, hd, hb⟩ := hw.restoreTuple_some (by omega) h
    exact ⟨hi, hd, hb.bindings⟩

theorem Reachable.actsAsMap_inserted :
    ((SlottedPage.mk fun _ => 7).init.insertTuple [1, 2, 3] none).2.ActsAsMap := by
  have h := Reachable.init (SlottedPage.mk fun _ => 7)
  exact Reachable.actsAsMap <| h.step <| @Step.insert _ [1, 2, 3] none (by decide)

end Duck.SlottedPage
