import Duck.Storage.PageData
import Duck.Table.Theorems.SlottedPage.Reachable

namespace Duck

-- The page of a frame, and the contents of a frame with that page.
def PageData.slotted (d : PageData) : SlottedPage :=
  ⟨d.bytes⟩

def SlottedPage.stored (p : SlottedPage) : PageData :=
  .ofMemory p.data

@[simp]
theorem PageData.stored_slotted {d : PageData} : d.slotted.stored = d :=
  ofMemory_bytes

theorem SlottedPage.stored_nextPage {p : SlottedPage} : p.stored.slotted.nextPage = p.nextPage := by
  refine congrArg UInt32.ofNat <| Memory.read_congr fun a _ ha => ?_
  simp [PageData.slotted, stored, PageData.ofMemory, show a < kPageSize from by rw [kPageSize_eq]; omega]

namespace SlottedPage

variable {p q : SlottedPage} {v w : PageView} {i : ℕ} {bytes : List UInt8}

-- The page of a frame: it shows `v`, and the bytes end with the page. A page without slots has all
-- of its space free.
structure Holds (p : SlottedPage) (v : PageView) : Prop where
  wf    : p.WellFormed
  view  : p.view = v
  blank : p.slotCount = 0 → p.freeSpaceOffset = kPageSize
  past  : ∀ a, kPageSize ≤ a → p.data a = 0

namespace Holds

theorem slotCount_eq (h : p.Holds v) : p.slotCount = v.slotCount :=
  congrArg PageView.slotCount h.view

theorem nextPage_eq (h : p.Holds v) : p.nextPage = v.nextPage :=
  congrArg PageView.nextPage h.view

theorem bindings_eq (h : p.Holds v) : p.bindings = v.slots :=
  congrArg PageView.slots h.view

theorem occupied_le (h : p.Holds v) : v.occupied ≤ kPageSize :=
  h.view ▸ h.wf.occupied_le

theorem live_iff (h : p.Holds v) : p.Live i ↔ v.slots i ≠ none := by
  rw [←h.bindings_eq, Ne, bindings_eq_none_iff, not_not]

theorem lt_of_bound (h : p.Holds v) (hi : v.slots i = some bytes) : i < v.slotCount :=
  h.slotCount_eq ▸ (h.live_iff.mpr <| by simp [hi]).lt

-- A tuple has its place on the page.
theorem length_le (h : p.Holds v) (hi : v.slots i = some bytes) : bytes.length ≤ 8180 := by
  have hb : v.bytesAt i = bytes.length := by rw [PageView.bytesAt, hi, Option.elim_some]
  have hlt := h.lt_of_bound hi
  have hu := PageView.used_unbind hlt
  have ho := h.occupied_le
  rw [kPageSize_eq, PageView.occupied] at ho
  omega

theorem length_lt (h : p.Holds v) (hi : v.slots i = some bytes) : bytes.length < 65536 :=
  (h.length_le hi).trans_lt (by decide)

theorem getTuple_eq (h : p.Holds v) : p.getTuple i = (v.slots i).getD [] :=
  h.bindings_eq ▸ SlottedPage.getTuple_eq

theorem hasSlot_iff (h : p.Holds v) : p.hasSlot i ↔ v.slots i ≠ none :=
  SlottedPage.hasSlot_iff.trans h.live_iff

theorem becomes (h : p.Holds v) (hb : Becomes p q w) (he : w.slotCount = 0 → q.freeSpaceOffset = kPageSize) :
    q.Holds w where
  wf       := hb.wf
  view     := hb.view
  blank hc := he <| hb.view ▸ hc
  past a ha := (hb.tail a ha).trans <| h.past a ha

-- What is stored from a page and read again is the page.
theorem stored_slotted (h : p.Holds v) : p.stored.slotted = p := by
  ext a
  by_cases ha : a < kPageSize
  case pos => simp only [PageData.slotted, stored, PageData.ofMemory, ha, if_true]
  case neg => simp only [PageData.slotted, stored, PageData.ofMemory, ha, if_false, h.past a (Nat.not_lt.mp ha)]

theorem init (d : PageData) : d.slotted.init.Holds .empty where
  wf          := init_becomes.wf
  view        := init_becomes.view
  blank _     := init_freeSpaceOffset
  past a ha   := (init_becomes.tail a ha).trans <| d.past a ha

theorem setNextPage (h : p.Holds v) : (p.setNextPage pageId).Holds (v.link pageId) :=
  h.becomes (h.view ▸ setNextPage_becomes h.wf) fun hc => by
    rw [setNextPage_freeSpaceOffset]
    exact h.blank <| h.slotCount_eq.trans hc

theorem compact (h : p.Holds v) : p.compact.Holds v :=
  h.becomes (h.view ▸ compact_becomes h.wf) fun hc => by
    have hu : p.view.used = 0 := by simp [PageView.used, h.slotCount_eq.trans hc]
    rw [compact_freeSpaceOffset h.wf, hu, Nat.sub_zero]

theorem insertTuple (h : p.Holds v) (hl : bytes.length < 65536)
    (hi : p.insertTuple bytes pref = (some rid, q)) :
    rid.slotNum ≤ v.slotCount ∧ v.slots rid.slotNum = none ∧ q.Holds (v.bind rid.slotNum bytes) := by
  have ⟨hs, hn, hb⟩ := h.wf.insertTuple_some hl hi
  rw [h.view] at hb
  refine ⟨h.slotCount_eq ▸ hs, h.bindings_eq ▸ hn, h.becomes hb fun hc => ?_⟩
  simp only [PageView.bind] at hc
  omega

theorem insertTuple_prefered (h : p.Holds v) (hl : bytes.length < 65536) (hi : i < v.slotCount)
    (hf : v.slots i = none) (hp : p.insertTuple bytes (some i) = (some rid, q)) : rid.slotNum = i := by
  have ho : p.slotOffset i = invalidSlotOffset := by
    by_contra ho
    exact h.live_iff.mp ⟨h.slotCount_eq ▸ hi, ho⟩ hf
  rw [h.wf.insertTuple_reused hl <| reusedSlot_prefered (h.slotCount_eq ▸ hi) ho] at hp
  split at hp
  · obtain rfl := Option.some.inj (Prod.mk.inj hp).1
    rfl
  · cases hp

-- A page without slots takes every tuple that a page can take.
theorem insertTuple_blank (h : p.Holds v) (hc : v.slotCount = 0) (hl : bytes.length ≤ 8180) :
    ∃ rid q, p.insertTuple bytes none = (some rid, q) := by
  have hs := h.slotCount_eq.trans hc
  have hf := kPageSize_eq ▸ h.blank hs
  have hr : p.reusedSlot none = none := by simp [reusedSlot, findEmptySlot, hs]
  rw [h.wf.insertTuple_eq (by omega), if_pos (by simp only [slotCost, hr, hs, hf, if_true]; omega), hr]
  exact ⟨_, _, rfl⟩

theorem deleteTuple (h : p.Holds v) (hd : p.deleteTuple i = (true, q)) :
    v.slots i ≠ none ∧ q.Holds (v.unbind i) := by
  have ⟨hi, hb⟩ := h.wf.deleteTuple_true hd
  rw [h.view] at hb
  refine ⟨h.live_iff.mp hi, h.becomes hb fun hc => ?_⟩
  have := h.slotCount_eq ▸ hi.lt
  simp only [PageView.unbind_slotCount] at hc
  omega

theorem deleteTuple_eq (h : p.Holds v) : (p.deleteTuple i).1 = (v.slots i).isSome := by
  rw [SlottedPage.deleteTuple_eq]
  have hi := h.live_iff (i := i)
  by_cases hp : p.Live i
  case pos => simpa [hp, Option.isSome_iff_ne_none] using hi
  case neg => simpa [hp] using hi

theorem tryUpdateInPlace (h : p.Holds v) (hl : bytes.length < 65536)
    (hu : p.tryUpdateInPlace rid bytes = (true, q)) :
    v.slots rid.slotNum ≠ none ∧ q.Holds (v.bind rid.slotNum bytes) := by
  have hi := tryUpdateInPlace_live hu
  have hb := h.wf.tryUpdateInPlace_true hl hu
  rw [h.view] at hb
  refine ⟨h.live_iff.mp hi, h.becomes hb fun hc => ?_⟩
  simp only [PageView.bind] at hc
  omega

theorem restoreTuple_some (h : p.Holds v) (hl : bytes.length < 65536) (hr : p.restoreTuple i bytes = some q) :
    q.Holds (v.bind i bytes) := by
  have ⟨_, _, hb⟩ := WellFormed.restoreTuple_some h.wf hl hr
  rw [h.view] at hb
  refine h.becomes hb fun hc => ?_
  simp only [PageView.bind] at hc
  omega

-- A dead slot is restored exactly where the page has the room.
theorem restoreTuple (h : p.Holds v) (hl : bytes.length < 65536) (hi : i < v.slotCount) (hf : v.slots i = none)
    (hr : v.occupied + bytes.length ≤ kPageSize) :
    ∃ q, p.restoreTuple i bytes = some q ∧ q.Holds (v.bind i bytes) := by
  have hd : ¬p.Live i := fun hd => h.live_iff.mp hd hf
  have he := WellFormed.restoreTuple_eq h.wf hl (h.slotCount_eq ▸ hi) hd
  rw [h.view, if_pos hr] at he
  exact ⟨_, he, h.restoreTuple_some hl he⟩

end Holds
end SlottedPage
end Duck
