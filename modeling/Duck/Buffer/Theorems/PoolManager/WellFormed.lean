import Duck.Buffer.PoolManager
import Duck.Buffer.Theorems.Replacer
import Duck.Storage.Theorems.DiskManager
import Mathlib.Data.Finset.Card
import Mathlib.Tactic.SplitIfs

namespace Duck.PoolManager

variable {m m' : PoolManager} {p q : PageID} {f g : FrameID} {page : Page}

-- Every frame in use is in the table under the page it carries, and every other one is blank.
structure WellFormed (m : PoolManager) : Prop where
  replacer    : m.replacer.WellFormed
  tracks      : ∀ {p}, m.replacer.Tracks p ↔ ∃ f, m.pageTable p = some f
  table_lt    : ∀ {p f}, m.pageTable p = some f → f < m.poolSize
  table_page  : ∀ {p f}, m.pageTable p = some f → (m.frames f).pageId = p
  table_valid : ∀ {p f}, m.pageTable p = some f → p < m.disk.capacity
  used        : ∀ {f}, f < m.poolSize → f ∉ m.freeFrames → m.pageTable (m.frames f).pageId = some f
  free_lt     : ∀ {f}, f ∈ m.freeFrames → f < m.poolSize
  free_nodup  : m.freeFrames.Nodup
  blank       : ∀ {f}, f ∈ m.freeFrames ∨ m.poolSize ≤ f → m.frames f = .empty
  size_le     : m.poolSize ≤ m.poolCapacity
  size_disk   : m.poolSize ≤ m.disk.capacity.toNat

theorem create_wellFormed : (create d n).WellFormed where
  replacer      := BufferReplacer.empty_wellFormed
  tracks        := ⟨fun h => absurd h BufferReplacer.empty_tracks, nofun⟩
  table_lt      := nofun
  table_page    := nofun
  table_valid   := nofun
  used          := nofun
  free_lt       := nofun
  free_nodup    := .nil
  blank _       := rfl
  size_le       := Nat.zero_le _
  size_disk     := Nat.zero_le _

theorem ne_invalid {capacity : PageID} (h : p < capacity) : p ≠ invalidPageID := by
  rintro rfl
  have h : 4294967295 < capacity.toNat := UInt32.lt_iff_toNat_lt.mp h
  have := capacity.toNat_lt
  omega

@[simp]
theorem setFrame_frames_same : (m.setFrame f page).frames f = page :=
  Function.update_self ..

@[simp]
theorem setFrame_frames_ne (h : g ≠ f) : (m.setFrame f page).frames g = m.frames g :=
  Function.update_of_ne h ..

namespace WellFormed

theorem table_inj (hw : m.WellFormed) (hp : m.pageTable p = some f) (hq : m.pageTable q = some f) :
    p = q :=
  (hw.table_page hp).symm.trans (hw.table_page hq)

theorem table_not_free (hw : m.WellFormed) (h : m.pageTable p = some f) : f ∉ m.freeFrames := by
  intro hf
  have hp := hw.table_page h
  rw [hw.blank <| .inl hf] at hp
  exact ne_invalid (hw.table_valid h) hp.symm

theorem table_invalid (hw : m.WellFormed) : m.pageTable invalidPageID = none := by
  cases h : m.pageTable invalidPageID
  case none   => rfl
  case some f => exact absurd rfl <| ne_invalid (hw.table_valid h)

-- A frame that carries a page is the one that the table names for the page.
theorem table_of_page (hw : m.WellFormed) (h : (m.frames f).pageId ≠ invalidPageID) :
    m.pageTable (m.frames f).pageId = some f := by
  refine hw.used (Nat.not_le.mp fun hf => ?_) (fun hf => ?_)
  · exact h <| congrArg Page.pageId <| hw.blank (.inr hf)
  · exact h <| congrArg Page.pageId <| hw.blank (.inl hf)

theorem blank_or_used (hw : m.WellFormed) :
    m.frames f = .empty ∨ m.pageTable (m.frames f).pageId = some f := by
  by_cases h : (m.frames f).pageId = invalidPageID
  case neg => exact .inr <| hw.table_of_page h
  case pos =>
    refine .inl <| hw.blank ?_
    by_contra hf
    have ⟨hf, hl⟩ := not_or.mp hf
    have ht := hw.used (Nat.not_le.mp hl) hf
    rw [h, hw.table_invalid] at ht
    cases ht

theorem frame_valid (hw : m.WellFormed) (h : f < m.poolSize) : f ≠ invalidFrameID := by
  rintro rfl
  have h : 4294967295 < m.disk.capacity.toNat := h.trans_le hw.size_disk
  have := m.disk.capacity.toNat_lt
  omega

-- Pages of distinct frames are distinct, so that a page outside the pool leaves one frame to take.
theorem size_lt (hw : m.WellFormed) (hf : m.freeFrames = []) (hp : p < m.disk.capacity)
    (ht : m.pageTable p = none) : m.poolSize < m.disk.capacity.toNat := by
  have hu {f} (hl : f < m.poolSize) : m.pageTable (m.frames f).pageId = some f :=
    hw.used hl (hf ▸ List.not_mem_nil)
  have hc : (Finset.range m.poolSize).card ≤ ((Finset.range m.disk.capacity.toNat).erase p.toNat).card := by
    refine Finset.card_le_card_of_injOn (fun f => (m.frames f).pageId.toNat) ?_ ?_
    · intro f hl
      have hl := hu (Finset.mem_range.mp hl)
      refine Finset.mem_coe.mpr <| Finset.mem_erase.mpr ⟨fun he => ?_, ?_⟩
      · rw [UInt32.toNat_inj.mp he, ht] at hl
        cases hl
      · exact Finset.mem_range.mpr <| UInt32.lt_iff_toNat_lt.mp (hw.table_valid hl)
    · intro f hl g hg he
      have hl := hu (Finset.mem_range.mp hl)
      have hg := hu (Finset.mem_range.mp hg)
      rw [UInt32.toNat_inj.mp he] at hl
      exact Option.some.inj <| hl.symm.trans hg
  have hp : p.toNat < m.disk.capacity.toNat := UInt32.lt_iff_toNat_lt.mp hp
  rw [Finset.card_erase_of_mem (Finset.mem_range.mpr hp), Finset.card_range, Finset.card_range] at hc
  omega

theorem setFrame (hw : m.WellFormed) (ht : m.pageTable p = some f) (hp : page.pageId = p) :
    (m.setFrame f page).WellFormed where
  replacer       := hw.replacer
  tracks         := hw.tracks
  table_lt h     := hw.table_lt h
  table_valid h  := hw.table_valid h
  free_lt h      := hw.free_lt h
  free_nodup     := hw.free_nodup
  size_le        := hw.size_le
  size_disk      := hw.size_disk
  table_page {q g} h := by
    by_cases he : g = f
    case pos =>
      subst he
      rw [setFrame_frames_same, hp]
      exact hw.table_inj ht h
    case neg =>
      rw [setFrame_frames_ne he]
      exact hw.table_page h
  used {g} hl hn := by
    by_cases he : g = f
    case pos =>
      subst he
      rw [setFrame_frames_same, hp]
      exact ht
    case neg =>
      rw [setFrame_frames_ne he]
      exact hw.used hl hn
  blank {g} h := by
    have he : g ≠ f := by
      rintro rfl
      cases h
      case inl h => exact hw.table_not_free ht h
      case inr h => exact absurd (hw.table_lt ht) (Nat.not_lt.mpr h)
    rw [setFrame_frames_ne he]
    exact hw.blank h

theorem setDisk (hw : m.WellFormed) (hc : m.disk.capacity.toNat ≤ d.capacity.toNat) :
    { m with disk := d }.WellFormed where
  replacer      := hw.replacer
  tracks        := hw.tracks
  table_lt h    := hw.table_lt h
  table_page h  := hw.table_page h
  table_valid h := UInt32.lt_iff_toNat_lt.mpr <| (UInt32.lt_iff_toNat_lt.mp <| hw.table_valid h).trans_le hc
  used h        := hw.used h
  free_lt h     := hw.free_lt h
  free_nodup    := hw.free_nodup
  blank h       := hw.blank h
  size_le       := hw.size_le
  size_disk     := hw.size_disk.trans hc

theorem record (hw : m.WellFormed) (ht : m.pageTable p = some f) :
    { m with replacer := m.replacer.record p }.WellFormed where
  replacer      := hw.replacer.record
  tracks {q}    := by
    rw [hw.replacer.tracks_record, hw.tracks, or_iff_left_of_imp]
    rintro rfl
    exact ⟨f, ht⟩
  table_lt h    := hw.table_lt h
  table_page h  := hw.table_page h
  table_valid h := hw.table_valid h
  used h        := hw.used h
  free_lt h     := hw.free_lt h
  free_nodup    := hw.free_nodup
  blank h       := hw.blank h
  size_le       := hw.size_le
  size_disk     := hw.size_disk

end WellFormed
end Duck.PoolManager
