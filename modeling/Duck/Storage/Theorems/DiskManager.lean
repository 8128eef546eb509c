import Duck.Storage.DiskManager
import Mathlib.Order.Basic

open Memory

namespace Duck

namespace File

variable {f : File} {buffer : List UInt8}

-- What is written is what a later read finds, and nothing else changes.
theorem pwrite_bytes (h : f.pwrite buffer offset = some g) : g.bytes = f.bytes.copy offset buffer := by
  simp only [pwrite] at h
  split_ifs at h with hf hb
  · obtain rfl := Option.some.inj h
    rw [hb, copy_nil]
  · obtain rfl := Option.some.inj h
    rfl

theorem pwrite_failing (h : f.pwrite buffer offset = some g) : g.failing = f.failing := by
  simp only [pwrite] at h
  split_ifs at h with hf hb
  all_goals
    obtain rfl := Option.some.inj h
    rfl

theorem pwrite_isSome (hf : f.failing = false) : ∃ g, f.pwrite buffer offset = some g := by
  simp only [pwrite, hf, Bool.false_eq_true, if_false]
  split <;> exact ⟨_, rfl⟩

theorem pwrite_getD_failing : ((f.pwrite buffer offset).getD f).failing = f.failing := by
  cases h : f.pwrite buffer offset
  case none   => rfl
  case some g => exact pwrite_failing h

-- Bytes outside the range of a write stay, whether it succeeds or not.
theorem pwrite_getD_bytes (h : a < offset ∨ offset + buffer.length ≤ a) :
    ((f.pwrite buffer offset).getD f).bytes a = f.bytes a := by
  cases hg : f.pwrite buffer offset
  case none   => rfl
  case some g =>
    rw [Option.getD_some, pwrite_bytes hg]
    cases h
    case inl h => exact copy_of_lt h
    case inr h => exact copy_of_ge h

end File

namespace DiskManager

variable {d : DiskManager} {p q : PageID} {data : PageData}

-- The page as the file has it.
def stored (d : DiskManager) (pageId : PageID) : PageData :=
  .ofMemory fun a => d.file.bytes (pageId.toNat * kPageSize + a)

theorem stored_of_file {d' : DiskManager} (h : d'.file = d.file) : d'.stored p = d.stored p := by
  rw [stored, stored, h]

-- Two pages of the file do not overlap.
theorem page_disjoint (h : p ≠ q) (ha : a < kPageSize) :
    q.toNat * kPageSize + a < p.toNat * kPageSize ∨
      p.toNat * kPageSize + kPageSize ≤ q.toNat * kPageSize + a := by
  have hn : p.toNat ≠ q.toNat := mt UInt32.toNat_inj.mp h
  simp only [kPageSize_eq] at ha ⊢
  omega

theorem readPage_eq (hf : d.file.failing = false) (hp : p < d.capacity) :
    d.readPage p = .ok (d.stored p) := by
  rw [readPage, if_neg (UInt32.not_le.mpr hp)]
  simp only [File.pread, hf, Bool.false_eq_true, if_false]
  refine congrArg Except.ok <| PageData.ofMemory_eq fun a ha => ?_
  simp only [stored, PageData.ofMemory, ha, if_true]
  generalize hn : min kPageSize (d.file.size - p.toNat * kPageSize) = n
  have hnk : n ≤ kPageSize := hn ▸ Nat.min_le_left ..
  simp only [copy, slice_length, List.length_append, List.length_replicate, Nat.zero_le, true_and,
    Nat.zero_add, Nat.add_sub_of_le hnk, ha, if_true, Nat.sub_zero, List.getD_eq_getElem?_getD]
  by_cases han : a < n
  case pos =>
    rw [List.getElem?_append_left (by simpa using han), slice_getElem? han, Option.getD_some]
  case neg =>
    rw [List.getElem?_append_right (by simpa using han), slice_length, d.file.past _ (by omega)]
    simp only [List.getElem?_replicate]
    split <;> rfl

theorem readPage_error (h : d.file.failing ∨ d.capacity ≤ p) : ∃ e, d.readPage p = .error e := by
  simp only [readPage]
  split_ifs with hc
  · exact ⟨_, rfl⟩
  · simp [File.pread, h.resolve_right hc]

-- The disk after a page has been written.
def written (d : DiskManager) (pageId : PageID) (data : PageData) : DiskManager :=
  { d with file := (d.file.pwrite data.toList (pageId.toNat * kPageSize)).getD d.file }

theorem writePage_eq (hf : d.file.failing = false) (hp : p < d.capacity) :
    d.writePage p data = .ok (d.written p data) := by
  have ⟨g, hg⟩ : ∃ g, d.file.pwrite data.toList (p.toNat * kPageSize) = some g := File.pwrite_isSome hf
  rw [writePage, if_neg (UInt32.not_le.mpr hp), hg]
  simp only [written, hg, Option.getD_some]

theorem writePage_ok (h : d.writePage p data = .ok d') : d.file.failing = false ∧ d' = d.written p data := by
  simp only [writePage] at h
  split_ifs at h with hp
  split at h
  case h_2 => cases h
  case h_1 file hg =>
    obtain rfl := Except.ok.inj h
    refine ⟨?_, by simp only [written, hg, Option.getD_some]⟩
    by_contra hf
    simp [File.pwrite, hf] at hg

theorem writePage_isOk : (∃ d', d.writePage p data = .ok d') ↔ d.file.failing = false ∧ p < d.capacity := by
  constructor
  · rintro ⟨d', h⟩
    refine ⟨(writePage_ok h).1, ?_⟩
    by_contra hp
    rw [writePage, if_pos (UInt32.not_lt.mp hp)] at h
    cases h
  · rintro ⟨hf, hp⟩
    exact ⟨_, writePage_eq hf hp⟩

@[simp]
theorem written_capacity : (d.written p data).capacity = d.capacity :=
  rfl

@[simp]
theorem written_freeList : (d.written p data).freeList = d.freeList :=
  rfl

@[simp]
theorem written_failing : (d.written p data).file.failing = d.file.failing :=
  File.pwrite_getD_failing

theorem stored_written (hf : d.file.failing = false) : (d.written p data).stored p = data := by
  have ⟨g, hg⟩ : ∃ g, d.file.pwrite data.toList (p.toNat * kPageSize) = some g := File.pwrite_isSome hf
  refine PageData.ofMemory_eq fun a ha => ?_
  have hl : a < data.toList.length := by rwa [PageData.toList_length]
  simp only [written, hg, Option.getD_some, File.pwrite_bytes hg, copy_of_mem hl]
  simp [PageData.toList, slice]

theorem stored_written_ne (h : q ≠ p) : (d.written p data).stored q = d.stored q := by
  refine PageData.ofMemory_eq fun a ha => ?_
  simp only [stored, PageData.ofMemory, ha, if_true]
  exact File.pwrite_getD_bytes (by simpa using page_disjoint h.symm ha)

@[simp]
theorem flushAll_capacity : d.flushAll.capacity = d.capacity :=
  rfl

@[simp]
theorem flushAll_freeList : d.flushAll.freeList = d.freeList :=
  rfl

@[simp]
theorem flushAll_failing : d.flushAll.file.failing = d.file.failing :=
  File.pwrite_getD_failing.trans File.pwrite_getD_failing

theorem freeListBytes_length (list : List PageID) :
    (list.flatMap fun pageId => Bytes.le 4 pageId.toNat).length = 4 * list.length := by
  induction list
  case nil           => rfl
  case cons p list h =>
    simp only [List.flatMap_cons, List.length_append, Bytes.le_length, h, List.length_cons]
    omega

-- The header and the free list stay on page 0.
theorem stored_flushAll (hl : d.freeList.length ≤ 1025) (hq : q ≠ kDiskMetadataPageID) :
    d.flushAll.stored q = d.stored q := by
  refine PageData.ofMemory_eq fun a ha => ?_
  simp only [stored, PageData.ofMemory, ha, if_true]
  have hd := page_disjoint hq.symm ha
  simp only [kPageSize_eq] at hd
  have hd : 8192 ≤ q.toNat * 8192 + a := hd.resolve_left (by simp)
  have hlist := freeListBytes_length d.freeList
  refine (File.pwrite_getD_bytes (.inr ?_)).trans (File.pwrite_getD_bytes (.inr ?_))
  · have hs : headerSize = 32 := rfl
    exact (show headerSize + _ ≤ 8192 by omega).trans hd
  · refine (le_trans ?_ hd)
    simp [Bytes.le_length]

-- The free list holds distinct pages of the file, never page 0, and fits on page 0 with the header.
structure WellFormed (d : DiskManager) : Prop where
  pos        : 0 < d.capacity
  free_lt    : ∀ {p}, p ∈ d.freeList → p < d.capacity
  free_ne    : ∀ {p}, p ∈ d.freeList → p ≠ kDiskMetadataPageID
  free_nodup : d.freeList.Nodup
  free_le    : d.freeList.length ≤ 1025

-- The page has been handed out and not been given back.
structure InUse (d : DiskManager) (pageId : PageID) : Prop where
  lt       : pageId < d.capacity
  ne       : pageId ≠ kDiskMetadataPageID
  not_free : pageId ∉ d.freeList

theorem WellFormed.written (hw : d.WellFormed) : (d.written p data).WellFormed :=
  ⟨hw.pos, hw.free_lt, hw.free_ne, hw.free_nodup, hw.free_le⟩

theorem WellFormed.flushAll (hw : d.WellFormed) : d.flushAll.WellFormed :=
  ⟨hw.pos, hw.free_lt, hw.free_ne, hw.free_nodup, hw.free_le⟩

-- What `allocate_page` does: it hands out a page that was not in use.
structure Allocates (d : DiskManager) (p : PageID) (d' : DiskManager) : Prop where
  wellFormed : d'.WellFormed
  fresh      : ¬d.InUse p
  inUse      : ∀ {q}, d'.InUse q ↔ d.InUse q ∨ q = p
  le         : d.capacity.toNat ≤ d'.capacity.toNat
  file       : d'.file = d.file

theorem toNat_succ {capacity : PageID} (h : capacity < invalidPageID) :
    (capacity + 1).toNat = capacity.toNat + 1 := by
  have h : capacity.toNat < 4294967295 := UInt32.lt_iff_toNat_lt.mp h
  rw [UInt32.toNat_add, UInt32.toNat_one, Nat.mod_eq_of_lt (Nat.succ_lt_succ h)]

-- Once the file is full, the id that is handed out is no page's.
theorem allocatePage_full (hl : d.freeList = []) (hc : ¬d.capacity < invalidPageID) :
    d.allocatePage.1 = invalidPageID := by
  rw [DiskManager.allocatePage, List.getLast?_eq_none_iff.mpr hl]
  have hc := UInt32.le_iff_toNat_le.mp <| UInt32.not_lt.mp hc
  exact UInt32.toNat_inj.mp <| Nat.le_antisymm (Nat.le_of_lt_succ d.capacity.toNat_lt) hc

theorem WellFormed.allocatePage (hw : d.WellFormed) (hc : d.freeList = [] → d.capacity < invalidPageID) :
    d.Allocates d.allocatePage.1 d.allocatePage.2 := by
  simp only [DiskManager.allocatePage]
  split
  case h_1 p h =>
    have ⟨list, h⟩ := List.getLast?_eq_some_iff.mp h
    simp only [h, List.dropLast_concat]
    have hp : p ∈ d.freeList := by simp [h]
    have hn := List.nodup_append.mp (h ▸ hw.free_nodup)
    have hl {q} (hq : q ∈ list) : q ∈ d.freeList := h ▸ List.mem_append_left _ hq
    constructor
    case wellFormed =>
      refine ⟨hw.pos, (hw.free_lt <| hl ·), (hw.free_ne <| hl ·), hn.1, ?_⟩
      have := hw.free_le
      simp only [h, List.length_append] at this
      exact (Nat.le_add_right ..).trans this
    case fresh => exact fun hu => hu.not_free hp
    case inUse =>
      intro q
      constructor
      · intro hu
        refine or_iff_not_imp_right.mpr fun hq => ⟨hu.lt, hu.ne, fun hm => hu.not_free ?_⟩
        have hm := List.mem_append.mp (h ▸ hm)
        exact hm.resolve_right fun hm => hq <| List.mem_singleton.mp hm
      · rintro (hu | rfl)
        · exact ⟨hu.lt, hu.ne, fun hm => hu.not_free (hl hm)⟩
        · exact ⟨hw.free_lt hp, hw.free_ne hp, fun hm => hn.2.2 _ hm _ (List.mem_singleton_self _) rfl⟩
    case le   => exact le_rfl
    case file => rfl
  case h_2 h =>
    have h := List.getLast?_eq_none_iff.mp h
    have hs := toNat_succ (hc h)
    have hlt {q : PageID} : q < d.capacity + 1 ↔ q < d.capacity ∨ q = d.capacity := by
      rw [UInt32.lt_iff_toNat_lt, UInt32.lt_iff_toNat_lt, hs, ←UInt32.toNat_inj]
      exact Nat.lt_succ_iff_lt_or_eq
    have hz : d.capacity ≠ kDiskMetadataPageID := fun hz => UInt32.lt_irrefl _ (hz ▸ hw.pos)
    constructor
    case wellFormed =>
      refine ⟨hlt.mpr (.inl hw.pos), (hlt.mpr <| .inl <| hw.free_lt ·), hw.free_ne, hw.free_nodup,
        hw.free_le⟩
    case fresh => exact fun hu => UInt32.lt_irrefl _ hu.lt
    case inUse =>
      intro q
      constructor
      · intro hu
        exact (hlt.mp hu.lt).imp_left fun hl => ⟨hl, hu.ne, hu.not_free⟩
      · rintro (hu | rfl)
        · exact ⟨hlt.mpr (.inl hu.lt), hu.ne, hu.not_free⟩
        · exact ⟨hlt.mpr (.inr rfl), hz, by simp [h]⟩
    case le   => exact hs ▸ Nat.le_succ _
    case file => rfl

-- What `deallocate_page` does: it gives a page back, or forgets it when the free list is full.
structure Deallocates (d : DiskManager) (p : PageID) (d' : DiskManager) : Prop where
  wellFormed : d'.WellFormed
  inUse      : ∀ {q}, q ≠ p → (d'.InUse q ↔ d.InUse q)
  capacity   : d'.capacity = d.capacity
  file       : d'.file = d.file

theorem WellFormed.deallocatePage (hw : d.WellFormed) (hp : d.InUse p) :
    ∃ d', d.deallocatePage p = .ok d' ∧ d.Deallocates p d' := by
  simp only [DiskManager.deallocatePage, hp.ne, if_false]
  split
  case isTrue  => exact ⟨d, rfl, hw, fun _ => .rfl, rfl, rfl⟩
  case isFalse hl =>
    refine ⟨_, rfl, ⟨hw.pos, ?_, ?_, ?_, ?_⟩, fun hq => ⟨fun hu => ?_, fun hu => ?_⟩, rfl, rfl⟩
    · intro q hq
      exact (List.mem_append.mp hq).elim hw.free_lt fun h => List.mem_singleton.mp h ▸ hp.lt
    · intro q hq
      exact (List.mem_append.mp hq).elim hw.free_ne fun h => List.mem_singleton.mp h ▸ hp.ne
    · refine List.nodup_append.mpr ⟨hw.free_nodup, List.pairwise_singleton _ _, fun q hq r hr => ?_⟩
      rw [List.mem_singleton.mp hr]
      rintro rfl
      exact hp.not_free hq
    · rw [List.length_append, List.length_singleton]
      exact Nat.succ_le_succ (Nat.not_lt.mp hl)
    · exact ⟨hu.lt, hu.ne, fun hm => hu.not_free <| List.mem_append_left _ hm⟩
    · refine ⟨hu.lt, hu.ne, fun hm => ?_⟩
      exact (List.mem_append.mp hm).elim hu.not_free fun h => hq <| List.mem_singleton.mp h

-- The disk manager on a file that holds no page yet.
def fresh (file : File) : DiskManager :=
  (DiskManager.mk file 0 [] kDBMagic kDBFormatVersion).allocatePage.2.flushAll

variable {f : File}

theorem openFile_fresh (h : f.size < kPageSize) : openFile f = .ok (fresh f) := by
  have hs : f.size / kPageSize < 1 := (Nat.div_lt_iff_lt_mul (by decide)).mpr (by simpa using h)
  simp only [openFile, hs, if_true]
  rfl

theorem fresh_wellFormed : (fresh f).WellFormed where
  pos        := (by decide : (0 : PageID) < 0 + 1)
  free_lt    := nofun
  free_ne    := nofun
  free_nodup := .nil
  free_le    := Nat.zero_le _

theorem fresh_failing : (fresh f).file.failing = f.failing :=
  flushAll_failing

theorem stored_fresh (hp : p ≠ kDiskMetadataPageID) :
    (fresh f).stored p = .ofMemory fun a => f.bytes (p.toNat * kPageSize + a) :=
  stored_flushAll (Nat.zero_le _) hp

end DiskManager
end Duck
