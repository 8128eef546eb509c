import Duck.Storage.DiskSession
import Duck.Storage.Theorems.DiskManager

open Memory

namespace Duck

namespace File

variable {f : File}

theorem pwrite_getD (hf : f.failing = false) :
    ((f.pwrite buffer offset).getD f).bytes = f.bytes.copy offset buffer := by
  have ⟨g, hg⟩ : ∃ g, f.pwrite buffer offset = some g := pwrite_isSome hf
  rw [hg, Option.getD_some, pwrite_bytes hg]

theorem pwrite_getD_size (hf : f.failing = false) :
    ((f.pwrite buffer offset).getD f).size =
      if buffer = [] then f.size else max f.size (offset + buffer.length) := by
  simp only [pwrite, hf, Bool.false_eq_true, if_false]
  split <;> rfl

end File

namespace DiskManager

variable {d : DiskManager}

-- What the constructor finds on page 0 after a flush.
section header

variable (hf : d.file.failing = false)

include hf

def header (d : DiskManager) : List UInt8 :=
  Bytes.le 8 d.magic ++ Bytes.le 8 d.version ++ Bytes.le 8 d.capacity.toNat ++ Bytes.le 8 d.freeList.length

theorem flushAll_bytes : d.flushAll.file.bytes =
    (d.file.bytes.copy 0 d.header).copy headerSize (d.freeList.flatMap fun pageId => Bytes.le 4 pageId.toNat) := by
  have hg : ((d.file.pwrite d.header 0).getD d.file).failing = false := by
    rw [File.pwrite_getD_failing, hf]
  exact (File.pwrite_getD hg).trans <| congrArg (copy · _ _) (File.pwrite_getD hf)

theorem header_read (pre post : List UInt8) (n : ℕ) (hn : n < 256 ^ 8) (he : d.header = pre ++ Bytes.le 8 n ++ post)
    (hl : pre.length + 8 ≤ headerSize) : d.flushAll.file.bytes.read pre.length 8 = n := by
  rw [flushAll_bytes hf, read_copy_disjoint (.inl hl), he]
  have hs := slice_copy_middle d.file.bytes 0 pre (Bytes.le 8 n) post
  rw [Nat.zero_add, Bytes.le_length] at hs
  exact (congrArg Bytes.readLE hs).trans <| Bytes.readLE_le hn

theorem list_read (i : ℕ) (hi : i < d.freeList.length) :
    d.flushAll.file.bytes.read (headerSize + 4 * i) 4 = d.freeList[i].toNat := by
  let bytes (pageId : PageID) : List UInt8 := Bytes.le 4 pageId.toNat
  have hsplit : d.freeList.flatMap bytes = (d.freeList.take i).flatMap bytes ++ Bytes.le 4 d.freeList[i].toNat ++
      (d.freeList.drop (i + 1)).flatMap bytes := by
    conv_lhs => rw [←List.take_append_drop i d.freeList, List.drop_eq_getElem_cons hi]
    rw [List.flatMap_append, List.flatMap_cons, List.append_assoc]
  have hpre := freeListBytes_length (d.freeList.take i)
  rw [List.length_take, Nat.min_eq_left hi.le] at hpre
  have hs := slice_copy_middle (d.file.bytes.copy 0 d.header) headerSize ((d.freeList.take i).flatMap bytes)
    (Bytes.le 4 d.freeList[i].toNat) ((d.freeList.drop (i + 1)).flatMap bytes)
  rw [Bytes.le_length, hpre, ←hsplit, ←flushAll_bytes hf] at hs
  exact (congrArg Bytes.readLE hs).trans <| Bytes.readLE_le d.freeList[i].toNat_lt

theorem writePage_file (hp : p < d.capacity) :
    ∃ file : File, d.writePage p data = .ok { d with file := file } ∧ file.failing = false ∧ kPageSize ≤ file.size := by
  have hn : data.toList ≠ [] := List.ne_nil_of_length_pos <| PageData.toList_length ▸ Nat.succ_pos _
  have hs : (d.written p data).file.size = max d.file.size (p.toNat * kPageSize + kPageSize) :=
    (File.pwrite_getD_size hf).trans <| (if_neg hn).trans <| by rw [PageData.toList_length]
  refine ⟨_, writePage_eq hf hp, File.pwrite_getD_failing.trans hf, ?_⟩
  exact ((Nat.le_add_left ..).trans (Nat.le_max_right ..)).trans hs.ge

theorem flushAll_size (hl : d.freeList.length ≤ 1025) :
    d.flushAll.file.size / kPageSize < 1 ↔ d.file.size < kPageSize := by
  let file := (d.file.pwrite d.header 0).getD d.file
  let list := d.freeList.flatMap fun pageId => Bytes.le 4 pageId.toNat
  have hs : d.flushAll.file.size = if list = [] then file.size else max file.size (headerSize + list.length) :=
    File.pwrite_getD_size (File.pwrite_getD_failing.trans hf)
  have hh : d.header.length = 32 := by simp [header]
  have hn : d.header ≠ [] := by simp [←List.length_pos_iff, hh]
  have hf : file.size = max d.file.size (0 + d.header.length) := (File.pwrite_getD_size hf).trans (if_neg hn)
  rw [Nat.div_lt_iff_lt_mul (by decide), hs, hf, hh, freeListBytes_length]
  simp only [kPageSize_eq, headerSize]
  split <;> omega

theorem le_flushAll_size (hl : d.freeList.length ≤ 1025) (hs : kPageSize ≤ d.file.size) :
    kPageSize ≤ d.flushAll.file.size := by
  by_contra h
  refine Nat.not_lt.mpr hs <| (flushAll_size hf hl).mp ?_
  exact (Nat.div_lt_iff_lt_mul (by decide)).mpr (by simpa using h)

end header

theorem read_stored {d : DiskManager} (hw : addr + width ≤ kPageSize) :
    (d.stored 0).bytes.read addr width = d.file.bytes.read addr width :=
  read_congr fun a _ ha => by simp [stored, PageData.ofMemory, ha.trans_le hw]

-- The constructor finds the header and the free list that a flush has left.
theorem initHeader_flushAll (hf : d.file.failing = false) (hl : d.freeList.length ≤ 1025)
    (hm : d.magic = kDBMagic) (hv : d.version = kDBFormatVersion) :
    initHeader ⟨d.flushAll.file, 1, [], kDBMagic, kDBFormatVersion⟩ = .ok d.flushAll := by
  let e : DiskManager := ⟨d.flushAll.file, 1, [], kDBMagic, kDBFormatVersion⟩
  have hr : e.readPage kDiskMetadataPageID = .ok (e.stored 0) :=
    readPage_eq (flushAll_failing.trans hf) (by decide : (0 : PageID) < 1)
  have hread {addr width : ℕ} (hw : addr + width ≤ 8192) :
      (e.stored 0).bytes.read addr width = d.flushAll.file.bytes.read addr width :=
    read_stored (kPageSize_eq ▸ hw)
  have hmagic    : (e.stored 0).bytes.read 0 8 = kDBMagic := by
    rw [hread (by decide), ←hm]
    exact header_read hf [] (Bytes.le 8 d.version ++ Bytes.le 8 d.capacity.toNat ++ Bytes.le 8 d.freeList.length)
      d.magic (hm ▸ by decide) (by simp [header]) (by decide)
  have hversion  : (e.stored 0).bytes.read 8 8 = kDBFormatVersion := by
    rw [hread (by decide), ←hv]
    exact header_read hf (Bytes.le 8 d.magic) (Bytes.le 8 d.capacity.toNat ++ Bytes.le 8 d.freeList.length)
      d.version (hv ▸ by decide) (by simp [header]) (by simp [headerSize])
  have hcapacity : (e.stored 0).bytes.read 16 8 = d.capacity.toNat := by
    rw [hread (by decide)]
    exact header_read hf (Bytes.le 8 d.magic ++ Bytes.le 8 d.version) (Bytes.le 8 d.freeList.length)
      d.capacity.toNat (d.capacity.toNat_lt.trans (by decide)) (by simp [header]) (by simp [headerSize])
  have hsize     : (e.stored 0).bytes.read 24 8 = d.freeList.length := by
    rw [hread (by decide)]
    exact header_read hf (Bytes.le 8 d.magic ++ Bytes.le 8 d.version ++ Bytes.le 8 d.capacity.toNat) []
      d.freeList.length (by omega) (by simp [header]) (by simp)
  have hlist     : ((List.range d.freeList.length).map fun i =>
      UInt32.ofNat ((e.stored 0).bytes.read (headerSize + 4 * i) 4)) = d.freeList := by
    refine List.ext_getElem (by simp) fun i _ hi => ?_
    rw [List.getElem_map, List.getElem_range, hread (by simp only [headerSize]; omega), list_read hf i hi,
      UInt32.ofNat_toNat]
  have hfit : ¬kPageSize < headerSize + d.freeList.length * 4 := by
    simp only [kPageSize_eq, headerSize]
    omega
  have he : e.initHeader = .ok { e with
      magic    := kDBMagic
      version  := kDBFormatVersion
      capacity := d.capacity
      freeList := d.freeList } := by
    simp only [initHeader, hr, bind, Except.bind, hsize, hfit, if_false, hmagic, hversion, hcapacity, hlist,
      UInt32.ofNat_toNat]
    rfl
  refine he.trans <| congrArg Except.ok ?_
  rw [←hm, ←hv]
  rfl

theorem openFile_flushAll (hf : d.file.failing = false) (hl : d.freeList.length ≤ 1025)
    (hs : kPageSize ≤ d.file.size) (hm : d.magic = kDBMagic) (hv : d.version = kDBFormatVersion) :
    openFile d.flushAll.file = .ok d.flushAll := by
  have hs : ¬d.flushAll.file.size / kPageSize < 1 := fun h => Nat.not_lt.mpr hs <| (flushAll_size hf hl).mp h
  have hm' : d.flushAll.magic = kDBMagic := hm
  have hv' : d.flushAll.version = kDBFormatVersion := hv
  simp only [openFile, hs, if_false, initHeader_flushAll hf hl hm hv, bind, Except.bind, hm', hv', ne_eq,
    not_true]
  rfl

theorem openFile_small (hf : d.file.failing = false) (hl : d.freeList.length ≤ 1025) (hs : d.file.size < kPageSize) :
    openFile d.flushAll.file = .ok (fresh d.flushAll.file) := by
  have hs := (flushAll_size hf hl).mpr hs
  rw [Nat.div_lt_iff_lt_mul (by decide), Nat.one_mul] at hs
  exact openFile_fresh hs

end DiskManager

namespace DiskSession

variable {s t : DiskSession} {e : Event} {p : PageID}

-- Reopening the database, and the ids it hands out.
structure Durable (allows : DiskSession → Event → Prop) : Prop where
  restores : ∀ {s}, Runs.Reachable Fresh (fun s e t => Step s e t ∧ allows s e) s → allows s .reopen →
    ∃ d, reopened s.disk = .ok d ∧ d.capacity = s.disk.capacity ∧ d.freeList = s.disk.freeList
  fresh    : ∀ {s t p}, Runs.Reachable Fresh (fun s e t => Step s e t ∧ allows s e) s → allows s (.allocate p) →
    Step s (.allocate p) t → p ≠ kDiskMetadataPageID ∧ p ∉ s.owned

-- The file has room for one id more, and it is closed with a page of its own on it unless there is
-- nothing to remember.
def Allows (s : DiskSession) : Event → Prop
  | .allocate _ => s.disk.freeList = [] → s.disk.capacity ≠ 0
  | .reopen     => kPageSize ≤ s.disk.file.size ∨ s.disk.capacity = 1 ∧ s.disk.freeList = []
  | _           => True

-- A capacity of 0 stands for 2 ^ 32.
structure Invariant (s : DiskSession) : Prop where
  online  : s.disk.file.failing = false
  magic   : s.disk.magic = kDBMagic
  version : s.disk.version = kDBFormatVersion
  free_le : s.disk.freeList.length ≤ 1025
  nodup   : (s.owned ++ s.disk.freeList).Nodup
  ne      : ∀ {p}, p ∈ s.owned ++ s.disk.freeList → p ≠ kDiskMetadataPageID
  lt      : ∀ {p}, p ∈ s.owned ++ s.disk.freeList → s.disk.capacity ≠ 0 → p < s.disk.capacity

theorem Fresh.invariant (h : Fresh s) : s.Invariant := by
  have ⟨hd, ho⟩ := h
  rw [DiskManager.openFile_fresh (by decide)] at hd
  obtain ⟨d, owned⟩ := s
  obtain rfl : owned = [] := ho
  obtain rfl : DiskManager.fresh .empty = d := Except.ok.inj hd
  exact ⟨DiskManager.fresh_failing, rfl, rfl, Nat.zero_le _, .nil, nofun, nofun⟩

namespace Invariant

theorem allocate (hi : s.Invariant) (hc : s.disk.freeList = [] → s.disk.capacity ≠ 0) :
    s.disk.allocatePage.1 ≠ kDiskMetadataPageID ∧ s.disk.allocatePage.1 ∉ s.owned ∧
      Invariant ⟨s.disk.allocatePage.2, s.disk.allocatePage.1 :: s.owned⟩ := by
  simp only [DiskManager.allocatePage]
  split
  case h_1 p h =>
    obtain ⟨list, h⟩ := List.getLast?_eq_some_iff.mp h
    simp only [h, List.dropLast_concat]
    have hperm : (s.owned ++ s.disk.freeList).Perm (p :: (s.owned ++ list)) := by
      rw [h, ←List.append_assoc]
      exact List.perm_append_singleton ..
    have hn := hperm.nodup_iff.mp hi.nodup
    refine ⟨hi.ne (hperm.mem_iff.mpr List.mem_cons_self), fun hp => ?_, ?_⟩
    · exact (List.nodup_cons.mp hn).1 <| List.mem_append_left _ hp
    · have hl := hi.free_le
      simp only [h, List.length_append] at hl
      exact ⟨hi.online, hi.magic, hi.version, (Nat.le_add_right ..).trans hl, hn,
        (hi.ne <| hperm.mem_iff.mpr ·), (hi.lt <| hperm.mem_iff.mpr ·)⟩
  case h_2 h =>
    have hl := List.getLast?_eq_none_iff.mp h
    have hz := hc hl
    have hn : s.disk.capacity ∉ s.owned ++ s.disk.freeList := fun hm => UInt32.lt_irrefl _ <| hi.lt hm hz
    refine ⟨hz, fun hp => hn <| List.mem_append_left _ hp, hi.online, hi.magic, hi.version, hi.free_le,
      List.nodup_cons.mpr ⟨hn, hi.nodup⟩, fun hm => ?_, fun hm hw => ?_⟩
    · obtain rfl | hm := List.mem_cons.mp hm
      · exact hz
      · exact hi.ne hm
    · have hs : (s.disk.capacity + 1).toNat = s.disk.capacity.toNat + 1 := by
        have hw : (s.disk.capacity + 1).toNat ≠ 0 := fun h => hw <| UInt32.toNat_inj.mp h
        have := s.disk.capacity.toNat_lt
        rw [UInt32.toNat_add, UInt32.toNat_one] at hw ⊢
        omega
      rw [UInt32.lt_iff_toNat_lt, hs]
      obtain rfl | hm := List.mem_cons.mp hm
      · exact Nat.lt_succ_self _
      · exact Nat.lt_succ_of_lt <| UInt32.lt_iff_toNat_lt.mp <| hi.lt hm hz

theorem deallocate (hi : s.Invariant) (hp : p ∈ s.owned) (h : s.disk.deallocatePage p = .ok d) :
    Invariant ⟨d, s.owned.filter (· ≠ p)⟩ := by
  have hne := hi.ne <| List.mem_append_left _ hp
  have ⟨hno, hnf, hd⟩ := List.nodup_append.mp hi.nodup
  have hsub {q} (hq : q ∈ s.owned.filter (· ≠ p) ++ s.disk.freeList) : q ∈ s.owned ++ s.disk.freeList :=
    (List.mem_append.mp hq).elim (fun hq => List.mem_append_left _ (List.mem_filter.mp hq).1)
      (List.mem_append_right _ ·)
  have hn := List.nodup_append.mpr
    ⟨hno.filter (· ≠ p), hnf, fun q hq => hd q (List.mem_filter.mp hq).1⟩
  simp only [DiskManager.deallocatePage, hne, if_false] at h
  split at h <;> obtain rfl := Except.ok.inj h
  case isTrue     => exact ⟨hi.online, hi.magic, hi.version, hi.free_le, hn, (hi.ne <| hsub ·), (hi.lt <| hsub ·)⟩
  case isFalse hl =>
    have hperm : (s.owned.filter (· ≠ p) ++ (s.disk.freeList ++ [p])).Perm
        (p :: (s.owned.filter (· ≠ p) ++ s.disk.freeList)) := by
      rw [←List.append_assoc]
      exact List.perm_append_singleton ..
    have hpn : p ∉ s.owned.filter (· ≠ p) ++ s.disk.freeList := by
      intro hm
      obtain hm | hm := List.mem_append.mp hm
      · exact of_decide_eq_true (List.mem_filter.mp hm).2 rfl
      · exact hd p hp p hm rfl
    have hall {q} (hq : q ∈ s.owned.filter (· ≠ p) ++ (s.disk.freeList ++ [p])) :
        q ∈ s.owned ++ s.disk.freeList := by
      obtain rfl | hq := List.mem_cons.mp <| hperm.mem_iff.mp hq
      · exact List.mem_append_left _ hp
      · exact hsub hq
    refine ⟨hi.online, hi.magic, hi.version, ?_, ?_, (hi.ne <| hall ·), (hi.lt <| hall ·)⟩
    · simp only [List.length_append, List.length_singleton]
      omega
    · exact hperm.nodup_iff.mpr <| List.nodup_cons.mpr ⟨hpn, hn⟩

theorem setDisk (hi : s.Invariant) (hc : d.capacity = s.disk.capacity) (hl : d.freeList = s.disk.freeList)
    (hf : d.file.failing = false) (hm : d.magic = kDBMagic) (hv : d.version = kDBFormatVersion) :
    Invariant { s with disk := d } where
  online  := hf
  magic   := hm
  version := hv
  free_le := by simpa only [hl] using hi.free_le
  nodup   := by simpa only [hl] using hi.nodup
  ne hp   := hi.ne (by simpa only [hl] using hp)
  lt hp   := by simpa only [hc] using hi.lt (by simpa only [hl] using hp)

theorem write (hi : s.Invariant) (h : s.disk.writePage p data = .ok d) : Invariant { s with disk := d } := by
  have ⟨_, hd⟩ := DiskManager.writePage_ok h
  subst hd
  exact hi.setDisk rfl rfl (DiskManager.written_failing.trans hi.online) hi.magic hi.version

theorem flush (hi : s.Invariant) : Invariant { s with disk := s.disk.flushAll } :=
  hi.setDisk rfl rfl (DiskManager.flushAll_failing.trans hi.online) hi.magic hi.version

-- Reopening gives back the disk manager but for the file, which a small file makes anew.
theorem restores (hi : s.Invariant) (ha : s.Allows .reopen) :
    ∃ d, reopened s.disk = .ok d ∧ d.capacity = s.disk.capacity ∧ d.freeList = s.disk.freeList ∧
      Invariant { s with disk := d } := by
  by_cases hs : kPageSize ≤ s.disk.file.size
  case pos =>
    exact ⟨_, DiskManager.openFile_flushAll hi.online hi.free_le hs hi.magic hi.version, rfl, rfl, hi.flush⟩
  case neg =>
    have ⟨hc, hl⟩ := ha.resolve_left hs
    refine ⟨_, DiskManager.openFile_small hi.online hi.free_le (Nat.not_le.mp hs), hc.symm, hl.symm, ?_⟩
    exact hi.setDisk hc.symm hl.symm (DiskManager.fresh_failing.trans hi.flush.online) rfl rfl

theorem step (hi : s.Invariant) (e : Step s a t) (ha : s.Allows a) : t.Invariant := by
  cases e
  case allocate           => exact (hi.allocate ha).2.2
  case deallocate hp _ hd => exact hi.deallocate hp hd
  case write h            => exact hi.write h
  case flush              => exact hi.flush
  case reopen h           =>
    have ⟨d, hd, _, _, hi⟩ := hi.restores ha
    exact Except.ok.inj (h.symm.trans hd) ▸ hi

end Invariant

theorem durable (h : Runs.Reachable Fresh (fun s e t => Step s e t ∧ Allows s e) s) :
    (Allows s .reopen →
      ∃ d, reopened s.disk = .ok d ∧ d.capacity = s.disk.capacity ∧ d.freeList = s.disk.freeList) ∧
    ∀ p t, Allows s (.allocate p) → Step s (.allocate p) t → p ≠ kDiskMetadataPageID ∧ p ∉ s.owned := by
  have hi : s.Invariant := h.invariant Fresh.invariant fun e hi => hi.step e.1 e.2
  constructor
  case left =>
    intro ha
    obtain ⟨d, hd, hc, hl, _⟩ := hi.restores ha
    exact ⟨d, hd, hc, hl⟩
  case right =>
    intro p t ha e
    cases e
    case allocate =>
      obtain ⟨hz, hn, _⟩ := hi.allocate ha
      exact ⟨hz, hn⟩

-- Two pages are allocated, the first is written and the second given back. The file is then opened again.
theorem durable_restarted : ∃ s : DiskSession, s.owned = [1] ∧ s.disk.capacity = 3 ∧ s.disk.freeList = [2] ∧
    (∃ d, reopened s.disk = .ok d ∧ d.capacity = s.disk.capacity ∧ d.freeList = s.disk.freeList) ∧
    ∀ p t, s.Allows (.allocate p) → Step s (.allocate p) t → p ≠ kDiskMetadataPageID ∧ p ∉ s.owned := by
  let d := (DiskManager.fresh .empty).allocatePage.2
  have hf : d.file.failing = false := DiskManager.fresh_failing
  obtain ⟨file, hw, hon, hsize⟩ : ∃ file : File, d.writePage 1 .zero = .ok { d with file := file } ∧
      file.failing = false ∧ kPageSize ≤ file.size :=
    DiskManager.writePage_file hf (by decide)
  let dealt : DiskManager := ⟨file, 3, [2], kDBMagic, kDBFormatVersion⟩
  have ho : reopened dealt = .ok dealt.flushAll :=
    DiskManager.openFile_flushAll hon (Nat.le_add_left ..) hsize rfl rfl
  have hs : Fresh ⟨.fresh .empty, []⟩ := ⟨DiskManager.openFile_fresh (by decide), rfl⟩
  have r : Runs.Reachable Fresh (fun s e t => Step s e t ∧ Allows s e) _ := .start hs
  have r := r.next ⟨.allocate, fun _ => by decide⟩
  have r := r.next ⟨.write hw, trivial⟩
  have r := r.next ⟨.allocate, fun _ => show (2 : PageID) ≠ 0 by decide⟩
  have r := r.next ⟨.deallocate (p := 2) (d := dealt) (List.mem_cons_self ..) (by decide) rfl, trivial⟩
  have r := r.next ⟨.reopen ho, .inl hsize⟩
  have ⟨hr, ha⟩ := durable r
  have hle : kPageSize ≤ dealt.flushAll.file.size := DiskManager.le_flushAll_size hon (show 1 ≤ 1025 by decide) hsize
  exact ⟨_, rfl, rfl, rfl, hr (.inl hle), ha⟩

-- A page is allocated and never written: the file is still too small to be recognised.
theorem not_durable : ¬Durable fun _ _ => True := by
  intro h
  let s : DiskSession := ⟨DiskManager.fresh .empty, []⟩
  have hs : Fresh s := ⟨DiskManager.openFile_fresh (by decide), rfl⟩
  have hr : Runs.Reachable Fresh (fun s e t => Step s e t ∧ True) _ := .next (.start hs) ⟨.allocate, trivial⟩
  have ⟨d, hd, hc, _⟩ := h.restores hr trivial
  have hf : (DiskManager.fresh .empty).file.failing = false := DiskManager.fresh_failing
  have hsmall : (DiskManager.fresh .empty).file.size < kPageSize := by
    decide
  have ho : reopened s.disk.allocatePage.2 = _ :=
    DiskManager.openFile_small (d := s.disk.allocatePage.2) hf (Nat.zero_le _) hsmall
  obtain rfl := Except.ok.inj <| hd.symm.trans ho
  exact absurd hc (by decide)

end DiskSession
end Duck
