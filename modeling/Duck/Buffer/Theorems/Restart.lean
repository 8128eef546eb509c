import Duck.Buffer.Restart
import Duck.Buffer.Theorems.Pager
import Duck.Buffer.Theorems.PoolManager.Failure
import Duck.Lib.Safety
import Duck.Storage.Theorems.DiskSession

namespace Duck

-- The operating system refuses no call, and the header is that of a database.
structure DiskManager.Online (d : DiskManager) : Prop where
  answers : d.file.failing = false
  magic   : d.magic = kDBMagic
  version : d.version = kDBFormatVersion

namespace DiskManager.Online

variable {d : DiskManager} {p : PageID} {data : PageData}

theorem setFile {f : File} (hd : d.Online) (hf : f.failing = false) : { d with file := f }.Online :=
  ⟨hf, hd.magic, hd.version⟩

theorem written (hd : d.Online) : (d.written p data).Online :=
  hd.setFile <| written_failing.trans hd.answers

theorem flushAll (hd : d.Online) : d.flushAll.Online :=
  hd.setFile <| flushAll_failing.trans hd.answers

theorem allocatePage (hd : d.Online) : d.allocatePage.2.Online := by
  simp only [DiskManager.allocatePage]
  split
  · exact ⟨hd.answers, hd.magic, hd.version⟩
  · exact ⟨hd.answers, hd.magic, hd.version⟩

theorem deallocatePage (hd : d.Online) (h : d.deallocatePage p = .ok d') : d'.Online := by
  simp only [DiskManager.deallocatePage] at h
  split_ifs at h <;> cases h
  · exact hd
  · exact ⟨hd.answers, hd.magic, hd.version⟩

theorem fresh (hf : f.failing = false) : (DiskManager.fresh f).Online :=
  ⟨fresh_failing.trans hf, rfl, rfl⟩

end DiskManager.Online

namespace PoolManager

variable {m : PoolManager} {p : PageID} {f : FrameID}

theorem writeBack_online (hm : m.disk.Online) : (m.writeBack f).Online := by
  simp only [writeBack]
  split
  · exact hm.written
  · exact hm

-- A page may be written back.
theorem swapFrame_written : (m.swapFrame p).2.disk = m.disk ∨ ∃ q d, (m.swapFrame p).2.disk = m.disk.written q d := by
  rcases hn : m.findNextFrame with ⟨f, m'⟩
  have hm := findNextFrame_disk hn
  by_cases hv : f = invalidFrameID
  case pos =>
    rw [hv] at hn
    rw [swapFrame_invalid hn]
    exact .inl hm
  case neg =>
    rw [swapFrame_eq hn hv]
    split
    case h_1      => exact .inl <| unmapped_disk.trans hm
    case h_2 d hd =>
      split_ifs at hd
      · exact .inr ⟨_, _, hm ▸ (DiskManager.writePage_ok hd).2⟩
      · exact .inl <| (Except.ok.inj hd).symm.trans hm

theorem fetchPage_written : (m.fetchPage p).2.disk = m.disk ∨ ∃ q d, (m.fetchPage p).2.disk = m.disk.written q d := by
  have hswap : (m.swapPage p true).2.disk = (m.swapFrame p).2.disk := by
    simp only [swapPage]
    split
    · next h =>
      rw [h, if_pos trivial, readFrame]
      split <;> rfl
    · rfl
  simp only [fetchPage, findCachedPage]
  cases m.pageTable p
  case none   => exact hswap ▸ swapFrame_written
  case some f => exact .inl rfl

theorem deletePage_online (hm : m.disk.Online) : (m.deletePage p).2.disk.Online := by
  have hd {m : PoolManager} (hm : m.disk.Online) : (m.deallocate p).2.disk.Online := by
    simp only [deallocate]
    split
    case h_1      => exact hm
    case h_2 d hd => exact hm.deallocatePage hd
  simp only [deletePage]
  split
  case h_2   => exact hd hm
  case h_1 f =>
    split
    case isTrue  => exact hm
    case isFalse => exact hd hm

theorem flushFrames_online (hm : m.disk.Online) : (m.flushFrames fs).2.disk.Online := by
  induction fs generalizing m
  case nil          => exact hm
  case cons f fs hi =>
    simp only [flushFrames]
    split
    case isFalse => exact hi hm
    case isTrue  =>
      split
      case h_1      => exact hm
      case h_2 d hd =>
        obtain ⟨-, rfl⟩ := DiskManager.writePage_ok hd
        exact hi hm.written

-- What a flush leaves of a page in the file is a version of the page.
theorem Flushed.version (h : m.Flushed (List.range m.poolSize) d) (hw : m.WellFormed) : m.Version p (d.stored p) := by
  by_cases hc : ∃ f, m.pageTable p = some f ∧ (m.frames f).isDirty
  case pos =>
    obtain ⟨f, ht, hd⟩ := hc
    rw [h.saved (List.mem_range.mpr <| hw.table_lt ht) ht hd]
    exact .cached ht
  case neg =>
    have hc f (ht : m.pageTable p = some f) : (m.frames f).isDirty = false := by
      by_contra hd
      exact hc ⟨f, ht, Bool.eq_true_of_not_eq_false hd⟩
    rw [h.kept fun f _ => hc f]
    exact .stored hc

theorem Accounts.reopened (ha : m.Accounts owned pins) (hd : d.WellFormed) (hu : ∀ {p}, m.disk.InUse p → d.InUse p) :
    (PoolManager.create d n).Accounts owned [] where
  pool    := create_wellFormed
  disk    := hd
  inUse h := hu <| ha.inUse h
  cached  := nofun
  held    := nofun
  count   := nofun

theorem reopened_poolCapacity {n : ℕ} (h : m.reopened n = .ok m') : m'.poolCapacity = n := by
  rw [PoolManager.reopened] at h
  split at h
  case h_1 => cases h
  case h_2 =>
    obtain ⟨d, -, rfl⟩ := Except.map_eq_ok.mp h
    rfl

theorem version_create (hv : (PoolManager.create d n).Version p data) : data = d.stored p := by
  cases hv
  case cached h => cases h
  case stored   => rfl

end PoolManager

theorem DiskManager.stored_small {d : DiskManager} (hs : d.file.size < kPageSize) (hp : p ≠ kDiskMetadataPageID) :
    d.stored p = .zero := by
  refine PageData.ofMemory_eq fun a ha => d.file.past _ ?_
  have hp : p.toNat ≠ kDiskMetadataPageID.toNat := mt UInt32.toNat_inj.mp hp
  have hp : kPageSize ≤ p.toNat * kPageSize := Nat.le_mul_of_pos_left _ (Nat.pos_of_ne_zero hp)
  omega

namespace Pager

open PoolManager

variable {s : Pager} {owned : List PageID} {pins : List Pin} {p : PageID} {S : PageID → PageData → Prop}

-- The operating system refuses no call.
def Online (s : Pager) : Prop :=
  s.pool.disk.Online

-- The disk manager has handed out and taken back no id.
structure Steady (s t : Pager) : Prop where
  online   : s.Online → t.Online
  capacity : t.pool.disk.capacity = s.pool.disk.capacity
  freeList : t.pool.disk.freeList = s.pool.disk.freeList

namespace Steady

variable {t u : Pager}

theorem of_disk (h : t.pool.disk = s.pool.disk) : s.Steady t :=
  ⟨fun ho => by rwa [Online, h], congrArg _ h, congrArg _ h⟩

theorem of_written (h : t.pool.disk = s.pool.disk.written p d) : s.Steady t :=
  ⟨fun ho => show t.pool.disk.Online from h ▸ ho.written, h ▸ rfl, h ▸ rfl⟩

theorem trans (h : s.Steady t) (h' : t.Steady u) : s.Steady u :=
  ⟨fun ho => h'.online (h.online ho), h'.capacity.trans h.capacity, h'.freeList.trans h.freeList⟩

theorem fetchPage (p : PageID) : (Pager.fetchPage p).Leaves s fun _ t => s.Steady t := by
  intro result t h
  have hd : t.pool = (s.pool.fetchPage p).2 := by
    simp only [Pager.fetchPage, Program.call, Option.some.injEq] at h
    split at h <;> cases h <;> simp_all
  obtain hx | ⟨q, d, hx⟩ := fetchPage_written (m := s.pool) (p := p)
  · exact .of_disk (hd ▸ hx)
  · exact .of_written (hd ▸ hx)

end Steady

namespace Keeps

theorem flushAll (hk : s.Keeps owned pins S) (ho : s.Online) :
    ∃ d, s.pool.flushAll = (.ok (), { s.pool with disk := d }) ∧ s.pool.Flushed (List.range s.pool.poolSize) d ∧ d.Online ∧
      Keeps { s with pool := { s.pool with disk := d } } owned pins S := by
  obtain ⟨d, hd, hf⟩ := hk.accounts.pool.flushAll ho.answers
  have hon : (s.pool.flushAll).2.disk.Online := flushFrames_online ho
  rw [hd] at hon
  refine ⟨d, hd, hf, hon, hk.accounts.flushed hf, hk.granted, fun hp hv => hk.versions hp ?_⟩
  cases hv
  case cached ht => exact .cached ht
  case stored    => exact hf.version hk.accounts.pool

theorem flushDisk (hk : s.Keeps owned pins S) :
    Keeps { s with pool := { s.pool with disk := s.pool.disk.flushAll } } owned pins S := by
  have ha := hk.accounts
  refine ⟨ha.flushDisk, hk.granted, fun hp hv => hk.versions hp <| version_setDisk ?_ hv⟩
  exact DiskManager.stored_flushAll ha.disk.free_le (ha.inUse hp).ne

-- A page with something on it makes the file a database's, whose pages are found again.
theorem reopened (hk : s.Keeps owned pins S) (ho : s.Online) (hp : p ∈ owned) (hz : ¬S p .zero) (n : ℕ) :
    ∃ m, s.pool.reopened n = .ok m ∧ m.disk.Online ∧ Keeps ⟨m, false⟩ owned [] S := by
  obtain ⟨d, hd, hf, hon, ht⟩ := hk.flushAll ho
  have ha := ht.accounts
  have hne {q} (hq : q ∈ owned) : q ≠ kDiskMetadataPageID := (ha.inUse hq).ne
  have hs : kPageSize ≤ d.file.size := by
    by_contra hs
    refine hz <| DiskManager.stored_small (Nat.not_le.mp hs) (hne hp) ▸ hk.versions hp (hf.version hk.accounts.pool)
  have hopen := DiskManager.openFile_flushAll hon.answers ha.disk.free_le hs hon.magic hon.version
  refine ⟨.create d.flushAll n, ?_, hon.flushAll, ha.reopened ha.disk.flushAll fun h => ⟨h.lt, h.ne, h.not_free⟩, rfl, ?_⟩
  · rw [PoolManager.reopened, hd]
    simp only [DiskSession.reopened, hopen, Except.map]
  · intro q data hq hv
    rw [version_create hv, DiskManager.stored_flushAll ha.disk.free_le (hne hq)]
    exact hk.versions hq (hf.version hk.accounts.pool)

-- Without a page on it the file may be taken for a new one.
theorem reopened_blank (hk : s.Keeps owned pins S) (ho : s.Online) (n : ℕ) :
    ∃ m, s.pool.reopened n = .ok m ∧ m.disk.Online ∧ Keeps ⟨m, false⟩ [] [] S := by
  obtain ⟨d, hd, -, hon, ht⟩ := hk.flushAll ho
  have hl := ht.accounts.disk.free_le
  have hr {e} (hx : DiskManager.openFile d.flushAll.file = .ok e) : s.pool.reopened n = .ok (.create e n) := by
    rw [PoolManager.reopened, hd]
    simp only [DiskSession.reopened, hx, Except.map]
  by_cases hs : kPageSize ≤ d.file.size
  case pos =>
    refine ⟨_, hr <| DiskManager.openFile_flushAll hon.answers hl hs hon.magic hon.version, hon.flushAll,
      .create ht.accounts.disk.flushAll, rfl, fun hp => (by cases hp)⟩
  case neg =>
    refine ⟨_, hr <| DiskManager.openFile_small hon.answers hl (Nat.not_le.mp hs), .fresh hon.flushAll.answers,
      .create DiskManager.fresh_wellFormed, rfl, fun hp => (by cases hp)⟩

end Keeps
end Pager
end Duck
