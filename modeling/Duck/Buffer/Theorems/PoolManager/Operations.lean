import Duck.Buffer.Theorems.PoolManager.Swap

namespace Duck.PoolManager

variable {m m' : PoolManager} {p q : PageID} {f g : FrameID} {page : Page}

-- The contents of a page: those of its frame, or else those in the file.
def bytesOf (m : PoolManager) (pageId : PageID) : PageData :=
  match m.pageTable pageId with
  | some frameId => (m.frames frameId).data
  | none         => m.disk.stored pageId

theorem bytesOf_cached (h : m.pageTable p = some f) : m.bytesOf p = (m.frames f).data := by
  simp only [bytesOf, h]

theorem bytesOf_stored (h : m.pageTable p = none) : m.bytesOf p = m.disk.stored p := by
  simp only [bytesOf, h]

theorem bytesOf_setDisk (h : m.pageTable p = none → d.stored p = m.disk.stored p) :
    { m with disk := d }.bytesOf p = m.bytesOf p := by
  cases ht : m.pageTable p
  case none   => rw [bytesOf_stored ht, ←h ht, bytesOf_stored (m := { m with disk := d }) ht]
  case some f => rw [bytesOf_cached ht, bytesOf_cached (m := { m with disk := d }) ht]

theorem bytesOf_setFrame_self (h : m.pageTable p = some f) : (m.setFrame f page).bytesOf p = page.data := by
  rw [bytesOf_cached (m := m.setFrame f page) h, setFrame_frames_same]

theorem WellFormed.bytesOf_setFrame_ne (hw : m.WellFormed) (h : m.pageTable p = some f) (hq : q ≠ p) :
    (m.setFrame f page).bytesOf q = m.bytesOf q := by
  cases ht : m.pageTable q
  case none   => rw [bytesOf_stored ht, bytesOf_stored (m := m.setFrame f page) ht]; rfl
  case some g =>
    have hg : g ≠ f := fun he => hq <| hw.table_inj (he ▸ ht) h
    rw [bytesOf_cached ht, bytesOf_cached (m := m.setFrame f page) ht, setFrame_frames_ne hg]

section swap

theorem Swapped.table_self (h : m.Swapped p f m') : m'.pageTable p = some f := by
  rw [h.pageTable, Function.update_self]

theorem Swapped.frame_self (h : m.Swapped p f m') : m'.frames f = ⟨p, .zero, 1, false⟩ := by
  rw [h.frames, Function.update_self]

theorem Swapped.table_iff (h : m.Swapped p f m') (hw : m.WellFormed) (hq : q ≠ p) :
    m'.pageTable q = some g ↔ m.pageTable q = some g ∧ g ≠ f := by
  rw [h.pageTable]
  exact swapped_pageTable_some (d := m.disk) (r := m.replacer) hw hq

theorem Swapped.frame_ne (h : m.Swapped p f m') (hg : g ≠ f) : m'.frames g = m.frames g := by
  rw [h.frames, Function.update_of_ne hg]

theorem Swapped.keeps (h : m.Swapped p f m') (hg : (m.frames g).pinCount ≠ 0) :
    (m'.frames g).pageId = (m.frames g).pageId := by
  rw [h.frame_ne]
  rintro rfl
  exact hg h.unpinned

theorem setFrame_pageId (h : page.pageId = (m.frames f).pageId) :
    ((m.setFrame f page).frames g).pageId = (m.frames g).pageId := by
  by_cases he : g = f
  case pos => rw [he, setFrame_frames_same, h]
  case neg => rw [setFrame_frames_ne he]

theorem Swapped.stored_eq (h : m.Swapped p f m') (hq : q ≠ (m.frames f).pageId) :
    m'.disk.stored q = m.disk.stored q := by
  rw [h.disk, writeBack]
  split
  · exact DiskManager.stored_written_ne hq
  · rfl

theorem Swapped.inUse (h : m.Swapped p f m') (hq : m.disk.InUse q) : m'.disk.InUse q := by
  rw [h.disk]
  exact ⟨writeBack_capacity ▸ hq.lt, hq.ne, writeBack_freeList ▸ hq.not_free⟩

theorem Swapped.still_online (h : m.Swapped p f m') (hf : m.disk.file.failing = false) :
    m'.disk.file.failing = false :=
  h.disk ▸ writeBack_failing.trans hf

theorem Swapped.stored_victim (h : m.Swapped p f m') (hd : (m.frames f).isDirty) :
    m'.disk.stored (m.frames f).pageId = (m.frames f).data := by
  rw [h.disk, writeBack, if_pos hd]
  exact DiskManager.stored_written (h.online hd)

end swap

section fetch

-- The state after `find_cached_page` has found the page.
def pinned (m : PoolManager) (p : PageID) (f : FrameID) : PoolManager :=
  { m.setFrame f (m.frames f).incPinCount with replacer := m.replacer.record p }

theorem findCachedPage_hit (h : m.pageTable p = some f) : m.findCachedPage p = (some f, m.pinned p f) := by
  rw [findCachedPage, h]
  rfl

theorem findCachedPage_miss (h : m.pageTable p = none) : m.findCachedPage p = (none, m) := by
  rw [findCachedPage, h]

theorem findCachedPage_some (h : m.findCachedPage p = (some f, m')) :
    m.pageTable p = some f ∧ m' = m.pinned p f := by
  cases ht : m.pageTable p
  case none   => exact nomatch h.symm.trans (findCachedPage_miss ht)
  case some g =>
    obtain ⟨⟨rfl⟩, rfl⟩ := Prod.mk.inj <| h.symm.trans <| findCachedPage_hit ht
    exact ⟨rfl, rfl⟩

theorem findCachedPage_none (h : m.findCachedPage p = (none, m')) : m.pageTable p = none ∧ m' = m := by
  cases ht : m.pageTable p
  case none   => exact ⟨rfl, (Prod.mk.inj <| h.symm.trans <| findCachedPage_miss ht).2⟩
  case some g => exact nomatch h.symm.trans (findCachedPage_hit ht)

theorem WellFormed.pinned (hw : m.WellFormed) (h : m.pageTable p = some f) :
    (m.pinned p f).WellFormed :=
  (hw.setFrame h (hw.table_page h) : (m.setFrame f (m.frames f).incPinCount).WellFormed).record h

-- What a `fetch_page` that returns a frame has done.
inductive Fetched (m : PoolManager) (p : PageID) : FrameID → PoolManager → Prop
  | hit  : (m.pageTable p = some frameId) → Fetched m p frameId (m.pinned p frameId)
  | miss : (m.pageTable p = none) → (m.Swapped p frameId m₁) →
    Fetched m p frameId (m₁.setFrame frameId { m₁.frames frameId with data := m₁.disk.stored p })

theorem readFrame_eq (hf : m.disk.file.failing = false) (hp : p < m.disk.capacity) :
    m.readFrame f p = (.ok (some f), m.setFrame f { m.frames f with data := m.disk.stored p }) := by
  rw [readFrame, DiskManager.readPage_eq hf hp]

theorem WellFormed.fetchPage (hw : m.WellFormed) (hp : p < m.disk.capacity) :
    m.fetchPage p = (.ok none, m) ∨ (∃ f m', m.fetchPage p = (.ok (some f), m') ∧ m.Fetched p f m') ∨
      ∃ e m', m.fetchPage p = (.error e, m') ∧ m.disk.file.failing = true := by
  cases h : m.pageTable p
  case some f =>
    rw [PoolManager.fetchPage, findCachedPage_hit h]
    exact .inr <| .inl ⟨f, _, rfl, .hit h⟩
  case none =>
    simp only [PoolManager.fetchPage, findCachedPage_miss h, swapPage]
    obtain hs | ⟨f, m', hs, hx⟩ | ⟨e, m', hs, ho⟩ := hw.swapFrame hp h
    · simp only [hs, true_or]
    · simp only [hs, if_true]
      cases hf : m.disk.file.failing
      case false =>
        have hp : p < m'.disk.capacity := by rwa [hx.disk, writeBack_capacity]
        rw [readFrame_eq (hx.still_online hf) hp]
        exact .inr <| .inl ⟨f, _, rfl, .miss h hx⟩
      case true =>
        have ho : m'.disk.file.failing = true := hx.disk ▸ writeBack_failing.trans hf
        have ⟨e, he⟩ := DiskManager.readPage_error (p := p) (.inl ho)
        rw [readFrame, he]
        exact .inr <| .inr ⟨e, m', rfl, rfl⟩
    · simp only [hs]
      exact .inr <| .inr ⟨e, m', rfl, ho⟩

theorem WellFormed.fetched (hw : m.WellFormed) (h : m.Fetched p f m') : m'.WellFormed := by
  cases h
  case hit h     => exact hw.pinned h
  case miss h hs => exact hs.wellFormed.setFrame hs.table_self (by rw [hs.frame_self])

theorem Fetched.table_self (h : m.Fetched p f m') : m'.pageTable p = some f := by
  cases h
  case hit h     => exact h
  case miss h hs => exact hs.table_self

theorem WellFormed.newPage (hw : m.WellFormed) (hd : m.disk.WellFormed)
    (hc : m.disk.freeList = [] → m.disk.capacity < invalidPageID)
    (ht : m.pageTable m.disk.allocatePage.1 = none) :
    m.newPage = (.ok none, { m with disk := m.disk.allocatePage.2 }) ∨
      (∃ f m', m.newPage = (.ok (some f), m') ∧
        { m with disk := m.disk.allocatePage.2 }.Swapped m.disk.allocatePage.1 f m') ∨
      ∃ e m', m.newPage = (.error e, m') ∧ m.disk.file.failing = true := by
  have ha := hd.allocatePage hc
  have hw := hw.setDisk ha.le
  have hp := ha.inUse.mpr (.inr rfl)
  simp only [PoolManager.newPage, swapPage]
  obtain hs | ⟨f, m', hs, hx⟩ | ⟨e, m', hs, ho⟩ := hw.swapFrame hp.lt ht
  · simp only [hs, true_or]
  · simp only [hs, Bool.false_eq_true, if_false]
    exact .inr <| .inl ⟨f, m', rfl, hx⟩
  · simp only [hs]
    exact .inr <| .inr ⟨e, m', rfl, ha.file ▸ ho⟩

-- A page swapped in stands in the table, whatever the state of the pool was, and no other frame has
-- changed.
theorem swapFrame_some (h : m.swapFrame p = (.ok (some f), m')) :
    m'.pageTable p = some f ∧ m'.frames = Function.update m.frames f (Page.resetMemory p).incPinCount := by
  have hf : m.findNextFrame.2.frames = m.frames := by
    simp only [findNextFrame]
    grind
  simp only [swapFrame] at h
  split at h
  case isTrue  => cases h
  case isFalse =>
    split at h
    case h_1     => cases h
    case h_2     =>
      obtain ⟨⟨rfl⟩, rfl⟩ := Prod.mk.inj h
      refine ⟨Function.update_self .., ?_⟩
      simp only [setFrame, ←hf]
      split <;> rfl

theorem newPage_some (h : m.newPage = (.ok (some f), m')) :
    m'.pageTable m.disk.allocatePage.1 = some f ∧
      m'.frames = Function.update m.frames f (Page.resetMemory m.disk.allocatePage.1).incPinCount := by
  simp only [newPage, swapPage, Bool.false_eq_true, if_false] at h
  split at h
  case h_1 hs =>
    obtain ⟨⟨rfl⟩, rfl⟩ := Prod.mk.inj h
    have hs := swapFrame_some hs
    exact hs
  case h_2 hn => exact absurd h (hn f m')

end fetch

section unpin

theorem unpinPage_eq (h : m.pageTable p = some f) : m.unpinPage p dirty =
    m.setFrame f { m.frames f with
      pinCount := (m.frames f).pinCount - 1
      isDirty  := (m.frames f).isDirty || dirty } := by
  rw [unpinPage, h]
  cases dirty
  case true  => simp [Page.setDirty, Page.decPinCount]
  case false => simp [Page.decPinCount]

theorem WellFormed.unpinPage (hw : m.WellFormed) : (m.unpinPage p dirty).WellFormed := by
  cases h : m.pageTable p
  case none   => rwa [PoolManager.unpinPage, h]
  case some f =>
    rw [unpinPage_eq h]
    exact hw.setFrame h (hw.table_page h)

end unpin

section delete

-- The state after `delete_page` has given the frame of the page back.
def freed (m : PoolManager) (p : PageID) (f : FrameID) (disk : DiskManager) : PoolManager :=
  { m with
    disk       := disk
    frames     := Function.update m.frames f .empty
    pageTable  := Function.update m.pageTable p none
    freeFrames := m.freeFrames ++ [f]
    replacer   := m.replacer.remove p }

theorem WellFormed.freed (hw : m.WellFormed) (h : m.pageTable p = some f)
    (hc : m.disk.capacity.toNat ≤ d.capacity.toNat) : (m.freed p f d).WellFormed := by
  have hw := hw.setDisk hc
  have ht {q g} : (m.freed p f d).pageTable q = some g ↔ m.pageTable q = some g ∧ g ≠ f := by
    simp only [PoolManager.freed]
    by_cases hq : q = p
    case pos =>
      subst hq
      simp only [Function.update_self, reduceCtorEq, h, Option.some.injEq, false_iff, not_and, not_not]
      exact Eq.symm
    case neg =>
      rw [Function.update_of_ne hq]
      refine (and_iff_left_of_imp fun hg he => hq ?_).symm
      exact hw.table_inj (he ▸ hg) h
  have hf {g} (hg : g ≠ f) : (m.freed p f d).frames g = m.frames g := Function.update_of_ne hg ..
  have hm {g} : g ∈ (m.freed p f d).freeFrames ↔ g ∈ m.freeFrames ∨ g = f := by simp [PoolManager.freed]
  constructor
  case replacer => exact hw.replacer.remove
  case tracks =>
    intro q
    refine hw.replacer.tracks_remove.trans ?_
    rw [hw.tracks]
    constructor
    · rintro ⟨⟨g, hg⟩, hq⟩
      exact ⟨g, ht.mpr ⟨hg, fun he => hq <| hw.table_inj (he ▸ hg) h⟩⟩
    · rintro ⟨g, hg⟩
      have ⟨hg, he⟩ := ht.mp hg
      refine ⟨⟨g, hg⟩, fun hq => he ?_⟩
      exact Option.some.inj <| (hq ▸ hg).symm.trans h
  case table_lt    => exact fun hg => hw.table_lt (ht.mp hg).1
  case table_valid => exact fun hg => hw.table_valid (ht.mp hg).1
  case table_page =>
    intro q g hg
    have ⟨hg, he⟩ := ht.mp hg
    exact hf he ▸ hw.table_page hg
  case used =>
    intro g hl hn
    have ⟨hn, he⟩ := not_or.mp <| mt hm.mpr hn
    rw [hf he]
    exact ht.mpr ⟨hw.used hl hn, he⟩
  case free_lt =>
    intro g hg
    obtain hg | rfl := hm.mp hg
    · exact hw.free_lt hg
    · exact hw.table_lt h
  case free_nodup =>
    refine List.nodup_append.mpr ⟨hw.free_nodup, List.pairwise_singleton _ _, fun g hg g' hg' => ?_⟩
    rw [List.mem_singleton.mp hg']
    rintro rfl
    exact hw.table_not_free h hg
  case blank =>
    intro g hg
    by_cases he : g = f
    case pos =>
      subst he
      exact Function.update_self ..
    case neg =>
      rw [hf he]
      exact hw.blank <| hg.imp_left fun hg => (hm.mp hg).resolve_right he
  case size_le   => exact hw.size_le
  case size_disk => exact hw.size_disk

theorem WellFormed.freed_table (hw : m.WellFormed) (h : m.pageTable p = some f)
    (hg : (m.freed p f d).pageTable q = some g) : q ≠ p ∧ m.pageTable q = some g ∧ g ≠ f := by
  by_cases hq : q = p
  case pos =>
    simp only [PoolManager.freed, hq, Function.update_self] at hg
    cases hg
  case neg =>
    simp only [PoolManager.freed, Function.update_of_ne hq] at hg
    exact ⟨hq, hg, fun he => hq <| hw.table_inj (he ▸ hg) h⟩

theorem WellFormed.bytesOf_freed (hw : m.WellFormed) (h : m.pageTable p = some f) (hq : q ≠ p)
    (hd : d.stored q = m.disk.stored q) : (m.freed p f d).bytesOf q = m.bytesOf q := by
  have hf : (m.freed p f d).pageTable q = m.pageTable q := Function.update_of_ne hq ..
  cases ht : m.pageTable q
  case none   => rw [bytesOf_stored ht, bytesOf_stored (hf.trans ht)]; exact hd
  case some g =>
    have hg : g ≠ f := fun he => hq <| hw.table_inj (he ▸ ht) h
    rw [bytesOf_cached ht, bytesOf_cached (hf.trans ht)]
    simp only [PoolManager.freed, Function.update_of_ne hg]

-- What a `delete_page` that returns `true` has done.
inductive Deleted (m : PoolManager) (p : PageID) : PoolManager → Prop
  | cached   : (m.pageTable p = some frameId) → ((m.frames frameId).pinCount = 0) →
    (m.disk.Deallocates p d) → Deleted m p (m.freed p frameId d)
  | uncached : (m.pageTable p = none) → (m.disk.Deallocates p d) → Deleted m p { m with disk := d }

theorem deallocate_eq (h : m.disk.deallocatePage p = .ok d) :
    m.deallocate p = (.ok true, { m with disk := d }) := by
  rw [deallocate, h]

theorem WellFormed.deletePage (hd : m.disk.WellFormed) (hp : m.disk.InUse p) :
    (m.deletePage p = (.ok false, m) ∧ ∃ f, m.pageTable p = some f ∧ (m.frames f).pinCount ≠ 0) ∨
      ∃ m', m.deletePage p = (.ok true, m') ∧ m.Deleted p m' := by
  have ⟨d, hd, hx⟩ := hd.deallocatePage hp
  cases h : m.pageTable p
  case none =>
    simp only [PoolManager.deletePage, h]
    exact .inr ⟨_, deallocate_eq hd, .uncached h hx⟩
  case some f =>
    simp only [PoolManager.deletePage, h]
    split
    case isTrue hz =>
      refine .inl ⟨rfl, f, rfl, fun he => ?_⟩
      rw [he] at hz
      exact UInt32.lt_irrefl _ hz
    case isFalse hz =>
      have hz : (m.frames f).pinCount = 0 := by
        have hz := mt UInt32.lt_iff_toNat_lt.mpr hz
        exact UInt32.toNat_inj.mp <| Nat.eq_zero_of_not_pos hz
      exact .inr ⟨_, deallocate_eq hd, .cached h hz hx⟩

theorem Deleted.keeps (h : m.Deleted p m') (hg : (m.frames g).pinCount ≠ 0) :
    (m'.frames g).pageId = (m.frames g).pageId := by
  cases h
  case uncached    => rfl
  case cached hz _ =>
    refine congrArg Page.pageId <| Function.update_of_ne ?_ ..
    rintro rfl
    exact hg hz

theorem WellFormed.deleted (hw : m.WellFormed) (h : m.Deleted p m') : m'.WellFormed := by
  cases h
  case cached h _ hd  => exact hw.freed h (congrArg UInt32.toNat hd.capacity).ge
  case uncached h hd  => exact hw.setDisk (congrArg UInt32.toNat hd.capacity).ge

end delete

section flushAll

-- The disk once the given frames have been written out.
structure Flushed (m : PoolManager) (fs : List FrameID) (d : DiskManager) : Prop where
  capacity : d.capacity = m.disk.capacity
  freeList : d.freeList = m.disk.freeList
  failing  : d.file.failing = m.disk.file.failing
  kept     : ∀ {q}, (∀ f ∈ fs, m.pageTable q = some f → (m.frames f).isDirty = false) →
    d.stored q = m.disk.stored q
  saved    : ∀ {q f}, f ∈ fs → m.pageTable q = some f → (m.frames f).isDirty →
    d.stored q = (m.frames f).data

theorem WellFormed.flushFrames (hw : m.WellFormed) (hf : m.disk.file.failing = false) (fs : List FrameID) :
    ∃ d, m.flushFrames fs = (.ok (), { m with disk := d }) ∧ m.Flushed fs d := by
  induction fs generalizing m
  case nil => exact ⟨m.disk, rfl, rfl, rfl, rfl, fun _ => rfl, nofun⟩
  case cons f fs hi =>
    cases hd : (m.frames f).isDirty
    case false =>
      simp only [PoolManager.flushFrames, hd, Bool.false_eq_true, if_false]
      obtain ⟨d, he, hx⟩ := hi hw hf
      refine ⟨d, he, hx.capacity, hx.freeList, hx.failing, fun hn => ?_, fun hg ht hgd => ?_⟩
      · exact hx.kept fun g hg => hn g <| List.mem_cons_of_mem _ hg
      · refine hx.saved (List.mem_of_ne_of_mem ?_ hg) ht hgd
        rintro rfl
        rw [hd] at hgd
        cases hgd
    case true =>
      have hu : m.pageTable (m.frames f).pageId = some f := by
        refine hw.blank_or_used.resolve_left fun hb => ?_
        rw [hb] at hd
        cases hd
      simp only [PoolManager.flushFrames, hd, if_true, flushPage,
        DiskManager.writePage_eq hf (hw.table_valid hu)]
      obtain ⟨d, he, hx⟩ := @hi { m with disk := m.disk.written (m.frames f).pageId (m.frames f).data }
        (hw.setDisk le_rfl) (DiskManager.written_failing.trans hf)
      refine ⟨d, he, hx.capacity, hx.freeList, hx.failing.trans DiskManager.written_failing,
        fun {q} hn => ?_, fun {q g} hg ht hgd => ?_⟩
      · refine (hx.kept fun g hg => hn g <| List.mem_cons_of_mem _ hg).trans ?_
        refine DiskManager.stored_written_ne ?_
        rintro rfl
        have hn := hn f List.mem_cons_self hu
        rw [hd] at hn
        cases hn
      · by_cases hm : g ∈ fs
        case pos => exact hx.saved hm ht hgd
        case neg =>
          obtain rfl := (List.mem_cons.mp hg).resolve_right hm
          refine (hx.kept fun g' hg' ht' => ?_).trans ?_
          · rw [Option.some.inj <| ht.symm.trans ht'] at hm
            exact absurd hg' hm
          · rw [←hw.table_page ht]
            exact DiskManager.stored_written hf

theorem WellFormed.flushAll (hw : m.WellFormed) (hf : m.disk.file.failing = false) :
    ∃ d, m.flushAll = (.ok (), { m with disk := d }) ∧ m.Flushed (List.range m.poolSize) d :=
  hw.flushFrames hf _

end flushAll

end Duck.PoolManager
