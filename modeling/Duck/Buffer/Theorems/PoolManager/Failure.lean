import Duck.Buffer.Theorems.PoolManager.Operations

namespace Duck.PoolManager

-- The operating system refuses every call on the file from now on, or none.
def setFailing (m : PoolManager) (refuses : Bool) : PoolManager :=
  { m with disk := { m.disk with file := { m.disk.file with failing := refuses } } }

-- `fetch_page` when the operating system answers the read in its own way, whatever it has answered to
-- the write.
def fetchPageWith (m : PoolManager) (p : PageID) (refuses : Bool) : Except String (Option FrameID) × PoolManager :=
  match m.findCachedPage p with
  | (some frameId, m) => (.ok (some frameId), m)
  | (none,         m) =>
    match m.swapFrame p with
    | (.ok (some frameId), m) => (m.setFailing refuses).readFrame frameId p
    | result                  => result

-- `find_next_frame` finds a frame: a free one, one that was never used, or that of the page that goes. The number
-- of a frame that was never used must not be that of no frame.
inductive Available (m : PoolManager) : Prop
  | free   (free : m.freeFrames ≠ [])
  | grows  (free : m.freeFrames = []) (size : m.poolSize < m.poolCapacity) (valid : m.poolSize ≠ invalidFrameID)
  | victim (free : m.freeFrames = []) (size : m.poolCapacity ≤ m.poolSize)
    (page : m.replacer.findLru m.frames m.pageTable ≠ invalidPageID)

-- All numbers of frames are taken, which still adds one to the frames in use.
structure Exhausted (m : PoolManager) : Prop where
  free  : m.freeFrames = []
  size  : m.poolSize < m.poolCapacity
  valid : m.poolSize = invalidFrameID

-- The frame of the page that goes.
structure Victim (m : PoolManager) (f : FrameID) : Prop where
  free  : m.freeFrames = []
  size  : m.poolCapacity ≤ m.poolSize
  valid : m.replacer.findLru m.frames m.pageTable ≠ invalidPageID
  page  : m.pageTable (m.replacer.findLru m.frames m.pageTable) = some f

-- The pages in the table are in frames of their own, and the other frames are blank. This outlasts the calls that
-- fail, which take a frame out of use or map a page that the file does not have.
structure Consistent (m : PoolManager) : Prop where
  table_lt       : ∀ {p f}, m.pageTable p = some f → f < m.poolSize
  table_page     : ∀ {p f}, m.pageTable p = some f → (m.frames f).pageId = p
  table_not_free : ∀ {p f}, m.pageTable p = some f → f ∉ m.freeFrames
  free_lt        : ∀ {f}, f ∈ m.freeFrames → f < m.poolSize
  free_nodup     : m.freeFrames.Nodup
  blank          : ∀ {f}, f ∈ m.freeFrames ∨ m.poolSize ≤ f → m.frames f = .empty
  size_valid     : m.poolSize ≤ invalidFrameID

-- The pools of the runs in which the calls on the file may fail in any order.
inductive Reachable : PoolManager → Prop
  | create  : Reachable (create d n)
  | disk    : Reachable m → Reachable { m with disk := d }
  | data    : Reachable m → (m.pageTable p = some f) → Reachable (m.setFrame f { m.frames f with data := data })
  | fetch   : Reachable m → (¬m.Exhausted) → Reachable (m.fetchPageWith p refuses).2
  | new     : Reachable m → (¬m.Exhausted) → Reachable m.newPage.2
  | unpin   : Reachable m → Reachable (m.unpinPage p dirty)
  | delete  : Reachable m → Reachable (m.deletePage p).2

-- A frame that holds a page or that can come to hold one.
def Usable (m : PoolManager) (f : FrameID) : Prop :=
  f < m.poolCapacity ∧ (f ∈ m.freeFrames ∨ m.poolSize ≤ f ∨ ∃ p, m.pageTable p = some f)

structure Unchanged (m m' : PoolManager) : Prop where
  cached   : ∀ p, (m'.pageTable p).map m'.frames = (m.pageTable p).map m.frames
  usable   : ∀ f, m'.Usable f ↔ m.Usable f
  capacity : m'.disk.capacity = m.disk.capacity
  freeList : m'.disk.freeList = m.disk.freeList

-- A `new_page` that returns the null pointer has changed nothing.
def NewPageClean (m : PoolManager) : Prop :=
  ∀ m', m.newPage = (.ok none, m') → m.Unchanged m'

-- A `fetch_page` that gives no frame has changed nothing, and does not give one later to a page that the file
-- does not have.
def FetchClean (m : PoolManager) (p : PageID) (refuses : Bool) : Prop :=
  ∀ r m', m.fetchPageWith p refuses = (r, m') → (∀ f, r ≠ .ok (some f)) →
    m.Unchanged m' ∧ (m.disk.capacity ≤ p → ∀ again f, (m'.fetchPageWith p again).1 ≠ .ok (some f))

-- The pool has the page, has no frame to give, or has one whose page can be written back for a page that can be
-- read.
inductive FetchSafe (m : PoolManager) (p : PageID) (refuses : Bool) : Prop
  | cached (table : m.pageTable p ≠ none)
  | full   (frame : ¬m.Available) (number : ¬m.Exhausted)
  | frame  (frame : m.Available)
    (written : ∀ f, m.Victim f → (m.frames f).isDirty →
      m.disk.file.failing = false ∧ (m.frames f).pageId < m.disk.capacity)
    (answered : refuses = false) (allocated : p < m.disk.capacity)

variable {m m' m₁ : PoolManager} {p q : PageID} {f g : FrameID} {page : Page} {d : DiskManager} {refuses dirty : Bool}

section calls

theorem setFailing_self : m.setFailing m.disk.file.failing = m :=
  rfl

-- The pool once the page that the frame carries has been taken out of it.
def unmapped (m : PoolManager) (f : FrameID) : PoolManager :=
  if (m.frames f).pageId ≠ invalidPageID then
    { m with
      pageTable := Function.update m.pageTable (m.frames f).pageId none
      replacer  := m.replacer.remove (m.frames f).pageId }
  else
    m

@[simp]
theorem unmapped_disk : (m.unmapped f).disk = m.disk := by
  rw [unmapped]
  split <;> rfl

theorem swapFrame_eq (h : m.findNextFrame = (f, m')) (hv : f ≠ invalidFrameID) :
    m.swapFrame p =
      match if (m'.frames f).isDirty then m'.disk.writePage (m'.frames f).pageId (m'.frames f).data else .ok m'.disk with
      | .error e => (.error e, m'.unmapped f)
      | .ok disk =>
        (.ok (some f), { m'.unmapped f with
          disk      := disk
          pageTable := Function.update (m'.unmapped f).pageTable p (some f)
          replacer  := (m'.unmapped f).replacer.record p }.setFrame f (Page.resetMemory p).incPinCount) := by
  by_cases hp : (m'.frames f).pageId ≠ invalidPageID
  all_goals cases hw : if (m'.frames f).isDirty then m'.disk.writePage (m'.frames f).pageId (m'.frames f).data else .ok m'.disk
  all_goals simp only [swapFrame, h, if_neg hv, flushPage, unmapped, hp, ne_eq, not_false_eq_true, if_true, if_false, hw]

theorem swapFrame_invalid (h : m.findNextFrame = (invalidFrameID, m')) : m.swapFrame p = (.ok none, m') := by
  simp only [swapFrame, h, if_true]

theorem findNextFrame_disk (h : m.findNextFrame = (f, m')) : m'.disk = m.disk := by
  obtain rfl : m.findNextFrame.2 = m' := congrArg Prod.snd h
  simp only [findNextFrame]
  grind

theorem swapFrame_disk (h : m.swapFrame p = (.ok (some f), m')) :
    m'.disk.file.failing = m.disk.file.failing ∧ m'.disk.capacity = m.disk.capacity := by
  rcases hn : m.findNextFrame with ⟨g, m₁⟩
  by_cases hv : g = invalidFrameID
  case pos =>
    subst hv
    rw [swapFrame_invalid hn] at h
    cases h
  case neg =>
    rw [swapFrame_eq hn hv] at h
    split at h
    case h_1      => cases h
    case h_2 d hd =>
      obtain ⟨-, rfl⟩ := Prod.mk.inj h
      rw [←findNextFrame_disk hn]
      change d.file.failing = _ ∧ d.capacity = _
      split at hd
      · rw [(DiskManager.writePage_ok hd).2]
        exact ⟨DiskManager.written_failing, rfl⟩
      · cases hd
        exact ⟨rfl, rfl⟩

-- The operating system that always answers in the same way is that of the pool.
theorem fetchPage_eq : m.fetchPage p = m.fetchPageWith p m.disk.file.failing := by
  rw [fetchPage, fetchPageWith]
  rcases hc : m.findCachedPage p with ⟨_ | f, m₁⟩
  case some => rfl
  case none =>
    obtain ⟨-, hm⟩ := findCachedPage_none hc
    subst hm
    simp only [swapPage]
    rcases hs : m₁.swapFrame p with ⟨_ | _ | f, m₂⟩
    · rfl
    · rfl
    · simp only [if_true]
      rw [←(swapFrame_disk hs).1, setFailing_self]

end calls

section conditions

theorem WellFormed.consistent (hw : m.WellFormed) : m.Consistent where
  table_lt       := hw.table_lt
  table_page     := hw.table_page
  table_not_free := hw.table_not_free
  free_lt        := hw.free_lt
  free_nodup     := hw.free_nodup
  blank          := hw.blank
  size_valid     := Nat.le_of_lt_succ <| hw.size_disk.trans_lt m.disk.capacity.toNat_lt

theorem Available.not_exhausted (h : m.Available) : ¬m.Exhausted := by
  intro he
  cases h
  case free h         => exact h he.free
  case grows h        => exact h he.valid
  case victim _ hs _  => exact absurd he.size (Nat.not_lt.mpr hs)

theorem Consistent.frame_valid (hc : m.Consistent) (h : f < m.poolSize) : f ≠ invalidFrameID :=
  (h.trans_le hc.size_valid).ne

-- The frame that `find_next_frame` has found, and the pool that it leaves.
structure Found (m : PoolManager) (f : FrameID) (m' : PoolManager) : Prop where
  valid     : f ≠ invalidFrameID
  disk      : m'.disk = m.disk
  frames    : m'.frames = m.frames
  pageTable : m'.pageTable = m.pageTable
  free      : ∀ {g}, g ∈ m'.freeFrames ↔ g ∈ m.freeFrames ∧ g ≠ f
  nodup     : m'.freeFrames.Nodup
  size      : m'.poolSize = m.poolSize ∨ m'.poolSize = m.poolSize + 1 ∧ f = m.poolSize
  lt        : f < m'.poolSize
  source    : (m.frames f = .empty ∧ ∀ p, m.pageTable p ≠ some f) ∨ m.Victim f
  victim    : ∀ {g}, m.Victim g → g = f

theorem Consistent.found (hc : m.Consistent) :
    (m.Available ∧ ∃ f m', m.findNextFrame = (f, m') ∧ m.Found f m') ∨
      (m.Exhausted ∧ m.findNextFrame = (invalidFrameID, { m with poolSize := m.poolSize + 1 })) ∨
      ¬m.Available ∧ ¬m.Exhausted ∧ m.findNextFrame = (invalidFrameID, m) := by
  have hsize : m.poolSize < 4294967296 := Nat.lt_succ_of_le hc.size_valid
  simp only [findNextFrame]
  split
  case h_1 f h =>
    obtain ⟨fs, hfs⟩ := List.getLast?_eq_some_iff.mp h
    have hf : f ∈ m.freeFrames := by simp [hfs]
    have hne : m.freeFrames ≠ [] := List.ne_nil_of_mem hf
    obtain ⟨hn, -, hd⟩ := List.nodup_append.mp (hfs ▸ hc.free_nodup)
    have hl : f ∉ fs := fun hl => hd f hl f (List.mem_singleton_self f) rfl
    refine .inl ⟨.free hne, f, _, rfl, hc.frame_valid (hc.free_lt hf), rfl, rfl, rfl, ?_, ?_, .inl rfl, hc.free_lt hf, ?_, ?_⟩
    · intro g
      simp only [hfs, List.dropLast_concat, List.mem_append, List.mem_singleton]
      constructor
      · intro hg
        exact ⟨.inl hg, fun he => hl (he ▸ hg)⟩
      · rintro ⟨hg, he⟩
        exact hg.resolve_right he
    · simpa only [hfs, List.dropLast_concat] using hn
    · exact .inl ⟨hc.blank (.inl hf), fun p ht => hc.table_not_free ht hf⟩
    · exact fun hv => absurd hv.free hne
  case h_2 h =>
    have h := List.getLast?_eq_none_iff.mp h
    split_ifs with hs hl
    · rw [Nat.mod_eq_of_lt hsize]
      by_cases hv : m.poolSize = invalidFrameID
      case pos => exact .inr <| .inl ⟨⟨h, hs, hv⟩, by rw [hv]⟩
      case neg =>
        refine .inl ⟨.grows h hs hv, m.poolSize, _, rfl, hv, rfl, rfl, rfl, ?_, hc.free_nodup, .inr ⟨rfl, rfl⟩,
          Nat.lt_succ_self _, ?_, ?_⟩
        · simp [h]
        · exact .inl ⟨hc.blank (.inr le_rfl), fun p ht => absurd (hc.table_lt ht) (Nat.lt_irrefl _)⟩
        · exact fun hg => absurd hs (Nat.not_lt.mpr hg.size)
    · obtain ⟨-, f, ht, -⟩ := BufferReplacer.findLru_spec rfl hl
      simp only [ht, Option.getD_some]
      refine .inl ⟨.victim h (Nat.not_lt.mp hs) hl, f, m, rfl, hc.frame_valid <| hc.table_lt ht, rfl, rfl, rfl, ?_,
        hc.free_nodup, .inl rfl, hc.table_lt ht, ?_, ?_⟩
      · simp [h]
      · exact .inr ⟨h, Nat.not_lt.mp hs, hl, ht⟩
      · exact fun hg => Option.some.inj (hg.page.symm.trans ht)
    · refine .inr <| .inr ⟨?_, fun he => hs he.size, rfl⟩
      intro ha
      cases ha
      case free hf       => exact hf h
      case grows hs' _   => exact hs hs'
      case victim _ hl'  => exact hl hl'

end conditions

section consistent

theorem Consistent.setFrame (hc : m.Consistent) (ht : m.pageTable p = some f) (hp : page.pageId = p) :
    (m.setFrame f page).Consistent where
  table_lt       := hc.table_lt
  table_not_free := hc.table_not_free
  free_lt        := hc.free_lt
  free_nodup     := hc.free_nodup
  size_valid     := hc.size_valid
  table_page {q g} h := by
    by_cases he : g = f
    case neg =>
      rw [setFrame_frames_ne he]
      exact hc.table_page h
    case pos =>
      subst he
      rw [setFrame_frames_same, hp, ←hc.table_page ht]
      exact hc.table_page h
  blank {g} h := by
    have he : g ≠ f := by
      rintro rfl
      obtain h | h := h
      · exact hc.table_not_free ht h
      · exact absurd (hc.table_lt ht) (Nat.not_lt.mpr h)
    rw [setFrame_frames_ne he]
    exact hc.blank h

theorem Consistent.setDisk (hc : m.Consistent) : { m with disk := d }.Consistent :=
  ⟨hc.table_lt, hc.table_page, hc.table_not_free, hc.free_lt, hc.free_nodup, hc.blank, hc.size_valid⟩

-- The frame found is out of the table before the page is swapped in.
theorem Consistent.unmapped_pageTable (hc : m.Consistent) (hf : m.Found f m') :
    (m'.unmapped f).pageTable q = some g ↔ m.pageTable q = some g ∧ g ≠ f := by
  have hv {q} (h : m.pageTable q = some f) : (m.frames f).pageId = q ∧ q ≠ invalidPageID := by
    obtain ⟨-, hn⟩ | hv := hf.source
    · exact absurd h (hn q)
    · refine ⟨hc.table_page h, ?_⟩
      rw [←hc.table_page h, hc.table_page hv.page]
      exact hv.valid
  rw [unmapped, hf.frames]
  split_ifs with hp
  case pos =>
    simp only [hf.pageTable]
    by_cases hq : q = (m.frames f).pageId
    case pos =>
      rw [hq, Function.update_self]
      refine ⟨nofun, fun ⟨h, he⟩ => ?_⟩
      obtain ⟨hb, -⟩ | hx := hf.source
      · exact absurd (congrArg Page.pageId hb) hp
      · have h' := hx.page
        rw [←hc.table_page h', h] at h'
        exact absurd (Option.some.inj h') he
    case neg =>
      rw [Function.update_of_ne hq]
      refine (and_iff_left_of_imp fun h he => hq ?_).symm
      exact (hv (he ▸ h)).1.symm
  case neg =>
    rw [hf.pageTable]
    refine (and_iff_left_of_imp fun h he => hp ?_).symm
    have ⟨hp, hq⟩ := hv (he ▸ h)
    rwa [hp]

theorem unmapped_fields : (m.unmapped f).frames = m.frames ∧ (m.unmapped f).freeFrames = m.freeFrames ∧
    (m.unmapped f).poolSize = m.poolSize ∧ (m.unmapped f).poolCapacity = m.poolCapacity := by
  rw [unmapped]
  split <;> exact ⟨rfl, rfl, rfl, rfl⟩

theorem Consistent.unmapped (hc : m.Consistent) (hf : m.Found f m') : (m'.unmapped f).Consistent := by
  obtain ⟨hframes, hfree, hsize, -⟩ := unmapped_fields (m := m') (f := f)
  have hle : m.poolSize ≤ m'.poolSize := by
    obtain h | ⟨h, -⟩ := hf.size <;> omega
  constructor
  case table_lt =>
    intro q g h
    rw [hsize]
    exact (hc.table_lt ((hc.unmapped_pageTable hf).mp h).1).trans_le hle
  case table_page =>
    intro q g h
    rw [hframes, hf.frames]
    exact hc.table_page ((hc.unmapped_pageTable hf).mp h).1
  case table_not_free =>
    intro q g h
    rw [hfree, hf.free]
    exact fun hg => hc.table_not_free ((hc.unmapped_pageTable hf).mp h).1 hg.1
  case free_lt =>
    intro g h
    rw [hfree, hf.free] at h
    rw [hsize]
    exact (hc.free_lt h.1).trans_le hle
  case free_nodup => exact hfree ▸ hf.nodup
  case blank =>
    intro g h
    rw [hfree, hsize, hf.free] at h
    rw [hframes, hf.frames]
    exact hc.blank (h.imp And.left hle.trans)
  case size_valid =>
    rw [hsize]
    obtain h | ⟨h, he⟩ := hf.size
    · exact h ▸ hc.size_valid
    · exact h ▸ Nat.lt_of_le_of_ne hc.size_valid (he ▸ hf.valid)

theorem Consistent.mapped (hc : m.Consistent) (hl : f < m.poolSize) (hn : f ∉ m.freeFrames)
    (ht : ∀ q, m.pageTable q ≠ some f) :
    ({ m with disk := d, pageTable := Function.update m.pageTable p (some f), replacer := r }.setFrame f
      (Page.resetMemory p).incPinCount).Consistent := by
  have hu {q g} (h : Function.update m.pageTable p (some f) q = some g) :
      (q = p ∧ g = f) ∨ (m.pageTable q = some g ∧ g ≠ f) := by
    by_cases hq : q = p
    case pos =>
      rw [hq, Function.update_self] at h
      exact .inl ⟨hq, (Option.some.inj h).symm⟩
    case neg =>
      rw [Function.update_of_ne hq] at h
      exact .inr ⟨h, fun he => ht q (he ▸ h)⟩
  constructor
  case table_lt =>
    intro q g h
    obtain ⟨-, rfl⟩ | ⟨h, -⟩ := hu h
    · exact hl
    · exact hc.table_lt h
  case table_page =>
    intro q g h
    obtain ⟨rfl, rfl⟩ | ⟨h, hg⟩ := hu h
    · rw [setFrame_frames_same]
      rfl
    · rw [setFrame_frames_ne hg]
      exact hc.table_page h
  case table_not_free =>
    intro q g h
    obtain ⟨-, rfl⟩ | ⟨h, -⟩ := hu h
    · exact hn
    · exact hc.table_not_free h
  case free_lt    => exact hc.free_lt
  case free_nodup => exact hc.free_nodup
  case size_valid => exact hc.size_valid
  case blank =>
    intro g h
    have he : g ≠ f := by
      rintro rfl
      obtain h | h := h
      · exact hn h
      · exact absurd hl (Nat.not_lt.mpr h)
    rw [setFrame_frames_ne he]
    exact hc.blank h

theorem Consistent.swapFrame (hc : m.Consistent) (he : ¬m.Exhausted) : (m.swapFrame p).2.Consistent := by
  obtain ⟨-, f, m', hn, hf⟩ | ⟨hx, -⟩ | ⟨-, -, hn⟩ := hc.found
  · rw [swapFrame_eq hn hf.valid]
    split
    · exact hc.unmapped hf
    · obtain ⟨hframes, hfree, hsize, -⟩ := unmapped_fields (m := m') (f := f)
      refine (hc.unmapped hf).mapped (hsize ▸ hf.lt) ?_ ?_
      · rw [hfree, hf.free]
        exact fun h => h.2 rfl
      · exact fun q h => ((hc.unmapped_pageTable hf).mp h).2 rfl
  · exact absurd hx he
  · rw [swapFrame_invalid hn]
    exact hc

theorem Consistent.readFrame (hc : m.Consistent) (ht : m.pageTable p = some f) : (m.readFrame f p).2.Consistent := by
  rw [PoolManager.readFrame]
  split
  · exact hc
  · exact hc.setFrame ht (hc.table_page ht)

theorem Consistent.fetchPageWith (hc : m.Consistent) (he : ¬m.Exhausted) : (m.fetchPageWith p refuses).2.Consistent := by
  rw [PoolManager.fetchPageWith]
  split
  case h_1 f m' h =>
    obtain ⟨ht, rfl⟩ := findCachedPage_some h
    have hc : (m.setFrame f (m.frames f).incPinCount).Consistent := hc.setFrame ht (hc.table_page ht)
    exact ⟨hc.table_lt, hc.table_page, hc.table_not_free, hc.free_lt, hc.free_nodup, hc.blank, hc.size_valid⟩
  case h_2 m' h =>
    obtain ⟨-, rfl⟩ := findCachedPage_none h
    have hs := hc.swapFrame (p := p) he
    split
    · next hm =>
      rw [hm] at hs
      have ht : (setFailing _ refuses).pageTable p = some _ := (swapFrame_some hm).1
      exact Consistent.readFrame hs.setDisk ht
    · exact hs

theorem newPage_eq : m.newPage = { m with disk := m.disk.allocatePage.2 }.swapFrame m.disk.allocatePage.1 := by
  simp only [newPage, swapPage, Bool.false_eq_true, if_false]
  split
  · next h => exact h.symm
  · rfl

theorem Consistent.newPage (hc : m.Consistent) (he : ¬m.Exhausted) : m.newPage.2.Consistent := by
  rw [newPage_eq]
  exact hc.setDisk.swapFrame fun h => he ⟨h.free, h.size, h.valid⟩

theorem Consistent.unpinPage (hc : m.Consistent) : (m.unpinPage p dirty).Consistent := by
  cases h : m.pageTable p
  case none   => rwa [PoolManager.unpinPage, h]
  case some f =>
    rw [unpinPage_eq h]
    exact hc.setFrame h (hc.table_page h)

theorem Consistent.freed (hc : m.Consistent) (ht : m.pageTable p = some f) : (m.freed p f d).Consistent := by
  have hu {q g} (h : Function.update m.pageTable p none q = some g) : m.pageTable q = some g ∧ g ≠ f := by
    by_cases hq : q = p
    case pos =>
      rw [hq, Function.update_self] at h
      cases h
    case neg =>
      rw [Function.update_of_ne hq] at h
      refine ⟨h, fun he => hq ?_⟩
      rw [←hc.table_page h, he, hc.table_page ht]
  have hf {g} (hg : g ≠ f) : (m.freed p f d).frames g = m.frames g := Function.update_of_ne hg ..
  have hm {g} : g ∈ (m.freed p f d).freeFrames ↔ g ∈ m.freeFrames ∨ g = f := by simp [PoolManager.freed]
  constructor
  case table_lt       => exact fun h => hc.table_lt (hu h).1
  case table_page     => exact fun h => hf (hu h).2 ▸ hc.table_page (hu h).1
  case table_not_free => exact fun h hg => (hm.mp hg).elim (hc.table_not_free (hu h).1) (hu h).2
  case free_lt =>
    intro g hg
    obtain hg | rfl := hm.mp hg
    · exact hc.free_lt hg
    · exact hc.table_lt ht
  case size_valid     => exact hc.size_valid
  case free_nodup =>
    refine List.nodup_append.mpr ⟨hc.free_nodup, List.nodup_singleton f, fun g hg g' hg' => ?_⟩
    rw [List.mem_singleton.mp hg']
    rintro rfl
    exact hc.table_not_free ht hg
  case blank =>
    intro g hg
    by_cases he : g = f
    case pos =>
      subst he
      exact Function.update_self ..
    case neg =>
      rw [hf he]
      exact hc.blank <| hg.imp_left fun hg => (hm.mp hg).resolve_right he

theorem Consistent.deallocate (hc : m.Consistent) : (m.deallocate p).2.Consistent := by
  rw [PoolManager.deallocate]
  split
  · exact hc
  · exact hc.setDisk

theorem Consistent.deletePage (hc : m.Consistent) : (m.deletePage p).2.Consistent := by
  rw [PoolManager.deletePage]
  split
  case h_1 f h =>
    split
    · exact hc
    · exact (hc.freed h : (m.freed p f m.disk).Consistent).deallocate
  case h_2 => exact hc.deallocate

theorem Reachable.consistent (h : Reachable m) : m.Consistent := by
  induction h
  case create          => exact create_wellFormed.consistent
  case disk hc         => exact hc.setDisk
  case data ht hc      => exact hc.setFrame ht (hc.table_page ht)
  case fetch he hc     => exact hc.fetchPageWith he
  case new he hc       => exact hc.newPage he
  case unpin hc        => exact hc.unpinPage
  case delete hc       => exact hc.deletePage

end consistent

section clean

theorem Unchanged.refl : m.Unchanged m :=
  ⟨fun _ => rfl, fun _ => Iff.rfl, rfl, rfl⟩

-- A frame that is lost, or a page that comes or goes.
theorem not_unchanged (h : m.pageTable p = none ↔ m'.pageTable p ≠ none) : ¬m.Unchanged m' := by
  intro hu
  have hc := hu.cached p
  cases ht : m.pageTable p
  case none   =>
    obtain ⟨f, hf⟩ := Option.ne_none_iff_exists'.mp (h.mp ht)
    simp [ht, hf] at hc
  case some f =>
    have hn := not_not.mp <| mt h.mpr (by simp [ht])
    simp [ht, hn] at hc

theorem Exhausted.not_unchanged (he : m.Exhausted) (hc : m.Consistent) :
    ¬m.Unchanged { m with poolSize := m.poolSize + 1 } := by
  intro hu
  have hs := (hu.usable m.poolSize).mpr ⟨he.size, .inr <| .inl le_rfl⟩
  obtain ⟨-, hf | hl | ⟨p, ht⟩⟩ := hs
  · exact absurd (hc.free_lt hf) (Nat.lt_irrefl _)
  · exact absurd hl (Nat.not_succ_le_self _)
  · exact absurd (hc.table_lt ht) (Nat.lt_irrefl _)

theorem fetchPageWith_miss (h : m.pageTable p = none) : m.fetchPageWith p refuses =
    match m.swapFrame p with
    | (.ok (some frameId), m) => (m.setFailing refuses).readFrame frameId p
    | result                  => result := by
  rw [fetchPageWith, findCachedPage_miss h]

theorem fetchPageWith_cached (h : m.pageTable p ≠ none) : ∃ f, (m.fetchPageWith p refuses).1 = .ok (some f) := by
  obtain ⟨f, hf⟩ := Option.ne_none_iff_exists'.mp h
  rw [fetchPageWith, findCachedPage_hit hf]
  exact ⟨f, rfl⟩

-- No frame means no page, before and after.
theorem Consistent.fetchPageWith_full (hc : m.Consistent) (ht : m.pageTable p = none) (ha : ¬m.Available)
    (he : ¬m.Exhausted) : m.fetchPageWith p refuses = (.ok none, m) := by
  obtain ⟨h, -⟩ | ⟨h, -⟩ | ⟨-, -, hn⟩ := hc.found
  · exact absurd h ha
  · exact absurd h he
  · rw [fetchPageWith_miss ht, swapFrame_invalid hn]

theorem Consistent.fetchPageWith_exhausted (hc : m.Consistent) (ht : m.pageTable p = none) (he : m.Exhausted) :
    m.fetchPageWith p refuses = (.ok none, { m with poolSize := m.poolSize + 1 }) := by
  obtain ⟨h, -⟩ | ⟨-, hn⟩ | ⟨-, h, -⟩ := hc.found
  · exact absurd he h.not_exhausted
  · rw [fetchPageWith_miss ht, swapFrame_invalid hn]
  · exact absurd he h

-- The frame found is dirty only when it holds the page that goes.
theorem Found.victim_of_dirty (hf : m.Found f m') (hd : (m.frames f).isDirty) : m.Victim f := by
  obtain ⟨hb, -⟩ | hv := hf.source
  · rw [hb] at hd
    cases hd
  · exact hv

theorem readFrame_isOk : (∃ g, (m.readFrame f p).1 = .ok (some g)) ↔
    m.disk.file.failing = false ∧ p < m.disk.capacity := by
  constructor
  · rintro ⟨g, h⟩
    by_contra hn
    have hn : m.disk.file.failing ∨ m.disk.capacity ≤ p := by
      obtain h | h := not_and_or.mp hn
      · exact .inl <| Bool.eq_true_of_not_eq_false h
      · exact .inr <| UInt32.not_lt.mp h
    obtain ⟨e, he⟩ := DiskManager.readPage_error hn
    rw [readFrame, he] at h
    cases h
  · rintro ⟨hf, hp⟩
    exact ⟨f, by rw [readFrame_eq hf hp]⟩

theorem readFrame_pageTable : (m.readFrame f p).2.pageTable = m.pageTable := by
  rw [readFrame]
  split <;> rfl

-- What is written back when the frame found is taken.
theorem Found.swapFrame_isOk (hn : m.findNextFrame = (f, m')) (hf : m.Found f m') :
    (∃ m₂, m.swapFrame p = (.ok (some f), m₂)) ↔
      ((m.frames f).isDirty → m.disk.file.failing = false ∧ (m.frames f).pageId < m.disk.capacity) := by
  rw [swapFrame_eq hn hf.valid, hf.frames, hf.disk]
  cases hd : (m.frames f).isDirty
  case false => simp
  case true =>
    have hw : (∃ d, m.disk.writePage (m.frames f).pageId (m.frames f).data = .ok d) ↔ _ := DiskManager.writePage_isOk
    simp only [if_true, true_implies, ←hw]
    constructor
    · rintro ⟨m₂, h⟩
      split at h
      · cases h
      · next d hd => exact ⟨d, hd⟩
    · rintro ⟨d, hd⟩
      rw [hd]
      exact ⟨_, rfl⟩

theorem Found.swapFrame_lost (hn : m.findNextFrame = (f, m')) (hf : m.Found f m')
    (hw : ¬∃ m₂, m.swapFrame p = (.ok (some f), m₂)) : ∃ e, m.swapFrame p = (.error e, m'.unmapped f) := by
  rw [swapFrame_eq hn hf.valid] at hw ⊢
  split
  · next e _ => exact ⟨e, rfl⟩
  · next d hd =>
    rw [hd] at hw
    exact absurd ⟨_, rfl⟩ hw

theorem Consistent.fetchClean_iff (hc : m.Consistent) : m.FetchClean p refuses ↔ m.FetchSafe p refuses := by
  by_cases ht : m.pageTable p = none
  case neg =>
    refine ⟨fun _ => .cached ht, fun _ r m' h hr => ?_⟩
    have ⟨f, hf⟩ : ∃ f, (m.fetchPageWith p refuses).1 = .ok (some f) := fetchPageWith_cached ht
    rw [h] at hf
    exact absurd hf (hr f)
  case pos =>
    obtain ⟨ha, f, m', hn, hf⟩ | ⟨he, -⟩ | ⟨ha, he, -⟩ := hc.found
    · have hv : (∃ m₂, m.swapFrame p = (.ok (some f), m₂)) ↔ ∀ g, m.Victim g → (m.frames g).isDirty →
          m.disk.file.failing = false ∧ (m.frames g).pageId < m.disk.capacity := by
        rw [Found.swapFrame_isOk hn hf]
        constructor
        · intro h g hg hd
          exact hf.victim hg ▸ h (hf.victim hg ▸ hd)
        · exact fun h hd => h f (hf.victim_of_dirty hd) hd
      by_cases hw : ∃ m₂, m.swapFrame p = (.ok (some f), m₂)
      case neg =>
        refine ⟨fun h => absurd h ?_, fun h => absurd h ?_⟩
        · obtain ⟨e, hs⟩ := Found.swapFrame_lost hn hf hw
          have hd : (m.frames f).isDirty := by
            by_contra hd
            exact hw <| (Found.swapFrame_isOk hn hf).mpr fun h => absurd h hd
          have hx := (hf.victim_of_dirty hd).page
          intro h
          obtain ⟨hu, -⟩ := h (.error e) _ ((fetchPageWith_miss ht).trans (by rw [hs])) nofun
          refine not_unchanged (p := m.replacer.findLru m.frames m.pageTable) ?_ hu
          refine ⟨fun h => absurd (hx.symm.trans h) nofun, fun h => ?_⟩
          obtain ⟨g, hg⟩ := Option.ne_none_iff_exists'.mp h
          obtain ⟨hg, hne⟩ := (hc.unmapped_pageTable hf).mp hg
          exact absurd (Option.some.inj (hg.symm.trans hx)) hne
        · rintro (h | ⟨h, -⟩ | ⟨-, h, -, -⟩)
          · exact h ht
          · exact h ha
          · exact hw (hv.mpr h)
      case pos =>
        have hv := hv.mp hw
        obtain ⟨m₂, hs⟩ := hw
        have ho := readFrame_isOk (m := m₂.setFailing refuses) (f := f) (p := p)
        have hcap : m₂.disk.capacity = m.disk.capacity := (swapFrame_disk hs).2
        have hfetch : m.fetchPageWith p refuses = (m₂.setFailing refuses).readFrame f p := by
          rw [fetchPageWith_miss ht, hs]
        constructor
        · intro h
          by_cases ho' : ∃ g, ((m₂.setFailing refuses).readFrame f p).1 = .ok (some g)
          case pos =>
            obtain ⟨hr, hp⟩ := ho.mp ho'
            exact .frame ha hv hr (hcap ▸ hp)
          case neg =>
            obtain ⟨hu, -⟩ := h _ ((m₂.setFailing refuses).readFrame f p).2 hfetch fun g hg => ho' ⟨g, hg⟩
            refine absurd hu (not_unchanged (p := p) ⟨fun _ => ?_, fun _ => ht⟩)
            rw [readFrame_pageTable]
            exact Option.ne_none_iff_exists'.mpr ⟨f, (swapFrame_some hs).1⟩
        · rintro (h | ⟨h, -⟩ | ⟨-, -, hr, hp⟩)
          · exact absurd ht h
          · exact absurd ha h
          · intro r m' h hn
            obtain ⟨g, hg⟩ := ho.mpr ⟨hr, hcap ▸ hp⟩
            rw [←hfetch, h] at hg
            exact absurd hg (hn g)
    · refine ⟨fun h => ?_, ?_⟩
      · obtain ⟨hu, -⟩ := h (.ok none) _ (hc.fetchPageWith_exhausted ht he) nofun
        exact absurd hu (he.not_unchanged hc)
      · rintro (h | ⟨-, h⟩ | ⟨h, -, -, -⟩)
        · exact absurd ht h
        · exact absurd he h
        · exact absurd he h.not_exhausted
    · refine ⟨fun _ => .full ha he, fun _ r m' h hn => ?_⟩
      have hfull {r} : m.fetchPageWith p r = (.ok none, m) := hc.fetchPageWith_full ht ha he
      obtain ⟨rfl, rfl⟩ := Prod.mk.inj (hfull.symm.trans h)
      refine ⟨.refl, fun _ r f hr => ?_⟩
      rw [hfull] at hr
      cases hr

theorem allocatePage_changes {d : DiskManager} :
    ¬(d.allocatePage.2.capacity = d.capacity ∧ d.allocatePage.2.freeList = d.freeList) := by
  rintro ⟨hc, hl⟩
  simp only [DiskManager.allocatePage] at hc hl
  split at hc
  · next h =>
    simp only [h] at hl
    have hl := congrArg List.length hl
    have hp := List.length_pos_of_mem (List.mem_of_getLast? h)
    rw [List.length_dropLast] at hl
    omega
  · have hc : d.capacity + 1 = d.capacity := hc
    grind

theorem Consistent.newPageClean_iff (hc : m.Consistent) : m.NewPageClean ↔ m.Available := by
  have hc' : { m with disk := m.disk.allocatePage.2 }.Consistent := hc.setDisk
  have hd {m'} (h : m.Unchanged m') (he : m'.disk = m.disk.allocatePage.2) : False := by
    refine allocatePage_changes (d := m.disk) ⟨?_, ?_⟩
    · rw [←he, h.capacity]
    · rw [←he, h.freeList]
  obtain ⟨ha, f, m', hn, hf⟩ | ⟨he, hn⟩ | ⟨ha, he, hn⟩ := hc'.found
  · refine ⟨fun _ => ?_, fun _ m₁ h => ?_⟩
    · cases ha
      case free h       => exact .free h
      case grows h s v  => exact .grows h s v
      case victim h s p => exact .victim h s p
    · rw [newPage_eq, swapFrame_eq hn hf.valid] at h
      split at h <;> cases h
  · refine ⟨fun h => ?_, fun h => ?_⟩
    · exact (hd (h _ (by rw [newPage_eq, swapFrame_invalid hn])) rfl).elim
    · exact absurd ⟨he.free, he.size, he.valid⟩ h.not_exhausted
  · refine ⟨fun h => ?_, fun h => absurd ?_ ha⟩
    · exact (hd (h _ (by rw [newPage_eq, swapFrame_invalid hn])) rfl).elim
    · cases h
      case free h       => exact .free h
      case grows h s v  => exact .grows h s v
      case victim h s p => exact .victim h s p

end clean

theorem acquires_cleanly_iff (hc : m.Consistent) :
    (m.NewPageClean ↔ m.Available) ∧ (m.FetchClean p refuses ↔ m.FetchSafe p refuses) :=
  ⟨hc.newPageClean_iff, hc.fetchClean_iff⟩

-- A pool of one frame over a fresh disk.
def single : PoolManager :=
  create ⟨.empty, 1, [], kDBMagic, kDBFormatVersion⟩ 1

-- The same pool, whose page keeps the frame pinned.
def crowded : PoolManager :=
  single.newPage.2

theorem crowded_reachable : Reachable crowded := by
  refine .new .create fun h => ?_
  exact absurd h.valid (by decide)

theorem acquires_cleanly_iff_crowded : crowded.newPage.1 = .ok none ∧ (crowded.NewPageClean ↔ crowded.Available) ∧
    (crowded.FetchClean 0 true ↔ crowded.FetchSafe 0 true) :=
  ⟨rfl, acquires_cleanly_iff crowded_reachable.consistent⟩

-- The second `new_page` gives no page, and the identifier that it has taken is gone.
theorem not_acquires_cleanly :
    ¬∀ m, Reachable m → m.NewPageClean ∧ ∀ p refuses, m.FetchClean p refuses := by
  intro h
  have hn : crowded.newPage.1 = .ok none := rfl
  have hu := (h crowded crowded_reachable).1 crowded.newPage.2 (Prod.ext hn rfl)
  exact absurd hu.capacity (by decide)

end Duck.PoolManager
