import Duck.Buffer.Theorems.PoolManager.WellFormed

namespace Duck.PoolManager

variable {m m' : PoolManager} {p q : PageID} {f g : FrameID}

-- `find_next_frame` takes an unpinned frame `f` out of the free ones, and touches no page.
structure Claimed (m : PoolManager) (f : FrameID) (m' : PoolManager) : Prop where
  valid      : f ≠ invalidFrameID
  unpinned   : (m.frames f).pinCount = 0
  lt         : f < m'.poolSize
  not_free   : f ∉ m'.freeFrames
  free       : ∀ {g}, g ∈ m'.freeFrames → g ∈ m.freeFrames
  free_nodup : m'.freeFrames.Nodup
  free_lt    : ∀ {g}, g ∈ m'.freeFrames → g < m'.poolSize
  spare      : ∀ {g}, g ≠ f → m'.poolSize ≤ g → m.poolSize ≤ g
  used       : ∀ {g}, g ≠ f → g < m'.poolSize → g ∉ m'.freeFrames → g < m.poolSize ∧ g ∉ m.freeFrames
  size_mono  : m.poolSize ≤ m'.poolSize
  size_le    : m'.poolSize ≤ m'.poolCapacity
  size_disk  : m'.poolSize ≤ m'.disk.capacity.toNat
  disk       : m'.disk = m.disk
  frames     : m'.frames = m.frames
  pageTable  : m'.pageTable = m.pageTable
  replacer   : m'.replacer = m.replacer

theorem WellFormed.claimed_free (hw : m.WellFormed) (h : m.freeFrames = fs ++ [f]) :
    m.Claimed f { m with freeFrames := fs } :=
  have hf : f ∈ m.freeFrames := by simp [h]
  have hs {g} (hg : g ∈ fs) : g ∈ m.freeFrames := h ▸ List.mem_append_left _ hg
  have hn : fs.Nodup ∧ f ∉ fs := by
    have hn := h ▸ hw.free_nodup
    exact ⟨hn.of_append_left, fun hg => List.disjoint_of_nodup_append hn hg (List.mem_singleton_self f)⟩
  { valid      := hw.frame_valid <| hw.free_lt hf
    unpinned   := congrArg Page.pinCount <| hw.blank (.inl hf)
    lt         := hw.free_lt hf
    not_free   := hn.2
    free       := hs
    free_nodup := hn.1
    free_lt hg := hw.free_lt (hs hg)
    spare _ hg := hg
    used he hg hn := by
      refine ⟨hg, fun hm => ?_⟩
      rw [h] at hm
      obtain hm | hm := List.mem_append.mp hm
      · exact hn hm
      · exact he <| List.mem_singleton.mp hm
    size_mono  := le_rfl
    size_le    := hw.size_le
    size_disk  := hw.size_disk
    disk       := rfl
    frames     := rfl
    pageTable  := rfl
    replacer   := rfl }

theorem WellFormed.claimed_grow (hw : m.WellFormed) (h : m.freeFrames = [])
    (hs : m.poolSize < m.poolCapacity) (hd : m.poolSize < m.disk.capacity.toNat) :
    m.Claimed m.poolSize { m with poolSize := m.poolSize + 1 } where
  valid he   := by
    have he : m.poolSize = 4294967295 := he
    have := m.disk.capacity.toNat_lt
    omega
  unpinned   := congrArg Page.pinCount <| hw.blank (.inr le_rfl)
  lt         := Nat.lt_succ_self _
  not_free   := by simp [h]
  free       := id
  free_nodup := hw.free_nodup
  free_lt h  := Nat.lt_succ_of_lt <| hw.free_lt h
  spare _ h  := Nat.le_of_succ_le h
  used he hl hn := ⟨Nat.lt_of_le_of_ne (Nat.le_of_lt_succ hl) he, hn⟩
  size_mono  := Nat.le_succ _
  size_le    := hs
  size_disk  := hd
  disk       := rfl
  frames     := rfl
  pageTable  := rfl
  replacer   := rfl

theorem WellFormed.claimed_victim (hw : m.WellFormed) (ht : m.pageTable q = some f)
    (hz : (m.frames f).pinCount = 0) : m.Claimed f m where
  valid         := hw.frame_valid <| hw.table_lt ht
  unpinned      := hz
  lt            := hw.table_lt ht
  not_free      := hw.table_not_free ht
  free          := id
  free_nodup    := hw.free_nodup
  free_lt       := hw.free_lt
  spare _ h     := h
  used _ hl hn  := ⟨hl, hn⟩
  size_mono     := le_rfl
  size_le       := hw.size_le
  size_disk     := hw.size_disk
  disk          := rfl
  frames        := rfl
  pageTable     := rfl
  replacer      := rfl

theorem WellFormed.findNextFrame (hw : m.WellFormed) (hp : p < m.disk.capacity)
    (ht : m.pageTable p = none) :
    m.findNextFrame = (invalidFrameID, m) ∨ ∃ f m', m.findNextFrame = (f, m') ∧ m.Claimed f m' := by
  simp only [PoolManager.findNextFrame]
  split
  case h_1 f h =>
    have ⟨fs, h⟩ := List.getLast?_eq_some_iff.mp h
    simp only [h, List.dropLast_concat]
    exact .inr ⟨f, _, rfl, hw.claimed_free h⟩
  case h_2 h =>
    have h := List.getLast?_eq_none_iff.mp h
    have hd := hw.size_lt h hp ht
    split_ifs with hs hl
    · refine .inr ⟨m.poolSize, _, Prod.ext (Nat.mod_eq_of_lt ?_) rfl, hw.claimed_grow h hs hd⟩
      exact hd.trans m.disk.capacity.toNat_lt
    · have ⟨_, f, ht, hz⟩ := BufferReplacer.findLru_spec rfl hl
      simp only [ht, Option.getD_some]
      exact .inr ⟨f, m, rfl, hw.claimed_victim ht hz⟩
    · exact .inl rfl

-- The disk once the page of the frame has been written back.
def writeBack (m : PoolManager) (f : FrameID) : DiskManager :=
  if (m.frames f).isDirty then m.disk.written (m.frames f).pageId (m.frames f).data else m.disk

@[simp]
theorem writeBack_capacity : (m.writeBack f).capacity = m.disk.capacity := by
  simp only [writeBack]
  split <;> rfl

@[simp]
theorem writeBack_freeList : (m.writeBack f).freeList = m.disk.freeList := by
  simp only [writeBack]
  split <;> rfl

@[simp]
theorem writeBack_failing : (m.writeBack f).file.failing = m.disk.file.failing := by
  simp only [writeBack]
  split
  · exact DiskManager.written_failing
  · rfl

-- A frame without a pin now holds zeros for `p`, and the page it held before is out of the pool.
structure Swapped (m : PoolManager) (p : PageID) (f : FrameID) (m' : PoolManager) : Prop where
  wellFormed : m'.WellFormed
  unpinned   : (m.frames f).pinCount = 0
  online     : (m.frames f).isDirty → m.disk.file.failing = false
  pageTable  : m'.pageTable = Function.update (Function.update m.pageTable (m.frames f).pageId none) p f
  frames     : m'.frames = Function.update m.frames f ⟨p, .zero, 1, false⟩
  disk       : m'.disk = m.writeBack f

-- The state that `swap_page` leaves behind once its frame has been chosen.
def swapped (m : PoolManager) (p : PageID) (f : FrameID) (disk : DiskManager) (r : BufferReplacer) :
    PoolManager :=
  { m with
    disk      := disk
    frames    := Function.update m.frames f ⟨p, .zero, 1, false⟩
    pageTable := Function.update (Function.update m.pageTable (m.frames f).pageId none) p (some f)
    replacer  := r }

theorem swapped_pageTable_some (hw : m.WellFormed) (hq : q ≠ p) :
    (m.swapped p f d r).pageTable q = some g ↔ m.pageTable q = some g ∧ g ≠ f := by
  simp only [swapped, Function.update_of_ne hq]
  by_cases hv : q = (m.frames f).pageId
  case pos =>
    subst hv
    simp only [Function.update_self, reduceCtorEq, false_iff, not_and, not_not]
    intro h
    have hf := hw.table_of_page <| ne_invalid (hw.table_valid h)
    exact Option.some.inj <| h.symm.trans hf
  case neg =>
    rw [Function.update_of_ne hv]
    refine (and_iff_left_of_imp fun h he => ?_).symm
    exact hv (he ▸ (hw.table_page h).symm)

theorem Claimed.swapped (hw : m.WellFormed) (hc : m.Claimed f m') (hp : p < m.disk.capacity)
    (ht : m.pageTable p = none) (hr : r.WellFormed)
    (hk : ∀ {q}, r.Tracks q ↔ (m.replacer.Tracks q ∧ q ≠ (m.frames f).pageId) ∨ q = p) :
    (m'.swapped p f (m.writeBack f) r).WellFormed := by
  have hv {q g} (hq : q ≠ p) :
      (m'.swapped p f (m.writeBack f) r).pageTable q = some g ↔ m.pageTable q = some g ∧ g ≠ f := by
    rw [PoolManager.swapped, hc.pageTable, hc.frames]
    exact swapped_pageTable_some (d := m.disk) (r := m.replacer) hw hq
  have hs {g} : (m'.swapped p f (m.writeBack f) r).pageTable p = some g ↔ f = g := by
    simp only [PoolManager.swapped, Function.update_self, Option.some.injEq]
  have hf {g} (hg : g ≠ f) : (m'.swapped p f (m.writeBack f) r).frames g = m.frames g := by
    simp only [PoolManager.swapped, Function.update_of_ne hg, hc.frames]
  have hff : (m'.swapped p f (m.writeBack f) r).frames f = ⟨p, .zero, 1, false⟩ :=
    Function.update_self ..
  constructor
  case replacer => exact hr
  case tracks =>
    intro q
    refine hk.trans ?_
    rw [hw.tracks]
    by_cases hq : q = p
    case pos => exact iff_of_true (.inr hq) ⟨f, by rw [hq, hs]⟩
    case neg =>
      simp only [hv hq, hq, or_false]
      constructor
      · rintro ⟨⟨g, h⟩, hn⟩
        refine ⟨g, h, fun he => hn ?_⟩
        rw [←he, hw.table_page h]
      · rintro ⟨g, h, hn⟩
        refine ⟨⟨g, h⟩, fun he => hn ?_⟩
        have hu := hw.table_of_page (f := f) <| he ▸ ne_invalid (hw.table_valid h)
        exact Option.some.inj <| (he ▸ h).symm.trans hu
  case table_lt =>
    intro q g h
    by_cases hq : q = p
    case pos => exact hs.mp (hq ▸ h) ▸ hc.lt
    case neg => exact (hw.table_lt ((hv hq).mp h).1).trans_le hc.size_mono
  case table_page =>
    intro q g h
    by_cases hq : q = p
    case pos =>
      subst hq
      rw [←hs.mp h, hff]
    case neg =>
      have ⟨h, hn⟩ := (hv hq).mp h
      rw [hf hn, hw.table_page h]
  case table_valid =>
    intro q g h
    simp only [PoolManager.swapped, writeBack_capacity]
    by_cases hq : q = p
    case pos => exact hq ▸ hp
    case neg => exact hw.table_valid ((hv hq).mp h).1
  case used =>
    intro g hl hn
    by_cases hg : g = f
    case pos =>
      subst hg
      rw [hff]
      exact hs.mpr rfl
    case neg =>
      have ⟨hl, hn⟩ := hc.used hg hl hn
      have hu := hw.used hl hn
      rw [hf hg]
      refine (hv fun he => ?_).mpr ⟨hu, hg⟩
      rw [he, ht] at hu
      cases hu
  case free_lt    => exact hc.free_lt
  case free_nodup => exact hc.free_nodup
  case blank =>
    intro g h
    have hg : g ≠ f := by
      rintro rfl
      cases h
      case inl h => exact hc.not_free h
      case inr h => exact absurd hc.lt (Nat.not_lt.mpr h)
    rw [hf hg]
    exact hw.blank <| h.imp hc.free (hc.spare hg)
  case size_le    => exact hc.size_le
  case size_disk  =>
    simp only [PoolManager.swapped, writeBack_capacity]
    exact hc.disk ▸ hc.size_disk

-- Only a frame in use is dirty, so that its page can be written back while the disk works.
theorem WellFormed.flush (hw : m.WellFormed) :
    let result := if (m.frames f).isDirty then m.disk.writePage (m.frames f).pageId (m.frames f).data else .ok m.disk
    (result = .ok (m.writeBack f) ∧ ((m.frames f).isDirty → m.disk.file.failing = false)) ∨
      ∃ e, result = .error e ∧ m.disk.file.failing = true := by
  simp only [writeBack]
  cases hd : (m.frames f).isDirty
  case false => exact .inl ⟨rfl, nofun⟩
  case true  =>
    simp only [if_true]
    cases hf : m.disk.file.failing
    case true  =>
      refine .inr ?_
      cases h : m.disk.writePage (m.frames f).pageId (m.frames f).data
      case error e => exact ⟨e, rfl, rfl⟩
      case ok      => exact nomatch hf.symm.trans (DiskManager.writePage_ok h).1
    case false =>
      refine .inl ⟨DiskManager.writePage_eq hf ?_, fun _ => rfl⟩
      have hb := hw.blank_or_used (f := f)
      cases hb
      case inl hb =>
        rw [hb] at hd
        cases hd
      case inr hb => exact hw.table_valid hb

theorem Claimed.becomes (hw : m.WellFormed) (hc : m.Claimed f m') (hp : p < m.disk.capacity)
    (ht : m.pageTable p = none) (ho : (m.frames f).isDirty → m.disk.file.failing = false)
    (hr : r.WellFormed) (hk : ∀ {q}, r.Tracks q ↔ (m.replacer.Tracks q ∧ q ≠ (m.frames f).pageId) ∨ q = p) :
    m.Swapped p f (m'.swapped p f (m.writeBack f) r) where
  online     := ho
  wellFormed := hc.swapped hw hp ht hr hk
  unpinned   := hc.unpinned
  pageTable  := by rw [PoolManager.swapped, hc.pageTable, hc.frames]
  frames     := by rw [PoolManager.swapped, hc.frames]
  disk       := rfl

theorem WellFormed.swapFrame (hw : m.WellFormed) (hp : p < m.disk.capacity) (ht : m.pageTable p = none) :
    m.swapFrame p = (.ok none, m) ∨
      (∃ f m', m.swapFrame p = (.ok (some f), m') ∧ m.Swapped p f m') ∨
      ∃ e m', m.swapFrame p = (.error e, m') ∧ m.disk.file.failing = true := by
  simp only [PoolManager.swapFrame, flushPage]
  obtain h | ⟨f, m', h, hc⟩ := hw.findNextFrame hp ht
  · simp only [h, if_true, true_or]
  · have hd := hw.flush (f := f)
    rw [←hc.frames, ←hc.disk] at hd
    simp only [h, hc.valid, if_false]
    refine .inr ?_
    generalize hr : (if (m'.frames f).pageId ≠ invalidPageID then _ else m') = m₁
    have hm : m₁.disk = m'.disk := by
      rw [←hr]
      split <;> rfl
    rw [hm]
    obtain ⟨hd, ho⟩ | ⟨e, hd, ho⟩ := hd
    case inr => exact .inr ⟨e, m₁, by rw [hd], hc.disk ▸ ho⟩
    rw [hd]
    rw [hc.frames, hc.disk] at ho
    refine .inl ⟨f, ?_⟩
    by_cases hv : (m'.frames f).pageId = invalidPageID
    case pos =>
      rw [if_neg (not_not.mpr hv)] at hr
      subst hr
      refine ⟨m'.swapped p f (m.writeBack f) (m'.replacer.record p), ?_, hc.becomes hw hp ht ho ?_ ?_⟩
      · have hi : Function.update m'.pageTable invalidPageID none = m'.pageTable := by
          rw [Function.update_eq_self_iff, hc.pageTable, hw.table_invalid]
        rw [swapped, hv, hi]
        rfl
      · exact hc.replacer ▸ hw.replacer.record
      · intro q
        rw [hc.replacer, hw.replacer.tracks_record, ←hc.frames, hv]
        refine or_congr_left (and_iff_left_of_imp fun h => ?_).symm
        have ⟨_, h⟩ := hw.tracks.mp h
        exact ne_invalid (hw.table_valid h)
    case neg =>
      rw [if_pos hv] at hr
      subst hr
      refine ⟨_, rfl, hc.becomes hw hp ht ho ?_ ?_⟩
      · exact hc.replacer ▸ hw.replacer.remove.record
      · intro q
        rw [hc.replacer, hw.replacer.remove.tracks_record, hw.replacer.tracks_remove, ←hc.frames]

end Duck.PoolManager
