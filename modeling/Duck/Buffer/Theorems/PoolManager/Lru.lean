import Duck.Buffer.Theorems.PoolManager.Failure
import Duck.Lib.Recency
import Duck.Lib.Runs

namespace Duck

open PoolManager

def BufferReplacer.pages (r : BufferReplacer) : List PageID :=
  r.mruPages.map Prod.snd

-- A pool in use: the pages that clients own, the pins they hold, and the pages of their calls of `new_page` and
-- `fetch_page`, the latest last.
structure Usage where
  pool     : PoolManager
  owned    : List PageID
  pins     : List PageID
  accesses : List PageID

-- `refuses` is what the operating system answers to the read of a fetch, and to all that follows.
inductive Usage.Call
  | newPage
  | fetchPage (p : PageID) (refuses : Bool)
  | unpinPage (p : PageID) (dirty : Bool)
  | deletePage (p : PageID)
  | system (refuses : Bool)

namespace Usage

-- The calls may fail. Clients fetch and delete pages they own, and give back pins they hold.
inductive Step (s : Usage) : Call → Usage → Prop
  | newPage    : (s.pool.newPage = (.ok (some f), m)) → Step s .newPage {
      pool     := m
      owned    := (m.frames f).pageId :: s.owned
      pins     := (m.frames f).pageId :: s.pins
      accesses := s.accesses ++ [(m.frames f).pageId] }
  | noNewPage  : (s.pool.newPage = (result, m)) → (∀ f, result ≠ .ok (some f)) → Step s .newPage { s with pool := m }
  | fetchPage  : (p ∈ s.owned) → (s.pool.fetchPageWith p refuses = (.ok (some f), m)) → Step s (.fetchPage p refuses) {
      s with pool := m, pins := p :: s.pins, accesses := s.accesses ++ [p] }
  | noPage     : (p ∈ s.owned) → (s.pool.fetchPageWith p refuses = (result, m)) → (∀ f, result ≠ .ok (some f)) →
    Step s (.fetchPage p refuses) { s with pool := m, accesses := s.accesses ++ [p] }
  | unpinPage  : (s.pins = pins₁ ++ p :: pins₂) → Step s (.unpinPage p dirty) {
      s with pool := s.pool.unpinPage p dirty, pins := pins₁ ++ pins₂ }
  | deletePage : (p ∈ s.owned) → (s.pool.deletePage p = (.ok deleted, m)) → Step s (.deletePage p) {
      s with pool := m, owned := if deleted then s.owned.filter (· ≠ p) else s.owned }
  | system     : Step s (.system refuses) { s with pool := s.pool.setFailing refuses }

def Cached (s : Usage) (p : PageID) : Prop :=
  ∃ f, s.pool.pageTable p = some f

def Unpinned (s : Usage) (p : PageID) : Prop :=
  ∃ f, s.pool.pageTable p = some f ∧ (s.pool.frames f).pinCount = 0

-- No frame is free, and none has not been used yet.
def Full (s : Usage) : Prop :=
  s.pool.freeFrames = [] ∧ s.pool.poolCapacity ≤ s.pool.poolSize

def AllPinned (s : Usage) : Prop :=
  ∀ f < s.pool.poolCapacity, (s.pool.frames f).pinCount ≠ 0

-- `allocate_page` has a valid id to give.
def HasId (s : Usage) : Prop :=
  s.pool.disk.freeList = [] → s.pool.disk.capacity < invalidPageID

-- The page that would go can be written back, if it is dirty.
def Writable (s : Usage) : Prop :=
  ∀ f, s.pool.Victim f → (s.pool.frames f).isDirty → s.pool.disk.file.failing = false

-- The call needs a frame.
def Acquires (s : Usage) : Call → Prop
  | .newPage       => True
  | .fetchPage p _ => ¬s.Cached p
  | _              => False

structure CarefulStep (s : Usage) (call : Call) (t : Usage) : Prop where
  step   : s.Step call t
  id     : call = .newPage → s.HasId
  writes : s.Acquires call → s.Writable

-- The page that goes is the unpinned one whose last access is the oldest.
structure EvictsLru (s : Usage) : Prop where
  listed    : ∀ p, p ∈ s.pool.replacer.pages ↔ s.Cached p
  once      : s.pool.replacer.pages.Nodup
  indexed   : ∀ p node, s.pool.replacer.positions p = some node ↔ (node, p) ∈ s.pool.replacer.mruPages
  ordered   : s.pool.replacer.pages.Pairwise (Recency.Older s.accesses)
  evicts    : ∀ call t p, s.Step call t → s.Cached p → ¬t.Cached p → call ≠ .deletePage p →
    s.Full ∧ s.Unpinned p ∧ ∀ q, s.Unpinned q → q ≠ p → Recency.Older s.accesses p q
  newPage   : s.HasId → (s.pool.newPage.1 = .ok none ↔ s.AllPinned)
  fetchPage : ∀ p refuses, p ∈ s.owned → ¬s.Cached p →
    ((s.pool.fetchPageWith p refuses).1 = .ok none ↔ s.AllPinned)

-- A new pool. Clients may own pages of the file.
inductive Initial : Usage → Prop
  | start : d.WellFormed → (∀ p ∈ ids, d.InUse p) → Initial ⟨.create d n, ids, [], []⟩

structure Invariant (s : Usage) : Prop where
  pool   : s.pool.WellFormed
  disk   : s.pool.disk.WellFormed
  inUse  : ∀ {p}, p ∈ s.owned → s.pool.disk.InUse p
  cached : ∀ {p f}, s.pool.pageTable p = some f → p ∈ s.owned
  ranked : Recency.Ranked s.accesses s.pool.replacer.pages

end Usage

namespace BufferReplacer

variable {r : BufferReplacer} {p q : PageID}

theorem mem_pages : p ∈ r.pages ↔ r.Tracks p := by
  simp [pages, Tracks]

theorem WellFormed.pages_remove (hw : r.WellFormed) : (r.remove p).pages = r.pages.filter (· ≠ p) := by
  have hm : (r.remove p).mruPages = r.mruPages.filter (·.2 ≠ p) := by
    simp only [BufferReplacer.remove]
    split
    case h_1 node hn =>
      refine List.filter_congr ?_
      rintro ⟨node', q⟩ hx
      have he : node' = node ↔ q = p := by
        constructor
        · rintro rfl
          exact hw.inj hx (hw.pos.mp hn)
        · rintro rfl
          exact Option.some.inj <| (hw.pos.mpr hx).symm.trans hn
      simp only [ne_eq, he]
    case h_2 hn =>
      refine (List.filter_eq_self.mpr ?_).symm
      rintro ⟨node, q⟩ hx
      have hq : q ≠ p := by
        rintro rfl
        cases hn.symm.trans (hw.pos.mpr hx)
      simpa using hq
  rw [pages, hm, pages, List.filter_map]
  rfl

theorem WellFormed.pages_record (hw : r.WellFormed) : (r.record p).pages = r.pages.filter (· ≠ p) ++ [p] := by
  rw [←hw.pages_remove, pages, BufferReplacer.record, List.map_append]
  rfl

end BufferReplacer

namespace PoolManager

variable {m m' : PoolManager} {p q : PageID} {f : FrameID} {h : List PageID}

theorem findNextFrame_replacer (hn : m.findNextFrame = (f, m')) : m'.replacer = m.replacer := by
  obtain rfl : m.findNextFrame.2 = m' := congrArg Prod.snd hn
  simp only [findNextFrame]
  grind

theorem unmapped_pages (hw : m.replacer.WellFormed) :
    (m.unmapped f).replacer.WellFormed ∧ ((m.unmapped f).replacer.pages.Sublist m.replacer.pages) := by
  rw [unmapped]
  split
  case isTrue  => exact ⟨hw.remove, hw.pages_remove ▸ List.filter_sublist⟩
  case isFalse => exact ⟨hw, .refl _⟩

theorem swapFrame_pages (hw : m.WellFormed) (h : m.swapFrame p = (.ok (some f), m')) :
    ∃ l, l.Sublist m.replacer.pages ∧ p ∉ l ∧ m'.replacer.pages = l ++ [p] := by
  rcases hn : m.findNextFrame with ⟨g, m₁⟩
  by_cases hv : g = invalidFrameID
  case pos =>
    subst hv
    rw [swapFrame_invalid hn] at h
    cases h
  case neg =>
    have hr := findNextFrame_replacer hn
    obtain ⟨hu, hs⟩ := unmapped_pages (f := g) (hr ▸ hw.replacer)
    rw [swapFrame_eq hn hv] at h
    split at h
    case h_1      => cases h
    case h_2 d hd =>
      obtain ⟨-, rfl⟩ := Prod.mk.inj h
      refine ⟨(m₁.unmapped g).replacer.pages.filter (· ≠ p), ?_, by simp, hu.pages_record⟩
      exact List.filter_sublist.trans (hr ▸ hs)

-- A page that leaves the pool when a frame is taken is the one that `find_lru` names.
theorem Consistent.swapFrame_evicts (hc : m.Consistent) (ht : m.pageTable q ≠ none)
    (hq : (m.swapFrame p).2.pageTable q = none) :
    m.freeFrames = [] ∧ m.poolCapacity ≤ m.poolSize ∧ m.replacer.findLru m.frames m.pageTable = q ∧ q ≠ invalidPageID := by
  obtain ⟨-, f, m₁, hn, hf⟩ | ⟨-, hn⟩ | ⟨-, -, hn⟩ := hc.found
  · obtain ⟨g, hg⟩ := Option.ne_none_iff_exists'.mp ht
    have hu : (m₁.unmapped f).pageTable q = none := by
      rw [swapFrame_eq hn hf.valid] at hq
      split at hq
      case h_1 => exact hq
      case h_2 =>
        by_cases hqp : q = p
        case pos =>
          subst hqp
          cases (Function.update_self ..).symm.trans hq
        case neg => exact (Function.update_of_ne hqp ..).symm.trans hq
    have hgf : g = f := by
      by_contra he
      cases hu.symm.trans <| (hc.unmapped_pageTable hf).mpr ⟨hg, he⟩
    subst hgf
    obtain ⟨-, hnone⟩ | hv := hf.source
    · exact absurd hg (hnone q)
    · have he := (hc.table_page hv.page).symm.trans (hc.table_page hg)
      exact ⟨hv.free, hv.size, he, he ▸ hv.valid⟩
  · rw [swapFrame_invalid hn] at hq
    exact absurd hq ht
  · rw [swapFrame_invalid hn] at hq
    exact absurd hq ht

theorem fetchPageWith_evicts (ht : m.pageTable q ≠ none)
    (hq : (m.fetchPageWith p refuses).2.pageTable q = none) : (m.swapFrame p).2.pageTable q = none := by
  cases hp : m.pageTable p
  case some f =>
    rw [fetchPageWith, findCachedPage_hit hp] at hq
    exact absurd hq ht
  case none   =>
    rw [fetchPageWith_miss hp] at hq
    rcases hs : m.swapFrame p with ⟨_ | _ | f, m₁⟩ <;> rw [hs] at hq
    · exact hq
    · exact hq
    · rw [readFrame_pageTable] at hq
      exact hq

theorem WellFormed.not_exhausted (hw : m.WellFormed) (hp : p < m.disk.capacity) (ht : m.pageTable p = none) :
    ¬m.Exhausted := by
  intro he
  have hs := hw.size_lt he.free hp ht
  have hv : m.poolSize = 4294967295 := he.valid
  have := m.disk.capacity.toNat_lt
  omega

theorem WellFormed.tracked_valid (hw : m.WellFormed) (ht : m.replacer.Tracks p) : p ≠ invalidPageID := by
  obtain ⟨f, hf⟩ := hw.tracks.mp ht
  exact ne_invalid (hw.table_valid hf)

theorem WellFormed.available_iff (hw : m.WellFormed) (he : ¬m.Exhausted) :
    ¬m.Available ↔ ∀ f < m.poolCapacity, (m.frames f).pinCount ≠ 0 := by
  constructor
  · intro ha f hf hz
    have hfree : m.freeFrames = [] := by_contra fun h => ha (.free h)
    have hsize : m.poolCapacity ≤ m.poolSize := by
      by_contra hs
      have hs := Nat.not_le.mp hs
      exact he ⟨hfree, hs, by_contra fun hv => ha (.grows hfree hs hv)⟩
    have hlru : m.replacer.findLru m.frames m.pageTable = invalidPageID :=
      by_contra fun h => ha (.victim hfree hsize h)
    have ht := hw.used (hf.trans_le hsize) (hfree ▸ List.not_mem_nil)
    exact BufferReplacer.findLru_invalid hlru hw.tracked_valid (hw.tracks.mpr ⟨f, ht⟩) ht hz
  · intro hp ha
    cases ha
    case free h        =>
      obtain ⟨f, hf⟩ := List.exists_mem_of_ne_nil _ h
      refine hp f ((hw.free_lt hf).trans_le hw.size_le) ?_
      rw [hw.blank (.inl hf)]
      rfl
    case grows hs _    =>
      refine hp _ hs ?_
      rw [hw.blank (.inr le_rfl)]
      rfl
    case victim _ _ hv =>
      obtain ⟨-, f, ht, hz⟩ := BufferReplacer.findLru_spec rfl hv
      exact hp f ((hw.table_lt ht).trans_le hw.size_le) hz

theorem WellFormed.swapFrame_none_iff (hw : m.WellFormed) (he : ¬m.Exhausted) :
    (m.swapFrame p).1 = .ok none ↔ ∀ f < m.poolCapacity, (m.frames f).pinCount ≠ 0 := by
  rw [←hw.available_iff he]
  obtain ⟨ha, f, m₁, hn, hf⟩ | ⟨hx, -⟩ | ⟨ha, -, hn⟩ := hw.consistent.found
  · refine iff_of_false ?_ (not_not.mpr ha)
    rw [swapFrame_eq hn hf.valid]
    split <;> nofun
  · exact absurd hx he
  · exact iff_of_true (by rw [swapFrame_invalid hn]) ha

theorem WellFormed.swapFrame_ok (hw : m.WellFormed)
    (hd : ∀ f, m.Victim f → (m.frames f).isDirty → m.disk.file.failing = false) : (m.swapFrame p).1 ≠ .error e := by
  obtain ⟨-, f, m₁, hn, hf⟩ | ⟨-, hn⟩ | ⟨-, -, hn⟩ := hw.consistent.found
  · obtain ⟨m₂, hs⟩ := (Found.swapFrame_isOk hn hf).mpr fun hdirty =>
      ⟨hd f (hf.victim_of_dirty hdirty) hdirty, hw.table_page (hf.victim_of_dirty hdirty).page ▸
        hw.table_valid (hf.victim_of_dirty hdirty).page⟩
    rw [hs]
    nofun
  · rw [swapFrame_invalid hn]
    nofun
  · rw [swapFrame_invalid hn]
    nofun

theorem unpinPage_fields : (m.unpinPage p dirty).pageTable = m.pageTable ∧ (m.unpinPage p dirty).replacer = m.replacer ∧
    (m.unpinPage p dirty).disk = m.disk := by
  rw [unpinPage]
  split <;> exact ⟨rfl, rfl, rfl⟩

-- What becomes of a pool when a frame is asked for, and the page that would go can be written back.
theorem WellFormed.swapFrame_cases (hw : m.WellFormed) (hp : p < m.disk.capacity) (ht : m.pageTable p = none)
    (hd : ∀ f, m.Victim f → (m.frames f).isDirty → m.disk.file.failing = false) (h : m.swapFrame p = (result, m')) :
    (result = .ok none ∧ m' = m) ∨ ∃ f, result = .ok (some f) ∧ m.Swapped p f m' := by
  obtain hs | ⟨f, m₁, hs, hx⟩ | ⟨e, m₁, hs, -⟩ := hw.swapFrame hp ht
  · obtain ⟨rfl, rfl⟩ := Prod.mk.inj <| hs.symm.trans h
    exact .inl ⟨rfl, rfl⟩
  · obtain ⟨rfl, rfl⟩ := Prod.mk.inj <| hs.symm.trans h
    exact .inr ⟨f, rfl, hx⟩
  · exact absurd (congrArg Prod.fst hs) (hw.swapFrame_ok hd)

theorem Swapped.table_cases (hx : m.Swapped p f m') (hw : m.WellFormed) (h : m'.pageTable q = some g) :
    q = p ∨ m.pageTable q = some g :=
  or_iff_not_imp_left.mpr fun hq => ((hx.table_iff hw hq).mp h).1

theorem Swapped.disk_wellFormed (hx : m.Swapped p f m') (hd : m.disk.WellFormed) : m'.disk.WellFormed := by
  rw [hx.disk, writeBack]
  split
  · exact hd.written
  · exact hd

-- What a `fetch_page` of a page in use leaves, whatever the read gives.
inductive Refetched (m : PoolManager) (p : PageID) (result : Except String (Option FrameID)) (m' : PoolManager) : Prop
  | hit  (table : m.pageTable p = some frameId) (pool : m' = m.pinned p frameId)
  | full (table : m.pageTable p = none) (none : result = .ok none) (pool : m' = m)
  | miss (table : m.pageTable p = none) (swap : m.swapFrame p = (.ok (some frameId), m₁)) (swapped : m.Swapped p frameId m₁)
    (wellFormed : m'.WellFormed) (pageTable : m'.pageTable = m₁.pageTable) (replacer : m'.replacer = m₁.replacer)
    (capacity : m'.disk.capacity = m₁.disk.capacity) (freeList : m'.disk.freeList = m₁.disk.freeList)

theorem WellFormed.fetchPageWith (hw : m.WellFormed) (hp : p < m.disk.capacity)
    (hd : m.pageTable p = none → ∀ f, m.Victim f → (m.frames f).isDirty → m.disk.file.failing = false)
    (h : m.fetchPageWith p refuses = (result, m')) : m.Refetched p result m' := by
  cases ht : m.pageTable p
  case some f =>
    rw [PoolManager.fetchPageWith, findCachedPage_hit ht] at h
    obtain ⟨rfl, rfl⟩ := Prod.mk.inj h
    exact .hit ht rfl
  case none =>
    rw [fetchPageWith_miss ht] at h
    rcases hs : m.swapFrame p with ⟨r, m₁⟩
    rw [hs] at h
    obtain ⟨rfl, rfl⟩ | ⟨f, rfl, hx⟩ := hw.swapFrame_cases hp ht (hd ht) hs
    · obtain ⟨rfl, rfl⟩ := Prod.mk.inj h
      exact .full ht rfl rfl
    · have hf : (m₁.setFailing refuses).WellFormed := hx.wellFormed.setDisk le_rfl
      have ht' : (m₁.setFailing refuses).pageTable p = some f := hx.table_self
      simp only [readFrame] at h
      split at h
      case h_1 =>
        obtain ⟨-, rfl⟩ := Prod.mk.inj h
        exact .miss ht hs hx hf rfl rfl rfl rfl
      case h_2 =>
        obtain ⟨-, rfl⟩ := Prod.mk.inj h
        exact .miss ht hs hx (hf.setFrame ht' (hf.table_page ht')) rfl rfl rfl rfl

end PoolManager

namespace BufferReplacer

variable {r : BufferReplacer} {frames : FrameID → Page} {pageTable : PageID → Option FrameID}

theorem findLru_eq : r.findLru frames pageTable =
    (r.pages.find? fun p => (pageTable p).any fun f => (frames f).pinCount = 0).getD invalidPageID := by
  rw [findLru, pages, List.find?_map]
  rfl

end BufferReplacer

namespace Usage

variable {s t : Usage} {call : Call} {p q : PageID}

theorem Initial.invariant (h : Initial s) : s.Invariant := by
  cases h
  case start hd hi => exact ⟨create_wellFormed, hd, fun hp => hi _ hp, nofun, .nil⟩

theorem ranked_swapped {m m' : PoolManager} (hw : m.WellFormed) (hs : m.swapFrame p = (.ok (some f), m'))
    (hr : Recency.Ranked h m.replacer.pages) : Recency.Ranked (h ++ [p]) m'.replacer.pages := by
  obtain ⟨l, hl, hp, he⟩ := swapFrame_pages hw hs
  rw [he]
  exact (hr.sublist hl).access hp

theorem inUse_of {d d' : DiskManager} (hc : d'.capacity = d.capacity) (hl : d'.freeList = d.freeList) (hu : d.InUse p) :
    d'.InUse p :=
  ⟨hc ▸ hu.lt, hu.ne, hl ▸ hu.not_free⟩

theorem wellFormed_of {d d' : DiskManager} (hc : d'.capacity = d.capacity) (hl : d'.freeList = d.freeList)
    (hd : d.WellFormed) : d'.WellFormed := by
  obtain ⟨h₁, h₂, h₃, h₄, h₅⟩ := hd
  rw [←hc] at h₁ h₂
  rw [←hl] at h₂ h₃ h₄ h₅
  exact ⟨h₁, h₂, h₃, h₄, h₅⟩

theorem Invariant.newPage (hi : s.Invariant) (hid : s.HasId) (hd : s.Writable) (hs : s.Step .newPage t) : t.Invariant := by
  have hx := hi.disk.allocatePage hid
  have hw := hi.pool.setDisk hx.le
  have hu := hx.inUse.mpr (.inr rfl)
  have ht : s.pool.pageTable s.pool.disk.allocatePage.1 = none :=
    Option.eq_none_iff_forall_ne_some.mpr fun f hf => hx.fresh <| hi.inUse <| hi.cached hf
  have hd : ∀ f, ({ s.pool with disk := s.pool.disk.allocatePage.2 } : PoolManager).Victim f → (s.pool.frames f).isDirty →
      s.pool.disk.allocatePage.2.file.failing = false := by
    intro f hv
    rw [hx.file]
    exact hd f ⟨hv.free, hv.size, hv.valid, hv.page⟩
  cases hs
  case newPage m f h   =>
    rw [newPage_eq] at h
    obtain ⟨hr, -⟩ | ⟨_, hr, hsw⟩ := hw.swapFrame_cases hu.lt ht hd h
    · cases hr
    · cases hr
      have hp : (m.frames f).pageId = s.pool.disk.allocatePage.1 := by rw [hsw.frame_self]
      simp only [hp]
      refine ⟨hsw.wellFormed, hsw.disk_wellFormed hx.wellFormed, fun hq => hsw.inUse ?_, fun hq => ?_,
        ranked_swapped hw h hi.ranked⟩
      · obtain rfl | hq := List.mem_cons.mp hq
        · exact hu
        · exact hx.inUse.mpr (.inl <| hi.inUse hq)
      · obtain rfl | hq := hsw.table_cases hw hq
        · exact List.mem_cons_self
        · exact List.mem_cons_of_mem _ <| hi.cached hq
  case noNewPage m h hn =>
    rw [newPage_eq] at h
    obtain ⟨-, rfl⟩ | ⟨f, hr, -⟩ := hw.swapFrame_cases hu.lt ht hd h
    · exact ⟨hw, hx.wellFormed, fun hq => hx.inUse.mpr (.inl <| hi.inUse hq), hi.cached, hi.ranked⟩
    · exact absurd hr (hn f)

-- A fetch is an access, whatever becomes of it.
theorem Invariant.refetched {m : PoolManager} (hi : s.Invariant) (hp : p ∈ s.owned) (hf : s.pool.Refetched p result m) :
    Invariant { s with pool := m, accesses := s.accesses ++ [p], pins := ps } := by
  cases hf
  case hit f ht hm =>
    subst hm
    refine ⟨hi.pool.pinned ht, hi.disk, hi.inUse, hi.cached, ?_⟩
    change Recency.Ranked _ (s.pool.replacer.record p).pages
    rw [hi.pool.replacer.pages_record]
    exact (hi.ranked.sublist List.filter_sublist).access (by simp)
  case full ht hr hm =>
    subst hm
    refine ⟨hi.pool, hi.disk, hi.inUse, hi.cached, hi.ranked.extend fun hm => ?_⟩
    obtain ⟨f, hf⟩ := hi.pool.tracks.mp (BufferReplacer.mem_pages.mp hm)
    cases ht.symm.trans hf
  case miss f m₁ ht hs hx hw htable hr hc hl =>
    refine ⟨hw, wellFormed_of hc hl (hx.disk_wellFormed hi.disk), fun hq => inUse_of hc hl (hx.inUse (hi.inUse hq)),
      fun hq => ?_, ?_⟩
    · obtain rfl | hq := hx.table_cases hi.pool (htable ▸ hq)
      · exact hp
      · exact hi.cached hq
    · rw [hr]
      exact ranked_swapped hi.pool hs hi.ranked

theorem Invariant.fetchPage (hi : s.Invariant) (hd : ¬s.Cached p → s.Writable) (hs : s.Step (.fetchPage p refuses) t) :
    t.Invariant := by
  have hd : s.pool.pageTable p = none → ∀ f, s.pool.Victim f → (s.pool.frames f).isDirty →
      s.pool.disk.file.failing = false := by
    intro hn
    refine hd ?_
    rintro ⟨f, hf⟩
    cases hn.symm.trans hf
  cases hs
  case fetchPage hp h => exact hi.refetched hp (hi.pool.fetchPageWith (hi.inUse hp).lt hd h)
  case noPage _ hp h  => exact hi.refetched hp (hi.pool.fetchPageWith (hi.inUse hp).lt hd h)

theorem Invariant.deletePage (hi : s.Invariant) (hs : s.Step (.deletePage p) t) : t.Invariant := by
  cases hs
  case deletePage m deleted hp h =>
    obtain ⟨h', -⟩ | ⟨m', h', hx⟩ := WellFormed.deletePage hi.disk (hi.inUse hp)
    · obtain ⟨hr, rfl⟩ := Prod.mk.inj <| h'.symm.trans h
      obtain rfl := Except.ok.inj hr
      exact ⟨hi.pool, hi.disk, hi.inUse, hi.cached, hi.ranked⟩
    · obtain ⟨hr, rfl⟩ := Prod.mk.inj <| h'.symm.trans h
      obtain rfl := Except.ok.inj hr
      simp only [if_true]
      have hw := hi.pool.deleted hx
      cases hx
      case uncached d ht hd =>
        refine ⟨hw, hd.wellFormed, fun hq => ?_, fun {q f} hq => ?_, hi.ranked⟩
        · obtain ⟨hq, hn⟩ := List.mem_filter.mp hq
          exact (hd.inUse (of_decide_eq_true hn)).mpr (hi.inUse hq)
        · refine List.mem_filter.mpr ⟨hi.cached hq, decide_eq_true ?_⟩
          rintro rfl
          cases ht.symm.trans hq
      case cached f d ht hz hd =>
        refine ⟨hw, hd.wellFormed, fun hq => ?_, fun {q f} hq => ?_, ?_⟩
        · obtain ⟨hq, hn⟩ := List.mem_filter.mp hq
          exact (hd.inUse (of_decide_eq_true hn)).mpr (hi.inUse hq)
        · obtain ⟨hn, hq, -⟩ := hi.pool.freed_table ht hq
          exact List.mem_filter.mpr ⟨hi.cached hq, decide_eq_true hn⟩
        · change Recency.Ranked _ (s.pool.replacer.remove p).pages
          rw [hi.pool.replacer.pages_remove]
          exact hi.ranked.sublist List.filter_sublist

theorem CarefulStep.invariant (h : s.CarefulStep call t) (hi : s.Invariant) : t.Invariant := by
  obtain ⟨hs, hid, hd⟩ := h
  cases call
  case newPage    => exact hi.newPage (hid rfl) (hd trivial) hs
  case fetchPage  => exact hi.fetchPage hd hs
  case deletePage => exact hi.deletePage hs
  case unpinPage p dirty =>
    cases hs
    obtain ⟨ht, hr, hd⟩ : (s.pool.unpinPage p dirty).pageTable = _ ∧ _ ∧ _ := unpinPage_fields
    exact ⟨hi.pool.unpinPage, hd ▸ hi.disk, fun hq => hd ▸ hi.inUse hq, fun hq => hi.cached (ht ▸ hq), hr ▸ hi.ranked⟩
  case system refuses =>
    cases hs
    have hc : (s.pool.setFailing refuses).disk.capacity = s.pool.disk.capacity := rfl
    have hl : (s.pool.setFailing refuses).disk.freeList = s.pool.disk.freeList := rfl
    exact ⟨hi.pool.setDisk le_rfl, wellFormed_of hc hl hi.disk, fun hq => inUse_of hc hl (hi.inUse hq), hi.cached, hi.ranked⟩

theorem Invariant.oldest (hi : s.Invariant) (hl : s.pool.replacer.findLru s.pool.frames s.pool.pageTable = p)
    (hv : p ≠ invalidPageID) : s.Unpinned p ∧ ∀ q, s.Unpinned q → q ≠ p → Recency.Older s.accesses p q := by
  refine ⟨(BufferReplacer.findLru_spec hl hv).2, fun q hq hn => ?_⟩
  rw [BufferReplacer.findLru_eq] at hl
  generalize hf : s.pool.replacer.pages.find? _ = found at hl
  cases found
  case none   => exact absurd hl.symm hv
  case some a =>
    obtain rfl : a = p := hl
    obtain ⟨f, ht, hz⟩ := hq
    refine hi.ranked.first hf (BufferReplacer.mem_pages.mpr <| hi.pool.tracks.mpr ⟨f, ht⟩) ?_ hn
    simp only [ht, Option.any_some, hz, decide_true]

theorem Invariant.evicts (hi : s.Invariant) (hs : s.Step call t) (hp : s.Cached p) (ht : ¬t.Cached p)
    (hd : call ≠ .deletePage p) :
    s.Full ∧ s.Unpinned p ∧ ∀ q, s.Unpinned q → q ≠ p → Recency.Older s.accesses p q := by
  have hc := hi.pool.consistent
  have hcached : s.pool.pageTable p ≠ none := Option.ne_none_iff_exists'.mpr hp
  replace ht : t.pool.pageTable p = none := Option.eq_none_iff_forall_ne_some.mpr fun f hf => ht ⟨f, hf⟩
  have hc' : { s.pool with disk := s.pool.disk.allocatePage.2 }.Consistent := hc.setDisk
  have hnew {m result} (h : s.pool.newPage = (result, m)) (hm : m.pageTable p = none) :
      s.Full ∧ s.Unpinned p ∧ ∀ q, s.Unpinned q → q ≠ p → Recency.Older s.accesses p q := by
    rw [newPage_eq] at h
    have hm : (swapFrame _ _).2.pageTable p = none := (congrArg (·.2.pageTable p) h).trans hm
    obtain ⟨h₁, h₂, h₃, h₄⟩ := hc'.swapFrame_evicts hcached hm
    exact ⟨⟨h₁, h₂⟩, hi.oldest h₃ h₄⟩
  have hfetch {q refuses m result} (h : s.pool.fetchPageWith q refuses = (result, m)) (hm : m.pageTable p = none) :
      s.Full ∧ s.Unpinned p ∧ ∀ q, s.Unpinned q → q ≠ p → Recency.Older s.accesses p q := by
    have hm : (s.pool.fetchPageWith q refuses).2.pageTable p = none := (congrArg (·.2.pageTable p) h).trans hm
    obtain ⟨h₁, h₂, h₃, h₄⟩ := hc.swapFrame_evicts hcached (fetchPageWith_evicts hcached hm)
    exact ⟨⟨h₁, h₂⟩, hi.oldest h₃ h₄⟩
  cases hs
  case newPage h     => exact hnew h ht
  case noNewPage h _ => exact hnew h ht
  case fetchPage h   => exact hfetch h ht
  case noPage h _    => exact hfetch h ht
  case unpinPage    =>
    rw [unpinPage_fields.1] at ht
    exact absurd ht hcached
  case system       => exact absurd ht hcached
  case deletePage q m deleted hq h =>
    have hpq : p ≠ q := fun he => hd (he ▸ rfl)
    obtain ⟨h', -⟩ | ⟨m', h', hx⟩ := WellFormed.deletePage hi.disk (hi.inUse hq)
    · obtain ⟨-, rfl⟩ := Prod.mk.inj <| h'.symm.trans h
      exact absurd ht hcached
    · obtain ⟨-, rfl⟩ := Prod.mk.inj <| h'.symm.trans h
      cases hx
      case uncached => exact absurd ht hcached
      case cached   => exact absurd ((Function.update_of_ne hpq ..).symm.trans ht) hcached

theorem Invariant.newPage_none (hi : s.Invariant) (hid : s.HasId) : s.pool.newPage.1 = .ok none ↔ s.AllPinned := by
  have hx := hi.disk.allocatePage hid
  have hw := hi.pool.setDisk hx.le
  have ht : s.pool.pageTable s.pool.disk.allocatePage.1 = none :=
    Option.eq_none_iff_forall_ne_some.mpr fun f hf => hx.fresh <| hi.inUse <| hi.cached hf
  rw [newPage_eq]
  exact hw.swapFrame_none_iff <| hw.not_exhausted (hx.inUse.mpr (.inr rfl)).lt ht

theorem Invariant.fetchPage_none (hi : s.Invariant) (hp : p ∈ s.owned) (hn : ¬s.Cached p) :
    (s.pool.fetchPageWith p refuses).1 = .ok none ↔ s.AllPinned := by
  have ht : s.pool.pageTable p = none := Option.eq_none_iff_forall_ne_some.mpr fun f hf => hn ⟨f, hf⟩
  have hs : s.pool.swapFrame p = _ := rfl
  refine Iff.trans ?_ <| hi.pool.swapFrame_none_iff (p := p) <| hi.pool.not_exhausted (hi.inUse hp).lt ht
  rw [fetchPageWith_miss ht]
  rcases s.pool.swapFrame p with ⟨_ | _ | f, m⟩
  · exact .rfl
  · exact .rfl
  · have hr : (m.setFailing refuses |>.readFrame f p).1 ≠ .ok none := by
      simp only [readFrame]
      split <;> rintro ⟨⟩
    refine iff_of_false hr ?_
    rintro ⟨⟩

theorem Invariant.evictsLru (hi : s.Invariant) : s.EvictsLru where
  listed _       := BufferReplacer.mem_pages.trans hi.pool.tracks
  once           := hi.ranked.nodup
  indexed _ _    := hi.pool.replacer.pos
  ordered        := hi.ranked.ordered
  evicts _ _ _   := hi.evicts
  newPage        := hi.newPage_none
  fetchPage _ _  := hi.fetchPage_none

theorem evicts_leastRecentlyUsed (h : Runs.Reachable Initial CarefulStep s) : s.EvictsLru :=
  Invariant.evictsLru <| h.invariant Initial.invariant CarefulStep.invariant

-- A pool of one frame, whose page has been given back with a change.
def given : Usage :=
  ⟨crowded, [1], [1], [1]⟩

def changed : Usage :=
  ⟨crowded.unpinPage 1 true, [1], [], [1]⟩

theorem start_single : Initial ⟨single, [], [], []⟩ :=
  .start ⟨by decide, nofun, nofun, .nil, Nat.zero_le _⟩ nofun

theorem step_given : Step ⟨single, [], [], []⟩ .newPage given :=
  .newPage (f := 0) rfl

theorem step_changed : given.Step (.unpinPage 1 true) changed :=
  have h : given.pins = [] ++ 1 :: [] := rfl
  .unpinPage h

theorem evicts_leastRecentlyUsed_changed : changed.EvictsLru := by
  have h₁ : CarefulStep ⟨single, [], [], []⟩ .newPage given := ⟨step_given, fun _ _ => by decide, fun _ _ _ _ => rfl⟩
  have h₂ : given.CarefulStep (.unpinPage 1 true) changed := by
    refine ⟨step_changed, fun h => ?_, fun h => ?_⟩
    · cases h
    · exact h.elim
  exact evicts_leastRecentlyUsed <| ((Runs.Reachable.start start_single).next h₁).next h₂

-- The change cannot be written, and the frame is out of use from then on.
def refused : Usage :=
  { changed with pool := changed.pool.setFailing true }

def lost : Usage :=
  { refused with pool := refused.pool.newPage.2 }

theorem not_evicts_leastRecentlyUsed : ¬∀ s, Runs.Reachable Initial Step s → s.EvictsLru := by
  intro h
  have h₃ : changed.Step (.system true) refused := .system
  have h₄ : refused.Step .newPage lost := .noNewPage rfl fun f h => by cases h
  have hr := ((((Runs.Reachable.start start_single).next step_given).next step_changed).next h₃).next h₄
  have hp : lost.AllPinned := ((h lost hr).newPage fun _ => by decide).mp rfl
  exact hp 0 (by decide) (by decide)

end Usage
end Duck
