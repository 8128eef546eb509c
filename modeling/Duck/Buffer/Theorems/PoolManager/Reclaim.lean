import Duck.Buffer.Theorems.Pager

namespace Duck

namespace DiskManager

variable {d d' : DiskManager} {p : PageID}

theorem deallocatePage_freeList (h : d.deallocatePage p = .ok d') :
    d'.freeList = d.freeList ++ [p].take (1025 - d.freeList.length) := by
  simp only [deallocatePage] at h
  split_ifs at h with hz hl
  · obtain rfl := Except.ok.inj h
    rw [Nat.sub_eq_zero_of_le hl, List.take_zero, List.append_nil]
  · obtain rfl := Except.ok.inj h
    rw [List.take_of_length_le]
    rw [List.length_singleton]
    omega

-- The pages that repeated calls of `allocate_page` hand out.
def allocatePages : ℕ → DiskManager → List PageID
  | 0,     _ => []
  | n + 1, d => d.allocatePage.1 :: allocatePages n d.allocatePage.2

theorem allocatePages_freeList (h : d.freeList = list) : allocatePages list.length d = list.reverse := by
  induction list using List.reverseRecOn generalizing d
  case nil             => rfl
  case append_singleton list p ih =>
    have ha : d.allocatePage = (p, { d with freeList := list }) := by
      simp only [allocatePage, h, List.getLast?_concat, List.dropLast_concat]
    rw [List.length_append, List.length_singleton, allocatePages, ha, ih rfl, List.reverse_concat]

end DiskManager

namespace PoolManager

variable {m m' m₁ : PoolManager} {owned : List PageID} {pins : List Pin} {p q : PageID} {ps qs : List PageID} {f g : FrameID}

-- A look at the pages `ps` leaves the pinned frames alone. Every other frame that was free, or had a page, still is
-- or does, unless it has now a page of `ps`.
structure Looked (m : PoolManager) (ps : List PageID) (m' : PoolManager) : Prop where
  freeList : m'.disk.freeList = m.disk.freeList
  frames   : ∀ {g}, (m.frames g).pinCount ≠ 0 → m'.frames g = m.frames g
  free     : ∀ {g}, g ∈ m.freeFrames → g ∈ m'.freeFrames ∨ ∃ p ∈ ps, m'.pageTable p = some g
  table    : ∀ {q g}, m.pageTable q = some g → m'.pageTable q = some g ∨ ∃ p ∈ ps, m'.pageTable p = some g

namespace Looked

theorem refl : m.Looked ps m :=
  ⟨rfl, fun _ => rfl, .inl, .inl⟩

theorem trans (h : m.Looked ps m') (h' : m'.Looked ps m₁) : m.Looked ps m₁ where
  freeList    := h'.freeList.trans h.freeList
  frames hz   := (h'.frames <| (h.frames hz).symm ▸ hz).trans <| h.frames hz
  free hg     := by
    obtain hg | ⟨p, hp, hg⟩ := h.free hg
    · exact h'.free hg
    · exact (h'.table hg).elim (fun hg => .inr ⟨p, hp, hg⟩) .inr
  table hg    := by
    obtain hg | ⟨p, hp, hg⟩ := h.table hg
    · exact h'.table hg
    · exact (h'.table hg).elim (fun hg => .inr ⟨p, hp, hg⟩) .inr

theorem mono (h : m.Looked ps m') (hs : ps ⊆ qs) : m.Looked qs m' where
  freeList := h.freeList
  frames   := h.frames
  free hg  := (h.free hg).imp_right fun ⟨p, hp, hg⟩ => ⟨p, hs hp, hg⟩
  table hg := (h.table hg).imp_right fun ⟨p, hp, hg⟩ => ⟨p, hs hp, hg⟩

end Looked

theorem findNextFrame_free (h : m.findNextFrame = (f, m')) (hg : g ∈ m.freeFrames) : g = f ∨ g ∈ m'.freeFrames := by
  simp only [findNextFrame] at h
  split at h
  case h_1 f' hf =>
    obtain ⟨rfl, rfl⟩ := Prod.mk.inj h
    obtain ⟨list, hl⟩ := List.getLast?_eq_some_iff.mp hf
    rw [hl] at hg
    simp only [hl, List.dropLast_concat]
    exact (List.mem_append.mp hg).symm.imp_left List.mem_singleton.mp
  case h_2 hf =>
    rw [List.getLast?_eq_none_iff.mp hf] at hg
    cases hg

theorem swapFrame_free (h : m.swapFrame p = (.ok (some f), m')) (hg : g ∈ m.freeFrames) :
    g = f ∨ g ∈ m'.freeFrames := by
  obtain ⟨f₁, m₁, hn⟩ : ∃ f₁ m₁, m.findNextFrame = (f₁, m₁) := ⟨_, _, rfl⟩
  have hg := findNextFrame_free hn hg
  simp only [swapFrame, hn] at h
  split at h
  case isTrue  => cases h
  case isFalse =>
    split at h
    case h_1 => cases h
    case h_2 =>
      obtain ⟨⟨rfl⟩, rfl⟩ := Prod.mk.inj h
      refine hg.imp_right fun hg => ?_
      simp only [setFrame]
      split <;> exact hg

theorem fetchPage_free (h : m.fetchPage p = (.ok (some f), m')) (hg : g ∈ m.freeFrames) :
    g = f ∨ g ∈ m'.freeFrames := by
  simp only [fetchPage] at h
  split at h
  case h_1 hc =>
    obtain ⟨⟨rfl⟩, rfl⟩ := Prod.mk.inj h
    obtain ⟨-, rfl⟩ := findCachedPage_some hc
    exact .inr hg
  case h_2 hc =>
    obtain ⟨-, rfl⟩ := findCachedPage_none hc
    simp only [swapPage, if_true] at h
    split at h
    case h_1 f₁ m₁ hs =>
      simp only [readFrame] at h
      split at h
      case h_1 => cases h
      case h_2 =>
        obtain ⟨⟨rfl⟩, rfl⟩ := Prod.mk.inj h
        exact (swapFrame_free hs hg : _)
    case h_2 hn => exact absurd h (hn f m')

theorem Fetched.looked (h : m.Fetched p f m') (hw : m.WellFormed) (hm : m.pageTable p = none)
    (hf : ∀ {g}, g ∈ m.freeFrames → g = f ∨ g ∈ m'.freeFrames) : m.Looked [p] (m'.unpinPage p false) := by
  cases h
  case hit ht           => cases hm.symm.trans ht
  case miss m₁ ht hs =>
    have ht' : (m₁.setFrame f { m₁.frames f with data := m₁.disk.stored p }).pageTable p = some f := hs.table_self
    rw [unpinPage_eq ht']
    have hself : ∃ q ∈ [p], m₁.pageTable q = some f := ⟨p, List.mem_cons_self, hs.table_self⟩
    refine ⟨?_, fun {g} hz => ?_, fun {g} hg => ?_, fun {q g} hg => ?_⟩
    · exact hs.disk ▸ writeBack_freeList
    · have hg : g ≠ f := fun he => hz (he ▸ hs.unpinned)
      rw [setFrame_frames_ne hg, setFrame_frames_ne hg, hs.frame_ne hg]
    · obtain rfl | hg := hf hg
      · exact .inr hself
      · exact .inl hg
    · by_cases he : g = f
      case pos => exact .inr (he ▸ hself)
      case neg =>
        have hq : q ≠ p := by
          rintro rfl
          cases hm.symm.trans hg
        exact .inl <| (hs.table_iff hw hq).mpr ⟨hg, he⟩

-- The pages of `ps` that nobody has pinned leave the pool, and go on the free list as long as it has room for them.
structure Reclaimed (m : PoolManager) (pins : List Pin) (ps : List PageID) (m' : PoolManager) : Prop where
  freeList : m'.disk.freeList = m.disk.freeList ++
    (ps.filter fun p => pinsOn pins p = 0).take (1025 - m.disk.freeList.length)
  frames   : ∀ {g}, (m.frames g).pinCount ≠ 0 → m'.frames g = m.frames g
  free     : ∀ {g}, g ∈ m.freeFrames → g ∈ m'.freeFrames
  freed    : ∀ {p g}, p ∈ ps → pinsOn pins p = 0 → m.pageTable p = some g → g ∈ m'.freeFrames
  gone     : ∀ {p}, p ∈ ps → pinsOn pins p = 0 → m'.pageTable p = none
  stays    : ∀ {p}, (p ∈ ps → pinsOn pins p ≠ 0) → m'.pageTable p = m.pageTable p

namespace Reclaimed

theorem nil : m.Reclaimed pins [] m where
  freeList  := by rw [List.filter_nil, List.take_nil, List.append_nil]
  frames _  := rfl
  free      := id
  freed h   := absurd h List.not_mem_nil
  gone h    := absurd h List.not_mem_nil
  stays _   := rfl

theorem kept (hz : pinsOn pins p ≠ 0) (h : m.Reclaimed pins ps m') : m.Reclaimed pins (p :: ps) m' where
  freeList       := by
    rw [List.filter_cons_of_neg (by simpa using hz)]
    exact h.freeList
  frames         := h.frames
  free           := h.free
  freed hq hn ht := by
    obtain rfl | hq := List.mem_cons.mp hq
    · exact absurd hn hz
    · exact h.freed hq hn ht
  gone hq hn     := by
    obtain rfl | hq := List.mem_cons.mp hq
    · exact absurd hn hz
    · exact h.gone hq hn
  stays hq       := h.stays fun hm => hq <| List.mem_cons_of_mem _ hm

-- A page is deleted before the others.
theorem deleted (hd : m.Deleted p m') (hz : pinsOn pins p = 0) (hp : p ∉ ps)
    (hl : m'.disk.freeList = m.disk.freeList ++ [p].take (1025 - m.disk.freeList.length))
    (h : m'.Reclaimed pins ps m₁) : m.Reclaimed pins (p :: ps) m₁ := by
  have hfree {g} (hg : g ∈ m.freeFrames) : g ∈ m'.freeFrames := by
    cases hd
    case uncached   => exact hg
    case cached     => exact List.mem_append_left _ hg
  have hfreed {g} (hg : m.pageTable p = some g) : g ∈ m'.freeFrames := by
    cases hd
    case uncached ht _ => cases ht.symm.trans hg
    case cached ht _ _ =>
      obtain rfl := Option.some.inj <| ht.symm.trans hg
      exact List.mem_append_right _ List.mem_cons_self
  have hgone : m'.pageTable p = none := by
    cases hd
    case uncached ht _ => exact ht
    case cached        => exact Function.update_self ..
  have htable {q} (hq : q ≠ p) : m'.pageTable q = m.pageTable q := by
    cases hd
    case uncached => rfl
    case cached   => exact Function.update_of_ne hq ..
  have hframes {g} (hg : (m.frames g).pinCount ≠ 0) : m'.frames g = m.frames g := by
    cases hd
    case uncached      => rfl
    case cached hz' _ =>
      refine Function.update_of_ne ?_ ..
      rintro rfl
      exact hg hz'
  constructor
  case freeList =>
    rw [h.freeList, hl, List.filter_cons_of_pos (by simpa using hz), List.append_assoc, List.length_append]
    refine congrArg (m.disk.freeList ++ ·) ?_
    cases hx : 1025 - m.disk.freeList.length
    case zero   =>
      rw [List.take_zero, List.length_nil, Nat.add_zero, hx, List.take_zero, List.take_zero, List.nil_append]
    case succ n =>
      rw [List.take_succ_cons, List.take_succ_cons, List.take_nil, List.length_singleton, Nat.sub_add_eq, hx]
      rfl
  case frames => exact fun hg => (h.frames <| (hframes hg).symm ▸ hg).trans <| hframes hg
  case free   => exact fun hg => h.free (hfree hg)
  case freed  =>
    intro q g hq hn ht
    obtain rfl | hq := List.mem_cons.mp hq
    · exact h.free (hfreed ht)
    · have hqp : q ≠ p := fun he => hp (he ▸ hq)
      exact h.freed hq hn <| (htable hqp).trans ht
  case gone   =>
    intro q hq hn
    obtain rfl | hq := List.mem_cons.mp hq
    · rw [h.stays fun hm => absurd hm hp, hgone]
    · exact h.gone hq hn
  case stays  =>
    intro q hq
    have hqp : q ≠ p := by
      rintro rfl
      exact hq List.mem_cons_self hz
    rw [h.stays fun hm => hq <| List.mem_cons_of_mem _ hm, htable hqp]

end Reclaimed

theorem deletePage_freeList (h : m.deletePage p = (.ok true, m')) :
    m'.disk.freeList = m.disk.freeList ++ [p].take (1025 - m.disk.freeList.length) := by
  have hd {m₁ : PoolManager} (he : m₁.disk = m.disk) (h : m₁.deallocate p = (.ok true, m')) :
      m'.disk.freeList = m.disk.freeList ++ [p].take (1025 - m.disk.freeList.length) := by
    simp only [deallocate, he] at h
    split at h
    case h_1 => cases h
    case h_2 hx =>
      obtain ⟨-, rfl⟩ := Prod.mk.inj h
      exact DiskManager.deallocatePage_freeList hx
  simp only [deletePage] at h
  split at h
  case h_1 =>
    split at h
    case isTrue  => cases h
    case isFalse =>
      refine hd ?_ h
      rfl
  case h_2 =>
    refine hd ?_ h
    rfl

end PoolManager

namespace Pager

open PoolManager

variable {s : Pager} {owned : List PageID} {pins : List Pin} {p : PageID} {f : FrameID} {S : PageID → PageData → Prop}

theorem unpin_pinned (ht : s.pool.pageTable p = some f) (hi : (s.pool.frames f).pageId = p) :
    unpin f false { s with pool := s.pool.pinned p f } =
      { s with pool := { s.pool with replacer := s.pool.replacer.record p } } := by
  have ht' : (s.pool.pinned p f).pageTable p = some f := ht
  have hu : (s.pool.pinned p f).unpinPage p false = _ := unpinPage_eq ht'
  have hp : ((s.pool.pinned p f).frames f).pageId = p := by
    simpa [PoolManager.pinned, Page.incPinCount] using hi
  simp only [unpin, hp, hu]
  refine congrArg (Pager.mk · s.denied) (PoolManager.ext rfl rfl rfl ?_ rfl rfl rfl)
  have hf : (⟨p, (s.pool.frames f).data, (s.pool.frames f).pinCount, (s.pool.frames f).isDirty⟩ : Page) =
      s.pool.frames f := Page.ext hi.symm rfl rfl rfl
  simp [PoolManager.pinned, PoolManager.setFrame, Page.incPinCount, hi, hf]

theorem Keeps.record (hk : s.Keeps owned pins S) (ht : s.pool.pageTable p = some f) :
    { s with pool := { s.pool with replacer := s.pool.replacer.record p } }.Keeps owned pins S where
  accounts := { hk.accounts with pool := hk.accounts.pool.record ht }
  granted  := hk.granted
  versions hq hv := hk.versions hq <| by
    cases hv
    case cached hf => exact .cached hf
    case stored hc => exact .stored hc

-- A caller who fetches a page, and unpins it with nothing written, leaves the pins of others alone, however many
-- they are. A page in the pool is granted, and found where it is.
theorem Keeps.look {k : Option FrameID → PagerM β} {Q : Except String β → Pager → Prop} (hk : s.Keeps owned pins S)
    (hp : p ∈ owned)
    (hsome : ∀ {f t}, S p (t.pool.frames f).data → (Pager.unpin f false t).Keeps owned pins S →
      s.pool.Looked [p] (Pager.unpin f false t).pool →
      (s.pool.pageTable p ≠ none → (Pager.unpin f false t).pool.pageTable = s.pool.pageTable) → (k (some f)).Ends t Q)
    (hnone : ∀ {t}, t.denied = true → s.pool.pageTable p = none → (k none).Ends t Q)
    (herr : ∀ {e t}, t.denied = true → s.pool.pageTable p = none → Q (.error e) t) :
    (Pager.fetchPage p >>= k).Ends s Q := by
  have ha := hk.accounts
  cases ht : s.pool.pageTable p
  case some f =>
    have he : Pager.fetchPage p s = some (.ok (some f), { s with pool := s.pool.pinned p f }) := by
      simp only [Pager.fetchPage, Program.call, PoolManager.fetchPage, findCachedPage_hit ht]
    have hu := unpin_pinned ht (ha.pool.table_page ht)
    have hend : (k (some f)).Ends { s with pool := s.pool.pinned p f } Q := by
      refine hsome ?_ (hu ▸ hk.record ht) ?_ fun _ => by rw [hu]
      · simpa [PoolManager.pinned, Page.incPinCount] using hk.versions hp (.cached ht)
      · rw [hu]
        exact ⟨rfl, fun _ => rfl, .inl, .inl⟩
    obtain ⟨result, t, hx, hq⟩ := hend
    exact ⟨result, t, (Program.bind_eq he).trans hx, hq⟩
  case none =>
    refine .bind (R := fun result t => (t.denied = true ∧ ∀ f, result ≠ .ok (some f)) ∨
      ∃ f, result = .ok (some f) ∧ S p (t.pool.frames f).data ∧ (Pager.unpin f false t).Keeps owned pins S ∧
        s.pool.Looked [p] (Pager.unpin f false t).pool) (.call ?_) ?_ ?_
    · obtain h | ⟨f, m', h, hf⟩ | ⟨e, m', h, -⟩ := ha.pool.fetchPage (ha.inUse hp).lt
      · simp only [h]
        refine .inl ⟨trivial, ?_⟩
        rintro f ⟨⟩
      · simp only [h]
        have hw := ha.pool.fetched hf
        have hv {q d} (hq : q ∈ owned) : m'.Version q d → s.pool.Version q d := hf.version ha hp hq
        have hl := hf.looked ha.pool ht fun hg => fetchPage_free h hg
        refine .inr ⟨f, rfl, ?_, ?_, ?_⟩
        · exact hk.versions hp <| hv hp <| .cached hf.table_self
        · have hp : ({ s with pool := m' } : Pager).Keeps owned ([] ++ ⟨p, f, false⟩ :: pins) S := by
            cases hf
            case hit hf    => cases ht.symm.trans hf
            case miss _ hs =>
              exact ⟨(ha.swapped hp ht hs).setFrame hs.table_self (by rw [hs.frame_self]) rfl, hk.granted,
                fun hq hd => hk.versions hq (hv hq hd)⟩
          exact hp.unpin
        · rwa [Pager.unpin, hw.table_page hf.table_self]
      · simp only [h]
        refine .inl ⟨trivial, ?_⟩
        rintro f ⟨⟩
    · rintro (_ | f) t (⟨hd, hf⟩ | ⟨g, hg, hx⟩)
      · exact hnone hd ht
      · cases hg
      · exact absurd rfl (hf f)
      · obtain rfl := Option.some.inj <| Except.ok.inj hg
        exact hsome hx.1 hx.2.1 hx.2.2 fun hn => absurd ht hn
    · rintro e t (⟨hd, -⟩ | ⟨_, hg, -⟩)
      · exact herr hd ht
      · cases hg

end Pager
end Duck
