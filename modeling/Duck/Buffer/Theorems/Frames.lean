import Duck.Buffer.Theorems.Pager
import Duck.Buffer.Theorems.PoolManager.Failure
import Duck.Lib.Frame

namespace Duck

namespace PoolManager

variable {m m' : PoolManager} {p : PageID} {f : FrameID} {owned : List PageID} {pins : List Pin}

section poolCapacity

theorem findNextFrame_poolCapacity (h : m.findNextFrame = (f, m')) : m'.poolCapacity = m.poolCapacity := by
  simp only [findNextFrame] at h
  split at h
  · cases h
    rfl
  · split_ifs at h <;> cases h <;> rfl

theorem swapFrame_poolCapacity : (m.swapFrame p).2.poolCapacity = m.poolCapacity := by
  rcases hx : m.findNextFrame with ⟨f, m'⟩
  have hc := findNextFrame_poolCapacity hx
  by_cases hv : f = invalidFrameID
  case pos =>
    rw [hv] at hx
    rw [swapFrame_invalid hx]
    exact hc
  case neg =>
    rw [swapFrame_eq hx hv]
    have hu : (m'.unmapped f).poolCapacity = m.poolCapacity := by
      rw [unmapped]
      split <;> exact hc
    split <;> exact hu

theorem fetchPage_poolCapacity : (m.fetchPage p).2.poolCapacity = m.poolCapacity := by
  have hswap : (m.swapPage p true).2.poolCapacity = (m.swapFrame p).2.poolCapacity := by
    simp only [swapPage]
    split
    · next h =>
      rw [h, if_pos trivial, readFrame]
      split <;> rfl
    · rfl
  simp only [fetchPage, findCachedPage]
  cases m.pageTable p
  case none   => exact hswap.trans swapFrame_poolCapacity
  case some f => rfl

theorem newPage_poolCapacity : m.newPage.2.poolCapacity = m.poolCapacity := by
  rw [newPage_eq]
  exact swapFrame_poolCapacity

theorem deletePage_poolCapacity : (m.deletePage p).2.poolCapacity = m.poolCapacity := by
  have hd {m : PoolManager} : (m.deallocate p).2.poolCapacity = m.poolCapacity := by
    simp only [deallocate]
    split <;> rfl
  simp only [deletePage]
  split
  · split
    · rfl
    · exact hd
  · exact hd

theorem unpinPage_poolCapacity : (m.unpinPage p dirty).poolCapacity = m.poolCapacity := by
  rw [unpinPage]
  split <;> rfl

end poolCapacity

-- There are no more frames in use by clients than there are pins.
theorem Accounts.idle (ha : m.Accounts owned pins) (hn : pins.length < n) : ∃ f < n, (m.frames f).pinCount = 0 := by
  by_contra hz
  push Not at hz
  have hs : List.range n ⊆ pins.map (·.frameId) := by
    intro f hf
    have hc := hz f (List.mem_range.mp hf)
    obtain hb | ht := ha.pool.blank_or_used (f := f)
    · rw [hb] at hc
      exact absurd rfl hc
    · have hp : ¬pinsOn pins (m.frames f).pageId = 0 := fun hp => hc <| UInt32.toNat_inj.mp <| (ha.count ht).trans hp
      rw [pinsOn_eq_zero] at hp
      push Not at hp
      obtain ⟨pin, hm, he⟩ := hp
      have hh := ha.held hm
      rw [he, ht] at hh
      exact List.mem_map.mpr ⟨pin, hm, (Option.some.inj hh).symm⟩
  have hl := (List.nodup_range.subperm hs).length_le
  rw [List.length_range, List.length_map] at hl
  exact absurd hn (Nat.not_lt.mpr hl)

-- A frame that nobody has pinned can be had.
theorem WellFormed.available (hw : m.WellFormed) (hp : p < m.disk.capacity) (ht : m.pageTable p = none)
    (hf : f < m.poolCapacity) (hz : (m.frames f).pinCount = 0) : m.Available := by
  by_cases hfree : m.freeFrames = []
  case neg => exact .free hfree
  case pos =>
    have hs := hw.size_lt hfree hp ht
    have hv : m.poolSize ≠ invalidFrameID := (Nat.lt_of_lt_of_le hs <| Nat.le_of_lt_succ m.disk.capacity.toNat_lt).ne
    by_cases hg : m.poolSize < m.poolCapacity
    case pos => exact .grows hfree hg hv
    case neg =>
      have hu := hw.used (hf.trans_le <| Nat.not_lt.mp hg) (hfree ▸ List.not_mem_nil)
      refine .victim hfree (Nat.not_lt.mp hg) fun hx => ?_
      refine BufferReplacer.findLru_invalid hx (fun hq => ?_) (hw.tracks.mpr ⟨_, hu⟩) hu hz
      obtain ⟨_, hq⟩ := hw.tracks.mp hq
      exact ne_invalid <| hw.table_valid hq

theorem Available.swapFrame_granted (ha : m.Available) (hw : m.WellFormed) : m.swapFrame p ≠ (.ok none, m') := by
  obtain ⟨-, g, m₁, hn, hg⟩ | ⟨he, -⟩ | ⟨hn, -⟩ := hw.consistent.found
  · rw [swapFrame_eq hn hg.valid]
    split <;> simp
  · exact absurd he ha.not_exhausted
  · exact absurd ha hn

theorem WellFormed.fetchPage_granted (hw : m.WellFormed) (hp : p < m.disk.capacity) (hf : f < m.poolCapacity)
    (hz : (m.frames f).pinCount = 0) : m.fetchPage p ≠ (.ok none, m') := by
  cases ht : m.pageTable p
  case some g =>
    rw [PoolManager.fetchPage, findCachedPage_hit ht]
    simp
  case none   =>
    have hs {m'} : m.swapFrame p ≠ (.ok none, m') := (hw.available hp ht hf hz).swapFrame_granted hw
    simp only [PoolManager.fetchPage, findCachedPage_miss ht, swapPage]
    rcases hx : m.swapFrame p with ⟨e | _ | g, m₁⟩
    · simp
    · exact absurd hx hs
    · simp only [if_true, readFrame]
      split <;> simp

end PoolManager

namespace Pager

variable {s : Pager}

theorem unpin_poolCapacity : (unpin f dirty s).pool.poolCapacity = s.pool.poolCapacity :=
  PoolManager.unpinPage_poolCapacity

theorem fetchPage_poolCapacity (p : PageID) : (Pager.fetchPage p).Preserves (·.pool.poolCapacity) := by
  refine .call fun s => ?_
  have hp := PoolManager.fetchPage_poolCapacity (m := s.pool) (p := p)
  rcases hx : s.pool.fetchPage p with ⟨e | _ | f, m⟩ <;> rw [hx] at hp <;> exact hp

theorem newPage_poolCapacity : Pager.newPage.Preserves (·.pool.poolCapacity) := by
  refine .call fun s => ?_
  have hp := PoolManager.newPage_poolCapacity (m := s.pool)
  rcases hx : s.pool.newPage with ⟨e | _ | f, m⟩ <;> rw [hx] at hp <;> exact hp

theorem deletePage_poolCapacity (p : PageID) : (Pager.deletePage p).Preserves (·.pool.poolCapacity) :=
  .call fun _ => PoolManager.deletePage_poolCapacity

theorem pinned_poolCapacity {f : FrameID} {body : PagerM (α × Bool)} (h : body.Preserves (·.pool.poolCapacity)) :
    (pinned f body).Preserves (·.pool.poolCapacity) :=
  h.cleanly fun _ _ => unpin_poolCapacity

end Pager
end Duck
