import Duck.Buffer.Concurrent
import Duck.Buffer.Theorems.PoolManager.Accounts
import Duck.Buffer.Theorems.PoolManager.Lru

open Runs

namespace Duck.Concurrent

variable {s t : Concurrent} {a : Section}

def OneFramePerPage (step : Concurrent → Section → Concurrent → Prop) : Prop :=
  ∀ disk n s, disk.WellFormed → 1 ≤ n → Reachable (· = start disk n) step s →
    s.OneFrame ∧ ∀ a t, step s a t → s.KeepsPinned t

structure Invariant (s : Concurrent) : Prop where
  accounts : s.pool.Accounts s.owned s.outstanding
  creating : ∀ {p}, p ∈ s.creating → s.pool.disk.InUse p ∧ p ∉ s.owned
  nodup    : s.creating.Nodup

namespace Invariant

theorem start (hd : disk.WellFormed) : (Concurrent.start disk n).Invariant where
  accounts := .create hd
  creating := nofun
  nodup    := .nil

theorem oneFrame (hi : s.Invariant) : s.OneFrame where
  unique f g hf he := by
    have hf' := hi.accounts.pool.table_of_page hf
    have hg' := hi.accounts.pool.table_of_page (he ▸ hf)
    exact Option.some.inj <| hf'.symm.trans (he ▸ hg')
  table _ hf              := hi.accounts.pool.table_of_page hf
  count _ hf              := hi.accounts.count <| hi.accounts.pool.table_of_page hf
  held _ hm               := hi.accounts.pool.table_page <| hi.accounts.held hm
  shared pin hm pin' hm' he := by
    have h := hi.accounts.held hm
    rw [he, hi.accounts.held hm'] at h
    exact (Option.some.inj h).symm

-- A page that is about to be created is not in the pool yet.
theorem creating_uncached (hi : s.Invariant) (hp : p ∈ s.creating) : s.pool.pageTable p = none := by
  cases h : s.pool.pageTable p
  case none   => rfl
  case some f => exact absurd (hi.accounts.cached h) (hi.creating hp).2

theorem hit (hi : s.Invariant) (ht : s.pool.pageTable p = some f)
    (hn : pinsOn s.outstanding p + 1 < 4294967296) :
    Invariant { s with pool := s.pool.pinned p f, pins := ⟨p, f, false⟩ :: s.pins } := by
  have hn : pinsOn (⟨p, f, false⟩ :: s.outstanding) p < 4294967296 := by rwa [pinsOn_cons, if_pos rfl]
  exact ⟨(hi.accounts.hit ht hn).setPins List.perm_middle, hi.creating, hi.nodup⟩

theorem fetchSwap (hi : s.Invariant) (hp : p ∈ s.owned) (h : s.pool.Swapped p f m) (ht : s.pool.pageTable p = none) :
    Invariant { s with pool := m, fetching := ps, loading := ⟨p, f, false⟩ :: s.loading } where
  accounts    := hi.accounts.swapped hp ht h
  creating hq := (hi.creating hq).imp_left h.inUse
  nodup       := hi.nodup

theorem newSwap (hi : s.Invariant) (hc : s.creating = ps₁ ++ p :: ps₂) (h : s.pool.Swapped p f m) :
    Invariant { s with
      pool     := m
      creating := ps₁ ++ ps₂
      owned    := p :: s.owned
      pins     := ⟨p, f, true⟩ :: s.pins } := by
  have hp : p ∈ s.creating := hc ▸ List.mem_append_right _ List.mem_cons_self
  have ht := hi.creating_uncached hp
  have ⟨hn, hnd⟩ := List.nodup_cons.mp <| List.nodup_middle.mp (hc ▸ hi.nodup)
  have ha := (hi.accounts.own (hi.creating hp).1).swapped (w := true) List.mem_cons_self ht h
  refine ⟨ha.setPins List.perm_middle, fun {q} hq => ?_, hnd⟩
  have hq' : q ∈ s.creating := hc ▸ List.perm_middle.mem_iff.mpr (List.mem_cons_of_mem _ hq)
  have ⟨hu, ho⟩ := hi.creating hq'
  refine ⟨h.inUse hu, fun hm => ?_⟩
  cases hm
  case head    => exact hn hq
  case tail hm => exact ho hm

theorem allocatePage (hi : s.Invariant) (hc : s.pool.disk.freeList = [] → s.pool.disk.capacity < invalidPageID) :
    Invariant { s with
      pool     := { s.pool with disk := s.pool.disk.allocatePage.2 }
      creating := s.pool.disk.allocatePage.1 :: s.creating } := by
  have h := hi.accounts.disk.allocatePage hc
  refine ⟨hi.accounts.allocates h, fun {q} hq => ?_, List.nodup_cons.mpr ⟨fun hm => ?_, hi.nodup⟩⟩
  · cases hq
    case head    => exact ⟨h.inUse.mpr <| .inr rfl, fun ho => h.fresh <| hi.accounts.inUse ho⟩
    case tail hq => exact (hi.creating hq).imp_left fun hu => h.inUse.mpr <| .inl hu
  · exact h.fresh (hi.creating hm).1

theorem setFrame (hi : s.Invariant) (ht : s.pool.pageTable p = some f) (hp : page.pageId = p)
    (hc : page.pinCount = (s.pool.frames f).pinCount) :
    Invariant { s with pool := s.pool.setFrame f page } :=
  ⟨hi.accounts.setFrame ht hp hc, hi.creating, hi.nodup⟩

theorem readPage (hi : s.Invariant) (h : s.loading = pins₁ ++ pin :: pins₂) (data : PageData) :
    Invariant { s with
      pool    := s.pool.setFrame pin.frameId { s.pool.frames pin.frameId with data := data }
      loading := pins₁ ++ pins₂
      pins    := pin :: s.pins } := by
  have hm : pin ∈ s.outstanding := List.mem_append_left _ <| h ▸ mem_mid.mpr (.inl rfl)
  have ht := hi.accounts.held hm
  have hi : Invariant { s with pool := s.pool.setFrame pin.frameId { s.pool.frames pin.frameId with data := data } } :=
    hi.setFrame ht (hi.accounts.pool.table_page ht) rfl
  refine ⟨hi.accounts.setPins ?_, hi.creating, hi.nodup⟩
  simp only [outstanding, h]
  exact List.perm_middle.trans <| (List.perm_middle.append_right s.pins).symm

theorem unpinPage (hi : s.Invariant) (h : s.pins = pins₁ ++ pin :: pins₂) :
    Invariant { s with
      pool := s.pool.unpinPage pin.pageId dirty
      pins := pins₁ ++ pins₂ } := by
  have ha := hi.accounts
  rw [outstanding, h, ←List.append_assoc] at ha
  have ht := ha.held <| mem_mid.mpr (.inl rfl)
  refine ⟨?_, fun hq => ?_, hi.nodup⟩
  · simp only [outstanding, ←List.append_assoc]
    exact ha.unpinned
  · rw [PoolManager.unpinPage_eq ht]
    exact hi.creating hq

theorem deletePage (hi : s.Invariant) (hp : p ∈ s.owned) (h : s.pool.Deleted p m) :
    Invariant { s with pool := m, owned := s.owned.filter (· ≠ p) } := by
  refine ⟨hi.accounts.deleted h, fun {q} hq => ?_, hi.nodup⟩
  have ⟨hu, ho⟩ := hi.creating hq
  have hqp : q ≠ p := by
    rintro rfl
    exact ho hp
  refine ⟨?_, fun hm => ho (List.mem_filter.mp hm).1⟩
  cases h
  case cached hd   => exact (hd.inUse hqp).mpr hu
  case uncached hd => exact (hd.inUse hqp).mpr hu

theorem disk (hi : s.Invariant) : Invariant { s with
    pool := { s.pool with
      disk := { s.pool.disk with file := { s.pool.disk.file with failing := b } } } } := by
  have hd := hi.accounts.disk
  refine ⟨hi.accounts.setDisk ⟨hd.pos, hd.free_lt, hd.free_ne, hd.free_nodup, hd.free_le⟩ le_rfl ?_, ?_, hi.nodup⟩
  · exact fun hu => ⟨hu.lt, hu.ne, hu.not_free⟩
  · intro q hq
    have ⟨hu, ho⟩ := hi.creating hq
    exact ⟨⟨hu.lt, hu.ne, hu.not_free⟩, ho⟩

-- What the latched section of `swap_page` has done in a careful step.
theorem swap (hi : s.Invariant) (hw : s.Writable) (hp : s.pool.disk.InUse p)
    (ht : s.pool.pageTable p = none) (h : s.pool.swapFrame p = (result, m)) :
    (result = .ok none ∧ m = s.pool) ∨ ∃ f, result = .ok (some f) ∧ s.pool.Swapped p f m :=
  hi.accounts.pool.swapFrame_cases hp.lt ht hw h

theorem readFrame (hi : s.Invariant) (hf : s.pool.disk.file.failing = false)
    (hl : s.loading = pins₁ ++ pin :: pins₂) :
    s.pool.readFrame pin.frameId pin.pageId = (.ok (some pin.frameId), s.pool.setFrame pin.frameId
      { s.pool.frames pin.frameId with data := s.pool.disk.stored pin.pageId }) := by
  have hm : pin ∈ s.outstanding := List.mem_append_left _ <| hl ▸ mem_mid.mpr (.inl rfl)
  exact PoolManager.readFrame_eq hf <| hi.accounts.pool.table_valid <| hi.accounts.held hm

theorem step (hi : s.Invariant) (e : CarefulStep s a t) : t.Invariant ∧ s.KeepsPinned t := by
  have ⟨e, hc⟩ := e
  cases e
  case hit h               =>
    obtain ⟨ht, rfl⟩ := PoolManager.findCachedPage_some h
    exact ⟨hi.hit ht hc, fun _ _ => PoolManager.setFrame_pageId rfl⟩
  case miss h              =>
    obtain ⟨_, rfl⟩ := PoolManager.findCachedPage_none h
    exact ⟨⟨hi.accounts, hi.creating, hi.nodup⟩, fun _ _ => rfl⟩
  case fetchSwap hl hp h   =>
    obtain ⟨he, _⟩ | ⟨f, ⟨rfl⟩, hx⟩ := hi.swap hc.2 (hi.accounts.inUse hp) hc.1 h
    · cases he
    · exact ⟨hi.fetchSwap hp hx hc.1, fun _ => hx.keeps⟩
  case noFetchSwap hl hp h hn =>
    obtain ⟨_, rfl⟩ | ⟨f, he, _⟩ := hi.swap hc.2 (hi.accounts.inUse hp) hc.1 h
    · exact ⟨⟨hi.accounts, hi.creating, hi.nodup⟩, fun _ _ => rfl⟩
    · exact absurd he (hn f)
  case readPage hl h       =>
    obtain ⟨_, rfl⟩ := Prod.mk.inj <| h.symm.trans <| hi.readFrame hc hl
    exact ⟨hi.readPage hl _, fun _ _ => PoolManager.setFrame_pageId rfl⟩
  case noReadPage hl h     => exact nomatch h.symm.trans <| hi.readFrame hc hl
  case allocatePage        => exact ⟨hi.allocatePage hc, fun _ _ => rfl⟩
  case newSwap hl h        =>
    have hp := hl ▸ List.mem_append_right _ List.mem_cons_self
    obtain ⟨he, _⟩ | ⟨f, ⟨rfl⟩, hx⟩ := hi.swap hc (hi.creating hp).1 (hi.creating_uncached hp) h
    · cases he
    · exact ⟨hi.newSwap hl hx, fun _ => hx.keeps⟩
  case noNewSwap hl h hn   =>
    have hp := hl ▸ List.mem_append_right _ List.mem_cons_self
    obtain ⟨_, rfl⟩ | ⟨f, he, _⟩ := hi.swap hc (hi.creating hp).1 (hi.creating_uncached hp) h
    · refine ⟨⟨hi.accounts, fun hq => hi.creating ?_, ?_⟩, fun _ _ => rfl⟩
      · exact hl ▸ List.perm_middle.mem_iff.mpr (List.mem_cons_of_mem _ hq)
      · exact (List.nodup_cons.mp <| List.nodup_middle.mp (hl ▸ hi.nodup)).2
    · exact absurd he (hn f)
  case write hm            =>
    have ht := hi.accounts.held <| List.mem_append_right _ hm
    exact ⟨hi.setFrame ht (hi.accounts.pool.table_page ht) rfl, fun _ _ => PoolManager.setFrame_pageId rfl⟩
  case unpinPage h         =>
    refine ⟨hi.unpinPage h, fun g _ => ?_⟩
    have ht := hi.accounts.held <| List.mem_append_right _ <| h ▸ mem_mid.mpr (.inl rfl)
    rw [PoolManager.unpinPage_eq ht]
    exact PoolManager.setFrame_pageId rfl
  case deletePage hp h     =>
    obtain ⟨he, _⟩ | ⟨m', he, hd⟩ := PoolManager.WellFormed.deletePage hi.accounts.disk (hi.accounts.inUse hp)
    all_goals obtain ⟨⟨rfl⟩, rfl⟩ := Prod.mk.inj <| h.symm.trans he
    · exact ⟨⟨hi.accounts, hi.creating, hi.nodup⟩, fun _ _ => rfl⟩
    · exact ⟨hi.deletePage hp hd, fun _ => hd.keeps⟩
  case noDeletePage hp h   =>
    obtain ⟨he, _⟩ | ⟨m', he, _⟩ := PoolManager.WellFormed.deletePage hi.accounts.disk (hi.accounts.inUse hp)
    all_goals exact nomatch h.symm.trans he
  case disk                => exact ⟨hi.disk, fun _ _ => rfl⟩

end Invariant

-- While every step is careful, no page gets a second frame.
theorem one_frame_per_page (hd : disk.WellFormed) (_ : 1 ≤ n) (h : Reachable (· = start disk n) CarefulStep s) :
    s.OneFrame ∧ ∀ a t, CarefulStep s a t → s.KeepsPinned t := by
  have hi : s.Invariant := h.invariant (fun hs => hs ▸ .start hd) fun e hi => (hi.step e).1
  exact ⟨hi.oneFrame, fun a t e => (hi.step e).2⟩

theorem unpin_first (dirty : Bool) (h : s.pins = pin :: rest) : Step s (.unpinPage pin.pageId dirty)
    { s with pool := s.pool.unpinPage pin.pageId dirty, pins := rest } :=
  .unpinPage (show _ = [] ++ pin :: rest from h)

theorem newSwap_only (h : s.creating = [p]) (hs : s.pool.swapFrame p = (.ok (some f), m)) :
    Step s (.newSwap p) { s with
      pool := m, creating := [], owned := p :: s.owned, pins := ⟨p, f, true⟩ :: s.pins } :=
  .newSwap (show _ = [] ++ p :: [] from h) hs

theorem fetchSwap_first (h : s.fetching = p :: ps) (hp : p ∈ s.owned)
    (hs : s.pool.swapFrame p = (.ok (some f), m)) :
    Step s (.fetchSwap p) { s with pool := m, fetching := ps, loading := ⟨p, f, false⟩ :: s.loading } :=
  .fetchSwap (show _ = [] ++ p :: ps from h) hp hs

theorem readPage_only (h : s.loading = [pin]) (hs : s.pool.readFrame pin.frameId pin.pageId = (.ok (some f), m)) :
    Step s (.readPage pin) { s with pool := m, loading := [], pins := pin :: s.pins } :=
  .readPage (show _ = [] ++ pin :: [] from h) hs

-- Page 2 takes the only frame from page 1. One client then reads page 1 in again, and a second one finds it in the
-- pool.
theorem one_frame_per_page_shared : ∃ s : Concurrent, s.pins = [⟨1, 0, false⟩, ⟨1, 0, false⟩] ∧
    s.OneFrame ∧ ∀ a t, CarefulStep s a t → s.KeepsPinned t := by
  have r : Reachable (· = start (.fresh .empty) 1) CarefulStep _ := .start rfl
  have r := r.next ⟨.allocatePage, fun _ => by decide⟩
  have r := r.next ⟨newSwap_only (p := 1) (f := 0) rfl rfl, fun _ _ _ => rfl⟩
  have r := r.next ⟨unpin_first false rfl, trivial⟩
  have r := r.next ⟨.allocatePage, fun _ => by decide⟩
  have r := r.next ⟨newSwap_only (p := 2) (f := 0) rfl rfl, fun _ _ _ => rfl⟩
  have r := r.next ⟨unpin_first false rfl, trivial⟩
  have r := r.next ⟨.miss (p := 1) (by decide) rfl, show 0 + 1 < 4294967296 by decide⟩
  have r := r.next ⟨fetchSwap_first (p := 1) (f := 0) rfl (by decide) rfl, rfl, fun _ _ _ => rfl⟩
  have r := r.next ⟨readPage_only rfl rfl, rfl⟩
  have r := r.next ⟨.hit (p := 1) (f := 0) (by decide) rfl, show 1 + 1 < 4294967296 by decide⟩
  exact ⟨_, rfl, one_frame_per_page DiskManager.fresh_wellFormed le_rfl r⟩

end Duck.Concurrent
