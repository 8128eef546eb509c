import Duck.Buffer.Session
import Duck.Buffer.Theorems.PoolManager.Operations

namespace Duck

section pinsOn

variable {pins : List Pin} {pin : Pin} {p : PageID}

theorem pinsOn_cons : pinsOn (pin :: pins) p = pinsOn pins p + if pin.pageId = p then 1 else 0 := by
  simp only [pinsOn, List.countP_cons, decide_eq_true_eq]

theorem pinsOn_mid : pinsOn (pins₁ ++ pin :: pins₂) p = pinsOn (pin :: (pins₁ ++ pins₂)) p := by
  simp only [pinsOn, List.countP_append, List.countP_cons, Nat.add_assoc]

theorem pinsOn_eq_zero : pinsOn pins p = 0 ↔ ∀ pin ∈ pins, pin.pageId ≠ p := by
  simp only [pinsOn, List.countP_eq_zero, decide_eq_true_eq, ne_eq]

theorem mem_mid : pin ∈ pins₁ ++ pin' :: pins₂ ↔ pin = pin' ∨ pin ∈ pins₁ ++ pins₂ := by
  simp only [List.mem_append, List.mem_cons]
  exact or_left_comm

end pinsOn

namespace PoolManager

variable {m m' : PoolManager} {owned : List PageID} {pins : List Pin} {p q : PageID} {f g : FrameID}

-- The clients own every page of the pool, and their pins are the pins of its frames.
structure Accounts (m : PoolManager) (owned : List PageID) (pins : List Pin) : Prop where
  pool   : m.WellFormed
  disk   : m.disk.WellFormed
  inUse  : ∀ {p}, p ∈ owned → m.disk.InUse p
  cached : ∀ {p f}, m.pageTable p = some f → p ∈ owned
  held   : ∀ {pin}, pin ∈ pins → m.pageTable pin.pageId = some pin.frameId
  count  : ∀ {p f}, m.pageTable p = some f → (m.frames f).pinCount.toNat = pinsOn pins p

namespace Accounts

theorem create (hw : d.WellFormed) : (PoolManager.create d n).Accounts [] [] where
  pool   := create_wellFormed
  disk   := hw
  inUse  := nofun
  cached := nofun
  held   := nofun
  count  := nofun

theorem no_pins (ha : m.Accounts owned pins) (h : ∀ {f}, m.pageTable p = some f → (m.frames f).pinCount = 0) :
    pinsOn pins p = 0 := by
  refine pinsOn_eq_zero.mpr fun pin hm he => ?_
  have ht := ha.held hm
  have hc := ha.count ht
  rw [he] at ht hc
  rw [h ht] at hc
  exact pinsOn_eq_zero.mp hc.symm _ hm he

-- A frame that clients have pinned keeps its pin count above zero.
theorem pinned (ha : m.Accounts owned pins) (h : pin ∈ pins) : (m.frames pin.frameId).pinCount ≠ 0 := by
  intro hz
  have ht := ha.held h
  refine pinsOn_eq_zero.mp (ha.no_pins fun hf => ?_) _ h rfl
  rwa [←Option.some.inj <| ht.symm.trans hf]

-- Only a page in the pool can be the one that leaves it.
theorem ne_victim (ha : m.Accounts owned pins) (ht : m.pageTable q ≠ some f) (hq : q ∈ owned) :
    q ≠ (m.frames f).pageId := by
  rintro rfl
  exact ht <| ha.pool.table_of_page <| ne_invalid (ha.inUse hq).lt

theorem own (ha : m.Accounts owned pins) (h : m.disk.InUse p) : m.Accounts (p :: owned) pins where
  pool     := ha.pool
  disk     := ha.disk
  inUse hq := by
    cases hq
    case head    => exact h
    case tail hq => exact ha.inUse hq
  cached h := List.mem_cons_of_mem _ <| ha.cached h
  held     := ha.held
  count    := ha.count

theorem setPins (ha : m.Accounts owned pins) (h : pins'.Perm pins) : m.Accounts owned pins' where
  pool    := ha.pool
  disk    := ha.disk
  inUse   := ha.inUse
  cached  := ha.cached
  held hm := ha.held (h.mem_iff.mp hm)
  count f := (ha.count f).trans (h.countP_eq _).symm

theorem setDisk (ha : m.Accounts owned pins) (hd : d.WellFormed)
    (hc : m.disk.capacity.toNat ≤ d.capacity.toNat) (hu : ∀ {p}, m.disk.InUse p → d.InUse p) :
    { m with disk := d }.Accounts owned pins where
  pool     := ha.pool.setDisk hc
  disk     := hd
  inUse hq := hu <| ha.inUse hq
  cached   := ha.cached
  held     := ha.held
  count    := ha.count

theorem allocates (ha : m.Accounts owned pins) (h : m.disk.Allocates p d) :
    { m with disk := d }.Accounts owned pins :=
  ha.setDisk h.wellFormed h.le (h.inUse.mpr <| .inl ·)

theorem flushed (ha : m.Accounts owned pins) (h : m.Flushed fs d) : { m with disk := d }.Accounts owned pins :=
  have hl {q} : q ∈ d.freeList ↔ q ∈ m.disk.freeList := h.freeList ▸ .rfl
  have hw := ha.disk
  ha.setDisk
    ⟨h.capacity ▸ hw.pos, fun hq => h.capacity ▸ hw.free_lt (hl.mp hq), fun hq => hw.free_ne (hl.mp hq),
      h.freeList ▸ hw.free_nodup, h.freeList ▸ hw.free_le⟩
    (congrArg UInt32.toNat h.capacity).ge
    fun hu => ⟨h.capacity ▸ hu.lt, hu.ne, fun hq => hu.not_free (hl.mp hq)⟩

theorem flushDisk (ha : m.Accounts owned pins) : { m with disk := m.disk.flushAll }.Accounts owned pins :=
  ha.setDisk ha.disk.flushAll le_rfl fun hu => ⟨hu.lt, hu.ne, hu.not_free⟩

-- A change of a frame that leaves its page and its pins alone.
theorem setFrame (ha : m.Accounts owned pins) (ht : m.pageTable p = some f)
    (hp : page.pageId = p) (hc : page.pinCount = (m.frames f).pinCount) :
    (m.setFrame f page).Accounts owned pins where
  pool    := ha.pool.setFrame ht hp
  disk    := ha.disk
  inUse   := ha.inUse
  cached  := ha.cached
  held    := ha.held
  count {q g} h := by
    by_cases he : g = f
    case pos =>
      subst he
      rw [setFrame_frames_same, hc]
      exact ha.count h
    case neg =>
      rw [setFrame_frames_ne he]
      exact ha.count h

theorem hit (ha : m.Accounts owned pins) (ht : m.pageTable p = some f)
    (hn : pinsOn (⟨p, f, w⟩ :: pins) p < 4294967296) : (m.pinned p f).Accounts owned (⟨p, f, w⟩ :: pins) where
  pool    := ha.pool.pinned ht
  disk    := ha.disk
  inUse   := ha.inUse
  cached  := ha.cached
  held h  := by
    cases h
    case head   => exact ht
    case tail h => exact ha.held h
  count {q g} h := by
    have h : m.pageTable q = some g := h
    by_cases he : g = f
    case pos =>
      subst he
      obtain rfl := ha.pool.table_inj ht h
      have hc := ha.count h
      simp only [pinsOn_cons, if_true] at hn ⊢
      simp only [PoolManager.pinned, setFrame_frames_same, Page.incPinCount, UInt32.toNat_add, hc]
      exact Nat.mod_eq_of_lt hn
    case neg =>
      have hq : p ≠ q := fun hq => he <| Option.some.inj <| (hq ▸ h).symm.trans ht
      simp only [PoolManager.pinned, setFrame_frames_ne he, pinsOn_cons, hq, if_false]
      exact ha.count h

theorem swapped (ha : m.Accounts owned pins) (hp : p ∈ owned) (ht : m.pageTable p = none)
    (h : m.Swapped p f m') : m'.Accounts owned (⟨p, f, w⟩ :: pins) := by
  have hv {pin} (hm : pin ∈ pins) : pin.pageId ≠ p ∧ pin.frameId ≠ f := by
    refine ⟨fun he => ?_, fun he => ?_⟩
    · have hh := ha.held hm
      rw [he, ht] at hh
      cases hh
    · exact ha.pinned hm (he ▸ h.unpinned)
  constructor
  case pool   => exact h.wellFormed
  case disk   =>
    rw [h.disk, writeBack]
    split
    · exact ha.disk.written
    · exact ha.disk
  case inUse  =>
    exact fun hq => h.inUse <| ha.inUse hq
  case cached =>
    intro q g hg
    by_cases hq : q = p
    case pos => exact hq ▸ hp
    case neg => exact ha.cached ((h.table_iff ha.pool hq).mp hg).1
  case held =>
    intro pin hm
    cases hm
    case head => exact h.table_self
    case tail hm =>
      obtain ⟨hq, hf⟩ := hv hm
      exact (h.table_iff ha.pool hq).mpr ⟨ha.held hm, hf⟩
  case count =>
    intro q g hg
    rw [pinsOn_cons]
    by_cases hq : q = p
    case pos =>
      subst hq
      rw [h.table_self] at hg
      obtain rfl := Option.some.inj hg
      rw [h.frame_self, pinsOn_eq_zero.mpr fun pin hm => (hv hm).1, if_pos rfl]
      rfl
    case neg =>
      obtain ⟨hg, he⟩ := (h.table_iff ha.pool hq).mp hg
      rw [h.frame_ne he, ha.count hg, if_neg (Ne.symm hq)]
      rfl

theorem unpinned (ha : m.Accounts owned (pins₁ ++ pin :: pins₂)) :
    (m.unpinPage pin.pageId dirty).Accounts owned (pins₁ ++ pins₂) := by
  have ht := ha.held <| mem_mid.mpr (.inl rfl)
  have hp : (m.unpinPage pin.pageId dirty).WellFormed := ha.pool.unpinPage
  rw [unpinPage_eq ht] at hp ⊢
  refine ⟨hp, ha.disk, ha.inUse, ha.cached, fun hm => ha.held <| mem_mid.mpr (.inr hm), ?_⟩
  intro q g h
  have hc := ha.count h
  rw [pinsOn_mid, pinsOn_cons] at hc
  by_cases he : g = pin.frameId
  case pos =>
    subst he
    obtain rfl := ha.pool.table_inj ht h
    rw [if_pos rfl] at hc
    have hl : 1 ≤ (m.frames pin.frameId).pinCount := by
      rw [UInt32.le_iff_toNat_le, hc]
      exact Nat.le_add_left ..
    rw [setFrame_frames_same, UInt32.toNat_sub_of_le _ _ hl, hc]
    rfl
  case neg =>
    have hq : pin.pageId ≠ q := fun hq => he <| Option.some.inj <| (hq ▸ h).symm.trans ht
    rw [if_neg hq] at hc
    rw [setFrame_frames_ne he, hc]
    rfl

theorem deleted (ha : m.Accounts owned pins) (h : m.Deleted p m') :
    m'.Accounts (owned.filter (· ≠ p)) pins := by
  have hu {d q} (hd : m.disk.Deallocates p d) (hq : q ∈ owned.filter (· ≠ p)) : d.InUse q := by
    obtain ⟨hq, hn⟩ := List.mem_filter.mp hq
    exact (hd.inUse (of_decide_eq_true hn)).mpr (ha.inUse hq)
  have hw := ha.pool.deleted h
  cases h
  case uncached d ht hd =>
    refine ⟨hw, hd.wellFormed, hu hd, fun h => ?_, ha.held, ha.count⟩
    refine List.mem_filter.mpr ⟨ha.cached h, decide_eq_true fun hq => ?_⟩
    cases (hq ▸ h).symm.trans ht
  case cached f d ht hz hd =>
    have hn := pinsOn_eq_zero.mp <| ha.no_pins (p := p) fun hf => Option.some.inj (ht.symm.trans hf) ▸ hz
    have hs {q g} : (m.freed p f d).pageTable q = some g → _ := ha.pool.freed_table ht
    refine ⟨hw, hd.wellFormed, hu hd, fun h => ?_, fun {pin} hm => ?_, fun {q g} h => ?_⟩
    · exact List.mem_filter.mpr ⟨ha.cached (hs h).2.1, decide_eq_true (hs h).1⟩
    · simp only [freed, Function.update_of_ne (hn _ hm)]
      exact ha.held hm
    · obtain ⟨_, h, he⟩ := hs h
      simp only [freed, Function.update_of_ne he]
      exact ha.count h

end Accounts
end PoolManager
end Duck
