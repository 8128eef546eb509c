import Duck.Buffer.Pager
import Duck.Buffer.Theorems.PoolManager.Accounts

namespace Duck

namespace PoolManager

variable {m m' : PoolManager} {owned : List PageID} {pins : List Pin} {p q : PageID} {f g : FrameID}

-- What a page may be found to hold, now or once its frame has been reused: what its frame has, and
-- what the file has unless the frame is dirty.
inductive Version (m : PoolManager) (p : PageID) : PageData → Prop
  | cached : (m.pageTable p = some frameId) → Version m p (m.frames frameId).data
  | stored : (∀ f, m.pageTable p = some f → (m.frames f).isDirty = false) → Version m p (m.disk.stored p)

theorem version_bytesOf : m.Version p (m.bytesOf p) := by
  cases h : m.pageTable p
  case some f => exact bytesOf_cached h ▸ .cached h
  case none   => exact bytesOf_stored h ▸ .stored (by simp [h])

-- No page gets a new version when another one takes a frame.
theorem Swapped.version (h : m.Swapped p f m') (ha : m.Accounts owned pins) (hq : q ≠ p)
    (ho : q ∈ owned) (hv : m'.Version q d) : m.Version q d := by
  cases hv
  case cached g hg =>
    have ⟨hg, he⟩ := (h.table_iff ha.pool hq).mp hg
    exact h.frame_ne he ▸ .cached hg
  case stored hc =>
    by_cases hf : m.pageTable q = some f
    case neg =>
      rw [h.stored_eq <| ha.ne_victim hf ho]
      refine .stored fun g hg => ?_
      have he : g ≠ f := by
        rintro rfl
        exact hf hg
      exact h.frame_ne he ▸ hc g ((h.table_iff ha.pool hq).mpr ⟨hg, he⟩)
    case pos =>
      have hp := ha.pool.table_page hf
      cases hd : (m.frames f).isDirty
      case true  =>
        rw [←hp, h.stored_victim hd]
        exact .cached (hp.symm ▸ hf)
      case false =>
        rw [h.disk, writeBack, hd]
        refine .stored fun g hg => ?_
        rwa [←Option.some.inj <| hf.symm.trans hg]

theorem version_setDisk (hd : d.stored p = m.disk.stored p) (hv : { m with disk := d }.Version p data) :
    m.Version p data := by
  cases hv
  case cached hf => exact .cached hf
  case stored hc => exact hd ▸ .stored hc

theorem WellFormed.version_setFrame (hw : m.WellFormed) (ht : m.pageTable p = some f) (hq : q ≠ p)
    (hv : (m.setFrame f page).Version q d) : m.Version q d := by
  have he {g} (hg : m.pageTable q = some g) : g ≠ f := fun he => hq <| hw.table_inj (he ▸ hg) ht
  cases hv
  case cached g hg =>
    rw [setFrame_frames_ne (he hg)]
    exact .cached hg
  case stored hc   =>
    refine .stored fun g hg => ?_
    have hc := hc g hg
    rwa [setFrame_frames_ne (he hg)] at hc

theorem version_setFrame_self (ht : m.pageTable p = some f) (hv : (m.setFrame f page).Version p d) :
    d = page.data ∨ page.isDirty = false ∧ d = m.disk.stored p := by
  cases hv
  case cached g hg =>
    obtain rfl := Option.some.inj <| ht.symm.trans hg
    exact .inl <| congrArg Page.data setFrame_frames_same
  case stored hc   =>
    have hc := hc f ht
    rw [setFrame_frames_same] at hc
    exact .inr ⟨hc, rfl⟩

-- A frame may also change its page's pins, and its page may become dirty.
theorem WellFormed.version_mono (hw : m.WellFormed) (ht : m.pageTable p = some f)
    (hd : page.data = (m.frames f).data) (hc : page.isDirty = false → (m.frames f).isDirty = false)
    (hv : (m.setFrame f page).Version q d) : m.Version q d := by
  by_cases hq : q = p
  case neg => exact hw.version_setFrame ht hq hv
  case pos =>
    subst hq
    obtain rfl | ⟨hz, rfl⟩ := version_setFrame_self ht hv
    · exact hd ▸ .cached ht
    · refine .stored fun g hg => ?_
      rw [←Option.some.inj <| ht.symm.trans hg]
      exact hc hz

theorem Fetched.version (h : m.Fetched p f m') (ha : m.Accounts owned pins) (hp : p ∈ owned)
    (hq : q ∈ owned) (hv : m'.Version q d) : m.Version q d := by
  cases h
  case hit ht       =>
    have hv : (m.setFrame f (m.frames f).incPinCount).Version q d := by
      cases hv
      case cached hg => exact .cached hg
      case stored hc => exact .stored hc
    have hd : (m.frames f).incPinCount.data = (m.frames f).data := rfl
    exact ha.pool.version_mono ht hd id hv
  case miss m' ht hs =>
    have hself : m'.disk.stored p = m.disk.stored p := hs.stored_eq <| ha.ne_victim (by simp [ht]) hp
    by_cases hqp : q = p
    case neg => exact hs.version ha hqp hq <| hs.wellFormed.version_setFrame hs.table_self hqp hv
    case pos =>
      subst hqp
      have hv := version_setFrame_self hs.table_self hv
      have hd : d = m'.disk.stored q := hv.elim id And.right
      rw [hd, hself]
      exact .stored (by simp [ht])

theorem Deleted.version (h : m.Deleted p m') (hw : m.WellFormed) (hq : q ≠ p) (hv : m'.Version q d) :
    m.Version q d := by
  cases h
  case uncached hd     => exact version_setDisk (DiskManager.stored_of_file hd.file) hv
  case cached f d ht _ hd =>
    cases hv
    case cached g hg =>
      have ⟨_, hg, he⟩ := hw.freed_table ht hg
      simp only [freed, Function.update_of_ne he]
      exact .cached hg
    case stored hc   =>
      simp only [freed, DiskManager.stored_of_file hd.file]
      refine .stored fun g hg => ?_
      have he : g ≠ f := fun he => hq <| hw.table_inj (he ▸ hg) ht
      have hc := hc g <| (Function.update_of_ne hq ..).trans hg
      simpa only [freed, Function.update_of_ne he] using hc

end PoolManager

namespace Pager

open PoolManager

variable {s : Pager} {owned : List PageID} {pins : List Pin} {pin : Pin} {p q : PageID}
variable {S S' : PageID → PageData → Prop}

-- Every version of an owned page is what `S` says of it.
structure Keeps (s : Pager) (owned : List PageID) (pins : List Pin) (S : PageID → PageData → Prop) : Prop where
  accounts : s.pool.Accounts owned pins
  granted  : s.denied = false
  versions : ∀ {p d}, p ∈ owned → s.pool.Version p d → S p d

-- Whether the page is in the pool and newer there than in the file.
def isDirty (s : Pager) (p : PageID) : Bool :=
  (s.pool.pageTable p).elim false fun f => (s.pool.frames f).isDirty

-- What is left to prove once a caller has been let down is nothing.
def Unless (s : Pager) (P : Prop) : Prop :=
  s.denied = true ∨ P

namespace Keeps

theorem data (hk : s.Keeps owned pins S) (hp : pin ∈ pins) :
    S pin.pageId (s.pool.frames pin.frameId).data :=
  have ht := hk.accounts.held hp
  hk.versions (hk.accounts.cached ht) (.cached ht)

theorem pageId (hk : s.Keeps owned pins S) (hp : pin ∈ pins) :
    (s.pool.frames pin.frameId).pageId = pin.pageId :=
  hk.accounts.pool.table_page <| hk.accounts.held hp

theorem mono (hk : s.Keeps owned pins S) (hS : ∀ {p d}, p ∈ owned → S p d → S' p d) : s.Keeps owned pins S' :=
  ⟨hk.accounts, hk.granted, fun hp hv => hS hp <| hk.versions hp hv⟩

theorem fetchPage (hk : s.Keeps owned pins S) (hp : p ∈ owned) (hn : pinsOn pins p + 1 < 4294967296) :
    (Pager.fetchPage p).Ends s fun result t =>
      (t.denied = true ∧ ∀ f, result ≠ .ok (some f)) ∨
      ∃ f, result = .ok (some f) ∧ t.Keeps owned (⟨p, f, false⟩ :: pins) S ∧
        (t.pool.frames f).isDirty = s.isDirty p := by
  have ha := hk.accounts
  refine Program.Ends.call ?_
  obtain h | ⟨f, m', h, hf⟩ | ⟨e, m', h, _⟩ := ha.pool.fetchPage (ha.inUse hp).lt
  · simp only [h]
    refine .inl ⟨trivial, fun f h => ?_⟩
    cases h
  · simp only [h]
    refine .inr ⟨f, rfl, ⟨?_, hk.granted, fun hq hv => hk.versions hq (hf.version ha hp hq hv)⟩, ?_⟩
    · cases hf
      case hit ht     =>
        refine ha.hit ht ?_
        rwa [pinsOn_cons, if_pos rfl]
      case miss ht hs =>
        exact (ha.swapped hp ht hs).setFrame hs.table_self (by rw [hs.frame_self]) rfl
    · cases hf
      case hit ht     => simp [isDirty, ht, PoolManager.pinned, setFrame, Page.incPinCount]
      case miss ht hs => simp [isDirty, ht, setFrame, hs.frame_self]
  · simp only [h]
    refine .inl ⟨trivial, fun f h => ?_⟩
    cases h

-- The page of a denied caller has no valid id, but its frame stands in the table.
theorem newPage (hk : s.Keeps owned pins S) :
    Pager.newPage.Ends s fun result t =>
      (t.denied = true ∧ ∀ f, result = .ok (some f) → t.pool.pageTable (t.pool.frames f).pageId = some f ∧
        ∀ g, g ≠ f → t.pool.frames g = s.pool.frames g) ∨
      ∃ f p, result = .ok (some f) ∧ p ∉ owned ∧ p ≠ invalidPageID ∧
        t.Keeps (p :: owned) (⟨p, f, true⟩ :: pins) (Function.update S p fun _ => True) ∧
        (t.pool.frames f).data = .zero ∧ ∀ g, g ≠ f → t.pool.frames g = s.pool.frames g := by
  have ha := hk.accounts
  refine Program.Ends.call ?_
  by_cases hc : s.pool.disk.freeList = [] → s.pool.disk.capacity < invalidPageID
  case neg =>
    have ⟨hl, hc⟩ := Classical.not_imp.mp hc
    have hp := DiskManager.allocatePage_full hl hc
    split
    case h_1 f m' h =>
      have ⟨ht, hf⟩ := newPage_some h
      have hi : (m'.frames f).pageId = s.pool.disk.allocatePage.1 := by
        rw [hf, Function.update_self]
        rfl
      refine .inl ⟨by simp [hi, hp], fun g hg => ?_⟩
      obtain rfl := Option.some.inj <| Except.ok.inj hg
      refine ⟨hi ▸ ht, fun g hn => ?_⟩
      simp only [hf, Function.update_of_ne hn]
    case h_2 hn _ =>
      refine .inl ⟨rfl, fun f hf => ?_⟩
      obtain rfl : _ = Except.ok (some f) := hf
      exact (hn f rfl).elim
  case pos =>
    have hx := ha.disk.allocatePage hc
    have hp : s.pool.disk.allocatePage.1 ∉ owned := fun hp => hx.fresh <| ha.inUse hp
    have hu := hx.inUse.mpr <| .inr rfl
    have ht : s.pool.pageTable s.pool.disk.allocatePage.1 = none :=
      Option.eq_none_iff_forall_ne_some.mpr fun f hf => hp <| ha.cached hf
    obtain h | ⟨f, m', h, hs⟩ | ⟨e, m', h, _⟩ := ha.pool.newPage ha.disk hc ht
    · simp only [h]
      exact .inl ⟨trivial, nofun⟩
    case inr.inr =>
      simp only [h]
      exact .inl ⟨trivial, nofun⟩
    · simp only [h]
      have ha' := (ha.allocates hx).own hu
      have hi := ne_invalid hu.lt
      refine .inr ⟨f, _, rfl, hp, hi, ⟨ha'.swapped List.mem_cons_self ht hs, ?_, ?_⟩,
        by rw [hs.frame_self], fun g hg => hs.frame_ne hg⟩
      · simp [hk.granted, hs.frame_self, hi]
      · intro q d hq hv
        by_cases hqp : q = s.pool.disk.allocatePage.1
        case pos =>
          rw [hqp, Function.update_self]
          trivial
        case neg =>
          rw [Function.update_of_ne hqp]
          refine hk.versions (List.mem_of_ne_of_mem hqp hq) ?_
          exact version_setDisk (DiskManager.stored_of_file hx.file) <| hs.version ha' hqp hq hv

-- What is written to a pinned page is a version of it from then on.
theorem write (hk : s.Keeps owned pins S) (hp : pin ∈ pins) (hd : S pin.pageId d) :
    (Pager.write pin.frameId d s).Keeps owned pins S where
  accounts := hk.accounts.setFrame (hk.accounts.held hp) (hk.pageId hp) rfl
  granted  := hk.granted
  versions {q data} hq hv := by
    have ht := hk.accounts.held hp
    by_cases he : q = pin.pageId
    case neg => exact hk.versions hq <| hk.accounts.pool.version_setFrame ht he hv
    case pos =>
      subst he
      obtain rfl | ⟨hc, rfl⟩ := version_setFrame_self ht hv
      · exact hd
      · refine hk.versions hq <| .stored fun g hg => ?_
        rwa [←Option.some.inj <| ht.symm.trans hg]

theorem unpin (hk : s.Keeps owned (pins₁ ++ pin :: pins₂) S) :
    (Pager.unpin pin.frameId dirty s).Keeps owned (pins₁ ++ pins₂) S := by
  have hp : pin ∈ pins₁ ++ pin :: pins₂ := mem_mid.mpr (.inl rfl)
  have ht := hk.accounts.held hp
  have ha : (s.pool.unpinPage pin.pageId dirty).Accounts owned (pins₁ ++ pins₂) := hk.accounts.unpinned
  refine ⟨?_, hk.granted, fun hq hv => hk.versions hq ?_⟩
  · simp only [Pager.unpin, hk.pageId hp]
    exact ha
  · simp only [Pager.unpin, hk.pageId hp] at hv
    rw [unpinPage_eq ht] at hv
    refine hk.accounts.pool.version_mono ht ?_ ?_ hv
    · rfl
    · exact fun hz => (Bool.or_eq_false_iff.mp hz).1

-- The unpin of a dirty frame, or a dirty unpin, makes what the frame has the only version of its page.
theorem save (hk : s.Keeps owned (pins₁ ++ pin :: pins₂) S) (hd : S' pin.pageId (s.pool.frames pin.frameId).data)
    (hb : ((s.pool.frames pin.frameId).isDirty || dirty) = true)
    (hS : ∀ {q d}, q ∈ owned → q ≠ pin.pageId → S q d → S' q d) :
    (Pager.unpin pin.frameId dirty s).Keeps owned (pins₁ ++ pins₂) S' := by
  have hp : pin ∈ pins₁ ++ pin :: pins₂ := mem_mid.mpr (.inl rfl)
  have ht := hk.accounts.held hp
  simp only [Pager.unpin, hk.pageId hp]
  refine ⟨hk.accounts.unpinned, hk.granted, fun {q data} hq hv => ?_⟩
  simp only [unpinPage_eq ht] at hv
  by_cases he : q = pin.pageId
  case pos =>
    subst he
    obtain rfl | ⟨hc, _⟩ := version_setFrame_self ht hv
    · exact hd
    · simp only [hb, reduceCtorEq] at hc
  case neg => exact hS hq he <| hk.versions hq <| hk.accounts.pool.version_setFrame ht he hv

theorem deletePage (hk : s.Keeps owned pins S) (hp : p ∈ owned) :
    (Pager.deletePage p).Ends s fun result t =>
      (result = .ok false ∧ t = s ∧ ∃ pin ∈ pins, pin.pageId = p) ∨
        result = .ok true ∧ t.Keeps (owned.filter (· ≠ p)) pins S := by
  have ha := hk.accounts
  refine Program.Ends.call ?_
  obtain ⟨h, f, ht, hz⟩ | ⟨m', h, hd⟩ := WellFormed.deletePage ha.disk (ha.inUse hp)
  · refine .inl ⟨congrArg Prod.fst h, by rw [h], ?_⟩
    by_contra hn
    have hc := ha.count ht
    rw [pinsOn_eq_zero.mpr fun pin hm he => hn ⟨pin, hm, he⟩] at hc
    exact hz <| UInt32.toNat_inj.mp hc
  · refine .inr ⟨congrArg Prod.fst h, ?_⟩
    rw [h]
    refine ⟨ha.deleted hd, hk.granted, fun hq hv => ?_⟩
    have ⟨hq, hn⟩ := List.mem_filter.mp hq
    exact hk.versions hq <| hd.version ha.pool (of_decide_eq_true hn) hv

-- What may be found on a page once `d` has been written to it, and possibly been kept clean.
def overwrite (S : PageID → PageData → Prop) (p : PageID) (d : PageData) (dirty : Bool) : PageID → PageData → Prop :=
  Function.update S p fun e => e = d ∨ dirty = false ∧ S p e

-- The end of a scope that has written `d` to its page.
theorem scope (hk : s.Keeps owned (pin :: pins) S) (dirty : Bool) :
    (Pager.unpin pin.frameId dirty (Pager.write pin.frameId d s)).Keeps owned pins
      (overwrite S pin.pageId d ((s.pool.frames pin.frameId).isDirty || dirty)) := by
  have hm : pin ∈ pin :: pins := List.mem_cons_self
  have hs : (Pager.write pin.frameId d s).Keeps owned (pin :: pins) (overwrite S pin.pageId d false) := by
    refine (hk.mono fun {q e} _ he => ?_).write hm ?_
    · by_cases hq : q = pin.pageId
      case pos => simpa [overwrite, ←hq] using .inr he
      case neg => simpa [overwrite, Function.update_of_ne hq] using he
    · simp [overwrite]
  have hf : ((Pager.write pin.frameId d s).pool.frames pin.frameId).isDirty = (s.pool.frames pin.frameId).isDirty := by
    simp [Pager.write, setFrame]
  cases hb : (s.pool.frames pin.frameId).isDirty || dirty
  case false => exact Keeps.unpin (show Keeps _ _ ([] ++ pin :: pins) _ from hs)
  case true  =>
    refine Keeps.save (show Keeps _ _ ([] ++ pin :: pins) _ from hs) ?_ (hf ▸ hb) fun {q e} _ hq he => ?_
    · simp [overwrite, Pager.write, setFrame]
    · simpa only [overwrite, Function.update_of_ne hq] using he

end Keeps

-- A scope with a pinned page ends with an unpin.
theorem pinned_ends {body : PagerM (α × Bool)} {R : Except String (α × Bool) → Pager → Prop}
    (h : body.Ends s R) (hok : ∀ {a dirty t}, R (.ok (a, dirty)) t → Q (.ok a) (unpin f dirty t))
    (herr : ∀ {e t}, R (.error e) t → Q (.error e) (unpin f false t)) : (pinned f body).Ends s Q :=
  Program.Ends.cleanly h hok herr

section simps

variable {g : FrameID}

@[simp]
theorem unpin_denied : (unpin f dirty s).denied = s.denied :=
  rfl

@[simp]
theorem unpin_pageTable : (unpin f dirty s).pool.pageTable = s.pool.pageTable := by
  simp only [unpin, unpinPage]
  split <;> rfl

@[simp]
theorem unpin_data : ((unpin f dirty s).pool.frames g).data = (s.pool.frames g).data := by
  simp only [unpin, unpinPage]
  split
  case h_2     => rfl
  case h_1 i _ =>
    by_cases h : g = i
    case neg => simp [setFrame, h]
    case pos => cases dirty <;> simp [setFrame, h, Page.setDirty, Page.decPinCount]

@[simp]
theorem unpin_pageId : ((unpin f dirty s).pool.frames g).pageId = (s.pool.frames g).pageId := by
  simp only [unpin, unpinPage]
  split
  case h_2     => rfl
  case h_1 i _ =>
    by_cases h : g = i
    case neg => simp [setFrame, h]
    case pos => cases dirty <;> simp [setFrame, h, Page.setDirty, Page.decPinCount]

@[simp]
theorem write_denied : (write f d s).denied = s.denied :=
  rfl

@[simp]
theorem write_pageTable : (write f d s).pool.pageTable = s.pool.pageTable :=
  rfl

@[simp]
theorem write_data_self : ((write f d s).pool.frames f).data = d := by
  simp [write, setFrame]

theorem write_data_ne (h : g ≠ f) : ((write f d s).pool.frames g).data = (s.pool.frames g).data := by
  simp [write, setFrame, h]

@[simp]
theorem write_pageId : ((write f d s).pool.frames g).pageId = (s.pool.frames g).pageId := by
  by_cases h : g = f
  case pos => simp [write, setFrame, h]
  case neg => simp [write, setFrame, h]

@[simp]
theorem write_isDirty : ((write f d s).pool.frames g).isDirty = (s.pool.frames g).isDirty := by
  by_cases h : g = f
  case pos => simp [write, setFrame, h]
  case neg => simp [write, setFrame, h]

end simps

theorem Keeps.frame_ne (hk : s.Keeps owned pins S) (hp : pin ∈ pins) (hq : pin' ∈ pins)
    (hn : pin.pageId ≠ pin'.pageId) : pin.frameId ≠ pin'.frameId := by
  intro he
  have hp := hk.accounts.held hp
  exact hn <| hk.accounts.pool.table_inj hp (he ▸ hk.accounts.held hq)

theorem Keeps.overwrite_true : Keeps.overwrite S p d true = Function.update S p (· = d) := by
  simp [overwrite]

theorem Keeps.overwrite_update : Keeps.overwrite (Function.update S p P) p d true = Function.update S p (· = d) := by
  simp [overwrite]

end Pager
end Duck
