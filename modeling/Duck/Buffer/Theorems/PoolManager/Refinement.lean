import Duck.Buffer.Theorems.PoolManager.Accounts

open Runs

namespace Duck

namespace PoolManager

variable {m m' : PoolManager} {owned : List PageID} {pins : List Pin} {p q : PageID} {f g : FrameID}

-- A frame that is clean, with no client that owes it a dirty unpin, has its page in the file.
def Saved (m : PoolManager) (pins : List Pin) (p : PageID) : Prop :=
  ∀ f, m.pageTable p = some f → (m.frames f).isDirty = false →
    (∀ pin ∈ pins, pin.pageId = p → pin.wrote = false) → m.disk.stored p = (m.frames f).data

theorem Saved.uncached (h : m.pageTable p = none) : m.Saved pins p := by
  intro f hf
  rw [h] at hf
  cases hf

theorem Saved.setDisk (h : m.Saved pins p) (hd : d.stored p = m.disk.stored p) :
    { m with disk := d }.Saved pins p :=
  fun f hf hc hn => hd.trans <| h f hf hc hn

theorem Saved.setFrame_ne (h : m.Saved pins q) (hw : m.WellFormed) (ht : m.pageTable p = some f)
    (hq : q ≠ p) (hp : ∀ pin ∈ pins, pin.pageId = q → pin ∈ pins') : (m.setFrame f page).Saved pins' q := by
  intro g hg hd hn
  have hg : m.pageTable q = some g := hg
  have he : g ≠ f := fun he => hq <| hw.table_inj (he ▸ hg) ht
  rw [setFrame_frames_ne he] at hd ⊢
  exact h g hg hd fun pin hm hp' => hn pin (hp pin hm hp') hp'

theorem Saved.freed (h : m.Saved pins q) (hw : m.WellFormed) (ht : m.pageTable p = some f)
    (hd : d.stored q = m.disk.stored q) : (m.freed p f d).Saved pins q := by
  intro g hg hc hn
  have ⟨_, hg, he⟩ := hw.freed_table ht hg
  simp only [PoolManager.freed, Function.update_of_ne he] at hc ⊢
  exact hd.trans <| h g hg hc hn

section swapped

variable (ha : m.Accounts owned pins) (h : m.Swapped p f m')
include ha h

theorem Swapped.stored_self (ht : m.pageTable p = none) (hp : p ∈ owned) :
    m'.disk.stored p = m.disk.stored p :=
  h.stored_eq <| ha.ne_victim (by simp [ht]) hp

theorem Swapped.saved_ne (hs : m.Saved pins q) (hq : q ≠ p) : m'.Saved (⟨p, f, w⟩ :: pins) q := by
  intro g hg hd hn
  have ⟨hg, he⟩ := (h.table_iff ha.pool hq).mp hg
  rw [h.frame_ne he] at hd ⊢
  rw [h.stored_eq <| ha.ne_victim (by simpa [hg]) (ha.cached hg)]
  exact hs g hg hd fun pin hm => hn pin <| List.mem_cons_of_mem _ hm

-- The page that leaves the pool has been written back, or the file has it already.
theorem Swapped.bytesOf_ne (hs : m.Saved pins q) (hq : q ≠ p) (ho : q ∈ owned) :
    m'.bytesOf q = m.bytesOf q := by
  cases ht : m.pageTable q
  case none =>
    have ht' : m'.pageTable q = none := by
      refine Option.eq_none_iff_forall_ne_some.mpr fun g hg => ?_
      exact nomatch ht.symm.trans ((h.table_iff ha.pool hq).mp hg).1
    rw [bytesOf_stored ht, bytesOf_stored ht']
    exact h.stored_eq <| ha.ne_victim (by simp [ht]) ho
  case some g =>
    rw [bytesOf_cached ht]
    by_cases he : g = f
    case neg =>
      rw [bytesOf_cached ((h.table_iff ha.pool hq).mpr ⟨ht, he⟩), h.frame_ne he]
    case pos =>
      subst he
      have hv := ha.pool.table_page ht
      have ht' : m'.pageTable q = none := by
        refine Option.eq_none_iff_forall_ne_some.mpr fun g' hg => ?_
        have ⟨hg, he⟩ := (h.table_iff ha.pool hq).mp hg
        exact he <| Option.some.inj <| hg.symm.trans ht
      rw [bytesOf_stored ht']
      cases hd : (m.frames g).isDirty
      case true  => exact hv ▸ h.stored_victim hd
      case false =>
        have hn := pinsOn_eq_zero.mp <| ha.no_pins fun hf => Option.some.inj (ht.symm.trans hf) ▸ h.unpinned
        rw [h.disk, writeBack, hd]
        exact hs _ ht hd fun pin hm hp => absurd hp (hn pin hm)

end swapped

end PoolManager

namespace Session

variable {s t : Session} {m : PageMap} {e : Event}

-- The pool and its clients stand for the map.
structure Models (s : Session) (m : PageMap) : Prop where
  accounts : s.pool.Accounts s.owned s.pins
  online   : s.pool.disk.file.failing = false
  roomy    : s.pool.disk.capacity < invalidPageID
  owned    : ∀ {p}, p ∈ s.owned ↔ m p ≠ none
  bytes    : ∀ {p data}, m p = some data → s.pool.bytesOf p = data
  saved    : ∀ p, s.pool.Saved s.pins p

namespace Models

theorem start (hw : d.WellFormed) (ho : d.file.failing = false) (hc : d.capacity < invalidPageID) :
    (start d n).Models .empty where
  accounts := .create hw
  online   := ho
  roomy    := hc
  owned    := ⟨nofun, fun h => absurd rfl h⟩
  bytes    := nofun
  saved _  := .uncached rfl

theorem uncached_of_fresh (hm : s.Models m) (h : ¬s.pool.disk.InUse p) : s.pool.pageTable p = none := by
  cases ht : s.pool.pageTable p
  case none   => rfl
  case some f => exact absurd (hm.accounts.inUse <| hm.accounts.cached ht) h

-- The new page is not owned before, and shows zeros.
theorem newPage (hm : s.Models m) (h : s.pool.newPage = (.ok (some f), m₁)) :
    ∃ p, m₁.frames f = ⟨p, .zero, 1, false⟩ ∧ m p = none ∧
      (m₁.disk.capacity < invalidPageID →
        Models ⟨m₁, p :: s.owned, ⟨p, f, true⟩ :: s.pins⟩ (Function.update m p (some .zero))) := by
  have ha := hm.accounts
  have hx := ha.disk.allocatePage fun _ => hm.roomy
  have ht := hm.uncached_of_fresh hx.fresh
  obtain hn | ⟨f', m', hn, hs⟩ | ⟨e, m', hn, _⟩ := ha.pool.newPage ha.disk (fun _ => hm.roomy) ht
  case inl | inr.inr => exact nomatch h.symm.trans hn
  · obtain ⟨⟨⟨rfl⟩⟩, rfl⟩ := Prod.mk.inj <| h.symm.trans hn
    have ha' := (ha.allocates hx).own <| hx.inUse.mpr <| .inr rfl
    generalize s.pool.disk.allocatePage.1 = p at *
    have hp : p ∉ s.owned := fun hp => hx.fresh <| ha.inUse hp
    have hd {q} : s.pool.disk.allocatePage.2.stored q = s.pool.disk.stored q :=
      DiskManager.stored_of_file hx.file
    have hf : s.pool.disk.allocatePage.2.file.failing = false := hx.file ▸ hm.online
    refine ⟨p, hs.frame_self, not_not.mp <| mt hm.owned.mpr hp, fun hc => ⟨?_, hs.still_online hf, hc, ?_, ?_, ?_⟩⟩
    · exact ha'.swapped List.mem_cons_self ht hs
    · intro q
      by_cases hq : q = p
      case pos => simp [hq]
      case neg => simp [hq, hm.owned]
    · intro q data hq
      by_cases he : q = p
      case pos =>
        subst he
        rw [Function.update_self] at hq
        rw [PoolManager.bytesOf_cached hs.table_self, hs.frame_self, ←Option.some.inj hq]
      case neg =>
        rw [Function.update_of_ne he] at hq
        have ho := List.mem_cons_of_mem p <| hm.owned.mpr (hq ▸ Option.some_ne_none _)
        rw [hs.bytesOf_ne ha' ((hm.saved q).setDisk hd) he ho, PoolManager.bytesOf_setDisk fun _ => hd]
        exact hm.bytes hq
    · intro q
      by_cases he : q = p
      case pos =>
        subst he
        exact fun _ _ _ hn => nomatch hn _ List.mem_cons_self rfl
      case neg => exact hs.saved_ne ha' ((hm.saved q).setDisk hd) he

theorem noNewPage (hm : s.Models m) (h : s.pool.newPage = (.ok none, m₁))
    (hc : m₁.disk.capacity < invalidPageID) : Models { s with pool := m₁ } m := by
  have ha := hm.accounts
  have hx := ha.disk.allocatePage fun _ => hm.roomy
  have ht := hm.uncached_of_fresh hx.fresh
  obtain hn | ⟨f', m', hn, hs⟩ | ⟨e, m', hn, _⟩ := ha.pool.newPage ha.disk (fun _ => hm.roomy) ht
  case inr.inl | inr.inr => exact nomatch h.symm.trans hn
  · obtain rfl := (Prod.mk.inj <| h.symm.trans hn).2
    have hd {q} : s.pool.disk.allocatePage.2.stored q = s.pool.disk.stored q :=
      DiskManager.stored_of_file hx.file
    refine ⟨ha.allocates hx, hx.file ▸ hm.online, hc, hm.owned, fun hq => ?_, fun q => (hm.saved q).setDisk hd⟩
    exact (PoolManager.bytesOf_setDisk fun _ => hd).trans <| hm.bytes hq

theorem fetchPage (hm : s.Models m) (hp : p ∈ s.owned) (h : s.pool.fetchPage p = (.ok (some f), m₁))
    (hn : pinsOn (⟨p, f, false⟩ :: s.pins) p < 4294967296) :
    m p = some (m₁.frames f).data ∧ Models { s with pool := m₁, pins := ⟨p, f, false⟩ :: s.pins } m := by
  have ha := hm.accounts
  have ⟨data, hd⟩ := Option.ne_none_iff_exists'.mp <| hm.owned.mp hp
  have hb := hm.bytes hd
  obtain he | ⟨f', m', he, hf⟩ | ⟨e, m', he, _⟩ := ha.pool.fetchPage (ha.inUse hp).lt
  case inl | inr.inr => exact nomatch h.symm.trans he
  · obtain ⟨⟨⟨rfl⟩⟩, rfl⟩ := Prod.mk.inj <| h.symm.trans he
    cases hf
    case hit ht =>
      rw [PoolManager.bytesOf_cached ht] at hb
      have hw := ha.pool
      refine ⟨?_, ha.hit ht hn, hm.online, hm.roomy, hm.owned, fun {q data'} hq => ?_, fun q => ?_⟩
      · rw [hd, ←hb, PoolManager.pinned, PoolManager.setFrame_frames_same]
        rfl
      · refine Eq.trans ?_ <| hm.bytes hq
        by_cases hqp : q = p
        case pos =>
          subst hqp
          rw [PoolManager.bytesOf_cached ht]
          exact PoolManager.bytesOf_setFrame_self ht
        case neg => exact hw.bytesOf_setFrame_ne ht hqp
      · by_cases hqp : q = p
        case neg =>
          exact (hm.saved q).setFrame_ne hw ht hqp fun pin hm _ => List.mem_cons_of_mem _ hm
        case pos =>
          subst hqp
          intro g hg hc hn
          obtain rfl := Option.some.inj <| ht.symm.trans hg
          simp only [PoolManager.pinned, PoolManager.setFrame_frames_same] at hc ⊢
          exact hm.saved q _ ht hc fun pin hm => hn pin <| List.mem_cons_of_mem _ hm
    case miss m' ht hs =>
      have hw := hs.wellFormed
      have hself := hs.stored_self ha ht hp
      rw [PoolManager.bytesOf_stored ht] at hb
      have ha' : (m'.setFrame f { m'.frames f with data := m'.disk.stored p }).Accounts _ _ :=
        (ha.swapped (w := false) hp ht hs).setFrame hs.table_self (by rw [hs.frame_self]) rfl
      refine ⟨?_, ha', hs.still_online hm.online, ?_, hm.owned, fun {q data'} hq => ?_, fun q => ?_⟩
      · rw [hd, PoolManager.setFrame_frames_same, hself, hb]
      · simp only [PoolManager.setFrame, hs.disk, PoolManager.writeBack_capacity]
        exact hm.roomy
      · by_cases hqp : q = p
        case pos =>
          subst hqp
          rw [PoolManager.bytesOf_setFrame_self hs.table_self, hself, hb]
          exact Option.some.inj <| hd.symm.trans hq
        case neg =>
          rw [hw.bytesOf_setFrame_ne hs.table_self hqp,
            hs.bytesOf_ne ha (hm.saved q) hqp (hm.owned.mpr (hq ▸ Option.some_ne_none _))]
          exact hm.bytes hq
      · by_cases hqp : q = p
        case pos =>
          subst hqp
          intro g hg _ _
          obtain rfl := Option.some.inj <| hs.table_self.symm.trans hg
          rw [PoolManager.setFrame_frames_same]
          rfl
        case neg =>
          exact (hs.saved_ne ha (hm.saved q) hqp).setFrame_ne hw hs.table_self hqp fun _ hm _ => hm

theorem noPage (hm : s.Models m) (hp : p ∈ s.owned) (h : s.pool.fetchPage p = (.ok none, m₁)) :
    Models { s with pool := m₁ } m := by
  have ha := hm.accounts
  obtain he | ⟨f', m', he, hf⟩ | ⟨e, m', he, _⟩ := ha.pool.fetchPage (ha.inUse hp).lt
  case inr.inl | inr.inr => exact nomatch h.symm.trans he
  · obtain rfl := (Prod.mk.inj <| h.symm.trans he).2
    exact hm

theorem pin_owned (hm : s.Models m) (h : s.pins = pins₁ ++ pin :: pins₂) : pin.pageId ∈ s.owned :=
  hm.accounts.cached <| hm.accounts.held <| h ▸ mem_mid.mpr (.inl rfl)

theorem write (hm : s.Models m) (h : s.pins = pins₁ ++ pin :: pins₂) :
    Models { s with
      pool := s.pool.setFrame pin.frameId { s.pool.frames pin.frameId with data := data }
      pins := pins₁ ++ { pin with wrote := true } :: pins₂ } (Function.update m pin.pageId (some data)) := by
  have ha := hm.accounts
  have ht := ha.held <| h ▸ mem_mid.mpr (.inl rfl)
  have ho := hm.pin_owned h
  refine ⟨?_, hm.online, hm.roomy, fun {q} => ?_, fun {q data'} hq => ?_, fun q => ?_⟩
  · have ha : (s.pool.setFrame pin.frameId { s.pool.frames pin.frameId with data := data }).Accounts _ _ :=
      ha.setFrame ht (ha.pool.table_page ht) rfl
    refine ⟨ha.pool, ha.disk, ha.inUse, ha.cached, fun hm => ?_, fun hf => ?_⟩
    · obtain rfl | hm := mem_mid.mp hm
      · exact ht
      · exact ha.held (h ▸ mem_mid.mpr (.inr hm))
    · rw [ha.count hf, h, pinsOn_mid, pinsOn_mid, pinsOn_cons, pinsOn_cons]
  · by_cases hq : q = pin.pageId
    case pos => simp [hq, ho]
    case neg => simp [hq, hm.owned]
  · by_cases he : q = pin.pageId
    case pos =>
      subst he
      rw [Function.update_self] at hq
      rw [PoolManager.bytesOf_setFrame_self ht, ←Option.some.inj hq]
    case neg =>
      rw [Function.update_of_ne he] at hq
      rw [ha.pool.bytesOf_setFrame_ne ht he]
      exact hm.bytes hq
  · by_cases he : q = pin.pageId
    case pos =>
      subst he
      exact fun _ _ _ hn => nomatch hn _ (mem_mid.mpr <| .inl rfl) rfl
    case neg =>
      refine (hm.saved q).setFrame_ne ha.pool ht he fun pin' hm hp => ?_
      refine mem_mid.mpr <| .inr <| (mem_mid.mp (h ▸ hm)).resolve_left ?_
      rintro rfl
      exact he hp.symm

theorem unpinPage (hm : s.Models m) (h : s.pins = pins₁ ++ pin :: pins₂) (hw : pin.wrote → dirty = true) :
    Models { s with
      pool := s.pool.unpinPage pin.pageId dirty
      pins := pins₁ ++ pins₂ } m := by
  have ha := hm.accounts
  have ht := ha.held <| h ▸ mem_mid.mpr (.inl rfl)
  have ha' : (s.pool.unpinPage pin.pageId dirty).Accounts s.owned (pins₁ ++ pins₂) := (h ▸ ha).unpinned
  rw [PoolManager.unpinPage_eq ht] at ha' ⊢
  refine ⟨ha', hm.online, hm.roomy, hm.owned, fun {q data} hq => ?_, fun q => ?_⟩
  · refine Eq.trans ?_ <| hm.bytes hq
    by_cases he : q = pin.pageId
    case pos =>
      subst he
      rw [PoolManager.bytesOf_setFrame_self ht, PoolManager.bytesOf_cached ht]
    case neg => exact ha.pool.bytesOf_setFrame_ne ht he
  · by_cases he : q = pin.pageId
    case pos =>
      subst he
      intro g hg hc hn
      obtain rfl := Option.some.inj <| ht.symm.trans hg
      simp only [PoolManager.setFrame_frames_same, Bool.or_eq_false_iff] at hc ⊢
      refine hm.saved _ _ ht hc.1 fun pin' hm hp => ?_
      obtain rfl | hm := mem_mid.mp (h ▸ hm)
      · exact Bool.eq_false_iff.mpr fun ht => nomatch hc.2.symm.trans (hw ht)
      · exact hn pin' hm hp
    case neg =>
      refine (hm.saved q).setFrame_ne ha.pool ht he fun pin' hm hp => ?_
      refine (mem_mid.mp (h ▸ hm)).resolve_left ?_
      rintro rfl
      exact he hp.symm

theorem deletePage (hm : s.Models m) (hp : p ∈ s.owned) (h : s.pool.deletePage p = (.ok true, m₁)) :
    Models { s with pool := m₁, owned := s.owned.filter (· ≠ p) } (Function.update m p none) := by
  have ha := hm.accounts
  have hdel : s.pool.Deleted p m₁ := by
    obtain ⟨he, _⟩ | ⟨m', he, hd⟩ := PoolManager.WellFormed.deletePage ha.disk (ha.inUse hp)
    · exact nomatch h.symm.trans he
    · exact (Prod.mk.inj <| h.symm.trans he).2 ▸ hd
  refine ⟨ha.deleted hdel, ?_, ?_, fun {q} => ?_, fun {q data} hq => ?_, fun q => ?_⟩
  · cases hdel
    case cached hd   => exact hd.file ▸ hm.online
    case uncached hd => exact hd.file ▸ hm.online
  · cases hdel
    case cached hd   => exact hd.capacity ▸ hm.roomy
    case uncached hd => exact hd.capacity ▸ hm.roomy
  · by_cases hq : q = p
    case pos => simp [hq]
    case neg => simp [hq, hm.owned]
  · have he : q ≠ p := by
      rintro rfl
      rw [Function.update_self] at hq
      cases hq
    rw [Function.update_of_ne he] at hq
    refine Eq.trans ?_ <| hm.bytes hq
    cases hdel
    case cached ht _ hd   => exact ha.pool.bytesOf_freed ht he <| DiskManager.stored_of_file hd.file
    case uncached ht hd => exact PoolManager.bytesOf_setDisk fun _ => DiskManager.stored_of_file hd.file
  · cases hdel
    case cached ht _ hd => exact (hm.saved q).freed ha.pool ht <| DiskManager.stored_of_file hd.file
    case uncached hd    => exact (hm.saved q).setDisk <| DiskManager.stored_of_file hd.file

theorem noDelete (hm : s.Models m) (hp : p ∈ s.owned) (h : s.pool.deletePage p = (.ok false, m₁)) :
    Models { s with pool := m₁ } m := by
  have ha := hm.accounts
  obtain ⟨he, _⟩ | ⟨m', he, _⟩ := PoolManager.WellFormed.deletePage ha.disk (ha.inUse hp)
  · obtain rfl := (Prod.mk.inj <| h.symm.trans he).2
    exact hm
  · exact nomatch h.symm.trans he

theorem flushAll (hm : s.Models m) (h : s.pool.flushAll = (.ok (), m₁)) : Models { s with pool := m₁ } m := by
  have ha := hm.accounts
  have ⟨d, he, hf⟩ := ha.pool.flushAll hm.online
  obtain rfl := (Prod.mk.inj <| h.symm.trans he).2
  refine ⟨ha.flushed hf, hf.failing.trans hm.online, hf.capacity ▸ hm.roomy, hm.owned, fun hq => ?_, fun q f ht hd hn => ?_⟩
  · refine (PoolManager.bytesOf_setDisk fun ht => ?_).trans <| hm.bytes hq
    exact hf.kept fun f _ hf => nomatch ht.symm.trans hf
  · refine Eq.trans ?_ <| hm.saved q f ht hd hn
    refine hf.kept fun g _ hg => ?_
    rwa [Option.some.inj <| hg.symm.trans ht]

theorem flushDisk (hm : s.Models m) :
    Models { s with pool := { s.pool with disk := s.pool.disk.flushAll } } m := by
  have ha := hm.accounts
  have hd {q} (hq : q ∈ s.owned) : s.pool.disk.flushAll.stored q = s.pool.disk.stored q :=
    DiskManager.stored_flushAll ha.disk.free_le (ha.inUse hq).ne
  refine ⟨ha.flushDisk, DiskManager.flushAll_failing.trans hm.online, hm.roomy, hm.owned, fun hq => ?_, fun q f ht hc hn => ?_⟩
  · refine (PoolManager.bytesOf_setDisk fun _ => hd ?_).trans <| hm.bytes hq
    exact hm.owned.mpr (hq ▸ Option.some_ne_none _)
  · exact (hd <| ha.cached ht).trans <| hm.saved q f ht hc hn

-- Every call does to the map what it shows to the client.
theorem step (hm : s.Models m) (e : BoundedStep s ev t) : ∃ m', m.Step ev m' ∧ t.Models m' := by
  have ⟨⟨e, hc⟩, hn⟩ := e
  cases e
  case newPage h =>
    have ⟨p, hf, hp, ht⟩ := hm.newPage h
    rw [hf] at hc ⊢
    exact ⟨_, .newPage hp, ht hc⟩
  case noNewPage h     => exact ⟨m, .noNewPage, hm.noNewPage h hc⟩
  case fetchPage hp h  =>
    have ⟨hd, ht⟩ := hm.fetchPage hp h (hn _)
    exact ⟨m, .fetchPage hd, ht⟩
  case noPage hp h     => exact ⟨m, .noPage, hm.noPage hp h⟩
  case write h         =>
    have ⟨_, hd⟩ := Option.ne_none_iff_exists'.mp <| hm.owned.mp <| hm.pin_owned h
    exact ⟨_, .write hd, hm.write h⟩
  case unpinPage h hw  => exact ⟨m, .unpinPage, hm.unpinPage h hw⟩
  case deletePage b hp h =>
    cases b
    case true  => exact ⟨_, .deletePage, hm.deletePage hp h⟩
    case false => exact ⟨m, .noDelete, hm.noDelete hp h⟩
  case flushAll h      => exact ⟨m, .flushAll, hm.flushAll h⟩
  case flushDisk       => exact ⟨m, .flushDisk, hm.flushDisk⟩

theorem run (hm : s.Models m) (h : Steps BoundedStep s es t) : ∃ m', Steps PageMap.Step m es m' ∧ t.Models m' :=
  h.simulates (fun e hm => hm.step e) hm

end Models

-- No frame with a positive pin count is given to another page.
def KeepsPinned (s t : Session) : Prop :=
  ∀ f, (s.pool.frames f).pinCount ≠ 0 → (t.pool.frames f).pageId = (s.pool.frames f).pageId

theorem Models.keepsPinned (hm : s.Models m) (e : Step s ev t) : s.KeepsPinned t := by
  have ha := hm.accounts
  cases e
  case newPage h | noNewPage h =>
    have hx := ha.disk.allocatePage fun _ => hm.roomy
    have ht := hm.uncached_of_fresh hx.fresh
    obtain hn | ⟨f', m', hn, hs⟩ | ⟨e, m', hn, _⟩ := ha.pool.newPage ha.disk (fun _ => hm.roomy) ht
    case inr.inr => exact nomatch h.symm.trans hn
    all_goals obtain rfl := (Prod.mk.inj <| h.symm.trans hn).2
    · exact fun _ _ => rfl
    · exact fun _ => hs.keeps
  case fetchPage hp h | noPage hp h =>
    obtain hn | ⟨f', m', hn, hf⟩ | ⟨e, m', hn, _⟩ := ha.pool.fetchPage (ha.inUse hp).lt
    case inr.inr => exact nomatch h.symm.trans hn
    all_goals obtain rfl := (Prod.mk.inj <| h.symm.trans hn).2
    · exact fun _ _ => rfl
    · cases hf
      case hit ht     => exact fun _ _ => PoolManager.setFrame_pageId rfl
      case miss ht hs =>
        intro g hg
        refine Eq.trans ?_ <| hs.keeps hg
        exact PoolManager.setFrame_pageId rfl
  case write h         => exact fun _ _ => PoolManager.setFrame_pageId rfl
  case unpinPage h hw  =>
    intro g _
    rw [PoolManager.unpinPage_eq <| ha.held <| h ▸ mem_mid.mpr (.inl rfl)]
    exact PoolManager.setFrame_pageId rfl
  case deletePage hp h =>
    obtain ⟨hn, _⟩ | ⟨m', hn, hd⟩ := PoolManager.WellFormed.deletePage ha.disk (ha.inUse hp)
    all_goals obtain rfl := (Prod.mk.inj <| h.symm.trans hn).2
    · exact fun _ _ => rfl
    · exact fun _ => hd.keeps
  case flushAll h      =>
    have ⟨d, hn, _⟩ := ha.pool.flushAll hm.online
    obtain rfl := (Prod.mk.inj <| h.symm.trans hn).2
    exact fun _ _ => rfl
  case flushDisk       => exact fun _ _ => rfl

-- What the pool owes its clients: what they see is what the map would show, and at any time the pool
-- has the bytes of the map for every page they own.
def RefinesPageMap (step : Session → Event → Session → Prop) : Prop :=
  ∀ disk n es s, disk.WellFormed → disk.file.failing = false → disk.capacity < invalidPageID → 1 ≤ n →
    Steps step (start disk n) es s →
    (∃ m, Steps PageMap.Step .empty es m ∧ (∀ p, p ∈ s.owned ↔ m p ≠ none) ∧
      ∀ p data, m p = some data → s.pool.bytesOf p = data) ∧
    ∀ e t, step s e t → s.KeepsPinned t

theorem refines_pageMap : RefinesPageMap BoundedStep := by
  intro disk n es s hd ho hc _ h
  have ⟨m, hr, hm⟩ := (Models.start hd ho hc).run h
  exact ⟨⟨m, hr, fun _ => hm.owned, fun _ _ => hm.bytes⟩, fun e t he => hm.keepsPinned he.1.1⟩

end Session
end Duck
