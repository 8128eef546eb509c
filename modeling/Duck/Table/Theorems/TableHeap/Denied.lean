import Duck.Buffer.Theorems.Frames
import Duck.Buffer.Theorems.Restart
import Duck.Table.Theorems.TableHeap.Operations

namespace Duck

namespace Pager

open PoolManager

variable {s t : Pager} {owned : List PageID} {pins : List Pin} {views : Views} {p : PageID}
variable {S : PageID → PageData → Prop}

-- The state with a caller who does not mind.
def forgiven (s : Pager) : Pager :=
  { s with denied := false }

-- A new page can be given an id.
structure Ready (s : Pager) : Prop where
  online : s.Online
  ids    : s.pool.disk.freeList = [] → s.pool.disk.capacity < invalidPageID

-- The state in which an id has been given.
def allocated (s : Pager) : Pager :=
  { s with pool := { s.pool with disk := s.pool.disk.allocatePage.2 } }

-- The caller has been let down, as there were `n` pins or more for every frame.
structure Refused (s : Pager) (n : ℕ) : Prop where
  denied  : s.denied = true
  crowded : s.pool.poolCapacity ≤ n

theorem Refused.mono (h : s.Refused n) (hn : n ≤ n') : s.Refused n' :=
  ⟨h.denied, h.crowded.trans hn⟩

theorem Refused.unpin (h : s.Refused n) : (unpin f dirty s).Refused n :=
  ⟨h.denied, unpin_poolCapacity.trans_le h.crowded⟩

theorem Ready.allocated (hr : s.Ready) : s.allocated.Online :=
  hr.online.allocatePage

theorem Steady.ready (h : s.Steady t) (hr : s.Ready) : t.Ready :=
  ⟨h.online hr.online, by rw [h.capacity, h.freeList]; exact hr.ids⟩

@[simp]
theorem unpin_disk : (unpin f dirty s).pool.disk = s.pool.disk := by
  simp only [unpin, unpinPage]
  split <;> rfl

@[simp]
theorem write_disk : (write f d s).pool.disk = s.pool.disk :=
  rfl

theorem Keeps.forgiven (hk : s.Keeps owned pins S) : s.forgiven = s := by
  rw [Pager.forgiven, ←hk.granted]

theorem Shows.forgiven (hs : s.Shows pins views) : s.forgiven = s := by
  rw [Pager.forgiven, ←hs.denied]

theorem Steady.of_swapped {m : PoolManager} (h : s.pool.Swapped p f m) (ht : t.pool.disk = m.disk) : s.Steady t where
  online   := fun ho => show t.pool.disk.Online from ht ▸ h.disk ▸ writeBack_online ho
  capacity := ht ▸ h.disk ▸ writeBack_capacity
  freeList := ht ▸ h.disk ▸ writeBack_freeList

-- Every frame may have been pinned. Nothing has happened then.
theorem Keeps.fetchPage_online (hk : s.Keeps owned pins S) (ho : s.Online) (hp : p ∈ owned)
    (hn : pinsOn pins p + 1 < 4294967296) : (Pager.fetchPage p).Ends s fun result t =>
      (result = .ok none ∧ t = ⟨s.pool, true⟩ ∧ t.Refused pins.length) ∨ ∃ f, result = .ok (some f) ∧
        t.Keeps owned (⟨p, f, false⟩ :: pins) S ∧
        (t.pool.frames f).isDirty = s.isDirty p ∧ s.Steady t := by
  refine (hk.fetchPage hp hn).self.mono fun {result t} h => ?_
  obtain ⟨hx, h⟩ := h
  obtain hf | ⟨f, m', hf, hm⟩ | ⟨e, m', hf, hd⟩ := hk.accounts.pool.fetchPage (hk.accounts.inUse hp).lt
  · simp only [Pager.fetchPage, Program.call, hf, Option.some.injEq, Prod.mk.injEq] at hx
    refine .inl ⟨hx.1.symm, hx.2.symm, hx.2 ▸ ⟨rfl, Nat.not_lt.mp fun hc => ?_⟩⟩
    obtain ⟨f, hl, hz⟩ := hk.accounts.idle hc
    exact hk.accounts.pool.fetchPage_granted (hk.accounts.inUse hp).lt hl hz hf
  · simp only [Pager.fetchPage, Program.call, hf, Option.some.injEq, Prod.mk.injEq] at hx
    obtain ⟨rfl, rfl⟩ := hx
    obtain ⟨hd, -⟩ | ⟨_, hr, ht, hc⟩ := h
    · cases hd.symm.trans hk.granted
    · obtain rfl := Option.some.inj <| Except.ok.inj hr
      refine .inr ⟨f, rfl, ht, hc, ?_⟩
      cases hm
      case hit        => exact .of_disk rfl
      case miss _ hs  => exact .of_swapped hs rfl
  · cases hd.symm.trans ho.answers

-- A pool with more frames than pins refuses no page.
theorem Keeps.fetchPage_granted (hk : s.Keeps owned pins S) (ho : s.Online) (hp : p ∈ owned) (hn : pinsOn pins p + 1 < 4294967296)
    (hc : pins.length < s.pool.poolCapacity) : (Pager.fetchPage p).Leaves s fun _ t => t.denied = false := by
  intro result t hx
  obtain ⟨-, rfl, hr⟩ | ⟨_, -, ht, -⟩ := (hk.fetchPage_online ho hp hn).of_eq hx
  · exact absurd hc (Nat.not_lt.mpr hr.crowded)
  · exact ht.granted

-- An id that has been handed out for a page that cannot be had is lost.
theorem Keeps.newPage_returns (hk : s.Keeps owned pins S)
    (hi : s.pool.disk.freeList = [] → s.pool.disk.capacity < invalidPageID) (hx : Pager.newPage s = some (.ok frame, t)) :
    (frame = none → t.forgiven.Keeps owned pins S) ∧ (frame ≠ none → t.denied = false) := by
  have ha := hk.accounts
  have hfresh := ha.disk.allocatePage hi
  have ht : s.pool.pageTable s.pool.disk.allocatePage.1 = none :=
    Option.eq_none_iff_forall_ne_some.mpr fun f hf => hfresh.fresh <| ha.inUse <| ha.cached hf
  obtain hp | ⟨f, m', hp, hs⟩ | ⟨e, m', hp, -⟩ := ha.pool.newPage ha.disk hi ht
  all_goals simp only [Pager.newPage, Program.call, hp, Option.some.injEq, Prod.mk.injEq] at hx
  · obtain ⟨hframe, rfl⟩ := hx
    obtain rfl := Except.ok.inj hframe
    refine ⟨fun _ => ⟨ha.allocates hfresh, rfl, fun {q d} hq hv => hk.versions hq ?_⟩, (absurd rfl ·)⟩
    exact version_setDisk (DiskManager.stored_of_file hfresh.file) hv
  · obtain ⟨hframe, rfl⟩ := hx
    obtain rfl := Except.ok.inj hframe
    have hi : (m'.frames f).pageId ≠ invalidPageID := by
      rw [hs.frame_self]
      exact ne_invalid (hfresh.inUse.mpr <| .inr rfl).lt
    exact ⟨(absurd · <| Option.some_ne_none f), fun _ => by simp [hk.granted, hi]⟩
  · cases hx.1

theorem Keeps.newPage_ready (hk : s.Keeps owned pins S) (hr : s.Ready) : Pager.newPage.Ends s fun result t =>
    s.allocated.Steady t ∧
    ((result = .ok none ∧ t.Refused pins.length ∧ t.forgiven.Keeps owned pins S) ∨
      ∃ f p, result = .ok (some f) ∧ p = s.pool.disk.allocatePage.1 ∧ p ∉ owned ∧ p ≠ invalidPageID ∧
        t.Keeps (p :: owned) (⟨p, f, true⟩ :: pins) (Function.update S p fun _ => True) ∧
        (t.pool.frames f).data = .zero ∧ ∀ g, g ≠ f → t.pool.frames g = s.pool.frames g) := by
  have ha := hk.accounts
  have hx := ha.disk.allocatePage hr.ids
  have ht : s.pool.pageTable s.pool.disk.allocatePage.1 = none :=
    Option.eq_none_iff_forall_ne_some.mpr fun f hf => hx.fresh <| ha.inUse <| ha.cached hf
  refine hk.newPage.self.mono fun {result t} h => ?_
  obtain ⟨hrun, h⟩ := h
  obtain hp | ⟨f, m', hp, hs⟩ | ⟨e, m', hp, hd⟩ := ha.pool.newPage ha.disk hr.ids ht
  · have hrun' := hrun
    simp only [Pager.newPage, Program.call, hp, Option.some.injEq, Prod.mk.injEq] at hrun
    obtain ⟨rfl, rfl⟩ := hrun
    refine ⟨.of_disk rfl, .inl ⟨rfl, ⟨rfl, ?_⟩, (hk.newPage_returns hr.ids hrun').1 rfl⟩⟩
    refine Nat.not_lt.mp fun hc => ?_
    obtain ⟨f, hl, hz⟩ := ha.idle hc
    have hw := ha.pool.setDisk hx.le
    exact (hw.available (hx.inUse.mpr (.inr rfl)).lt ht hl hz).swapFrame_granted hw (newPage_eq ▸ hp)
  · have hrun' := hrun
    simp only [Pager.newPage, Program.call, hp, Option.some.injEq, Prod.mk.injEq] at hrun
    obtain ⟨rfl, rfl⟩ := hrun
    obtain ⟨hd, -⟩ | ⟨g, p, hg, h⟩ := h
    · cases ((hk.newPage_returns hr.ids hrun').2 <| Option.some_ne_none f).symm.trans hd
    · obtain rfl := Option.some.inj <| Except.ok.inj hg
      have hid : (m'.frames f).pageId = p := h.2.2.1.pageId List.mem_cons_self
      rw [hs.frame_self] at hid
      exact ⟨.of_swapped (s := s.allocated) hs rfl, .inr ⟨f, p, rfl, hid.symm, h⟩⟩
  · cases hd.symm.trans hr.online.answers

end Pager

namespace TableHeap

open Pager

variable {s t : Pager} {owned : List PageID} {pins : List Pin} {views : Views} {p : PageID} {S : PageID → PageData → Prop}

section calls

variable {bytes : List UInt8} {created : Bool}

theorem onPage_online {body : PageID → SlottedPage → α × SlottedPage × Bool} (hk : s.Keeps owned pins S) (ho : s.Online)
    (hp : p ∈ owned) (hn : pinsOn pins p + 1 < 4294967296) : (onPage p missing body).Ends s fun result t =>
      s.Steady t ∧ (t.denied = true → result = .ok missing ∧ t = ⟨s.pool, true⟩ ∧ t.Refused pins.length) := by
  refine (hk.fetchPage_online ho hp hn).bind ?_ ?_
  · rintro a t (⟨hr, rfl, hd⟩ | ⟨f, hr, ht, -, hs⟩)
    · obtain rfl := Except.ok.inj hr
      exact .pure ⟨.of_disk rfl, fun _ => ⟨rfl, rfl, hd⟩⟩
    · obtain rfl := Except.ok.inj hr
      have hd := ht.granted
      refine pinned_ends (R := fun _ u => u.pool.disk = t.pool.disk ∧ u.denied = false)
        (ends_pageId <| ends_slotted <| ends_put <| .pure ⟨rfl, hd⟩) ?_ ?_
      · exact fun h => ⟨hs.trans <| .of_disk <| unpin_disk.trans h.1, fun hx => absurd (h.2.symm.trans hx) (by decide)⟩
      · exact fun h => ⟨hs.trans <| .of_disk <| unpin_disk.trans h.1, fun hx => absurd (h.2.symm.trans hx) (by decide)⟩
  · rintro e t (⟨hr, -⟩ | ⟨_, hr, -⟩) <;> cases hr

-- A call on a page that has been let down has done nothing.
theorem onPage_refused {body : PageID → SlottedPage → α × SlottedPage × Bool} (hs : s.denied = false)
    (hx : onPage p missing body s = some (.ok a, t)) (hd : t.denied = true) : Pager.fetchPage p s = some (.ok none, t) := by
  obtain ⟨frame, u, hf, hx⟩ := Program.bind_ok hx
  cases frame
  case none   =>
    obtain ⟨-, rfl⟩ := Prod.mk.inj <| Option.some.inj hx
    exact hf
  case some f =>
    have hu : u.denied = false := by
      rcases hp : s.pool.fetchPage p with ⟨_ | _ | g, m⟩
      all_goals simp only [Pager.fetchPage, Program.call, hp, Option.some.injEq, Prod.mk.injEq] at hf
      · cases hf.1
      · cases hf.1
      · exact hf.2 ▸ hs
    refine absurd hd <| Bool.eq_false_iff.mp ?_
    refine Program.Ends.of_eq (Q := fun _ v => v.denied = false) (pinned_ends (R := fun _ v => v.denied = false) ?_ id id) hx
    exact ends_pageId <| ends_slotted <| ends_put <| .pure hu

theorem appendPage_ready {g : FrameID} {b : Bool} (hk : s.Keeps owned (⟨p, g, b⟩ :: pins) S) (hr : s.Ready) :
    (appendPage g).Ends s fun result t => t.Online ∧ (t.denied = true →
      (∃ e, result = .error e) ∧ t.Refused (pins.length + 1) ∧ t.forgiven.Keeps owned (⟨p, g, b⟩ :: pins) S) := by
  refine (hk.newPage_ready hr).bind ?_ ?_
  · rintro a t ⟨ho, ⟨hx, hd, ht⟩ | ⟨f, n, hx, -, -, -, ht, -⟩⟩
    all_goals have ho := ho.online hr.allocated
    · obtain rfl := Except.ok.inj hx
      exact .throw ⟨ho, fun _ => ⟨⟨_, rfl⟩, hd, ht⟩⟩
    · obtain rfl := Except.ok.inj hx
      have hd := ht.granted
      refine initPage_ends.bind ?_ (fun h => absurd h.1 Except.error_ne_ok)
      rintro a u ⟨-, rfl⟩
      refine ends_slotted ?_
      have hon : (unpin f true (write f (t.pool.frames f).data.slotted.init.stored t)).Online :=
        (Steady.of_disk <| unpin_disk.trans write_disk).online ho
      split
      case isTrue  =>
        refine ends_pageId <| ends_put <| .pure ⟨hon, fun hx => ?_⟩
        cases hd.symm.trans hx
      case isFalse =>
        refine ends_pageId <| .bind (R := fun _ v => v.Online ∧ v.denied = false) (.map <| .call ⟨?_, hd⟩) ?_ ?_
        · exact PoolManager.deletePage_online hon
        · exact fun h => .pure ⟨h.1, fun hx => absurd (h.2.symm.trans hx) (by decide)⟩
        · exact fun h => ⟨h.1, fun hx => absurd (h.2.symm.trans hx) (by decide)⟩
  · rintro e t ⟨ho, ⟨hx, -⟩ | ⟨_, _, hx, -⟩⟩ <;> cases hx

theorem visitPage_online {g : FrameID} {b : Bool} (hk : s.Keeps owned (⟨p, g, b⟩ :: pins) S) (ho : s.Online)
    (hr : created = false → s.Ready)
    (hS : ∀ {d page}, S p d → tryInsert d.slotted bytes = (none, page) → S p page.stored) :
    (visitPage g bytes created).Ends s fun result t => t.Online ∧ (∀ q, result = .ok (.inr (q, false)) → t.Ready) ∧
      (t.denied = true → (∃ e, result = .error e) ∧ t.Refused (pins.length + 1) ∧ t.forgiven.Keeps owned pins S) := by
  have hm : Pin.mk p g b ∈ Pin.mk p g b :: pins := List.mem_cons_self
  have hd := hk.data hm
  have hg : s.denied = true → False := fun hx => absurd (hk.granted.symm.trans hx) (by decide)
  have hw {d : PageData} : s.Steady (unpin g true (write g d s)) := .of_disk <| unpin_disk.trans write_disk
  have hw' {d : PageData} : s.Steady (unpin g false (write g d s)) := .of_disk <| unpin_disk.trans write_disk
  simp only [visitPage]
  rcases hi : tryInsert (s.pool.frames g).data.slotted bytes with ⟨_ | rid, page⟩
  case some =>
    refine pinned_ends (R := fun result u => (∃ rid, result = .ok (.inl rid, true)) ∧ u = write g page.stored s) ?_ ?_ ?_
    · refine ends_slotted ?_
      rw [hi]
      exact ends_put <| ends_pageId <| .pure ⟨⟨_, rfl⟩, rfl⟩
    · rintro a dirty u ⟨⟨rid, hx⟩, rfl⟩
      obtain ⟨rfl, rfl⟩ := Prod.mk.inj <| Except.ok.inj hx
      exact ⟨hw.online ho, fun _ hx => (by cases hx), fun hx => (hg hx).elim⟩
    · rintro e u ⟨⟨_, hx⟩, -⟩
      cases hx
  case none =>
    have hpage := hS hd hi
    by_cases hn : page.nextPage = invalidPageID
    case neg =>
      refine pinned_ends (R := fun result u => result = .ok (.inr (page.nextPage, created), false) ∧
        u = write g page.stored s) ?_ ?_ (fun {e u} h => absurd h.1 Except.error_ne_ok)
      · refine ends_slotted ?_
        rw [hi]
        refine ends_put ?_
        simp only [ne_eq, hn, not_false_eq_true, if_true]
        exact .pure ⟨rfl, rfl⟩
      · rintro a dirty u ⟨hx, rfl⟩
        obtain ⟨rfl, rfl⟩ := Prod.mk.inj <| Except.ok.inj hx
        refine ⟨hw'.online ho, fun q hq => hw'.ready <| hr ?_, fun hx => (hg hx).elim⟩
        exact (Prod.mk.inj <| Sum.inr.inj <| Except.ok.inj hq).2
    case pos =>
      cases created
      case true =>
        refine pinned_ends (R := fun result u => (∃ e, result = .error e) ∧ u = write g page.stored s)
          ?_ (fun {a dirty u} h => absurd h.1.choose_spec.symm Except.error_ne_ok) ?_
        · refine ends_slotted ?_
          rw [hi]
          refine ends_put ?_
          simp only [ne_eq, hn, not_true, if_false, if_true]
          exact .throw ⟨⟨_, rfl⟩, rfl⟩
        · rintro e u ⟨-, rfl⟩
          exact ⟨hw'.online ho, fun _ hx => (by cases hx), fun hx => (hg hx).elim⟩
      case false =>
        have hwrite := hk.write hm hpage
        have hready : (write g page.stored s).Ready := (Steady.of_disk write_disk).ready (hr rfl)
        refine pinned_ends (R := fun result u => u.Online ∧ (∀ x, result = .ok x → ∃ q, x.1 = .inr (q, true)) ∧
          (u.denied = true →
            (∃ e, result = .error e) ∧ u.Refused (pins.length + 1) ∧ u.forgiven.Keeps owned (⟨p, g, b⟩ :: pins) S)) ?_ ?_ ?_
        · refine ends_slotted ?_
          rw [hi]
          refine ends_put ?_
          simp only [ne_eq, hn, not_true, if_false, Bool.false_eq_true]
          refine (appendPage_ready hwrite hready).bind ?_ ?_
          · rintro ⟨n, dirty⟩ u ⟨hon, hx⟩
            refine .pure ⟨hon, ?_, fun hd => ?_⟩
            · rintro _ ⟨rfl⟩
              exact ⟨n, rfl⟩
            · obtain ⟨⟨_, he⟩, -, -⟩ := hx hd
              cases he
          · rintro e u ⟨hon, hx⟩
            exact ⟨hon, fun _ h => absurd h Except.error_ne_ok, fun hd => ⟨⟨e, rfl⟩, (hx hd).2⟩⟩
        · rintro a dirty u ⟨hon, hx, hd⟩
          obtain ⟨q, rfl⟩ := hx _ rfl
          refine ⟨(Steady.of_disk unpin_disk).online hon, fun _ hq => ?_, fun hx => ?_⟩
          · cases hq
          · obtain ⟨⟨_, he⟩, -⟩ := hd hx
            cases he
        · rintro e u ⟨hon, -, hd⟩
          refine ⟨(Steady.of_disk unpin_disk).online hon, fun _ hq => absurd hq Except.error_ne_ok, fun hx => ?_⟩
          obtain ⟨-, hr, hu⟩ := hd hx
          exact ⟨⟨e, rfl⟩, hr.unpin, Keeps.unpin (show Keeps _ _ ([] ++ Pin.mk p g b :: pins) _ from hu)⟩

end calls

section insert

variable {views' : Views} {ps ps' : List PageID} {q n : PageID} {v : PageView} {bytes : List UInt8} {created : Bool}

-- The chain is as it was, or has a new page without tuples at its end.
inductive Extended (pins : List Pin) (views : Views) (ps : List PageID) : Views → List PageID → Prop
  | same     : Extended pins views ps views ps
  | appended : (ps = init ++ [last]) → (views last = some view) → (views next = none) → (next ≠ invalidPageID) →
    (pinsOn pins next = 0) → Extended pins views ps
      (Function.update (Function.update views last (some (view.link next))) next (some .empty)) (ps ++ [next])

theorem Extended.cons (h : Extended pins views ps views' ps') : Extended pins views (p :: ps) views' (p :: ps') := by
  cases h
  case same                    => exact .same
  case appended he hv hn hi hp => exact .appended (by rw [he, List.cons_append]) hv hn hi hp

theorem Extended.linked (h : Extended pins views ps views' ps') (hl : Linked views p ps) : Linked views' p ps' := by
  cases h
  case same                    => exact hl
  case appended he hv hn hi hp =>
    subst he
    exact hl.append (hl.not_mem hn) hi rfl

-- No tuple has changed.
theorem Extended.slots (h : Extended pins views ps views' ps') (hv : views q = some v) :
    ∃ w, views' q = some w ∧ w.slots = v.slots := by
  cases h
  case same                            => exact ⟨v, hv, rfl⟩
  case appended qs l u n he hu hn hi hp =>
    have hqn : q ≠ n := by
      rintro rfl
      cases hn.symm.trans hv
    rw [Function.update_of_ne hqn]
    by_cases hql : q = l
    case neg => exact ⟨v, by rw [Function.update_of_ne hql, hv], rfl⟩
    case pos =>
      subst hql
      obtain rfl := Option.some.inj <| hu.symm.trans hv
      exact ⟨u.link n, Function.update_self .., rfl⟩

theorem Extended.frame (h : Extended pins views ps views' ps') (hq : q ∉ ps') : views' q = views q := by
  cases h
  case same                            => rfl
  case appended qs l u n he hu hn hi hp =>
    have hqn : q ≠ n := by
      rintro rfl
      exact hq (by simp)
    have hql : q ≠ l := by
      rintro rfl
      exact hq (by simp [he])
    rw [Function.update_of_ne hqn, Function.update_of_ne hql]

theorem Extended.grows (h : Extended pins views ps views' ps') (hq : q ∈ ps') :
    q ∈ ps ∨ views q = none ∧ pinsOn pins q = 0 := by
  cases h
  case same                    => exact .inl hq
  case appended he hv hn hi hp =>
    refine (List.mem_append.mp hq).imp_right fun hq => ?_
    obtain rfl := List.mem_singleton.mp hq
    exact ⟨hn, hp⟩

variable {Q : Except String (Option RID) → Pager → Prop}

-- One turn of the loop of `insert_tuple`, which is let down without a tuple having changed.
theorem insertFrom_turn (hs : s.Shows pins views) (hon : s.Online) (hr : created = false → s.Ready)
    (hv : views p = some v) (hn : pinsOn pins p + 1 < 4294967296) (hl : bytes.length ≤ 8180)
    (hb : created = true → v.slotCount = 0)
    (hinserted : ∀ {slot t}, v.slots slot = none → slot ≤ v.slotCount → t.Online →
      t.Shows pins (Function.update views p (some (v.bind slot bytes))) → Q (.ok (some ⟨p, slot⟩)) t)
    (hfull : ∀ {t}, v.nextPage ≠ invalidPageID → t.Ready → t.Shows pins views →
      (insertFrom v.nextPage bytes false).Ends t Q)
    (happended : ∀ {n t}, v.nextPage = invalidPageID → views n = none → n ≠ invalidPageID → pinsOn pins n = 0 →
      t.Online → t.Shows pins (Function.update (Function.update views p (some (v.link n))) n (some .empty)) →
      created = false → (insertFrom n bytes true).Ends t Q)
    (hdenied : ∀ {result t}, t.Refused (pins.length + 1) → t.Online → (∀ rid, result ≠ .ok (some rid)) →
      t.forgiven.Shows pins views → Q result t) : (insertFrom p bytes created).Ends s Q := by
  have ⟨owned, hk, ho⟩ := hs
  rw [insertFrom_eq]
  refine (hk.fetchPage_online hon (ho p v hv) hn).bind ?_ ?_
  · rintro a t (⟨hx, rfl, hd⟩ | ⟨f, hx, ht, -, hst⟩)
    · obtain rfl := Except.ok.inj hx
      refine .pure <| hdenied (hd.mono <| Nat.le_succ _) hon (fun _ h => by cases h) ?_
      exact (show Pager.forgiven ⟨s.pool, true⟩ = s from hk.forgiven) ▸ hs
    · obtain rfl := Except.ok.inj hx
      have hshown {d : PageData} {page : SlottedPage} (hd : views.Shown p d)
          (hi : tryInsert d.slotted bytes = (none, page)) : views.Shown p page.stored := fun v' hv' => by
        have hw := (hd v' hv').tryInsert_none hi
        rwa [hw.stored_slotted]
      have hvisit := visitPage_online ht (hst.online hon) (fun hc => hst.ready (hr hc)) hshown
      refine ((visitPage_shows ht ho hv hl hb).and hvisit).bind ?_ ?_
      · rintro x u ⟨⟨hd, -⟩ | ⟨views', hx, hu⟩, hou, hru, hdu⟩
        · obtain ⟨⟨e, he⟩, -⟩ := hdu hd
          cases he
        · cases hx
          case inserted hf hc                     => exact .pure <| hinserted hf hc hou hu
          case full hcr hnext                     => exact hfull hnext (hru _ rfl) hu
          case appended hcr hnext hvn hni hpins   => exact happended hnext hvn hni hpins hou hu hcr
      · rintro e u ⟨⟨hd, -⟩ | ⟨views', hx, -⟩, hou, -, hdu⟩
        · obtain ⟨-, hr, hu⟩ := hdu hd
          exact hdenied hr hou (fun _ h => by cases h) ⟨owned, hu, ho⟩
        · cases hx
  · rintro e t (⟨hx, -⟩ | ⟨_, hx, -⟩) <;> cases hx

-- Where an insertion has put the tuple, or what it leaves behind without it.
inductive Inserted (pins : List Pin) (views : Views) (ps : List PageID) (bytes : List UInt8) :
    Except String (Option RID) → Pager → Prop
  | placed : u.Shows pins after → Placed pins views ps bytes rid after chain →
    Inserted pins views ps bytes (.ok (some rid)) u
  | denied : u.Refused (pins.length + 1) → (∀ rid, result ≠ .ok (some rid)) → u.forgiven.Shows pins after →
    Extended pins views ps after chain → Inserted pins views ps bytes result u

theorem insertFrom_ready (hs : s.Shows pins views) (hr : s.Ready) (hl : Linked views p ps) (hp : p ≠ invalidPageID)
    (hn : ∀ q ∈ ps, pinsOn pins q + 1 < 4294967296) (hb : bytes.length ≤ 8180) :
    (insertFrom p bytes false).Ends s fun result t => t.Online ∧ Inserted pins views ps bytes result t := by
  induction hl generalizing s
  case nil => exact absurd rfl hp
  case cons p v ps hv _ hnp hl ih =>
    refine insertFrom_turn hs hr.online (fun _ => hr) hv (hn p List.mem_cons_self) hb (fun h => by cases h)
      (fun {slot t} hf hc hon ht => ?_) (fun {t} hi hrt ht => ?_) (fun {n t} hnext hvn hni hpn hon ht _ => ?_)
      (fun {result t} hd hon hres ht => ⟨hon, .denied hd hres ht .same⟩)
    · exact ⟨hon, .placed ht <| .existing List.mem_cons_self hv hf hc⟩
    · refine (ih ht hrt hi fun q hq => hn q (List.mem_cons_of_mem _ hq)).mono ?_
      rintro result u ⟨hon, ⟨hu, hx⟩ | ⟨hd, hres, hu, hx⟩⟩
      · exact ⟨hon, .placed hu hx.cons⟩
      · exact ⟨hon, .denied hd hres hu hx.cons⟩
    · rw [hnext] at hl
      obtain rfl := hl.nil_of_invalid
      refine insertFrom_turn ht hon (fun h => by cases h) (Function.update_self ..) (by rw [hpn]; decide) hb
        (fun _ => rfl) (fun {slot u} _ hc hon hu => ?_) (fun {u} hi => absurd rfl hi) (fun {_ _} _ _ _ _ _ _ h => by cases h)
        (fun {result u} hd hon hres hu => ?_)
      · obtain rfl := Nat.le_zero.mp hc
        rw [Function.update_idem] at hu
        exact ⟨hon, .placed hu <| .appended (List.nil_append _).symm hv hvn hni hpn⟩
      · exact ⟨hon, .denied hd hres hu <| .appended (List.nil_append _).symm hv hvn hni hpn⟩

end insert
end TableHeap
end Duck
