import Duck.Buffer.PinnedPage
import Duck.Lib.Ownership

namespace Duck.PinnedPages

variable {π : Type} {s t : PinnedPages π} {e : Event π} {handle : PinnedPage π} {page : Option π} {p : π} {i : ℕ}

-- Who owns which pin.
def ownership (s : PinnedPages π) : Ownership ℕ π where
  owned i  := (s.handles i).bind PinnedPage.page
  acquired := s.pinned
  released := s.unpins.map Prod.fst

-- A pin has one owner until it is unpinned, which happens once, and as dirty if it has been marked.
structure Linear (s : PinnedPages π) : Prop where
  ownership : s.ownership.Linear
  dirty     : ∀ p dirty, (p, dirty) ∈ s.unpins → (dirty = true ↔ p ∈ s.marked)

-- No handle is constructed from one that owns a page and is marked dirty.
def Careful (s : PinnedPages π) : Event π → Prop
  | .moveConstruct _ j => ∀ other ∈ s.handles j, other.page = none ∨ other.dirty = false
  | _                  => True

structure CarefulStep (s : PinnedPages π) (e : Event π) (t : PinnedPages π) : Prop where
  step    : s.Step e t
  careful : s.Careful e

section ownership

theorem owned_eq (h : s.handles i = some handle) : s.ownership.owned i = handle.page := by
  simp only [ownership, h, Option.bind_some]

theorem owned_none (h : s.handles i = none) : s.ownership.owned i = none := by
  simp only [ownership, h, Option.bind_none]

theorem set_owned : (s.set i new).ownership.owned = Function.update s.ownership.owned i (new.bind PinnedPage.page) := by
  funext j
  by_cases hj : j = i
  case pos => simp [ownership, set, hj]
  case neg => simp [ownership, set, hj]

theorem unpins_map (handle : PinnedPage π) : handle.unpins.map Prod.fst = handle.page.toList := by
  cases h : handle.page <;> simp [PinnedPage.unpins, h]

theorem Step.ownership (e' : s.Step e t) (h : s.ownership.Linear) : t.ownership.Linear := by
  cases e'
  case construct i page hi hn                => exact (h.acquire (owned_none hi) hn).congr set_owned rfl rfl
  case markDirty i handle hi                 =>
    have he : Function.update s.ownership.owned i handle.page = s.ownership.owned :=
      Function.update_eq_self_iff.mpr (owned_eq hi).symm
    exact h.congr (set_owned.trans he) rfl rfl
  case moveConstruct i j other hi hj         =>
    have hij : i ≠ j := by
      rintro rfl
      cases hi.symm.trans hj
    refine (h.give (owned_none hi) hij).congr ?_ rfl rfl
    rw [set_owned, set_owned, Ownership.give, owned_eq hj]
    rfl
  case moveAssign i j handle other hij hi hj =>
    have hg := (h.release i).give (Function.update_self ..) hij
    refine hg.congr ?_ rfl ?_
    · refine (set_owned.trans <| congrArg (Function.update · i _) set_owned).trans ?_
      simp only [Ownership.give, Ownership.release, Function.update_of_ne hij.symm, owned_eq hj]
      rw [Function.update_comm hij, Function.update_idem]
      rfl
    · simp only [Ownership.give, Ownership.release, owned_eq hi, ←unpins_map]
      exact List.map_append
  case selfAssign                            => exact h
  case destroy i handle hi                   =>
    refine (h.release i).congr set_owned rfl ?_
    simp only [Ownership.release, owned_eq hi, ←unpins_map]
    exact List.map_append

end ownership

-- A handle's flag says whether its page has been marked.
def Flagged (s : PinnedPages π) : Prop :=
  ∀ i handle p, s.handles i = some handle → handle.page = some p → (handle.dirty = true ↔ p ∈ s.marked)

theorem Flagged.set (hf : s.Flagged)
    (hn : ∀ {handle p}, new = some handle → handle.page = some p → (handle.dirty = true ↔ p ∈ s.marked)) :
    (s.set i new).Flagged := by
  intro j handle p hj hp
  by_cases hji : j = i
  case pos => exact hn (by simpa [PinnedPages.set, hji] using hj) hp
  case neg => exact hf j handle p (by simpa [PinnedPages.set, hji] using hj) hp

theorem Flagged.moved (hf : s.Flagged) (other : PinnedPage π) : (s.set i (some other.moved)).Flagged := by
  refine hf.set ?_
  rintro _ p ⟨⟩ ⟨⟩

theorem mem_unpins {dirty : Bool} : (p, dirty) ∈ handle.unpins ↔ handle.page = some p ∧ handle.dirty = dirty := by
  simp [PinnedPage.unpins]

-- The flags of the handles, and of the calls that have been made, are right.
structure Invariant (s : PinnedPages π) : Prop where
  linear : s.Linear
  marked : ∀ p ∈ s.marked, p ∈ s.pinned
  flags  : s.Flagged

namespace Invariant

theorem empty : Invariant (empty : PinnedPages π) where
  linear := ⟨⟨nofun, nofun, .nil, fun _ => ⟨nofun, fun h => nomatch h.1⟩⟩, nofun⟩
  marked := nofun
  flags  := nofun

theorem not_owned {dirty : Bool} (hi : s.Invariant) (hu : (p, dirty) ∈ s.unpins) (hh : s.handles i = some handle) :
    handle.page ≠ some p := fun hp =>
  hi.linear.ownership.not_released ((owned_eq hh).trans hp) <| List.mem_map_of_mem hu

theorem unpinned (hi : s.Invariant) (hh : s.handles i = some handle) :
    ∀ p dirty, (p, dirty) ∈ handle.unpins ++ s.unpins → (dirty = true ↔ p ∈ s.marked) := by
  intro p dirty hp
  obtain hp | hp := List.mem_append.mp hp
  · obtain ⟨hpage, rfl⟩ := mem_unpins.mp hp
    exact hi.flags _ _ _ hh hpage
  · exact hi.linear.dirty p dirty hp

theorem step (hi : s.Invariant) (e' : s.CarefulStep e t) : t.Invariant := by
  have ho := e'.step.ownership hi.linear.ownership
  obtain ⟨e', hcareful⟩ := e'
  cases e'
  case construct i page hh hn                =>
    refine ⟨⟨ho, hi.linear.dirty⟩, fun p hp => List.mem_append_right _ (hi.marked p hp), hi.flags.set ?_⟩
    rintro _ p ⟨⟩ hp
    exact ⟨nofun, fun hm => absurd (hi.marked p hm) (hn p hp)⟩
  case markDirty i handle hh                 =>
    have hother {p} (hp : handle.page ≠ some p) : p ∈ handle.page.toList ++ s.marked ↔ p ∈ s.marked := by
      simp [hp]
    refine ⟨⟨ho, fun p dirty hp => ?_⟩, fun p hp => ?_, fun j h' p hj hp => ?_⟩
    · exact (hi.linear.dirty p dirty hp).trans (hother <| hi.not_owned hp hh).symm
    · obtain hp | hp := List.mem_append.mp hp
      · exact hi.linear.ownership.held <| (owned_eq hh).trans <| Option.mem_toList.mp hp
      · exact hi.marked p hp
    · by_cases hji : j = i
      case pos =>
        have hj : some handle.markDirty = some h' := by simpa [set, hji] using hj
        obtain rfl := Option.some.inj hj
        have hm : p ∈ handle.page.toList := Option.mem_toList.mpr hp
        exact ⟨fun _ => List.mem_append_left _ hm, fun _ => rfl⟩
      case neg =>
        have hj : s.handles j = some h' := by simpa [set, hji] using hj
        refine (hi.flags _ _ _ hj hp).trans (hother fun hq => hji ?_).symm
        exact hi.linear.ownership.owner ((owned_eq hj).trans hp) ((owned_eq hh).trans hq)
  case moveConstruct i j other hh hj         =>
    refine ⟨⟨ho, hi.linear.dirty⟩, hi.marked, (hi.flags.moved other).set ?_⟩
    rintro _ p ⟨⟩ (hp : other.page = some p)
    have hd : other.dirty = false := (hcareful other hj).resolve_left (by simp [hp])
    exact ⟨nofun, fun hm => absurd ((hi.flags _ _ _ hj hp).mpr hm) (by simp [hd])⟩
  case moveAssign i j handle other hij hh hj =>
    refine ⟨⟨ho, hi.unpinned hh⟩, hi.marked, (hi.flags.moved other).set ?_⟩
    rintro _ p ⟨⟩ hp
    exact hi.flags _ _ _ hj hp
  case selfAssign                            => exact hi
  case destroy i handle hh                   =>
    exact ⟨⟨ho, hi.unpinned hh⟩, hi.marked, hi.flags.set nofun⟩

end Invariant

-- Every run unpins a page once.
theorem Step.unpinned_once (hr : Runs.Reachable (· = empty) Step s) : s.ownership.Linear :=
  hr.invariant (fun h => h ▸ Invariant.empty.linear.ownership) fun e h => e.ownership h

-- A careful run also unpins it as what it has been marked.
theorem CarefulStep.owned_linearly (hr : Runs.Reachable (· = empty) CarefulStep s) : s.Linear :=
  (hr.invariant (fun h => h ▸ .empty) fun e hi => hi.step e : s.Invariant).linear

-- The move constructor loses the mark, and the new handle unpins the page without it.
theorem Invariant.loses_mark {other : PinnedPage π} {j : ℕ} (hi : s.Invariant) (hj : s.handles j = some other)
    (hp : other.page = some p) (hd : other.dirty = true) (e : s.Step (.moveConstruct i j) t) (e' : t.Step (.destroy i) u) :
    ¬u.Linear := by
  intro hl
  have hm : p ∈ s.marked := (hi.flags _ _ _ hj hp).mp hd
  cases e with | moveConstruct hh hj' =>
  obtain rfl := Option.some.inj <| hj.symm.trans hj'
  cases e' with | destroy hh' =>
  rename_i handle
  have hh' : some (PinnedPage.ofMoved other) = some handle := by simpa [set] using hh'
  obtain rfl := Option.some.inj hh'
  have hu : (p, false) ∈ (PinnedPage.ofMoved other).unpins ++ s.unpins :=
    List.mem_append_left _ <| mem_unpins.mpr ⟨hp, rfl⟩
  exact Bool.false_ne_true <| (hl.dirty p false hu).mpr hm

-- One handle with page 7, marked dirty and moved on by assignment.
theorem CarefulStep.owned_linearly_assigned : ∃ s : PinnedPages ℕ, s.Linear ∧ s.unpins = [(7, true)] := by
  obtain ⟨s, hs, hu⟩ : ∃ s : PinnedPages ℕ, Runs.Steps CarefulStep empty
      [.construct 0 (some 7), .markDirty 0, .construct 1 none, .moveAssign 1 0, .destroy 1] s ∧ s.unpins = [(7, true)] :=
    ⟨_, .step ⟨.construct rfl (by simp [empty]), trivial⟩ <| .step ⟨.markDirty rfl, trivial⟩ <|
      .step ⟨.construct rfl nofun, trivial⟩ <| .step ⟨.moveAssign (by decide) rfl rfl, trivial⟩ <|
      .step ⟨.destroy rfl, trivial⟩ .refl, rfl⟩
  exact ⟨s, owned_linearly ⟨_, _, rfl, hs⟩, hu⟩

-- The same with a move construction.
theorem not_linear : ¬∀ {s : PinnedPages ℕ}, Runs.Reachable (· = empty) Step s → s.Linear := by
  intro h
  obtain ⟨s, hs, hu, hm⟩ : ∃ s : PinnedPages ℕ, Runs.Steps Step empty
      [.construct 0 (some 7), .markDirty 0, .moveConstruct 1 0, .destroy 1] s ∧ (7, false) ∈ s.unpins ∧ 7 ∈ s.marked :=
    ⟨_, .step (.construct rfl (by simp [empty])) <| .step (.markDirty rfl) <| .step (.moveConstruct rfl rfl) <|
      .step (.destroy rfl) .refl, List.mem_cons_self, List.mem_cons_self⟩
  exact Bool.false_ne_true <| ((h ⟨_, _, rfl, hs⟩).dirty 7 false hu).mpr hm

end Duck.PinnedPages
