import Duck.Table.Scan
import Duck.Table.Theorems.TableHeap.Operations

namespace Duck

variable {views : Views} {v : PageView} {p : PageID} {ps : List PageID} {i j : ℕ} {pins : List Pin} {s t : Pager}

-- The tuples of a page from a slot on.
def PageView.rows (v : PageView) (p : PageID) (i : ℕ) : List (RID × List UInt8) :=
  ((List.range v.slotCount).drop i).filterMap fun j => (v.slots j).map (⟨p, j⟩, ·)

-- The tuples of a chain of pages from a slot of its first page on.
def rows (views : Views) : List PageID → (i : ℕ) → List (RID × List UInt8)
  | [],      _ => []
  | p :: ps, i => (views p).elim [] (·.rows p i) ++ rows views ps 0

namespace PageView

theorem rows_live (hi : i < v.slotCount) (hb : v.slots i = some bytes) :
    v.rows p i = (⟨p, i⟩, bytes) :: v.rows p (i + 1) := by
  have hl : i < (List.range v.slotCount).length := by rwa [List.length_range]
  rw [rows, List.drop_eq_getElem_cons hl, List.getElem_range, List.filterMap_cons_some (b := (⟨p, i⟩, bytes))]
  · rfl
  · rw [hb, Option.map_some]

theorem rows_dead (hb : v.slots i = none) : v.rows p i = v.rows p (i + 1) := by
  by_cases hi : i < v.slotCount
  case pos =>
    have hl : i < (List.range v.slotCount).length := by rwa [List.length_range]
    rw [rows, List.drop_eq_getElem_cons hl, List.getElem_range, List.filterMap_cons_none]
    · rfl
    · rw [hb, Option.map_none]
  case neg =>
    rw [rows, rows, List.drop_eq_nil_of_le (by simp; omega), List.drop_eq_nil_of_le (by simp; omega)]

theorem rows_skip (hij : i ≤ j) (hd : ∀ k, i ≤ k → k < j → v.slots k = none) : v.rows p i = v.rows p j := by
  induction j, hij using Nat.le_induction
  case base         => rfl
  case succ j hj ih =>
    rw [ih fun k hk hkj => hd k hk (Nat.lt_succ_of_lt hkj)]
    exact rows_dead <| hd j hj j.lt_succ_self

theorem rows_end (hi : v.slotCount ≤ i) : v.rows p i = [] := by
  rw [rows, List.drop_eq_nil_of_le (by simpa using hi), List.filterMap_nil]

end PageView

namespace SlottedPage.Holds

variable {page : SlottedPage}

theorem slotCount_le (h : page.Holds v) : v.slotCount ≤ 2046 := by
  have := h.occupied_le
  rw [kPageSize_eq, PageView.occupied] at this
  omega

theorem nextOccupiedSlot_some (h : page.Holds v) (hi : i ≤ v.slotCount) (hn : page.nextOccupiedSlot i = some j) :
    i < j ∧ v.slots j ≠ none ∧ ∀ k, i < k → k < j → v.slots k = none := by
  have hm : (i + 1) % 65536 = i + 1 := Nat.mod_eq_of_lt (by have := h.slotCount_le; omega)
  rw [nextOccupiedSlot, hm, List.find?_range_eq_some] at hn
  obtain ⟨hj, hlt, hk⟩ := hn
  simp only [decide_eq_true_eq, List.mem_range] at hj hlt
  refine ⟨hj.1, h.live_iff.mp ⟨hlt, hj.2⟩, fun k hik hkj => ?_⟩
  have hk := hk k hkj
  simp only [Bool.not_eq_true', decide_eq_false_iff_not, not_and, not_not] at hk
  by_contra hv
  exact (h.live_iff.mpr hv).2 (hk hik)

theorem nextOccupiedSlot_none (h : page.Holds v) (hi : i ≤ v.slotCount) (hn : page.nextOccupiedSlot i = none)
    (hk : i < k) : v.slots k = none := by
  have hm : (i + 1) % 65536 = i + 1 := Nat.mod_eq_of_lt (by have := h.slotCount_le; omega)
  rw [nextOccupiedSlot, hm, List.find?_eq_none] at hn
  by_contra hv
  have hl := h.live_iff.mpr hv
  exact hn k (List.mem_range.mpr hl.1) (decide_eq_true ⟨hk, hl.2⟩)

end SlottedPage.Holds

theorem Pager.Shows.perm {own : List Pin} (hs : s.Shows pins views) (hp : own.Perm pins) : s.Shows own views := by
  obtain ⟨owned, hk, ho⟩ := hs
  exact ⟨owned, ⟨hk.accounts.setPins hp, hk.granted, hk.versions⟩, ho⟩

theorem pinsOn_le (pins : List Pin) (p : PageID) : pinsOn pins p ≤ pins.length :=
  List.countP_le_length

namespace Pager.Shows

open PoolManager

variable {pin : Pin} {q : PageID}

theorem fetchPage (hs : s.Shows pins views) (hv : views q = some v) (hn : pinsOn pins q + 1 < 4294967296) :
    (Pager.fetchPage q).Ends s fun result t => (t.denied = true ∧ ∀ f, result ≠ .ok (some f)) ∨
      ∃ f, result = .ok (some f) ∧ t.Shows (⟨q, f, false⟩ :: pins) views := by
  obtain ⟨owned, hk, ho⟩ := hs
  refine (hk.fetchPage (ho q v hv) hn).mono fun {result t} hx => hx.imp_right ?_
  rintro ⟨f, hr, ht, _⟩
  exact ⟨f, hr, owned, ht, ho⟩

theorem unpin (hs : s.Shows (pin :: pins) views) : (Pager.unpin pin.frameId false s).Shows pins views := by
  obtain ⟨owned, hk, ho⟩ := hs
  exact ⟨owned, Keeps.unpin (show Keeps _ _ ([] ++ pin :: pins) _ from hk), ho⟩

theorem pageId (hs : s.Shows (pin :: pins) views) : (s.pool.frames pin.frameId).pageId = pin.pageId := by
  obtain ⟨_, hk, _⟩ := hs
  exact hk.pageId List.mem_cons_self

theorem holds (hs : s.Shows (pin :: pins) views) (hv : views pin.pageId = some v) :
    (s.pool.frames pin.frameId).data.slotted.Holds v := by
  obtain ⟨_, hk, _⟩ := hs
  exact hk.data List.mem_cons_self v hv

end Pager.Shows

namespace TableHeap.Scan

open Pager

-- A scan between two calls: it has pinned its page, and these tuples are still to come.
structure Reads (scan : Scan) (s : Pager) (pins : List Pin) (views : Views) (ps : List PageID)
    (tuples : List (RID × List UInt8)) : Prop where
  at_page : ∃ f w, scan.currentPage = some f ∧ s.Shows (⟨scan.currentRid.pageId, f, w⟩ :: pins) views
  linked  : Linked views scan.currentRid.pageId ps
  valid   : scan.currentRid.pageId ≠ invalidPageID
  slot    : ∀ v, views scan.currentRid.pageId = some v → scan.currentRid.slotNum ≤ v.slotCount
  tuples  : rows views ps scan.currentRid.slotNum = tuples

variable {scan : Scan} {tuples : List (RID × List UInt8)}

theorem skip_cases {page : SlottedPage} (p : PageID) (frame : Option FrameID) (h : page.Holds v) (hi : i ≤ v.slotCount) :
    ∃ j, skip ⟨⟨p, i⟩, frame⟩ page = ⟨⟨p, j⟩, frame⟩ ∧ j ≤ v.slotCount ∧ v.rows p i = v.rows p j ∧
      (v.slots j = none → v.rows p i = []) := by
  by_cases hs : v.slots i = none
  case neg =>
    refine ⟨i, ?_, hi, rfl, fun hn => absurd hn hs⟩
    rw [skip, if_pos <| h.hasSlot_iff.mpr hs]
  case pos =>
    have hh : ¬page.hasSlot i := fun hh => h.hasSlot_iff.mp hh hs
    cases hn : page.nextOccupiedSlot i
    case some j =>
      obtain ⟨hij, hj, hk⟩ := h.nextOccupiedSlot_some hi hn
      obtain ⟨bytes, hb⟩ := Option.ne_none_iff_exists'.mp hj
      refine ⟨j, ?_, (h.lt_of_bound hb).le, ?_, fun he => absurd he hj⟩
      · simp only [skip, hh, Bool.false_eq_true, if_false, hn]
      · rw [PageView.rows_dead hs]
        exact PageView.rows_skip hij fun k hik hkj => hk k hik hkj
    case none   =>
      refine ⟨i, ?_, hi, rfl, fun _ => ?_⟩
      · simp only [skip, hh, Bool.false_eq_true, if_false, hn]
      · rw [PageView.rows_dead hs, PageView.rows_skip (Nat.le_max_left (i + 1) v.slotCount) fun k hk _ => ?_]
        · exact PageView.rows_end <| Nat.le_max_right ..
        · exact h.nextOccupiedSlot_none hi hn hk

-- One turn of the loop of `next`.
theorem next_eq {rid : RID} {f : FrameID} : next ⟨rid, some f⟩ = (do
    let page ← slotted f
    let scan := skip ⟨rid, some f⟩ page
    if !page.hasSlot scan.currentRid.slotNum then
      match ← scan.nextPage with
      | (true,  scan) => scan.next
      | (false, scan) => return (none, scan)
    else
      return (some (scan.currentRid, page.getTuple scan.currentRid.slotNum),
        { scan with currentRid.slotNum := (scan.currentRid.slotNum + 1) % 65536 })) := by
  rw [next, Program.loop_eq]
  simp only [bind_assoc]
  refine bind_congr fun page => ?_
  split
  case isFalse => rw [pure_bind]; rfl
  case isTrue  =>
    rw [bind_assoc]
    refine bind_congr fun result => ?_
    obtain ⟨_ | _, scan⟩ := result <;> rw [pure_bind] <;> rfl

-- The pin goes from the page to the one behind it.
theorem nextPage_ends {f : FrameID} {w : Bool} (hs : s.Shows (⟨p, f, w⟩ :: pins) views) (hv : views p = some v)
    (hl : Linked views v.nextPage ps) (hn : ∀ q ∈ ps, pinsOn pins q + 1 < 4294967296) :
    (nextPage ⟨⟨p, i⟩, some f⟩).Ends s fun result t =>
      (t.denied = true ∧ ∀ x, result = .ok x → x.1 = false) ∨
      (v.nextPage = invalidPageID ∧ result = .ok (false, ⟨⟨p, i⟩, some f⟩) ∧ t = s) ∨
      ∃ g, v.nextPage ≠ invalidPageID ∧ result = .ok (true, ⟨⟨v.nextPage, 0⟩, some g⟩) ∧
        t.Shows (⟨v.nextPage, g, false⟩ :: pins) views := by
  have hp := hs.holds hv
  refine ends_slotted ?_
  by_cases hx : v.nextPage = invalidPageID
  case pos =>
    have hh : (s.pool.frames f).data.slotted.hasNextPage = false := by
      simp [SlottedPage.hasNextPage, hp.nextPage_eq, hx]
    simp only [hh, Bool.not_false, if_true]
    exact .pure <| .inr <| .inl ⟨hx, rfl, rfl⟩
  case neg =>
    have hh : (s.pool.frames f).data.slotted.hasNextPage = true := by
      simp [SlottedPage.hasNextPage, hp.nextPage_eq, hx]
    simp only [hh, Bool.not_true, Bool.false_eq_true, if_false, hp.nextPage_eq]
    have hm := hl.first_mem hx
    obtain ⟨u, hu⟩ := hl.view hm
    refine .update_bind <| (hs.unpin.fetchPage hu (hn _ hm)).bind ?_ ?_
    · rintro (_ | g) t (⟨hd, hg⟩ | ⟨g', hg, ht⟩)
      · refine .pure <| .inl ⟨hd, ?_⟩
        rintro x ⟨rfl⟩
        rfl
      · cases hg
      · exact absurd rfl (hg g)
      · obtain rfl := Option.some.inj <| Except.ok.inj hg
        refine ends_pageId <| .pure <| .inr <| .inr ⟨g, hx, ?_, ht⟩
        rw [ht.pageId]
    · rintro e t (⟨hd, _⟩ | ⟨_, hg, _⟩)
      · exact .inl ⟨hd, fun _ hx => absurd hx Except.error_ne_ok⟩
      · cases hg

-- A call gives the first of the tuples to come, on the page of the scan or on one behind it.
theorem Reads.next_ends (hr : scan.Reads s pins views ps tuples) (hn : ∀ q ∈ ps, pinsOn pins q + 1 < 4294967296) :
    scan.next.Ends s fun result t => (t.denied = true ∧ ∀ x, result = .ok x → x.1 = none) ∨
      ∃ scan' ps', result = .ok (tuples.head?, scan') ∧ scan'.Reads t pins views ps' tuples.tail ∧ ps' ⊆ ps := by
  obtain ⟨⟨f, w, hc, hs⟩, hl, hp, hi, ht⟩ := hr
  obtain ⟨⟨p, i⟩, _⟩ := scan
  subst hc ht
  simp only at hs hl hp hi ⊢
  induction hl generalizing s f w i
  case nil => exact absurd rfl hp
  case cons p v ps hv _ hps hl ih =>
    have hpage := hs.holds hv
    obtain ⟨j, hj, hjc, hrows, hnone⟩ := skip_cases p (some f) hpage (hi v hv)
    rw [next_eq]
    refine ends_slotted ?_
    simp only [hj, rows, hv, Option.elim_some, hrows]
    cases hb : v.slots j
    case some bytes =>
      have hh : (s.pool.frames f).data.slotted.hasSlot j = true := hpage.hasSlot_iff.mpr (by simp [hb])
      have hlt := hpage.lt_of_bound hb
      have hm : (j + 1) % 65536 = j + 1 := Nat.mod_eq_of_lt (by have := hpage.slotCount_le; omega)
      simp only [hh, Bool.not_true, Bool.false_eq_true, if_false, hpage.getTuple_eq, hb, Option.getD_some, hm]
      rw [PageView.rows_live hlt hb]
      refine .pure <| .inr ⟨_, p :: ps, rfl, ⟨⟨f, w, rfl, hs⟩, .cons hv hp hps hl, hp, fun u hu => ?_, ?_⟩, List.Subset.refl _⟩
      · obtain rfl := Option.some.inj <| hv.symm.trans hu
        exact hlt
      · simp [rows, hv]
    case none       =>
      have hh : (s.pool.frames f).data.slotted.hasSlot j = false :=
        Bool.eq_false_iff.mpr fun hh => hpage.hasSlot_iff.mp hh hb
      have hempty : v.rows p j = [] := hrows ▸ hnone hb
      simp only [hh, Bool.not_false, if_true, hempty, List.nil_append]
      refine (nextPage_ends hs hv hl fun q hq => hn q (List.mem_cons_of_mem _ hq)).bind ?_ ?_
      · rintro ⟨more, scan'⟩ t (⟨hd, hm⟩ | ⟨hx, hr, rfl⟩ | ⟨g, hx, hr, ht⟩)
        · obtain rfl := hm _ rfl
          refine .pure <| .inl ⟨hd, ?_⟩
          rintro x ⟨rfl⟩
          rfl
        · obtain ⟨rfl, rfl⟩ := Prod.mk.inj <| Except.ok.inj hr
          rw [hx] at hl
          obtain rfl := hl.nil_of_invalid
          refine .pure <| .inr ⟨_, [p], rfl, ⟨⟨f, w, rfl, hs⟩, .cons hv hp hps (hx ▸ .nil), hp, fun u hu => ?_, ?_⟩,
            List.Subset.refl _⟩
          · obtain rfl := Option.some.inj <| hv.symm.trans hu
            exact hjc
          · simp [rows, hv, hempty]
        · obtain ⟨rfl, rfl⟩ := Prod.mk.inj <| Except.ok.inj hr
          have ih := ih (fun q hq => hn q (List.mem_cons_of_mem _ hq)) g false 0 hx (fun _ _ => Nat.zero_le _) ht
          refine ih.mono fun {result u} h => h.imp_right ?_
          rintro ⟨scan', ps', hr, hreads, hsub⟩
          exact ⟨scan', ps', hr, hreads, fun q hq => List.mem_cons_of_mem _ (hsub hq)⟩
      · rintro e t (⟨hd, _⟩ | ⟨_, hr, _⟩ | ⟨_, _, hr, _⟩)
        · exact .inl ⟨hd, fun _ hx => absurd hx Except.error_ne_ok⟩
        · cases hr
        · cases hr

-- A new scan has all tuples before it.
theorem scan_reads {h : TableHeap} (hs : s.Shows pins views) (hl : Linked views h.firstPageId ps)
    (hp : h.firstPageId ≠ invalidPageID) (hn : ∀ q ∈ ps, pinsOn pins q + 1 < 4294967296) :
    h.scan.Ends s fun result t => t.Unless <| ∃ scan, result = .ok scan ∧ scan.Reads t pins views ps (rows views ps 0) := by
  have hm := hl.first_mem hp
  obtain ⟨v, hv⟩ := hl.view hm
  refine (hs.fetchPage hv (hn _ hm)).bind ?_ ?_
  · rintro frame t (⟨hd, _⟩ | ⟨f, hf, ht⟩)
    · exact .pure <| .inl hd
    · obtain rfl := Except.ok.inj hf
      exact .pure <| .inr ⟨_, rfl, ⟨f, false, rfl, ht⟩, hl, hp, fun _ _ => Nat.zero_le _, rfl⟩
  · rintro e t (⟨hd, _⟩ | ⟨_, hf, _⟩)
    · exact .inl hd
    · cases hf

section Placed

variable {pin : Pin}

-- The scan has this pin on the page that it is at, and these tuples to come.
structure Placed (scan : Scan) (pin : Pin) (views : Views) (tuples : List (RID × List UInt8)) : Prop where
  page   : pin.pageId = scan.currentRid.pageId
  frame  : scan.currentPage = some pin.frameId
  valid  : scan.currentRid.pageId ≠ invalidPageID
  slot   : ∀ v, views scan.currentRid.pageId = some v → scan.currentRid.slotNum ≤ v.slotCount
  tuples : ∃ ps, Linked views scan.currentRid.pageId ps ∧ rows views ps scan.currentRid.slotNum = tuples

theorem Placed.reading (hp : scan.Placed pin views tuples) (hs : s.Shows (pin :: pins) views) :
    ∃ ps, scan.Reads s pins views ps tuples := by
  obtain ⟨ps, hl, ht⟩ := hp.tuples
  refine ⟨ps, ⟨pin.frameId, pin.wrote, hp.frame, ?_⟩, hl, hp.valid, hp.slot, ht⟩
  rw [←hp.page]
  exact hs

theorem Reads.placed (hr : scan.Reads s pins views ps tuples) :
    ∃ pin, scan.Placed pin views tuples ∧ s.Shows (pin :: pins) views := by
  obtain ⟨⟨f, w, hf, hs⟩, hl, hv, hi, ht⟩ := hr
  exact ⟨_, ⟨rfl, hf, hv, hi, ps, hl, ht⟩, hs⟩

theorem Placed.close_ends (hp : scan.Placed pin views tuples) : scan.close.Ends s fun result t =>
    result = .ok () ∧ t.denied = s.denied ∧ ∀ {pins}, s.Shows (pin :: pins) views → t.Shows pins views := by
  rw [Scan.close, hp.frame]
  exact .update ⟨rfl, rfl, .unpin⟩

end Placed

end TableHeap.Scan
end Duck
