import Duck.Table.Theorems.SlottedPage.Room
import Duck.Table.Theorems.TableHeap.Map

namespace Duck

-- The run ends, and a page was granted to every `fetch_page` and `new_page`.
def PagerM.Granted (x : PagerM α) (s : Pager) : Prop :=
  ∃ result t, x s = some (result, t) ∧ t.denied = false

-- What a page shows.
def Pager.viewOf (s : Pager) (p : PageID) : PageView :=
  (s.pool.bytesOf p).slotted.view

namespace TableHeap

open Pager

-- An insertion that makes the heap grow has found no page that could hold the tuple.
def Thrifty (h : TableHeap) (s : Pager) (bytes : List UInt8) : Prop :=
  ∀ result t, h.insertTuple bytes s = some (result, t) → t.denied = false → ∀ n, h.Has t n → ¬h.Has s n →
    ∀ p, h.Has s p → ¬(s.viewOf p).CouldHold bytes

-- An update leaves the tuple where it is if the page could hold the new bytes in the place of the old ones.
def Settled (h : TableHeap) (s : Pager) (rid : RID) (bytes : List UInt8) : Prop :=
  ∀ result t, h.updateTuple rid bytes s = some (result, t) → t.denied = false →
    (s.viewOf rid.pageId).slots rid.slotNum ≠ none →
    ((s.viewOf rid.pageId).bind rid.slotNum bytes).occupied ≤ kPageSize → result = .ok (some rid)

-- Some page takes the tuple, or no page is stuck, whichever of its versions is found.
def InsertSafe (h : TableHeap) (s : Pager) (bytes : List UInt8) : Prop :=
  (∃ p, h.Has s p ∧ ∀ d, s.pool.Version p d → d.slotted.Accepts bytes) ∨
    ∀ p d, h.Has s p → s.pool.Version p d → ¬d.slotted.Stuck bytes none

def UpdateSafe (s : Pager) (rid : RID) (bytes : List UInt8) : Prop :=
  ∀ d, s.pool.Version rid.pageId d → ¬d.slotted.StuckUpdate rid.slotNum bytes

-- No page has a compaction that is in its frame only and may be dropped with the frame.
def Saved (h : TableHeap) (s : Pager) : Prop :=
  ∀ p d, h.Has s p → s.pool.Version p d → d = s.pool.bytesOf p

-- The walk of `insert_tuple` has ended on a page of the chain that has accepted the tuple, or every page of the
-- chain has refused it.
inductive Walked (owned : List PageID) (S : PageID → PageData → Prop) (ps : List PageID) (bytes : List UInt8)
    (rid : RID) : Prop
  | accepted (mem : rid.pageId ∈ ps) (version : S rid.pageId d) (accepts : d.slotted.Accepts bytes)
  | refused  (new : rid.pageId ∉ owned) (refuses : ∀ p ∈ ps, ∃ d, S p d ∧ ¬d.slotted.Accepts bytes)

variable {h : TableHeap} {s t u : Pager} {owned : List PageID} {pins : List Pin} {views : Views} {p q n : PageID}
variable {ps : List PageID} {v w : PageView} {bytes : List UInt8} {S : PageID → PageData → Prop} {rid : RID}

theorem has_iff (hs : s.Shows pins views) (hl : Linked views h.firstPageId ps) (hp : h.firstPageId ≠ invalidPageID) :
    h.Has s p ↔ p ∈ ps := by
  constructor
  · intro hh
    induction hh
    case first      => exact hl.first_mem hp
    case next hn ih =>
      obtain ⟨v, hv⟩ := hl.view ih
      rw [(hs.bytesOf hv).nextPage_eq] at hn ⊢
      exact hl.next_mem ih hv hn
  · -- The pages of the chain are reached one after the other.
    suffices hx : ∀ {p ps}, Linked views p ps → h.Has s p ∨ ps = [] → ∀ q ∈ ps, h.Has s q from
      hx hl (.inl .first) p
    intro p ps hl
    induction hl
    case nil => exact fun _ _ hq => absurd hq List.not_mem_nil
    case cons p v ps hv _ _ hl ih =>
      intro hp q hq
      have hp := hp.resolve_right (List.cons_ne_nil _ _)
      obtain rfl | hq := List.mem_cons.mp hq
      · exact hp
      · refine ih ?_ q hq
        by_cases hn : v.nextPage = invalidPageID
        case pos => exact .inr (hn ▸ hl).nil_of_invalid
        case neg =>
          have hd := (hs.bytesOf hv).nextPage_eq
          exact .inl <| hd ▸ .next hp (hd ▸ hn)

theorem viewOf_eq (hs : s.Shows pins views) (hv : views p = some v) : s.viewOf p = v :=
  (hs.bytesOf hv).view

theorem insertFrom_walks (hl : Linked views p ps) (hp : p ≠ invalidPageID) (hk : s.Keeps owned pins S)
    (ho : ∀ q ∈ ps, q ∈ owned) (hS : ∀ q ∈ ps, ∀ d, S q d → views.Shown q d)
    (hn : ∀ q ∈ ps, pinsOn pins q + 1 < 4294967296) (hb : bytes.length ≤ 8180) :
    (insertFrom p bytes false).Ends s fun result t => t.Unless <| ∃ rid,
      result = .ok (some rid) ∧ Walked owned S ps bytes rid := by
  induction hl generalizing s S
  case nil => exact absurd rfl hp
  case cons p v ps hv _ hnp hl ih =>
    have hlt : bytes.length < 65536 := by omega
    have hmem : p ∈ p :: ps := List.mem_cons_self
    have hrefuses {d page} (hd : S p d) (hi : tryInsert d.slotted bytes = (none, page)) :
        ∃ d, S p d ∧ ¬d.slotted.Accepts bytes := by
      have ha := (hS p hmem d hd v hv).tryInsert_isSome hlt
      rw [hi] at ha
      exact ⟨d, hd, fun h => Bool.false_ne_true (ha.mpr h)⟩
    rw [insertFrom_eq]
    refine ends_fetchPage hk (ho p hmem) (hn p hmem) (fun {f t} ht _ => ?_) (fun hd => .pure <| .inl hd) .inl
    refine (visitPage_ends ht).bind ?_ ?_
    · rintro x u (⟨hd, hx⟩ | ⟨d, owned', S', hd, hx, hu⟩)
      · obtain ⟨q, rfl, hq⟩ := hx x rfl
        exact (insertFrom_blank hq hd hb).mono .inl
      · have hpage := hS p hmem d hd v hv
        cases hx
        case inserted rid page hi =>
          refine .pure <| .inr ⟨_, rfl, .accepted hmem hd ?_⟩
          rw [←hpage.tryInsert_isSome hlt, hi]
          rfl
        case full page hi hnext =>
          have hne {q} (hq : q ∈ ps) : q ≠ p := fun he => hnp (he ▸ hq)
          have hw := hpage.tryInsert_none hi
          rw [hw.nextPage_eq] at hnext ⊢
          have hS' {q d} (hq : q ∈ ps) (h : Keeps.overwrite S p page.stored false q d) : S q d := by
            rwa [Keeps.overwrite, Function.update_of_ne (hne hq)] at h
          refine (ih hnext hu (fun q hq => ho q (List.mem_cons_of_mem _ hq))
            (fun q hq d h => hS q (List.mem_cons_of_mem _ hq) d (hS' hq h))
            (fun q hq => hn q (List.mem_cons_of_mem _ hq))).mono fun {result w} h => h.imp_right ?_
          rintro ⟨rid, hr, hm, hv, ha⟩
          case accepted => exact ⟨rid, hr, .accepted (List.mem_cons_of_mem _ hm) (hS' hm hv) ha⟩
          case refused hnew hrest =>
            refine ⟨rid, hr, .refused hnew fun q hq => ?_⟩
            obtain rfl | hq := List.mem_cons.mp hq
            · exact hrefuses hd hi
            · obtain ⟨e, he, ha⟩ := hrest q hq
              exact ⟨e, hS' hq he, ha⟩
        case appended page n hi hnext _ hno hni =>
          have hw := hpage.tryInsert_none hi
          rw [hw.nextPage_eq] at hnext
          rw [hnext] at hl
          obtain rfl := hl.nil_of_invalid
          have hnp' : n ≠ p := fun he => hno (he ▸ ho p hmem)
          have hpins : pinsOn pins n = 0 := pinsOn_eq_zero.mpr fun pin hm he =>
            hno <| he ▸ ht.accounts.cached (ht.accounts.held <| List.mem_cons_of_mem _ hm)
          have hshows : u.Shows pins (Function.update (fun _ => none) n (some .empty)) := by
            refine ⟨n :: owned, hu.mono fun {q e} _ he w hw => ?_, fun q w hw => ?_⟩
            · by_cases hq : q = n
              case neg => simp [Function.update_of_ne hq] at hw
              case pos =>
                subst hq
                rw [Function.update_of_ne hnp', Function.update_self] at he
                rw [Function.update_self, Option.some.injEq] at hw
                exact hw ▸ he ▸ blank_holds
            · by_cases hq : q = n
              case neg => simp [Function.update_of_ne hq] at hw
              case pos => exact hq ▸ List.mem_cons_self
          refine (insertFrom_fresh hshows (Function.update_self ..) (by rw [hpins]; decide) hb).mono fun {result w} h =>
            h.imp_right ?_
          rintro ⟨hr, _⟩
          refine ⟨_, hr, .refused hno fun q hq => ?_⟩
          obtain rfl := List.mem_singleton.mp hq
          exact hrefuses hd hi
    · rintro e u (⟨hd, _⟩ | ⟨d, owned', S', hd, hx, hu⟩)
      · exact .inl hd
      · cases hx
        case last hcr => cases hcr

section insert

-- Every page is known by its versions.
theorem Shows.versions (hs : s.Shows pins views) : ∃ owned, s.Keeps owned pins s.pool.Version ∧
    (∀ p v, views p = some v → p ∈ owned) ∧ ∀ p d, p ∈ owned → s.pool.Version p d → views.Shown p d := by
  obtain ⟨owned, hk, ho⟩ := hs
  exact ⟨owned, ⟨hk.accounts, hk.granted, fun _ hv => hv⟩, ho, fun p d hp hv => hk.versions hp hv⟩

-- A granted insertion: the walk, and where the tuple has been placed.
theorem insertTuple_grows (hs : s.Shows pins views) (hl : Linked views h.firstPageId ps)
    (hp : h.firstPageId ≠ invalidPageID) (hn : ∀ q ∈ ps, pinsOn pins q + 1 < 4294967296)
    (hb : bytes.length ≤ 8180) (hr : h.insertTuple bytes s = some (result, t)) (hd : t.denied = false) :
    (∃ q ∈ ps, ∃ d, s.pool.Version q d ∧ d.slotted.Accepts bytes ∧ ∀ n, h.Has t n ↔ h.Has s n) ∨
      (∀ q ∈ ps, ∃ d, s.pool.Version q d ∧ ¬d.slotted.Accepts bytes) ∧ ∃ n, h.Has t n ∧ ¬h.Has s n := by
  obtain ⟨owned, hk, ho, hS⟩ := Shows.versions hs
  have hmem {q} (hq : q ∈ ps) : q ∈ owned := by
    obtain ⟨v, hv⟩ := hl.view hq
    exact ho q v hv
  have hrun := hr
  have hb' : ¬kPageSize - 8 - 4 < bytes.length := by
    rw [kPageSize_eq]
    omega
  rw [insertTuple, if_neg hb'] at hrun
  obtain hdt | ⟨rid, rfl, hw⟩ := (insertFrom_walks hl hp hk (fun q hq => hmem hq)
    (fun q hq d hd => hS q d (hmem hq) hd) hn hb).of_eq hrun
  · cases hd.symm.trans hdt
  obtain hdt | ⟨rid', views', ps', hr', ht, hx⟩ := (insertTuple_ends hs hl hp hn hb).of_eq hr
  · cases hd.symm.trans hdt
  obtain rfl := Option.some.inj <| Except.ok.inj hr'
  have hs' {n} : h.Has s n ↔ n ∈ ps := has_iff hs hl hp
  have ht' {n} : h.Has t n ↔ n ∈ ps' := has_iff ht (hx.linked hl) hp
  cases hx
  case existing q v slot hq hv hf hc    =>
    cases hw
    case accepted d hm hv ha     => exact .inl ⟨_, hm, d, hv, ha, fun n => ht'.trans hs'.symm⟩
    case refused hnew _          => exact absurd (hmem hq) hnew
  case appended qs q v n he hv hn hi hpn =>
    have hnew : n ∉ ps := hl.not_mem hn
    cases hw
    case accepted hm _ _    => exact absurd hm hnew
    case refused hrefuses   => exact .inr ⟨hrefuses, n, ht'.mpr (by simp), fun hh => hnew (hs'.mp hh)⟩

theorem InsertSafe.thrifty (hs : s.Shows pins views) (hl : Linked views h.firstPageId ps)
    (hp : h.firstPageId ≠ invalidPageID) (hn : ∀ q ∈ ps, pinsOn pins q + 1 < 4294967296)
    (hb : bytes.length ≤ 8180) (hsafe : h.InsertSafe s bytes) : h.Thrifty s bytes := by
  intro result t hr hd n hnt hns q hq hc
  have hs' {n} : h.Has s n ↔ n ∈ ps := has_iff hs hl hp
  obtain ⟨_, _, _, _, _, he⟩ | ⟨hrefuses, _⟩ := insertTuple_grows hs hl hp hn hb hr hd
  · exact hns <| (he n).mp hnt
  · obtain ⟨p, hp, ha⟩ | hstuck := hsafe
    · obtain ⟨d, hv, hd⟩ := hrefuses p (hs'.mp hp)
      exact hd (ha d hv)
    · obtain ⟨d, hv, hd⟩ := hrefuses q (hs'.mp hq)
      obtain ⟨v, hview⟩ := hl.view (hs'.mp hq)
      obtain ⟨owned, _, ho, hS⟩ := Shows.versions hs
      rw [viewOf_eq hs hview] at hc
      obtain ha | hst := (hS q d (ho q v hview) hv v hview).accepts_or hc
      · exact hd ha
      · exact hstuck q d hq hv hst

theorem Thrifty.insertSafe (hs : s.Shows pins views) (hl : Linked views h.firstPageId ps)
    (hp : h.firstPageId ≠ invalidPageID) (hn : ∀ q ∈ ps, pinsOn pins q + 1 < 4294967296)
    (hb : bytes.length ≤ 8180) (hsaved : h.Saved s) (hr : h.insertTuple bytes s = some (result, t))
    (hd : t.denied = false) (hthrifty : h.Thrifty s bytes) : h.InsertSafe s bytes := by
  have hs' {n} : h.Has s n ↔ n ∈ ps := has_iff hs hl hp
  obtain ⟨q, hq, d, hv, ha, _⟩ | ⟨_, n, hnt, hns⟩ := insertTuple_grows hs hl hp hn hb hr hd
  · refine .inl ⟨q, hs'.mpr hq, fun e he => ?_⟩
    rw [hsaved q e (hs'.mpr hq) he, ←hsaved q d (hs'.mpr hq) hv]
    exact ha
  · refine .inr fun p d hp hv hstuck => hthrifty result t hr hd n hnt hns p hp ?_
    obtain ⟨v, hview⟩ := hl.view (hs'.mp hp)
    obtain ⟨owned, _, ho, hS⟩ := Shows.versions hs
    rw [viewOf_eq hs hview]
    exact (hS p d (ho p v hview) hv v hview).compact_room_none.mp hstuck.room

end insert

section update

theorem tryUpdateInPlace_fst {page : SlottedPage} (hl : bytes.length < 65536) (hs : page.Live rid.slotNum) :
    (page.tryUpdateInPlace rid bytes).1 = decide (bytes.length ≤ page.slotLength rid.slotNum) := by
  rw [SlottedPage.tryUpdateInPlace, if_neg (Nat.not_le.mpr hs.lt), if_neg hs.off, Nat.mod_eq_of_lt hl]
  by_cases hle : bytes.length ≤ page.slotLength rid.slotNum
  case pos => simp [hle, Nat.not_lt.mpr hle]
  case neg => simp [hle, Nat.not_le.mp hle]

theorem deleteTuple_live {page : SlottedPage} (hp : page.Holds v) (hs : v.slots rid.slotNum ≠ none) :
    ∃ r, page.deleteTuple rid.slotNum = (true, r) ∧ r.Holds (v.unbind rid.slotNum) := by
  have hd := hp.deleteTuple_eq (i := rid.slotNum)
  rw [Option.isSome_iff_ne_none.mpr hs] at hd
  have hd : page.deleteTuple rid.slotNum = (true, (page.deleteTuple rid.slotNum).2) := Prod.ext hd rfl
  exact ⟨_, hd, (hp.deleteTuple hd).2⟩

theorem tryUpdate_stays {page : SlottedPage} (hp : page.Holds v) (hl : bytes.length < 65536)
    (hs : v.slots rid.slotNum ≠ none) (hf : (v.bind rid.slotNum bytes).occupied ≤ kPageSize)
    (hn : ¬page.StuckUpdate rid.slotNum bytes) : (tryUpdate rid bytes rid.pageId page).1 = some (some rid) := by
  have hh : page.hasSlot rid.slotNum = true := hp.hasSlot_iff.mpr hs
  have hlive := hp.live_iff.mpr hs
  have hu := tryUpdateInPlace_fst hl hlive
  simp only [tryUpdate, hh, Bool.not_true, Bool.false_eq_true, if_false]
  rcases hq : page.tryUpdateInPlace rid bytes with ⟨_ | _, q⟩
  case true  => rfl
  case false =>
    obtain rfl := SlottedPage.tryUpdateInPlace_false hq
    rw [hq] at hu
    have hlonger : q.slotLength rid.slotNum < bytes.length := Nat.not_le.mp (of_decide_eq_false hu.symm)
    obtain ⟨r, hd, hr⟩ := deleteTuple_live hp hs
    have hi : rid.slotNum < (v.unbind rid.slotNum).slotCount := by
      rw [PageView.unbind_slotCount, ←hp.slotCount_eq]
      exact hlive.lt
    have hroom := (hr.compact_room_some hi PageView.unbind_slots_self).mpr (bind_unbind_bind ▸ hf)
    have hns : ¬r.Stuck bytes (some rid.slotNum) := fun hst => hn ⟨hlonger, hd ▸ hst⟩
    simp only [hd]
    have hc : (if r.isCompacted then r else r.compact).Holds (v.unbind rid.slotNum) ∧
        (if r.isCompacted then r else r.compact).Room bytes (some rid.slotNum) := by
      split
      case isTrue h  => exact ⟨hr, by_contra fun hn => hns ⟨hn, h, hroom⟩⟩
      case isFalse h => exact ⟨hr.compact, hroom⟩
    generalize (if r.isCompacted then r else r.compact) = c at hc
    have hsome := (hc.1.wf.insertTuple_isSome hl).mpr hc.2
    rcases hins : c.insertTuple bytes (some rid.slotNum) with ⟨_ | rid', c'⟩
    · rw [hins] at hsome
      cases hsome
    · simp only [hc.1.insertTuple_prefered hl hi PageView.unbind_slots_self hins]

theorem tryUpdate_stuck {page : SlottedPage} (hp : page.Holds v) (hl : bytes.length < 65536)
    (hs : v.slots rid.slotNum ≠ none) (hst : page.StuckUpdate rid.slotNum bytes) :
    tryUpdate rid bytes rid.pageId page = (none, (page.deleteTuple rid.slotNum).2, true) := by
  have hh : page.hasSlot rid.slotNum = true := hp.hasSlot_iff.mpr hs
  have hu := tryUpdateInPlace_fst hl (hp.live_iff.mpr hs)
  rw [decide_eq_false (Nat.not_le.mpr hst.longer)] at hu
  simp only [tryUpdate, hh, Bool.not_true, Bool.false_eq_true, if_false]
  rcases hq : page.tryUpdateInPlace rid bytes with ⟨_ | _, q⟩
  case true  =>
    rw [hq] at hu
    cases hu
  case false =>
    obtain rfl := SlottedPage.tryUpdateInPlace_false hq
    obtain ⟨r, hd, hr⟩ := deleteTuple_live hp hs
    have hst := hst.stuck
    rw [hd] at hst
    simp only [hd, hst.compacted, if_true, hr.wf.insertTuple_full hl hst.full]

-- The new version does not come back to the page that is stuck.
theorem stuck_refuses {page : SlottedPage} (hp : page.Holds v) (hi : rid.slotNum < v.slotCount)
    (hf : v.slots rid.slotNum = none) (hst : page.Stuck bytes (some rid.slotNum)) : ¬page.Accepts bytes := by
  have hc := hp.slotCost_some hi hf
  obtain ⟨_, hc'⟩ | ⟨hn, _⟩ := hp.slotCost_none
  case inr => exact absurd ⟨_, hi, hf⟩ hn
  case inl =>
    rintro (hr | ⟨hc, _⟩)
    · refine hst.full ?_
      rw [SlottedPage.Room, hc]
      rwa [SlottedPage.Room, hc'] at hr
    · exact absurd hst.compacted (by simp [hc])

theorem UpdateSafe.settled (hs : s.Shows pins views) (hv : views rid.pageId = some v)
    (hn : pinsOn pins rid.pageId + 1 < 4294967296) (hb : bytes.length ≤ 8180) (hsafe : UpdateSafe s rid bytes) :
    h.Settled s rid bytes := by
  intro result t hr hd hlive hfits
  rw [viewOf_eq hs hv] at hlive hfits
  obtain ⟨owned, hk, ho, hS⟩ := Shows.versions hs
  have hends : (h.updateTuple rid bytes).Ends s fun result t => t.Unless (result = .ok (some rid)) := by
    refine (onPage_ends hk (ho _ v hv) hn).bind ?_ ?_
    · rintro a u (⟨hd, hm⟩ | ⟨d, hdv, a', page', dirty, hbody, ha, _⟩)
      · obtain rfl := hm a rfl
        exact .pure <| .inl hd
      · have hstay := tryUpdate_stays (hS _ d (ho _ v hv) hdv v hv) (by omega) hlive hfits (hsafe d hdv)
        rw [hbody] at hstay
        obtain rfl : a' = some (some rid) := hstay
        obtain rfl := Except.ok.inj ha
        exact .pure <| .inr rfl
    · rintro e u (⟨hd, _⟩ | ⟨_, _, _, _, _, _, ha, _⟩)
      · exact .inl hd
      · cases ha
  exact (hends.of_eq hr).resolve_left (by simp [hd])

theorem Settled.updateSafe (hs : s.Shows pins views) (hl : Linked views h.firstPageId ps)
    (hp : h.firstPageId ≠ invalidPageID) (hn : ∀ q ∈ ps, pinsOn pins q + 1 < 4294967296)
    (hm : rid.pageId ∈ ps) (hv : views rid.pageId = some v) (hlive : v.slots rid.slotNum ≠ none)
    (hb : bytes.length ≤ 8180) (hsaved : h.Saved s) (hr : h.updateTuple rid bytes s = some (result, t))
    (hd : t.denied = false) (hsettled : h.Settled s rid bytes) : UpdateSafe s rid bytes := by
  intro d hdv hst
  obtain ⟨owned, hk, ho, hS⟩ := Shows.versions hs
  have hmem {q} (hq : q ∈ ps) : q ∈ owned := by
    obtain ⟨v, hv⟩ := hl.view hq
    exact ho q v hv
  have hshown {d} (hdv : s.pool.Version rid.pageId d) : d.slotted.Holds v := hS _ d (hmem hm) hdv v hv
  have hpage := hshown hdv
  have ⟨r, hd', hdel⟩ := deleteTuple_live hpage hlive
  have hstuck := hst.stuck
  rw [hd'] at hstuck
  have hi : rid.slotNum < (v.unbind rid.slotNum).slotCount := by
    rw [PageView.unbind_slotCount, ←hpage.slotCount_eq]
    exact (hpage.live_iff.mpr hlive).lt
  have hfits := (hdel.compact_room_some hi PageView.unbind_slots_self).mp hstuck.room
  rw [bind_unbind_bind] at hfits
  have hstays := hsettled result t hr hd (viewOf_eq hs hv ▸ hlive) (viewOf_eq hs hv ▸ hfits)
  have hends : (h.updateTuple rid bytes).Ends s fun result t => t.Unless (result ≠ .ok (some rid)) := by
    refine (onPage_ends hk (hmem hm) (hn _ hm)).bind ?_ ?_
    · rintro a u (⟨hd, hmiss⟩ | ⟨e, hev, a', page', dirty, hbody, ha, hu⟩)
      · obtain rfl := hmiss a rfl
        exact .pure <| .inl hd
      · have he : e = d := by
          have hhas := (has_iff hs hl hp).mpr hm
          rw [hsaved _ e hhas hev, hsaved _ d hhas hdv]
        subst he
        have hbody := (tryUpdate_stuck hpage (by omega) hlive hst).symm.trans hbody
        rw [hd'] at hbody
        obtain ⟨rfl, rfl, rfl⟩ : none = a' ∧ r = page' ∧ true = dirty := by simpa only [Prod.mk.injEq] using hbody
        obtain rfl := Except.ok.inj ha
        rw [Bool.or_true, Keeps.overwrite_true] at hu
        have hb' : ¬kPageSize - 8 - 4 < bytes.length := by
          rw [kPageSize_eq]
          omega
        have hw := insertFrom_walks (hl.setView hv (w := v.unbind rid.slotNum) rfl) hp hu (fun q hq => hmem hq)
          (fun q hq e' he' w hw => ?_) hn hb
        · simp only [insertTuple, if_neg hb']
          refine hw.mono fun {result t} hx => hx.imp_right ?_
          rintro ⟨rid', rfl, hw⟩ heq
          obtain rfl := Option.some.inj <| Except.ok.inj heq
          cases hw
          case accepted e' _ hev' hacc =>
            rw [Function.update_self] at hev'
            subst hev'
            rw [hdel.stored_slotted] at hacc
            exact stuck_refuses hdel hi PageView.unbind_slots_self hstuck hacc
          case refused hnew _ => exact hnew (hmem hm)
        · by_cases hq' : q = rid.pageId
          case pos =>
            rw [hq', Function.update_self] at he' hw
            obtain rfl := Option.some.inj hw
            rw [he', hdel.stored_slotted]
            exact hdel
          case neg =>
            rw [Function.update_of_ne hq'] at he' hw
            exact hS q e' (hmem hq) he' w hw
    · rintro e u (⟨hd, _⟩ | ⟨_, _, _, _, _, _, ha, _⟩)
      · exact .inl hd
      · cases ha
  exact (hends.of_eq hr).resolve_left (by simp [hd]) hstays

end update

theorem spares_pages (hs : s.Shows pins views) (hl : Linked views h.firstPageId ps)
    (hp : h.firstPageId ≠ invalidPageID) (hn : ∀ q ∈ ps, pinsOn pins q + 1 < 4294967296) (hb : bytes.length ≤ 8180) :
    (h.InsertSafe s bytes → h.Thrifty s bytes) ∧
      (h.Saved s → PagerM.Granted (h.insertTuple bytes) s → (h.Thrifty s bytes ↔ h.InsertSafe s bytes)) ∧
      ∀ rid, h.Has s rid.pageId → (s.viewOf rid.pageId).slots rid.slotNum ≠ none →
        (UpdateSafe s rid bytes → h.Settled s rid bytes) ∧
        (h.Saved s → PagerM.Granted (h.updateTuple rid bytes) s → (h.Settled s rid bytes ↔ UpdateSafe s rid bytes)) := by
  have hinsert := InsertSafe.thrifty hs hl hp hn hb
  refine ⟨hinsert, fun hsaved ⟨_, _, hr, hd⟩ => ⟨Thrifty.insertSafe hs hl hp hn hb hsaved hr hd, hinsert⟩, ?_⟩
  intro rid hhas hlive
  have hm := (has_iff hs hl hp).mp hhas
  obtain ⟨v, hv⟩ := hl.view hm
  rw [viewOf_eq hs hv] at hlive
  have hupdate := UpdateSafe.settled (h := h) hs hv (hn _ hm) hb
  exact ⟨hupdate, fun hsaved ⟨_, _, hr, hd⟩ =>
    ⟨Settled.updateSafe hs hl hp hn hm hv hlive hb hsaved hr hd, hupdate⟩⟩

section worn

-- The state that a program ends in.
def after (x : PagerM α) (s : Pager) : Pager :=
  ((x s).map Prod.snd).getD s

-- A visit once its attempts to insert the tuple have had the given result.
def visit (frameId : FrameID) (createdNewPage : Bool) (tried : Option RID × SlottedPage) : PagerM (RID ⊕ PageID × Bool) :=
  pinned frameId do
    put frameId tried.2
    match tried.1 with
    | some rid => return (.inl { rid with pageId := ← pageId frameId }, true)
    | none     =>
      if tried.2.nextPage ≠ invalidPageID then
        return (.inr (tried.2.nextPage, createdNewPage), false)
      else if createdNewPage then
        throw <| "TableHeap::insert_tuple: tuple failed to fit even on a freshly created page — " ++
          "this indicates a bug in SlottedPage size accounting"
      else
        let (next, dirty) ← appendPage frameId
        return (.inr (next, true), dirty)

theorem visitPage_of {f : FrameID} (h : tryInsert (s.pool.frames f).data.slotted bytes = tried) :
    visitPage f bytes created s = visit f created tried s := by
  obtain ⟨rid, page⟩ := tried
  rw [visitPage, visit, pinned, pinned, Program.cleanly, Program.cleanly]
  congr 1
  rw [slotted, Program.bind_apply, Program.map_apply]
  simp only [data, Program.read, Option.map_some, Option.bind_some]
  have h : tryInsert ⟨(s.pool.frames f).data.bytes⟩ bytes = (rid, page) := h
  dsimp only [Functor.map, Except.map]
  rewrite [h]
  cases rid <;> rfl

-- A heap of one page that has taken two tuples of one byte each and has lost the second one, which is the lower of
-- the two.
def fresh : Pager :=
  after create ⟨.create (.fresh .empty) 2, false⟩

def turn (bytes : List UInt8) : PagerM Unit := do
  match ← fetchPage 1 with
  | none         => return
  | some frameId => discard <| visitPage frameId bytes false

def worn : Pager :=
  after (deleteTuple ⟨1⟩ ⟨1, 1⟩) (after (turn [2]) (after (turn [1]) fresh))

def wornPage : SlottedPage :=
  (worn.pool.bytesOf 1).slotted

-- What a page without its second tuple could hold.
def wide : List UInt8 :=
  List.replicate 8175 0

theorem wide_length : wide.length = 8175 :=
  List.length_replicate

theorem fresh_shows : fresh.Shows [] (Function.update (fun _ => none) 1 (some .empty)) := by
  have hr : create ⟨.create (.fresh .empty) 2, false⟩ = some (.ok ⟨1⟩, fresh) := rfl
  have hs : Pager.Shows ⟨.create (.fresh .empty) 2, false⟩ [] fun _ => none :=
    ⟨[], ⟨.create DiskManager.fresh_wellFormed, rfl, fun _ _ => nofun⟩, nofun⟩
  obtain hd | ⟨p, hp, _, _, _, ht⟩ := (create_shows hs).of_eq hr
  · cases hd
  · cases hp
    exact ht

theorem turn_shows (hs : s.Shows [] views) (hv : views 1 = some v) (hl : v.nextPage = invalidPageID)
    (hb : bytes.length ≤ 8180) (hr : insertTuple ⟨1⟩ bytes s = some (.ok (some ⟨1, slot⟩), t)) (hd : t.denied = false) :
    t.Shows [] (Function.update views 1 (some (v.bind slot bytes))) := by
  have hlinked : Linked views 1 [1] := .cons hv (by decide) List.not_mem_nil (hl ▸ .nil)
  obtain hdt | ⟨rid, views', ps', he, ht, hx⟩ :=
    (insertTuple_ends (h := ⟨1⟩) hs hlinked (show (1 : PageID) ≠ invalidPageID by decide)
      (fun q _ => show 0 + 1 < 4294967296 by decide) hb).of_eq hr
  · cases hd.symm.trans hdt
  · obtain rfl := Option.some.inj <| Except.ok.inj he
    cases hx
    case existing w hm hv' hf hc =>
      obtain rfl := Option.some.inj <| hv.symm.trans hv'
      exact ht
    case appended hn _ _ =>
      cases hv.symm.trans hn

theorem worn_shows : ∃ views v, worn.Shows [] views ∧ views 1 = some v ∧ v.nextPage = invalidPageID := by
  have e₁ : insertTuple ⟨1⟩ [1] fresh = some (.ok (some ⟨1, 0⟩), after (turn [1]) fresh) :=
    insertFrom_here (f := 0) rfl rfl
  have e₂ : insertTuple ⟨1⟩ [2] (after (turn [1]) fresh) =
      some (.ok (some ⟨1, 1⟩), after (turn [2]) (after (turn [1]) fresh)) := insertFrom_here (f := 0) rfl rfl
  have h₁ := turn_shows fresh_shows (Function.update_self ..) rfl (by decide) e₁ rfl
  have h₂ := turn_shows h₁ (Function.update_self ..) rfl (by decide) e₂ rfl
  have hr : deleteTuple ⟨1⟩ ⟨1, 1⟩ (after (turn [2]) (after (turn [1]) fresh)) = some (.ok true, worn) := rfl
  obtain ⟨hd, _⟩ | ⟨_, ht⟩ := (deleteTuple_ends h₂ (Function.update_self ..) (by decide)).of_eq hr
  · cases hd
  · exact ⟨_, _, ht, Function.update_self .., rfl⟩

theorem worn_linked {views : Views} (hv : views 1 = some v) (hl : v.nextPage = invalidPageID) : Linked views 1 [1] :=
  .cons hv (by decide) List.not_mem_nil (hl ▸ .nil)

-- What is in the dirty frame is all there is.
theorem worn_version (hv : worn.pool.Version 1 d) : d = worn.pool.bytesOf 1 := by
  have ht : worn.pool.pageTable 1 = some 0 := by decide
  cases hv
  case cached f hf => exact (PoolManager.bytesOf_cached hf).symm
  case stored hc   => exact absurd (hc 0 ht) (by decide)

theorem wornPage_stuck : wornPage.Stuck wide none := by
  obtain ⟨views, v, hs, hv, _⟩ := worn_shows
  have hp : wornPage.Holds v := hs.bytesOf hv
  have hc : wornPage.slotCount = 2 := by decide
  have hf : wornPage.freeSpaceOffset = 8190 := by decide
  have hlive : wornPage.Live 0 := by decide
  have hdead : ¬wornPage.Live 1 := by decide
  refine ⟨fun hr => ?_, by decide, hp.compact_room_none.mpr ⟨1, ?_, ?_, ?_⟩⟩
  · simp only [SlottedPage.Room, hc, hf, wide_length] at hr
    omega
  · rw [←hp.slotCount_eq, hc]
    decide
  · exact not_not.mp fun hn => hdead (hp.live_iff.mpr hn)
  · have hl : wornPage.slotLength 0 = 1 := by decide
    have hu : v.used = 1 := by
      rw [←hp.view, PageView.used, SlottedPage.view_slotCount, hc, Finset.sum_range_succ, Finset.sum_range_one,
        SlottedPage.bytesAt_of_live hlive, SlottedPage.bytesAt_of_not_live hdead, hl]
    rw [SlottedPage.Holds.occupied_bind (by rw [←hp.slotCount_eq, hc]; decide)
      (not_not.mp fun hn => hdead (hp.live_iff.mpr hn)), wide_length, PageView.occupied, hu, ←hp.slotCount_eq, hc]

theorem tryInsert_stuck {page : SlottedPage} (hp : page.Holds v) (hl : bytes.length < 65536)
    (hs : page.Stuck bytes none) : tryInsert page bytes = (none, page) := by
  simp only [tryInsert, hp.wf.insertTuple_full hl hs.full, hs.compacted, if_true]

def wornFetched : Pager :=
  after (fetchPage 1) worn

-- The fetch finds the page in its frame.
theorem wornFetched_page : (wornFetched.pool.frames 0).data.slotted = wornPage := by
  have ht : worn.pool.pageTable 1 = some 0 := by decide
  have hf : fetchPage 1 worn = some (.ok (some 0), { worn with pool := worn.pool.pinned 1 0 }) := by
    simp only [fetchPage, Program.call, PoolManager.fetchPage, PoolManager.findCachedPage_hit ht]
  rw [wornFetched, after, hf, wornPage, PoolManager.bytesOf_cached ht]
  simp [PoolManager.pinned, PoolManager.setFrame, Page.incPinCount]

def wornGrown : Pager :=
  after (fetchPage 2) (after (visit 0 false (none, wornPage)) wornFetched)

theorem wornGrown_blank : ∃ page, tryInsert (wornGrown.pool.frames 1).data.slotted wide = (some ⟨invalidPageID, 0⟩, page) := by
  have hs : (wornGrown.pool.frames 1).data.slotted.slotCount = 0 := by decide
  have hf : (wornGrown.pool.frames 1).data.slotted.freeSpaceOffset = 8192 := by decide
  generalize (wornGrown.pool.frames 1).data.slotted = page at hs hf
  have hn {i} : ¬page.Live i := fun h => absurd h.lt (by simp [hs])
  have hw : page.WellFormed :=
    ⟨by simp [hs, hf], hf.le, fun h => absurd h hn, fun h => absurd h hn, fun h => absurd h hn⟩
  have hr : page.reusedSlot none = none := by simp [SlottedPage.reusedSlot, SlottedPage.findEmptySlot, hs]
  have hi : page.insertTuple wide none = _ := hw.insertTuple_eq (show wide.length < 65536 by rw [wide_length]; decide)
  rw [if_pos (by simp only [SlottedPage.slotCost, hr, hs, hf, wide_length, if_true]; decide), hr, hs] at hi
  refine ⟨page.allocateSlot.2.placeTuple 0 wide, ?_⟩
  simp only [tryInsert, hi]

theorem worn_granted : PagerM.Granted (insertTuple ⟨1⟩ wide) worn := by
  obtain ⟨views, v, hs, hv, _⟩ := worn_shows
  have hp : wornPage.Holds v := hs.bytesOf hv
  have hl : ¬kPageSize - 8 - 4 < wide.length := by
    rw [wide_length]
    decide
  have h₁ : tryInsert (wornFetched.pool.frames 0).data.slotted wide = (none, wornPage) := by
    rw [wornFetched_page]
    exact tryInsert_stuck hp (by rw [wide_length]; decide) wornPage_stuck
  obtain ⟨page, h₂⟩ := wornGrown_blank
  have e₁ : insertFrom 1 wide false worn = insertFrom 2 wide true (after (visit 0 false (none, wornPage)) wornFetched) :=
    insertFrom_next (f := 0) (t := wornFetched) rfl ((visitPage_of h₁).trans rfl)
  have e₂ : insertFrom 2 wide true (after (visit 0 false (none, wornPage)) wornFetched) =
      some (.ok (some ⟨2, 0⟩), after (visit 1 true (some ⟨invalidPageID, 0⟩, page)) wornGrown) :=
    insertFrom_here (f := 1) (t := wornGrown) rfl ((visitPage_of h₂).trans rfl)
  refine ⟨.ok (some ⟨2, 0⟩), _, ?_,
    show (after (visit 1 true (some ⟨invalidPageID, 0⟩, page)) wornGrown).denied = false from rfl⟩
  rw [insertTuple, if_neg hl]
  exact e₁.trans e₂

end worn

theorem spares_pages_worn : (InsertSafe ⟨1⟩ worn wide → Thrifty ⟨1⟩ worn wide) ∧
    (Saved ⟨1⟩ worn → PagerM.Granted (insertTuple ⟨1⟩ wide) worn →
      (Thrifty ⟨1⟩ worn wide ↔ InsertSafe ⟨1⟩ worn wide)) ∧
      ∀ rid, Has ⟨1⟩ worn rid.pageId → (worn.viewOf rid.pageId).slots rid.slotNum ≠ none →
        (UpdateSafe worn rid wide → Settled ⟨1⟩ worn rid wide) ∧
        (Saved ⟨1⟩ worn → PagerM.Granted (updateTuple ⟨1⟩ rid wide) worn →
          (Settled ⟨1⟩ worn rid wide ↔ UpdateSafe worn rid wide)) := by
  obtain ⟨views, v, hs, hv, hl⟩ := worn_shows
  exact spares_pages hs (worn_linked hv hl) (show (1 : PageID) ≠ invalidPageID by decide)
    (fun q _ => show 0 + 1 < 4294967296 by decide) (by rw [wide_length]; decide)

-- The dead tuple's bytes would do, and the heap grows.
theorem not_spares_pages :
    ¬∀ (h : TableHeap) (s : Pager) (bytes : List UInt8), (∃ pins views ps, s.Shows pins views ∧
        Linked views h.firstPageId ps ∧ h.firstPageId ≠ invalidPageID ∧ ∀ q ∈ ps, pinsOn pins q + 1 < 4294967296) →
      bytes.length ≤ 8180 → h.Thrifty s bytes ∧
        ∀ rid, h.Has s rid.pageId → (s.viewOf rid.pageId).slots rid.slotNum ≠ none → h.Settled s rid bytes := by
  intro hall
  obtain ⟨views, v, hs, hv, hl⟩ := worn_shows
  have hlinked := worn_linked hv hl
  have hvalid : (1 : PageID) ≠ invalidPageID := by decide
  have hroom : ∀ q ∈ [(1 : PageID)], pinsOn [] q + 1 < 4294967296 := fun q _ => show 0 + 1 < 4294967296 by decide
  have hb : wide.length ≤ 8180 := by
    rw [wide_length]
    decide
  have hhas {p} : Has ⟨1⟩ worn p ↔ p = 1 := (has_iff (h := ⟨1⟩) hs hlinked hvalid).trans List.mem_singleton
  have hsaved : Saved ⟨1⟩ worn := by
    intro p d hp hd
    obtain rfl := hhas.mp hp
    exact worn_version hd
  obtain ⟨result, t, hr, hd⟩ := worn_granted
  have hversion : worn.pool.Version 1 (worn.pool.bytesOf 1) := PoolManager.version_bytesOf
  have ⟨hthrifty, _⟩ := hall ⟨1⟩ worn wide ⟨[], views, [1], hs, hlinked, hvalid, hroom⟩ hb
  obtain ⟨p, hp, ha⟩ | hn := Thrifty.insertSafe hs hlinked hvalid hroom hb hsaved hr hd hthrifty
  · obtain rfl := hhas.mp hp
    exact wornPage_stuck.refuses (ha _ hversion)
  · exact hn 1 _ (hhas.mpr rfl) hversion wornPage_stuck

end TableHeap
end Duck
