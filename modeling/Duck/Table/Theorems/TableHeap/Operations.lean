import Duck.Table.Theorems.TableHeap.Insert

namespace Duck.TableHeap

open Pager

variable {s t : Pager} {h : TableHeap} {pins : List Pin} {views views' : Views} {p q n : PageID} {ps : List PageID}
variable {v w : PageView} {bytes : List UInt8} {rid : RID}

theorem create_shows (hs : s.Shows pins views) :
    create.Ends s fun result t => t.Unless <| ∃ p, result = .ok ⟨p⟩ ∧ views p = none ∧ p ≠ invalidPageID ∧
      pinsOn pins p = 0 ∧ t.Shows pins (Function.update views p (some .empty)) := by
  have ⟨owned, hk, ho⟩ := hs
  refine (create_ends hk).mono fun {result t} hx => hx.imp_right ?_
  rintro ⟨p, hr, hp, hi, ht⟩
  refine ⟨p, hr, Option.eq_none_iff_forall_ne_some.mpr fun v hv => hp (ho p v hv), hi, ?_, ?_⟩
  · exact pinsOn_eq_zero.mpr fun pin hm he => hp <| he ▸ hk.accounts.cached (hk.accounts.held hm)
  · refine Shows.setView (w := .empty) ht List.mem_cons_self (fun q v hv => List.mem_cons_of_mem _ (ho q v hv))
      (fun {d} hd => ?_) fun {q d} _ hq hd => ?_
    · rw [Function.update_self] at hd
      exact hd ▸ blank_holds
    · rwa [Function.update_of_ne hq] at hd

theorem insertTuple_ends (hs : s.Shows pins views) (hl : Linked views h.firstPageId ps)
    (hp : h.firstPageId ≠ invalidPageID) (hn : ∀ q ∈ ps, pinsOn pins q + 1 < 4294967296)
    (hb : bytes.length ≤ 8180) : (h.insertTuple bytes).Ends s fun result t => t.Unless <| ∃ rid views' ps',
      result = .ok (some rid) ∧ t.Shows pins views' ∧ Placed pins views ps bytes rid views' ps' := by
  have hb' : ¬kPageSize - 8 - 4 < bytes.length := by
    rw [kPageSize_eq]
    omega
  rw [insertTuple, if_neg hb']
  exact insertFrom_ends hs hl hp hn hb

theorem getTuple_ends (hs : s.Shows pins views) (hv : views rid.pageId = some v)
    (hn : pinsOn pins rid.pageId + 1 < 4294967296) :
    (h.getTuple rid).Ends s fun result t => (t.denied = true ∧ ∀ a, result = .ok a → a = none) ∨
      result = .ok ((v.slots rid.slotNum).filter (· ≠ [])) ∧ t.Shows pins views := by
  refine (onPage_shows hs hv hn).mono fun {result t} hx => hx.imp_right ?_
  rintro ⟨page, hp, a, page', dirty, hb, hr, ht⟩
  simp only [Prod.mk.injEq] at hb
  obtain ⟨rfl, rfl, rfl⟩ := hb
  have ht := ht v hp (.inr rfl)
  rw [Function.update_eq_self_iff.mpr hv.symm] at ht
  refine ⟨hr.trans <| congrArg Except.ok ?_, ht⟩
  rw [hp.getTuple_eq]
  cases v.slots rid.slotNum
  case none       => rfl
  case some bytes => by_cases hb : bytes = [] <;> simp [Option.filter, hb]

theorem unbind_of_free {v : PageView} (hi : v.slots i = none) : v.unbind i = v := by
  ext1 <;> simp [PageView.unbind, ←hi]

theorem deleteTuple_ends (hs : s.Shows pins views) (hv : views rid.pageId = some v)
    (hn : pinsOn pins rid.pageId + 1 < 4294967296) :
    (h.deleteTuple rid).Ends s fun result t => (t.denied = true ∧ ∀ a, result = .ok a → a = false) ∨
      result = .ok (v.slots rid.slotNum).isSome ∧
        t.Shows pins (Function.update views rid.pageId (some (v.unbind rid.slotNum))) := by
  refine (onPage_shows hs hv hn).mono fun {result t} hx => hx.imp_right ?_
  rintro ⟨page, hp, a, page', dirty, hb, hr, ht⟩
  simp only [Prod.mk.injEq] at hb
  obtain ⟨rfl, rfl, rfl⟩ := hb
  refine ⟨hr.trans <| congrArg Except.ok hp.deleteTuple_eq, ?_⟩
  match hd : page.deleteTuple rid.slotNum with
  | (true,  q) =>
    rw [hd] at ht
    exact ht _ (hp.deleteTuple hd).2 (.inl (Bool.or_true _))
  | (false, q) =>
    have ⟨hl, hq⟩ := SlottedPage.deleteTuple_false hd
    have hf : v.slots rid.slotNum = none := by rwa [hp.live_iff, ne_eq, not_not] at hl
    rw [hd, hq] at ht
    rw [unbind_of_free hf]
    exact ht v hp (.inr rfl)

-- A restore that fails no assertion. What it writes stays if its page is dirty already.
theorem restoreTuple_ends (hs : s.Shows pins views) (hv : views rid.pageId = some v)
    (hn : pinsOn pins rid.pageId + 1 < 4294967296) (hl : bytes.length < 65536) (hi : rid.slotNum < v.slotCount)
    (hf : v.slots rid.slotNum = none) (hr : v.occupied + bytes.length ≤ kPageSize) (hd : s.isDirty rid.pageId = true) :
    (h.restoreTuple rid bytes).Ends s fun result t => t.Unless <| result = .ok () ∧
      t.Shows pins (Function.update views rid.pageId (some (v.bind rid.slotNum bytes))) := by
  refine (onPage_shows hs hv hn).bind ?_ ?_
  · rintro restored u (⟨hd, _⟩ | ⟨page, hp, a, page', dirty, hb, hr', ht⟩)
    · cases restored
      case true  => exact .pure <| .inl hd
      case false => exact .throw <| .inl hd
    · have ⟨q, hq, hw⟩ := hp.restoreTuple hl hi hf hr
      simp only [hq, Prod.mk.injEq] at hb
      obtain ⟨rfl, rfl, rfl⟩ := hb
      obtain rfl := Except.ok.inj hr'
      exact .pure <| .inr ⟨rfl, ht _ hw (.inl (by simp [hd]))⟩
  · rintro e u (⟨hd, _⟩ | ⟨_, _, _, _, _, _, hr', _⟩)
    · exact .inl hd
    · cases hr'

section update

-- What `update_tuple` makes of the page of a live tuple.
inductive TriedUpdate (v : PageView) (i : ℕ) (bytes : List UInt8) (rid : RID) : Option (Option RID) → PageView → Prop
  | dead    : v.slots i = none → TriedUpdate v i bytes rid (some none) v
  | rebound : v.slots i ≠ none → TriedUpdate v i bytes rid (some (some rid)) (v.bind i bytes)
  | deleted : v.slots i ≠ none → TriedUpdate v i bytes rid none (v.unbind i)

theorem bind_unbind_bind {v : PageView} : (v.unbind i).bind i bytes = v.bind i bytes := by
  ext1 <;> simp [PageView.bind, PageView.unbind]

theorem tryUpdate_tried (rid : RID) {page : SlottedPage} (hp : page.Holds v) (hl : bytes.length < 65536) :
    ∃ result page' dirty w, tryUpdate rid bytes rid.pageId page = (result, page', dirty) ∧ page'.Holds w ∧
      TriedUpdate v rid.slotNum bytes rid result w ∧ (dirty = true ∨ w = v) := by
  by_cases hs : v.slots rid.slotNum = none
  case pos =>
    have hh : page.hasSlot rid.slotNum = false := Bool.eq_false_iff.mpr fun hh => hp.hasSlot_iff.mp hh hs
    refine ⟨some none, page, false, v, ?_, hp, .dead hs, .inr rfl⟩
    simp only [tryUpdate, hh, Bool.not_false, if_true]
  case neg =>
    have hh : page.hasSlot rid.slotNum = true := hp.hasSlot_iff.mpr hs
    simp only [tryUpdate, hh, Bool.not_true, Bool.false_eq_true, if_false]
    match hu : page.tryUpdateInPlace rid bytes with
    | (true,  q) => exact ⟨_, _, _, _, rfl, (hp.tryUpdateInPlace hl hu).2, .rebound hs, .inl rfl⟩
    | (false, q) =>
      obtain rfl := SlottedPage.tryUpdateInPlace_false hu
      match hd : q.deleteTuple rid.slotNum with
      | (false, r) => exact absurd (hp.live_iff.mpr hs) (SlottedPage.deleteTuple_false hd).1
      | (true,  r) =>
        have hw := (hp.deleteTuple hd).2
        have hc : (if r.isCompacted then r else r.compact).Holds (v.unbind rid.slotNum) := by
          split
          case isTrue  => exact hw
          case isFalse => exact hw.compact
        simp only [hd]
        generalize (if r.isCompacted then r else r.compact) = c at hc ⊢
        match hi : c.insertTuple bytes (some rid.slotNum) with
        | (none,      c') => exact ⟨_, _, _, _, rfl, SlottedPage.insertTuple_none hi ▸ hc, .deleted hs, .inl rfl⟩
        | (some rid', c') =>
          obtain ⟨b, hb⟩ := Option.ne_none_iff_exists'.mp hs
          have he := hc.insertTuple_prefered hl (hp.lt_of_bound hb) PageView.unbind_slots_self hi
          have hx := (hc.insertTuple hl hi).2.2
          rw [he, bind_unbind_bind] at hx
          exact ⟨some (some rid), c', true, _, by simp only [he], hx, .rebound hs, .inl rfl⟩

-- How an update ends: the tuple is dead, its slot has the new bytes, or the new bytes are elsewhere.
inductive Updated (pins : List Pin) (views : Views) (ps : List PageID) (rid : RID) (bytes : List UInt8) (v : PageView) :
    Option RID → Views → List PageID → Prop
  | dead    : v.slots rid.slotNum = none → Updated pins views ps rid bytes v none views ps
  | rebound : v.slots rid.slotNum ≠ none → Updated pins views ps rid bytes v (some rid)
    (Function.update views rid.pageId (some (v.bind rid.slotNum bytes))) ps
  | moved   : v.slots rid.slotNum ≠ none →
    Placed pins (Function.update views rid.pageId (some (v.unbind rid.slotNum))) ps bytes placed after chain →
    Updated pins views ps rid bytes v (some placed) after chain

-- A tuple that no page can take, and whose page cannot take it either, is lost.
theorem updateTuple_throws_or (hs : s.Shows pins views) (hl : Linked views h.firstPageId ps)
    (hp : h.firstPageId ≠ invalidPageID) (hn : ∀ q ∈ ps, pinsOn pins q + 1 < 4294967296)
    (hm : rid.pageId ∈ ps) (hv : views rid.pageId = some v) (hb : bytes.length < 65536) :
    (h.updateTuple rid bytes).Ends s fun result t => t.Unless <|
      (8180 < bytes.length ∧ v.slots rid.slotNum ≠ none ∧ (∃ e, result = .error e) ∧
        t.Shows pins (Function.update views rid.pageId (some (v.unbind rid.slotNum)))) ∨
      ∃ result' views' ps', result = .ok result' ∧ t.Shows pins views' ∧
        Updated pins views ps rid bytes v result' views' ps' := by
  refine (onPage_shows hs hv (hn _ hm)).bind ?_ ?_
  · rintro a t (⟨hd, hm⟩ | ⟨page, hpage, a', page', dirty, hbody, hr, ht⟩)
    · obtain rfl := hm a rfl
      exact .pure <| .inl hd
    · obtain rfl := Except.ok.inj hr
      have ⟨result', page'', dirty', w, he, hw, hx, hc⟩ := tryUpdate_tried rid hpage hb
      obtain ⟨rfl, rfl, rfl⟩ : a = result' ∧ page' = page'' ∧ dirty = dirty' := by
        have he := hbody.symm.trans he
        simpa only [Prod.mk.injEq] using he
      have ht := ht w hw (hc.imp_left fun hc => by simp [hc])
      cases hx
      case dead hf    =>
        rw [Function.update_eq_self_iff.mpr hv.symm] at ht
        exact .pure <| .inr <| .inr ⟨_, _, _, rfl, ht, .dead hf⟩
      case rebound hf => exact .pure <| .inr <| .inr ⟨_, _, _, rfl, ht, .rebound hf⟩
      case deleted hf =>
        by_cases hc : bytes.length ≤ 8180
        case pos =>
          refine (insertTuple_ends ht (hl.setView hv rfl) hp hn hc).mono fun {result u} h => h.imp_right ?_
          rintro ⟨rid', views', ps', hr, hu, hx⟩
          exact .inr ⟨_, _, _, hr, hu, .moved hf hx⟩
        case neg =>
          have hc' : kPageSize - 8 - 4 < bytes.length := by
            rw [kPageSize_eq]
            omega
          simp only [insertTuple, if_pos hc']
          exact .throw <| .inr <| .inl ⟨by omega, hf, ⟨_, rfl⟩, ht⟩
  · rintro e t (⟨hd, _⟩ | ⟨_, _, _, _, _, _, hr, _⟩)
    · exact .inl hd
    · cases hr

theorem updateTuple_ends (hs : s.Shows pins views) (hl : Linked views h.firstPageId ps)
    (hp : h.firstPageId ≠ invalidPageID) (hn : ∀ q ∈ ps, pinsOn pins q + 1 < 4294967296)
    (hm : rid.pageId ∈ ps) (hv : views rid.pageId = some v) (hb : bytes.length ≤ 8180) :
    (h.updateTuple rid bytes).Ends s fun result t => t.Unless <| ∃ result' views' ps',
      result = .ok result' ∧ t.Shows pins views' ∧ Updated pins views ps rid bytes v result' views' ps' :=
  (updateTuple_throws_or hs hl hp hn hm hv (by omega)).mono fun h => h.imp_right fun h =>
    h.resolve_left fun h => by omega

end update

end Duck.TableHeap
