import Duck.Table.Theorems.TableHeap.Denied
import Duck.Table.Theorems.TableHeap.Drop

namespace Duck

open Pager

variable {s t : Pager} {owned : List PageID} {pins : List Pin} {views : Views} {p q : PageID} {ps acc : List PageID}
variable {S : PageID → PageData → Prop} {h : TableHeap} {v : PageView} {rid : RID} {bytes : List UInt8} {n : ℕ}

theorem Pager.Shows.refused (hs : s.Shows pins views) : (Pager.forgiven ⟨s.pool, true⟩).Shows pins views :=
  (show Pager.forgiven ⟨s.pool, true⟩ = s.forgiven from rfl) ▸ hs.forgiven.symm ▸ hs

namespace TableHeap

theorem create_online (hk : s.Keeps owned pins S) (hr : s.Ready) : create.Ends s fun result t => s.allocated.Steady t ∧
    (∀ h, result = .ok h → h.firstPageId = s.pool.disk.allocatePage.1) ∧
    (t.denied = true → (∃ e, result = .error e) ∧ t.Refused pins.length ∧ t.forgiven.Keeps owned pins S) := by
  refine (hk.newPage_ready hr).bind ?_ ?_
  · rintro a t ⟨ho, ⟨hx, hc, ht⟩ | ⟨f, p, hx, hp, -, -, ht, -⟩⟩
    · obtain rfl := Except.ok.inj hx
      exact .throw ⟨ho, fun _ he => absurd he Except.error_ne_ok, fun _ => ⟨⟨_, rfl⟩, hc, ht⟩⟩
    · obtain rfl := Except.ok.inj hx
      have hd := ht.granted
      have hid : (t.pool.frames f).pageId = p := ht.pageId List.mem_cons_self
      have hu {u : Pager} {dirty : Bool} (hu : u.pool.disk = t.pool.disk ∧ u.denied = false) :
          s.allocated.Steady (unpin f dirty u) ∧ ¬(unpin f dirty u).denied = true :=
        ⟨ho.trans <| .of_disk <| unpin_disk.trans hu.1, fun hx => absurd (hu.2.symm.trans hx) (by decide)⟩
      refine pinned_ends (R := fun result u => (∀ x, result = .ok x → x.1.firstPageId = s.pool.disk.allocatePage.1) ∧
        u.pool.disk = t.pool.disk ∧ u.denied = false) (ends_slotted <| ends_put <| ends_pageId <| .pure ⟨?_, rfl, hd⟩) ?_ ?_
      · rintro _ ⟨rfl⟩
        simp only [write, PoolManager.setFrame, Function.update_self, hid, hp]
      · rintro h dirty u ⟨hh, hx⟩
        refine ⟨(hu hx).1, ?_, fun hd => absurd hd (hu hx).2⟩
        rintro _ ⟨rfl⟩
        exact hh _ rfl
      · exact fun hx => ⟨(hu hx.2).1, fun _ he => absurd he Except.error_ne_ok, fun hd => absurd hd (hu hx.2).2⟩
  · rintro e t ⟨ho, ⟨hx, -⟩ | ⟨_, _, hx, -⟩⟩ <;> cases hx

-- A heap is made, or nothing.
theorem create_ready (hs : s.Shows pins views) (hr : s.Ready) : create.Ends s fun result t => s.allocated.Steady t ∧
    ((∃ p, result = .ok ⟨p⟩ ∧ p = s.pool.disk.allocatePage.1 ∧ views p = none ∧ p ≠ invalidPageID ∧ pinsOn pins p = 0 ∧
        t.Shows pins (Function.update views p (some .empty))) ∨
      (∃ e, result = .error e) ∧ t.Refused pins.length ∧ t.forgiven.Shows pins views) := by
  have ⟨owned, hk, ho⟩ := hs
  refine ((create_shows hs).and (create_online hk hr)).mono ?_
  rintro result t ⟨hd | ⟨p, hx, hu⟩, hon, hp, hx'⟩
  · obtain ⟨he, hc, hu⟩ := hx' hd
    exact ⟨hon, .inr ⟨he, hc, owned, hu, ho⟩⟩
  · exact ⟨hon, .inl ⟨p, hx, hp _ hx, hu⟩⟩

theorem getTuple_online (hs : s.Shows pins views) (ho : s.Online) (hv : views rid.pageId = some v)
    (hn : pinsOn pins rid.pageId + 1 < 4294967296) : (h.getTuple rid).Ends s fun result t => s.Steady t ∧
      ((result = .ok ((v.slots rid.slotNum).filter (· ≠ [])) ∧ t.Shows pins views) ∨
        result = .ok none ∧ t.Refused pins.length ∧ t.forgiven.Shows pins views) := by
  obtain ⟨owned, hk, hown⟩ := id hs
  refine ((getTuple_ends hs hv hn).and (onPage_online hk ho (hown _ v hv) hn)).mono ?_
  rintro result t ⟨⟨hd, -⟩ | hx, hst, hx'⟩
  · obtain ⟨rfl, rfl, hd⟩ := hx' hd
    exact ⟨hst, .inr ⟨rfl, hd, hs.refused⟩⟩
  · exact ⟨hst, .inl hx⟩

theorem deleteTuple_online (hs : s.Shows pins views) (ho : s.Online) (hv : views rid.pageId = some v)
    (hn : pinsOn pins rid.pageId + 1 < 4294967296) : (h.deleteTuple rid).Ends s fun result t => t.Online ∧
      ((result = .ok (v.slots rid.slotNum).isSome ∧
          t.Shows pins (Function.update views rid.pageId (some (v.unbind rid.slotNum)))) ∨
        result = .ok false ∧ t.Refused pins.length ∧ t.forgiven.Shows pins views) := by
  obtain ⟨owned, hk, hown⟩ := id hs
  refine ((deleteTuple_ends hs hv hn).and (onPage_online hk ho (hown _ v hv) hn)).mono ?_
  rintro result t ⟨⟨hd, -⟩ | hx, hst, hx'⟩
  · obtain ⟨rfl, rfl, hd⟩ := hx' hd
    exact ⟨hst.online ho, .inr ⟨rfl, hd, hs.refused⟩⟩
  · exact ⟨hst.online ho, .inl hx⟩

-- What is too long is refused before a page is looked at.
theorem insertTuple_ready (hs : s.Shows pins views) (hr : s.Ready) (hl : Linked views h.firstPageId ps)
    (hp : h.firstPageId ≠ invalidPageID) (hn : ∀ q ∈ ps, pinsOn pins q + 1 < 4294967296) :
    (h.insertTuple bytes).Ends s fun result t => t.Online ∧
      ((8180 < bytes.length ∧ (∃ e, result = .error e) ∧ t = s) ∨
        (bytes.length ≤ 8180 ∧ Inserted pins views ps bytes result t)) := by
  by_cases hb : bytes.length ≤ 8180
  case pos =>
    rw [insertTuple, if_neg (by rw [kPageSize_eq]; omega)]
    exact (insertFrom_ready hs hr hl hp hn hb).mono fun hx => hx.imp_right fun hx => .inr ⟨hb, hx⟩
  case neg =>
    rw [insertTuple, if_pos (by rw [kPageSize_eq]; omega)]
    exact .throw ⟨hr.online, .inl ⟨by omega, ⟨_, rfl⟩, rfl⟩⟩

section update

-- How an update ends. A tuple that has to leave its page is taken away before it is inserted elsewhere, and is lost
-- when it cannot be.
inductive UpdateEnds (pins : List Pin) (views : Views) (ps : List PageID) (rid : RID) (bytes : List UInt8) (v : PageView) :
    Except String (Option RID) → Pager → Prop
  | ended     : (u.Shows pins views') → (Updated pins views ps rid bytes v rid' views' ps') →
    UpdateEnds pins views ps rid bytes v (.ok rid') u
  | untouched : u.Refused (pins.length + 1) → (u.forgiven.Shows pins views) → UpdateEnds pins views ps rid bytes v (.ok none) u
  | lost      : (v.slots rid.slotNum ≠ none) →
    (8180 < bytes.length ∧ u.denied = false ∨ u.Refused (pins.length + 1)) → (∀ rid', result ≠ .ok (some rid')) →
    (u.forgiven.Shows pins views') →
    (Extended pins (Function.update views rid.pageId (some (v.unbind rid.slotNum))) ps views' ps') →
    UpdateEnds pins views ps rid bytes v result u

theorem updateTuple_ready (hs : s.Shows pins views) (hr : s.Ready) (hl : Linked views h.firstPageId ps)
    (hp : h.firstPageId ≠ invalidPageID) (hn : ∀ q ∈ ps, pinsOn pins q + 1 < 4294967296)
    (hm : rid.pageId ∈ ps) (hv : views rid.pageId = some v) (hb : bytes.length < 65536) :
    (h.updateTuple rid bytes).Ends s fun result t => t.Online ∧ UpdateEnds pins views ps rid bytes v result t := by
  obtain ⟨owned, hk, hown⟩ := id hs
  refine ((onPage_shows hs hv (hn _ hm)).and (onPage_online hk hr.online (hown _ v hv) (hn _ hm))).bind ?_ ?_
  · rintro a t ⟨⟨hd, -⟩ | ⟨page, hpage, a', page', dirty, hbody, ha, ht⟩, hst, hdenied⟩
    · obtain ⟨ha, rfl, hd⟩ := hdenied hd
      obtain rfl := Except.ok.inj ha
      exact .pure ⟨hr.online, .untouched (hd.mono <| Nat.le_succ _) hs.refused⟩
    · obtain rfl := Except.ok.inj ha
      obtain ⟨result', page'', dirty', w, he, hw, hx, hc⟩ := tryUpdate_tried rid hpage hb
      obtain ⟨rfl, rfl, rfl⟩ : a = result' ∧ page' = page'' ∧ dirty = dirty' := by
        have he := hbody.symm.trans he
        simpa only [Prod.mk.injEq] using he
      have ht := ht w hw (hc.imp_left fun hc => by simp [hc])
      cases hx
      case dead hf    =>
        rw [Function.update_eq_self_iff.mpr hv.symm] at ht
        exact .pure ⟨hst.online hr.online, .ended ht (.dead hf)⟩
      case rebound hf => exact .pure ⟨hst.online hr.online, .ended ht (.rebound hf)⟩
      case deleted hf =>
        refine (insertTuple_ready ht (hst.ready hr) (hl.setView hv rfl) hp hn).mono ?_
        rintro result u ⟨hon, ⟨hlen, ⟨e, rfl⟩, rfl⟩ | ⟨-, ⟨hu, hplaced⟩ | ⟨hd, hres, hu, hext⟩⟩⟩
        · exact ⟨hon, .lost hf (.inl ⟨hlen, ht.denied⟩) (fun _ hx => absurd hx Except.error_ne_ok) (ht.forgiven.symm ▸ ht) .same⟩
        · exact ⟨hon, .ended hu (.moved hf hplaced)⟩
        · exact ⟨hon, .lost hf (.inr hd) hres hu hext⟩
  · rintro e t ⟨⟨hd, -⟩ | ⟨_, _, _, _, _, _, hx, _⟩, -, hdenied⟩
    · cases (hdenied hd).1
    · cases hx

end update

section drop

-- The walk of `all_pages` changes nothing.
theorem collectPages_online (hk : s.Keeps owned pins S) (hon : s.Online) (hS : ∀ q d, S q d → views.Shown q d)
    (ho : ∀ p v, views p = some v → p ∈ owned) (hl : Linked views p ps) (hp : p ≠ invalidPageID)
    (hn : ∀ q ∈ ps, pinsOn pins q + 1 < 4294967296) : (collectPages p acc).Ends s fun result t => s.Steady t ∧
      ((result = .ok (acc ++ ps, .success) ∧ t.Keeps owned pins S) ∨
        (∃ found, result = .ok (found, .failed)) ∧ t.Refused pins.length ∧ t.forgiven.Keeps owned pins S) := by
  induction hl generalizing s acc
  case nil => exact absurd rfl hp
  case cons p v ps hv hi hnp hl ih =>
    rw [collectPages, Program.loop_eq]
    refine .bind (R := fun result t => s.Steady t ∧
      ((result = .ok (if v.nextPage = invalidPageID then .inr (acc ++ [p], .success) else .inl (v.nextPage, acc ++ [p])) ∧
        t.Keeps owned pins S) ∨
        result = .ok (.inr (acc, .failed)) ∧ t.Refused pins.length ∧ t.forgiven.Keeps owned pins S)) ?_ ?_ ?_
    · refine (hk.fetchPage_online hon (ho p v hv) (hn p List.mem_cons_self)).bind ?_ ?_
      · rintro a t (⟨hx, rfl, hd⟩ | ⟨f, hx, ht, -, hst⟩)
        · obtain rfl := Except.ok.inj hx
          refine .pure ⟨.of_disk rfl, .inr ⟨rfl, hd, ?_⟩⟩
          exact (show Pager.forgiven ⟨s.pool, true⟩ = s from hk.forgiven) ▸ hk
        · obtain rfl := Except.ok.inj hx
          have hholds := hS _ _ (ht.data List.mem_cons_self) v hv
          refine .bind (R := fun result u => result = .ok v.nextPage ∧ u = unpin f false t) ?_ ?_ ?_
          · refine pinned_ends (R := fun result u => result = .ok (v.nextPage, false) ∧ u = t) ?_ ?_ ?_
            · exact ends_slotted <| .pure ⟨by rw [hholds.nextPage_eq], rfl⟩
            · rintro a dirty u ⟨hx, rfl⟩
              obtain ⟨rfl, rfl⟩ := Prod.mk.inj <| Except.ok.inj hx
              exact ⟨rfl, rfl⟩
            · exact fun hx => absurd hx.1 Except.error_ne_ok
          · rintro a u ⟨hx, rfl⟩
            obtain rfl := Except.ok.inj hx
            have hu : (unpin f false t).Keeps owned pins S := Keeps.unpin (show Keeps _ _ ([] ++ _ :: pins) _ from ht)
            have hst' : s.Steady (unpin f false t) := hst.trans <| .of_disk unpin_disk
            by_cases hx : v.nextPage = invalidPageID
            case pos =>
              simp only [hx, if_true]
              exact .pure ⟨hst', .inl ⟨rfl, hu⟩⟩
            case neg =>
              simp only [hx, if_false]
              exact .pure ⟨hst', .inl ⟨rfl, hu⟩⟩
          · exact fun hx => absurd hx.1 Except.error_ne_ok
      · rintro e t (⟨hx, -⟩ | ⟨_, hx, -⟩) <;> cases hx
    · rintro (next | x) t ⟨hst, ⟨hx, ht⟩ | ⟨hx, hd, ht⟩⟩
      · split at hx
        case isTrue  => cases hx
        case isFalse hnext =>
          obtain rfl := Sum.inl.inj <| Except.ok.inj hx
          refine Program.Ends.mono (ih ht (hst.online hon) hnext fun q hq => hn q (List.mem_cons_of_mem _ hq)) ?_
          rintro result u ⟨hst', hu⟩
          rw [List.append_assoc] at hu
          exact ⟨hst.trans hst', hu⟩
      · cases hx
      · split at hx
        case isFalse => cases hx
        case isTrue hnext =>
          obtain rfl := Sum.inr.inj <| Except.ok.inj hx
          rw [hnext] at hl
          obtain rfl := hl.nil_of_invalid
          exact .pure ⟨hst, .inl ⟨rfl, ht⟩⟩
      · obtain rfl := Sum.inr.inj <| Except.ok.inj hx
        exact .pure ⟨hst, .inr ⟨⟨_, rfl⟩, hd, ht⟩⟩
    · rintro e t ⟨-, ⟨hx, -⟩ | ⟨hx, -⟩⟩ <;> cases hx

theorem dropAll_online (hon : s.Online) :
    (ps.foldlM (fun failed p => do return if ← h.dropPage p then failed else failed + 1) n : PagerM ℕ).Ends s fun _ t =>
      t.Online := by
  induction ps generalizing s n
  case nil          => exact .pure hon
  case cons p ps ih =>
    rw [List.foldlM_cons]
    refine .bind (R := fun _ t => t.Online) ?_ (fun hon => ih hon) id
    refine .bind (R := fun _ t => t.Online) (.call ?_) (fun hon => .pure hon) id
    exact PoolManager.deletePage_online hon

end drop

end TableHeap

-- The other pages.
def Views.without (views : Views) (ps : List PageID) : Views :=
  fun p => if p ∈ ps then none else views p

theorem Views.without_of_mem (hp : p ∈ ps) : views.without ps p = none :=
  if_pos hp

theorem Views.without_of_not_mem (hp : p ∉ ps) : views.without ps p = views p :=
  if_neg hp

namespace Table

variable {table : Table}

-- A heap is dropped, or nothing happens.
theorem dropPages_online (hs : s.Shows pins views) (hon : s.Online) (hl : Linked views table.heap.firstPageId ps)
    (hp : table.heap.firstPageId ≠ invalidPageID) (hn : ∀ q ∈ ps, pinsOn pins q + 1 < 4294967296) :
    table.dropPages.Ends s fun result u => u.Online ∧
      ((∃ failed, result = .ok (failed, .success) ∧ u.Shows pins (views.without ps)) ∨
        result = .ok (0, .readPagesFailed) ∧ u.Refused pins.length ∧ u.forgiven.Shows pins views) := by
  obtain ⟨owned, hk, ho⟩ := hs
  refine (TableHeap.collectPages_online hk hon (fun _ _ => id) ho hl hp hn).bind ?_ ?_
  · rintro ⟨pages, status⟩ u ⟨hst, ⟨hr, hu⟩ | ⟨⟨found, hr⟩, hd, hu⟩⟩
    · obtain ⟨hpages, rfl⟩ := Prod.mk.inj <| Except.ok.inj hr
      rw [hpages, List.nil_append]
      have hmem {q} (hq : q ∈ ps) : q ∈ owned := by
        obtain ⟨v, hv⟩ := hl.view hq
        exact ho q v hv
      refine ((TableHeap.dropAll_ends hu hl.nodup fun q hq => hmem hq).and (TableHeap.dropAll_online (hst.online hon))).bind ?_
        fun hx => absurd hx.1.1 Except.error_ne_ok
      rintro failed w ⟨⟨hf, -, owned', hw, ho'⟩, hwon⟩
      obtain rfl := Except.ok.inj hf
      refine .pure ⟨hwon, .inl ⟨_, rfl, owned', hw.mono fun {q d} _ hd v hv => ?_, fun q v hv => ?_⟩⟩
      all_goals
        have hq : q ∉ ps := by
          intro hq
          cases (Views.without_of_mem hq).symm.trans hv
        rw [Views.without_of_not_mem hq] at hv
      · exact hd v hv
      · exact ho' q (ho q v hv) fun hm => absurd hm hq
    · obtain ⟨rfl, rfl⟩ := Prod.mk.inj <| Except.ok.inj hr
      exact .pure ⟨hst.online hon, .inr ⟨rfl, hd, owned, hu, ho⟩⟩
  · rintro e u ⟨-, ⟨hx, -⟩ | ⟨⟨_, hx⟩, -⟩⟩ <;> cases hx

end Table
end Duck
