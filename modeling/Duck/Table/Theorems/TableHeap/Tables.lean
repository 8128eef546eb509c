import Duck.Table.TableMaps
import Duck.Table.Theorems.TableHeap.Map

namespace Duck

variable {heaps : List TableHeap} {h h' : TableHeap} {s t : Pager} {pins : List Pin} {views views' : Views} {v w : PageView}
variable {chains : TableHeap → List PageID} {maps : TableMaps} {ps : List PageID} {p q : PageID} {bytes : List UInt8}
variable {m : HeapMap}

theorem contents_congr (hv : ∀ q ∈ ps, views' q = views q) : contents views' ps = contents views ps := by
  funext rid
  by_cases hr : rid.pageId ∈ ps
  case neg => rw [contents_of_not_mem hr, contents_of_not_mem hr]
  case pos => simp only [contents, hr, if_true, hv _ hr]

section unique

variable {pins' : List Pin} {ps' : List PageID}

theorem Linked.unique (hs : s.Shows pins views) (hs' : s.Shows pins' views') (hl : Linked views p ps)
    (hl' : Linked views' p ps') : ps' = ps := by
  induction hl generalizing ps'
  case nil                      => exact hl'.nil_of_invalid
  case cons p v ps hv hi _ _ ih =>
    obtain ⟨qs, rfl⟩ := hl'.head hi
    cases hl'
    case cons v' hv' _ hl' _ =>
      obtain rfl : v' = v := (hs'.bytesOf hv').view.symm.trans (hs.bytesOf hv).view
      rw [ih hl']

-- The pages say which tuples a heap has.
theorem contents_unique (hs : s.Shows pins views) (hs' : s.Shows pins' views') (hl : Linked views p ps)
    (hl' : Linked views' p ps') : contents views' ps' = contents views ps := by
  obtain rfl := hl.unique hs hs' hl'
  funext rid
  by_cases hr : rid.pageId ∈ ps'
  case neg => rw [contents_of_not_mem hr, contents_of_not_mem hr]
  case pos =>
    obtain ⟨v, hv⟩ := hl.view hr
    obtain ⟨v', hv'⟩ := hl'.view hr
    obtain rfl : v' = v := (hs'.bytesOf hv').view.symm.trans (hs.bytesOf hv).view
    rw [contents_of_mem hr hv, contents_of_mem hr hv']

end unique

-- The heaps of a database, each on a chain of its own, have the tuples of their maps.
structure Tables (heaps : List TableHeap) (pins : List Pin) (views : Views) (chains : TableHeap → List PageID)
    (maps : TableMaps) : Prop where
  linked   : ∀ h ∈ heaps, Linked views h.firstPageId (chains h)
  valid    : ∀ h ∈ heaps, h.firstPageId ≠ invalidPageID
  unpinned : ∀ h ∈ heaps, ∀ q ∈ chains h, pinsOn pins q = 0
  apart    : ∀ h ∈ heaps, ∀ h' ∈ heaps, h ≠ h' → (chains h).Disjoint (chains h')
  maps     : ∀ h ∈ heaps, contents views (chains h) = maps h

namespace Tables

theorem room (ht : Tables heaps pins views chains maps) (hh : h ∈ heaps) (hq : q ∈ chains h) :
    pinsOn pins q + 1 < 4294967296 := by
  rw [ht.unpinned h hh q hq]
  decide

theorem mem_of_has (ht : Tables heaps pins views chains maps) (hs : s.Shows pins views) (hh : h ∈ heaps)
    (hp : h.Has s p) : p ∈ chains h := by
  induction hp
  case first      => exact (ht.linked h hh).first_mem (ht.valid h hh)
  case next hn ih =>
    obtain ⟨v, hv⟩ := (ht.linked h hh).view ih
    rw [(hs.bytesOf hv).nextPage_eq] at hn ⊢
    exact (ht.linked h hh).next_mem ih hv hn

theorem maps_eq (ht : Tables heaps pins views chains maps) (hh : h ∈ heaps) (hp : rid.pageId ∈ chains h)
    (hv : views rid.pageId = some v) : maps h rid = v.slots rid.slotNum :=
  ht.maps h hh ▸ contents_of_mem hp hv

theorem mem_of_bound (ht : Tables heaps pins views chains maps) (hh : h ∈ heaps) (hb : maps h rid = some bytes) :
    rid.pageId ∈ chains h := by
  by_contra hp
  rw [←ht.maps h hh, contents_of_not_mem hp] at hb
  cases hb

-- One of the chains changes, and takes only new pages.
theorem change (ht : Tables heaps pins views chains maps) (hh : h ∈ heaps) (hl : Linked views' h.firstPageId ps)
    (hg : ∀ q ∈ ps, q ∈ chains h ∨ views q = none ∧ pinsOn pins q = 0) (hf : ∀ q ∉ ps, views' q = views q)
    (hm : contents views' ps = m) :
    Tables heaps pins views' (Function.update chains h ps) (Function.update maps h m) := by
  have hout {h'} (hh' : h' ∈ heaps) (hne : h' ≠ h) {q} (hq : q ∈ chains h') : q ∉ ps := by
    intro hqp
    obtain hqh | ⟨hn, _⟩ := hg q hqp
    · exact ht.apart h' hh' h hh hne hq hqh
    · exact (ht.linked h' hh').not_mem hn hq
  constructor
  case linked   =>
    intro h' hh'
    by_cases hne : h' = h
    case pos => rwa [hne, Function.update_self]
    case neg =>
      rw [Function.update_of_ne hne]
      exact (ht.linked h' hh').congr fun q hq => hf q <| hout hh' hne hq
  case valid    => exact ht.valid
  case unpinned =>
    intro h' hh' q hq
    by_cases hne : h' = h
    case pos =>
      rw [hne, Function.update_self] at hq
      exact (hg q hq).elim (ht.unpinned h hh q) And.right
    case neg =>
      rw [Function.update_of_ne hne] at hq
      exact ht.unpinned h' hh' q hq
  case apart    =>
    intro h₁ hh₁ h₂ hh₂ hne q hq₁ hq₂
    by_cases h₁h : h₁ = h <;> by_cases h₂h : h₂ = h
    · exact hne <| h₁h.trans h₂h.symm
    · rw [h₁h, Function.update_self] at hq₁
      rw [Function.update_of_ne h₂h] at hq₂
      exact hout hh₂ h₂h hq₂ hq₁
    · rw [Function.update_of_ne h₁h] at hq₁
      rw [h₂h, Function.update_self] at hq₂
      exact hout hh₁ h₁h hq₁ hq₂
    · rw [Function.update_of_ne h₁h] at hq₁
      rw [Function.update_of_ne h₂h] at hq₂
      exact ht.apart h₁ hh₁ h₂ hh₂ hne hq₁ hq₂
  case maps     =>
    intro h' hh'
    by_cases hne : h' = h
    case pos => rw [hne, Function.update_self, Function.update_self, hm]
    case neg =>
      rw [Function.update_of_ne hne, Function.update_of_ne hne, ←ht.maps h' hh']
      exact contents_congr fun q hq => hf q <| hout hh' hne hq

-- One slot of a page changes.
theorem setView (ht : Tables heaps pins views chains maps) (hh : h ∈ heaps) (hp : rid.pageId ∈ chains h)
    (hv : views rid.pageId = some v) (hn : w.nextPage = v.nextPage)
    (hw : w.slots = Function.update v.slots rid.slotNum tuple) :
    Tables heaps pins (Function.update views rid.pageId (some w)) chains (maps.set h rid tuple) := by
  have hc := ht.change hh ((ht.linked h hh).setView hv hn) (fun q hq => .inl hq) (fun q hq => ?_)
    (contents_setView hp hv hw)
  · rwa [Function.update_eq_self, ht.maps h hh] at hc
  · have hne : q ≠ rid.pageId := by
      rintro rfl
      exact hq hp
    rw [Function.update_of_ne hne]

theorem placed (ht : Tables heaps pins views chains maps) (hh : h ∈ heaps)
    (hx : Placed pins views (chains h) bytes rid views' ps) : maps h rid = none ∧
      Tables heaps pins views' (Function.update chains h ps) (maps.set h rid (some bytes)) := by
  have hl := ht.linked h hh
  refine ⟨ht.maps h hh ▸ hx.free hl, ?_⟩
  have hc := ht.change hh (hx.linked hl) (fun q hq => hx.grows hq) (fun q hq => hx.frame hq) (hx.contents hl)
  rwa [ht.maps h hh] at hc

end Tables

-- Where a record finds its slot.
def UndoRecord.Placed (heaps : List TableHeap) (views : Views) (chains : TableHeap → List PageID) : UndoRecord → Prop
  | delete h rid        => h ∈ heaps ∧ rid.pageId ∈ chains h
  | restore h rid tuple => h ∈ heaps ∧ rid.pageId ∈ chains h ∧ tuple.length < 65536 ∧
    ∃ v, views rid.pageId = some v ∧ rid.slotNum < v.slotCount

-- Pages get no fewer slots, and the chains no fewer pages.
structure Grows (views : Views) (chains : TableHeap → List PageID) (views' : Views)
    (chains' : TableHeap → List PageID) : Prop where
  views  : ∀ p v, views p = some v → ∃ v', views' p = some v' ∧ v.slotCount ≤ v'.slotCount
  chains : ∀ h, ∀ q ∈ chains h, q ∈ chains' h

namespace Grows

theorem record {chains' : TableHeap → List PageID} {r : UndoRecord} (hg : Grows views chains views' chains')
    (hr : r.Placed heaps views chains) : r.Placed heaps views' chains' := by
  cases r
  case delete h rid        => exact ⟨hr.1, hg.chains h _ hr.2⟩
  case restore h rid tuple =>
    obtain ⟨hh, hp, hl, v, hv, hi⟩ := hr
    obtain ⟨v', hv', hc⟩ := hg.views _ v hv
    exact ⟨hh, hg.chains h _ hp, hl, v', hv', hi.trans_le hc⟩

theorem setView (hv : views p = some v) (hc : v.slotCount ≤ w.slotCount) :
    Grows views chains (Function.update views p (some w)) chains where
  views q u hu := by
    by_cases hq : q = p
    case neg => exact ⟨u, by rwa [Function.update_of_ne hq], le_rfl⟩
    case pos =>
      subst hq
      obtain rfl := Option.some.inj <| hv.symm.trans hu
      exact ⟨w, Function.update_self .., hc⟩
  chains _ _ hq := hq

theorem placed (hx : Placed pins views (chains h) bytes rid views' ps) :
    Grows views chains views' (Function.update chains h ps) := by
  cases hx
  case existing page view slot hm hv hs hc         =>
    rw [Function.update_eq_self]
    exact setView hv <| le_max_left ..
  case appended init last view next he hv hn hi hp =>
    constructor
    case views  =>
      intro q u hu
      have hq : q ≠ next := by
        rintro rfl
        cases hn.symm.trans hu
      rw [Function.update_of_ne hq]
      by_cases hl : q = last
      case neg => exact ⟨u, by rwa [Function.update_of_ne hl], le_rfl⟩
      case pos =>
        subst hl
        obtain rfl := Option.some.inj <| hv.symm.trans hu
        exact ⟨_, Function.update_self .., le_rfl⟩
    case chains =>
      intro h' q hq
      by_cases hh : h' = h
      case neg => rwa [Function.update_of_ne hh]
      case pos =>
        subst hh
        rw [Function.update_self]
        exact List.mem_append_left _ hq

end Grows

-- The heaps have the tuples of the maps, and every record finds its slot.
def Tracks (heaps : List TableHeap) (pins : List Pin) (log : List UndoRecord) (s : Pager) (maps : TableMaps) : Prop :=
  ∃ views chains, s.Shows pins views ∧ Tables heaps pins views chains maps ∧ ∀ r ∈ log, r.Placed heaps views chains

namespace Tracks

variable {log records : List UndoRecord} {rid : RID} {tuple : List UInt8}

theorem intro {chains' : TableHeap → List PageID} (hs : s.Shows pins views') (ht : Tables heaps pins views' chains' maps)
    (hg : Grows views chains views' chains') (hr : ∀ r ∈ log, r.Placed heaps views chains) :
    Tracks heaps pins log s maps :=
  ⟨views', chains', hs, ht, fun r hm => hg.record <| hr r hm⟩

theorem mono (ht : Tracks heaps pins log s maps) (hl : records ⊆ log) : Tracks heaps pins records s maps :=
  have ⟨views, chains, hs, ht, hr⟩ := ht
  ⟨views, chains, hs, ht, fun r hm => hr r <| hl hm⟩

-- A page that is reached stays on its chain.
theorem page (ht : Tracks heaps pins log s maps) (hh : h ∈ heaps) (hp : h.Has s rid.pageId) :
    Tracks heaps pins (.delete h rid :: log) s maps := by
  obtain ⟨views, chains, hs, ht, hr⟩ := ht
  refine ⟨views, chains, hs, ht, fun r hm => ?_⟩
  obtain rfl | hm := List.mem_cons.mp hm
  · exact ⟨hh, ht.mem_of_has hs hh hp⟩
  · exact hr r hm

-- A tuple has a slot, which it can be restored to.
theorem slot (ht : Tracks heaps pins log s maps) (hh : h ∈ heaps) (hb : maps h rid = some tuple) :
    Tracks heaps pins (.delete h rid :: .restore h rid tuple :: log) s maps := by
  obtain ⟨views, chains, hs, ht, hr⟩ := ht
  have hp := ht.mem_of_bound hh hb
  obtain ⟨v, hv⟩ := (ht.linked h hh).view hp
  have hd := hs.bytesOf hv
  have hb := (ht.maps_eq hh hp hv).symm.trans hb
  refine ⟨views, chains, hs, ht, fun r hm => ?_⟩
  obtain rfl | hm := List.mem_cons.mp hm
  · exact ⟨hh, hp⟩
  obtain rfl | hm := List.mem_cons.mp hm
  · exact ⟨hh, hp, hd.length_lt hb, v, hv, hd.lt_of_bound hb⟩
  · exact hr r hm

theorem insertTuple (ht : Tracks heaps pins log s maps) (hh : h ∈ heaps) (hb : bytes.length ≤ 8180) :
    (h.insertTuple bytes).Ends s fun result t => t.Unless <| ∃ rid, result = .ok (some rid) ∧ maps h rid = none ∧
      Tracks heaps pins log t (maps.set h rid (some bytes)) := by
  obtain ⟨views, chains, hs, ht, hr⟩ := ht
  refine (TableHeap.insertTuple_ends hs (ht.linked h hh) (ht.valid h hh) (fun q hq => ht.room hh hq) hb).mono
    fun {result t} hx => hx.imp_right ?_
  rintro ⟨rid, views', ps, rfl, hs', hx⟩
  obtain ⟨hf, ht'⟩ := ht.placed hh hx
  exact ⟨rid, rfl, hf, .intro hs' ht' (.placed hx) hr⟩

theorem getTuple (ht : Tracks heaps pins log s maps) (hm : .delete h rid ∈ log) :
    (h.getTuple rid).Ends s fun result t => (t.denied = true ∧ ∀ a, result = .ok a → a = none) ∨
      result = .ok ((maps h rid).filter (· ≠ [])) ∧
      Tracks heaps pins log t maps := by
  obtain ⟨views, chains, hs, ht, hr⟩ := ht
  have ⟨hh, hp⟩ := hr _ hm
  obtain ⟨v, hv⟩ := (ht.linked h hh).view hp
  refine (TableHeap.getTuple_ends hs hv (ht.room hh hp)).mono fun {result t} hx => hx.imp_right ?_
  rintro ⟨rfl, hs'⟩
  exact ⟨by rw [ht.maps_eq hh hp hv], views, chains, hs', ht, hr⟩

theorem deleteTuple (ht : Tracks heaps pins log s maps) (hm : .delete h rid ∈ log) :
    (h.deleteTuple rid).Ends s fun result t => (t.denied = true ∧ ∀ a, result = .ok a → a = false) ∨
      result = .ok (maps h rid).isSome ∧
      Tracks heaps pins log t (maps.set h rid none) := by
  obtain ⟨views, chains, hs, ht, hr⟩ := ht
  have ⟨hh, hp⟩ := hr _ hm
  obtain ⟨v, hv⟩ := (ht.linked h hh).view hp
  refine (TableHeap.deleteTuple_ends hs hv (ht.room hh hp)).mono fun {result t} hx => hx.imp_right ?_
  rintro ⟨rfl, hs'⟩
  exact ⟨by rw [ht.maps_eq hh hp hv], .intro hs' (ht.setView hh hp hv rfl rfl) (.setView hv le_rfl) hr⟩

theorem updateTuple (ht : Tracks heaps pins log s maps) (hm : .delete h rid ∈ log) (hb : bytes.length < 65536) :
    (h.updateTuple rid bytes).Ends s fun result t => t.Unless <|
      (8180 < bytes.length ∧ (∃ e, result = .error e) ∧ maps h rid ≠ none ∧ Tracks heaps pins log t (maps.set h rid none)) ∨
      maps h rid = none ∧ result = .ok none ∧ Tracks heaps pins log t maps ∨
      ∃ rid', result = .ok (some rid') ∧ maps h rid ≠ none ∧ (rid' = rid ∨ maps h rid' = none) ∧
        Tracks heaps pins log t ((maps.set h rid none).set h rid' (some bytes)) := by
  obtain ⟨views, chains, hs, ht, hr⟩ := ht
  have ⟨hh, hp⟩ := hr _ hm
  obtain ⟨v, hv⟩ := (ht.linked h hh).view hp
  have he := ht.maps_eq hh hp hv
  refine (TableHeap.updateTuple_throws_or hs (ht.linked h hh) (ht.valid h hh) (fun q hq => ht.room hh hq) hp hv hb).mono
    fun {result t} hx => hx.imp_right ?_
  rintro (⟨hlong, hn, hx, hs'⟩ | ⟨result', views', ps, rfl, hs', hx⟩)
  · exact .inl ⟨hlong, hx, he ▸ hn, .intro hs' (ht.setView hh hp hv rfl rfl) (.setView hv le_rfl) hr⟩
  · cases hx
    case dead hf          => exact .inr <| .inl ⟨he.trans hf, rfl, views, chains, hs', ht, hr⟩
    case rebound hn       =>
      refine .inr <| .inr ⟨rid, rfl, he ▸ hn, .inl rfl, ?_⟩
      rw [TableMaps.set_set]
      exact .intro hs' (ht.setView hh hp hv rfl rfl) (.setView hv <| le_max_left ..) hr
    case moved rid' hn hx =>
      have hd := ht.setView hh hp hv rfl (w := v.unbind rid.slotNum) rfl
      obtain ⟨hf, ht'⟩ := hd.placed hh hx
      refine .inr <| .inr ⟨rid', rfl, he ▸ hn, ?_, ?_⟩
      · by_cases hne : rid' = rid
        case pos => exact .inl hne
        case neg => exact .inr <| by rwa [TableMaps.set_of_ne hne] at hf
      · exact .intro hs' ht' (.placed hx) fun r hm => (Grows.setView hv le_rfl (w := v.unbind rid.slotNum)).record <| hr r hm

theorem restoreTuple (ht : Tracks heaps pins log s maps) (hm : .restore h rid tuple ∈ log) (hf : maps h rid = none)
    (hc : (s.pool.bytesOf rid.pageId).slotted.view.occupied + tuple.length ≤ kPageSize)
    (hd : s.isDirty rid.pageId = true) :
    (h.restoreTuple rid tuple).Ends s fun result t => t.Unless <| result = .ok () ∧
      Tracks heaps pins log t (maps.set h rid (some tuple)) := by
  obtain ⟨views, chains, hs, ht, hr⟩ := ht
  have ⟨hh, hp, hl, v, hv, hi⟩ := hr _ hm
  rw [(hs.bytesOf hv).view] at hc
  have hf := (ht.maps_eq hh hp hv).symm.trans hf
  refine (TableHeap.restoreTuple_ends hs hv (ht.room hh hp) hl hi hf hc hd).mono fun {result t} hx => hx.imp_right ?_
  rintro ⟨rfl, hs'⟩
  exact ⟨rfl, .intro hs' (ht.setView hh hp hv rfl rfl) (.setView hv <| le_max_left ..) hr⟩

theorem maps_eq (ht : Tracks heaps pins log s maps) (hh : h ∈ heaps) (hm : h.Abstracts pins s m) : maps h = m := by
  obtain ⟨views, chains, hs, ht, _⟩ := ht
  obtain ⟨views', ps, hs', hm⟩ := hm
  rw [←ht.maps h hh, ←hm.map, contents_unique hs' hs hm.linked (ht.linked h hh)]

end Tracks
end Duck
