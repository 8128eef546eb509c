import Duck.Table.Theorems.Heaps
import Duck.Table.Theorems.TableHeap.Outcomes

namespace Duck

-- What a call on a heap may do to its map, where it is not `granted` every page. A call that fails changes nothing,
-- but the old tuple of an update may be lost.
inductive HeapMap.Outcome (m : HeapMap) : Bool → HeapOp → Except String HeapResult → HeapMap → Prop
  | inserted  : (bytes.length ≤ 8180) → (m rid = none) →
    Outcome m true (.insert bytes) (.ok (.rid (some rid))) (Function.update m rid (some bytes))
  | noInsert  : (granted = false ∨ 8180 < bytes.length) → (∀ rid, result ≠ .ok (.rid (some rid))) →
    Outcome m granted (.insert bytes) result m
  | dead      : (m rid = none) → Outcome m true (.update rid bytes) (.ok (.rid none)) m
  | updated   : (m rid ≠ none) → (rid' = rid ∨ m rid' = none) →
    Outcome m true (.update rid bytes) (.ok (.rid (some rid'))) (Function.update (Function.update m rid none) rid' (some bytes))
  | untouched : Outcome m false (.update rid bytes) (.ok (.rid none)) m
  | lost      : (m rid ≠ none) → (granted = false ∨ 8180 < bytes.length) → (∀ rid', result ≠ .ok (.rid (some rid'))) →
    Outcome m granted (.update rid bytes) result (Function.update m rid none)
  | deleted   : Outcome m true (.delete rid) (.ok (.deleted (m rid).isSome)) (Function.update m rid none)
  | noDelete  : Outcome m false (.delete rid) (.ok (.deleted false)) m
  | got       : Outcome m true (.get rid) (.ok (.tuple ((m rid).filter (· ≠ [])))) m
  | noGet     : Outcome m false (.get rid) (.ok (.tuple none)) m

-- The heaps in use, the pins that are held on pages, and the pool that they share.
structure HeapPool where
  heaps : List TableHeap
  pins  : List Pin
  pager : Pager

namespace HeapPool

inductive Event
  | create (result : Except String TableHeap)
  | run (h : TableHeap) (op : HeapOp) (granted : Bool) (result : Except String HeapResult)
  | drop (h : TableHeap) (result : Except String (ℕ × DropTableStatus))
  | fetch (page : PageID) (result : Except String (Option FrameID))
  | unpin (pin : Pin)
  | flush (result : Except String Unit)
  | flushDisk
  | reopen

-- The RIDs are on pages of the heap. Only a call that may make a page needs an id for it.
def Admits (s : HeapPool) (h : TableHeap) : HeapOp → Prop
  | .insert _         => h ∈ s.heaps ∧ s.pager.Ready
  | .update rid bytes => h ∈ s.heaps ∧ s.pager.Ready ∧ h.Has s.pager rid.pageId ∧ bytes.length < 65536
  | .delete rid       => h ∈ s.heaps ∧ h.Has s.pager rid.pageId
  | .get rid          => h ∈ s.heaps ∧ h.Has s.pager rid.pageId

-- Every call begins with a caller who has not been let down yet. A heap that has been dropped is not used any more. Pages
-- of heaps are pinned by those that read them, and unpinned in any order. The database may be closed at any time and
-- opened again with a pool of any size.
inductive Step (s : HeapPool) : Event → HeapPool → Prop
  | create  : s.pager.Ready → (TableHeap.create s.pager = some (result, t)) →
    Step s (.create result) { s with heaps := result.toOption.toList ++ s.heaps, pager := t.forgiven }
  | run     : s.Admits h op → (op.run h s.pager = some (result, t)) →
    Step s (.run h op (!t.denied) result) { s with pager := t.forgiven }
  | dropped {table : Table} : (table.heap ∈ s.heaps) → (table.dropPages s.pager = some (.ok (failed, .success), t)) →
    Step s (.drop table.heap (.ok (failed, .success))) { s with heaps := s.heaps.filter (· ≠ table.heap), pager := t.forgiven }
  | kept {table : Table}    : (table.heap ∈ s.heaps) → (table.dropPages s.pager = some (result, t)) →
    (∀ failed, result ≠ .ok (failed, .success)) → Step s (.drop table.heap result) { s with pager := t.forgiven }
  | fetch   : (h ∈ s.heaps) → h.Has s.pager page → (s.pins.length + 2 < 4294967296) →
    (Pager.fetchPage page s.pager = some (.ok (some f), t)) →
    Step s (.fetch page (.ok (some f))) { s with pins := ⟨page, f, false⟩ :: s.pins, pager := t.forgiven }
  | noFetch : (h ∈ s.heaps) → h.Has s.pager page → (Pager.fetchPage page s.pager = some (result, t)) →
    (∀ f, result ≠ .ok (some f)) → Step s (.fetch page result) { s with pager := t.forgiven }
  | unpin   : (s.pins = pins₁ ++ pin :: pins₂) →
    Step s (.unpin pin) { s with pins := pins₁ ++ pins₂, pager := Pager.unpin pin.frameId false s.pager }
  | flush   : (s.pager.pool.flushAll = (result, m)) → Step s (.flush result) { s with pager := { s.pager with pool := m } }
  | flushDisk :
    Step s .flushDisk { s with pager := { s.pager with pool := { s.pager.pool with disk := s.pager.pool.disk.flushAll } } }
  | reopen  : (s.pager.pool.reopened n = .ok m) → Step s .reopen { s with pins := [], pager := ⟨m, false⟩ }

-- A pool without heaps, in which others have some pins.
structure Initial (s : HeapPool) : Prop where
  heaps    : s.heaps = []
  granted  : s.pager.denied = false
  pins     : s.pins.length + 1 < 4294967296
  accounts : ∃ owned, s.pager.pool.Accounts owned s.pins
  online   : s.pager.Online

-- The maps that the heaps are meant to be.
inductive Spec : List TableHeap × TableMaps → Event → List TableHeap × TableMaps → Prop
  | created   : (h ∉ live) → Spec (live, maps) (.create (.ok h)) (h :: live, Function.update maps h .empty)
  | noCreate  : Spec (live, maps) (.create (.error e)) (live, maps)
  | ran       : (h ∈ live) → (maps h).Outcome granted op result m →
    Spec (live, maps) (.run h op granted result) (live, Function.update maps h m)
  | dropped   : (h ∈ live) → Spec (live, maps) (.drop h (.ok (failed, .success))) (live.filter (· ≠ h), maps)
  | kept      : (h ∈ live) → (∀ failed, result ≠ .ok (failed, .success)) → Spec (live, maps) (.drop h result) (live, maps)
  | fetch     : Spec (live, maps) (.fetch page result) (live, maps)
  | unpin     : Spec (live, maps) (.unpin pin) (live, maps)
  | flush     : Spec (live, maps) (.flush (.ok ())) (live, maps)
  | flushDisk : Spec (live, maps) .flushDisk (live, maps)
  | reopen    : Spec (live, maps) .reopen (live, maps)

end HeapPool

variable {pins : List Pin} {views views' : Views} {ps ps' : List PageID} {bytes : List UInt8} {rid : RID} {p q : PageID}
variable {heaps : List TableHeap} {chains : TableHeap → List PageID} {maps : TableMaps} {h : TableHeap}

-- Pages that others have pinned do not matter to the tables.

theorem Placed.unpinned (h : Placed pins views ps bytes rid views' ps') : Placed [] views ps bytes rid views' ps' := by
  cases h
  case existing hm hv hs hc   => exact .existing hm hv hs hc
  case appended he hv hn hi _ => exact .appended he hv hn hi rfl

theorem Placed.subset (h : Placed pins views ps bytes rid views' ps') : ps ⊆ ps' := by
  cases h
  case existing => exact List.Subset.refl _
  case appended => exact List.subset_append_left ..

namespace TableHeap.Extended

theorem unpinned (h : Extended pins views ps views' ps') : Extended [] views ps views' ps' := by
  cases h
  case same                   => exact .same
  case appended he hv hn hi _ => exact .appended he hv hn hi rfl

theorem subset (h : Extended pins views ps views' ps') : ps ⊆ ps' := by
  cases h
  case same     => exact List.Subset.refl _
  case appended => exact List.subset_append_left ..

theorem contents (h : Extended pins views ps views' ps') (hl : Linked views p ps) :
    contents views' ps' = contents views ps := by
  funext rid
  by_cases hr : rid.pageId ∈ ps
  case pos =>
    obtain ⟨v, hv⟩ := hl.view hr
    obtain ⟨w, hw, hs⟩ := h.slots hv
    have hr' : rid.pageId ∈ ps' := by
      cases h
      case same     => exact hr
      case appended => exact List.mem_append_left _ hr
    rw [contents_of_mem hr' hw, contents_of_mem hr hv, hs]
  case neg =>
    rw [contents_of_not_mem hr]
    cases h
    case same                            => exact contents_of_not_mem hr
    case appended qs l u n he hu hn hi hp =>
      by_cases hrn : rid.pageId = n
      case pos =>
        have hm : rid.pageId ∈ ps ++ [n] := by simp [hrn]
        rw [contents_of_mem hm (v := .empty) (by rw [hrn, Function.update_self])]
        rfl
      case neg => exact contents_of_not_mem (by simp [hr, hrn])

end TableHeap.Extended

namespace Tables

theorem none : Tables [] [] views chains maps where
  linked _ hh   := by cases hh
  valid _ hh    := by cases hh
  unpinned _ hh := by cases hh
  apart _ hh    := by cases hh
  maps _ hh     := by cases hh

theorem extended (ht : Tables heaps [] views chains maps) (hh : h ∈ heaps)
    (hx : TableHeap.Extended pins views (chains h) views' ps) :
    Tables heaps [] views' (Function.update chains h ps) maps := by
  have hl := ht.linked h hh
  have hx := hx.unpinned
  have hc := ht.change hh (hx.linked hl) (fun q hq => hx.grows hq) (fun q hq => hx.frame hq)
    ((hx.contents hl).trans <| ht.maps h hh)
  rwa [Function.update_eq_self] at hc

-- A heap that goes takes its pages only.
theorem drop (ht : Tables heaps [] views chains maps) (hh : h ∈ heaps) :
    Tables (heaps.filter (· ≠ h)) [] (views.without (chains h)) chains maps := by
  have hin {h'} (hh' : h' ∈ heaps.filter (· ≠ h)) : h' ∈ heaps ∧ h' ≠ h := by simpa using hh'
  have hsame {h'} (hh' : h' ∈ heaps.filter (· ≠ h)) {q} (hq : q ∈ chains h') : views.without (chains h) q = views q :=
    Views.without_of_not_mem <| ht.apart h' (hin hh').1 h hh (hin hh').2 hq
  constructor
  case linked   => exact fun h' hh' => (ht.linked h' (hin hh').1).congr fun q hq => hsame hh' hq
  case valid    => exact fun h' hh' => ht.valid h' (hin hh').1
  case unpinned => exact fun h' hh' => ht.unpinned h' (hin hh').1
  case apart    => exact fun h₁ hh₁ h₂ hh₂ => ht.apart h₁ (hin hh₁).1 h₂ (hin hh₂).1
  case maps     => exact fun h' hh' => ht.maps h' (hin hh').1 ▸ contents_congr fun q hq => hsame hh' hq

end Tables

-- The header takes room.
theorem SlottedPage.Holds.not_zero {d : PageData} (h : d.slotted.Holds v) : d ≠ .zero := by
  rintro rfl
  have hf := h.wf.slots_fit
  exact absurd hf (by decide)

theorem Linked.mem_of_has {s : Pager} (hs : s.Shows pins views) (hl : Linked views h.firstPageId ps)
    (hv : h.firstPageId ≠ invalidPageID) (hp : h.Has s p) : p ∈ ps := by
  induction hp
  case first      => exact hl.first_mem hv
  case next hn ih =>
    obtain ⟨v, hv⟩ := hl.view ih
    rw [(hs.bytesOf hv).nextPage_eq] at hn ⊢
    exact hl.next_mem ih hv hn

namespace HeapPool

open Pager

-- The heaps have the tuples of the maps on chains of their own.
structure Holds (s : HeapPool) (chains : TableHeap → List PageID) (maps : TableMaps) : Prop where
  tables : ∃ views, s.pager.Shows s.pins views ∧ Tables s.heaps [] views chains maps
  online : s.pager.Online
  room   : s.pins.length + 1 < 4294967296

-- No page leaves the chain of a heap.
def Becomes (s : HeapPool) (chains : TableHeap → List PageID) (t : HeapPool) (maps : TableMaps) : Prop :=
  ∃ chains', (∀ h ∈ s.heaps, chains h ⊆ chains' h) ∧ t.Holds chains' maps

-- A page is refused only for want of frames. A call may need one besides the one that it has pinned.
def Grants (s : HeapPool) (t : Pager) : Prop :=
  t.denied = true → t.pool.poolCapacity ≤ s.pins.length + 1

theorem Grants.of_granted {s : HeapPool} {t : Pager} (h : t.denied = false) : s.Grants t :=
  fun hd => absurd (h.symm.trans hd) (by decide)

theorem Grants.of_refused {s : HeapPool} {t : Pager} (h : t.Refused s.pins.length) : s.Grants t :=
  fun _ => h.crowded.trans (Nat.le_succ _)

theorem Becomes.update {s t : HeapPool} (hp : chains h ⊆ ps) (ht : t.Holds (Function.update chains h ps) maps) :
    s.Becomes chains t maps := by
  refine ⟨_, fun h' _ => ?_, ht⟩
  by_cases hh : h' = h
  case pos =>
    rw [hh, Function.update_self]
    exact hp
  case neg =>
    rw [Function.update_of_ne hh]
    exact List.Subset.refl _

namespace Holds

variable {s : HeapPool} {t : Pager} {op : HeapOp}

theorem becomes {s t : HeapPool} (ht : t.Holds chains maps) : s.Becomes chains t maps :=
  ⟨chains, fun _ _ => List.Subset.refl _, ht⟩

theorem room_on (hs : s.Holds chains maps) (p : PageID) : pinsOn s.pins p + 1 < 4294967296 :=
  Nat.lt_of_le_of_lt (Nat.succ_le_succ <| pinsOn_le ..) hs.room

-- What is found on the pages of the heap.
theorem unchanged (hs : s.Holds chains maps) (ht : Tables s.heaps [] views chains maps) (hu : t.forgiven.Shows s.pins views)
    (hon : t.Online) : s.Becomes chains { s with pager := t.forgiven } (Function.update maps h (maps h)) :=
  becomes ⟨⟨views, hu, by rwa [Function.update_eq_self]⟩, hon, hs.room⟩

theorem insertTuple (hs : s.Holds chains maps) (ha : s.Admits h (.insert bytes)) :
    ((HeapOp.insert bytes).run h).Ends s.pager fun result t =>
      ∃ m, (maps h).Outcome (!t.denied) (.insert bytes) result m ∧ s.Grants t ∧
        s.Becomes chains { s with pager := t.forgiven } (Function.update maps h m) := by
  obtain ⟨⟨views, hshows, ht⟩, hon, hroom⟩ := id hs
  obtain ⟨hh, hr⟩ := ha
  refine .map <| (TableHeap.insertTuple_ready hshows hr (ht.linked h hh) (ht.valid h hh)
    fun q _ => hs.room_on q).mono ?_
  rintro _ t ⟨hon, ⟨hlen, ⟨e, rfl⟩, rfl⟩ | ⟨hlen, ⟨hu, hx⟩ | ⟨hd, hres, hu, hx⟩⟩⟩
  · refine ⟨_, .noInsert (.inr hlen) (fun _ hx => absurd hx Except.error_ne_ok), .of_granted hshows.denied, ?_⟩
    exact hs.unchanged ht (hshows.forgiven.symm ▸ hshows) hon
  · obtain ⟨hf, ht'⟩ := ht.placed hh hx.unpinned
    refine ⟨_, ?_, .of_granted hu.denied, .update hx.subset ⟨⟨_, hu.forgiven.symm ▸ hu, ht'⟩, hon, hroom⟩⟩
    rw [hu.denied]
    exact .inserted hlen hf
  · have ht' := ht.extended hh hx
    rw [←Function.update_eq_self h maps] at ht'
    refine ⟨_, .noInsert (.inl (by simp [hd.denied])) (fun rid hx => ?_), fun _ => hd.crowded,
      .update hx.subset ⟨⟨_, hu, ht'⟩, hon, hroom⟩⟩
    obtain ⟨_, he, hr⟩ := Except.map_eq_ok.mp hx
    cases hr
    exact hres _ he

theorem updateTuple (hs : s.Holds chains maps) (ha : s.Admits h (.update rid bytes)) :
    ((HeapOp.update rid bytes).run h).Ends s.pager fun result t =>
      ∃ m, (maps h).Outcome (!t.denied) (.update rid bytes) result m ∧ s.Grants t ∧
        s.Becomes chains { s with pager := t.forgiven } (Function.update maps h m) := by
  obtain ⟨⟨views, hshows, ht⟩, hon, hroom⟩ := id hs
  obtain ⟨hh, hr, hp, hb⟩ := ha
  have hp := (ht.linked h hh).mem_of_has hshows (ht.valid h hh) hp
  obtain ⟨v, hv⟩ := (ht.linked h hh).view hp
  have he := ht.maps_eq hh hp hv
  refine .map <| (TableHeap.updateTuple_ready hshows hr (ht.linked h hh) (ht.valid h hh)
    (fun q _ => hs.room_on q) hp hv hb).mono ?_
  have hdel := ht.setView hh hp hv rfl (w := v.unbind rid.slotNum) rfl
  rintro result t ⟨hon, ⟨hu, hx⟩ | ⟨hd, hu⟩ | ⟨hn, hc, hres, hu, hx⟩⟩
  · obtain hf | hn | ⟨hn, hx⟩ := hx
    · refine ⟨_, ?_, .of_granted hu.denied, hs.unchanged ht (hu.forgiven.symm ▸ hu) hon⟩
      rw [hu.denied]
      exact .dead (he.trans hf)
    · have ho : (maps h).Outcome (!t.denied) (.update rid bytes) (.ok (.rid (some rid)))
          (Function.update (Function.update (maps h) rid none) rid (some bytes)) := by
        rw [hu.denied]
        exact .updated (he ▸ hn) (.inl rfl)
      refine ⟨_, ho, .of_granted hu.denied, becomes ⟨⟨_, hu.forgiven.symm ▸ hu, ?_⟩, hon, hroom⟩⟩
      rw [Function.update_idem]
      exact ht.setView hh hp hv rfl rfl
    · obtain ⟨hf, ht'⟩ := hdel.placed hh hx.unpinned
      rw [TableMaps.set, TableMaps.set, Function.update_idem, Function.update_self] at ht'
      refine ⟨_, ?_, .of_granted hu.denied, .update hx.subset ⟨⟨_, hu.forgiven.symm ▸ hu, ht'⟩, hon, hroom⟩⟩
      rw [hu.denied]
      exact .updated (he ▸ hn) <| (Classical.em _).imp_right fun hne => by rwa [TableMaps.set_of_ne hne] at hf
  · refine ⟨_, ?_, fun _ => hd.crowded, hs.unchanged ht hu hon⟩
    rw [hd.denied]
    exact .untouched
  · refine ⟨_, .lost (he ▸ hn) (hc.symm.imp (fun hd => by simp [hd.denied]) And.left) (fun rid' hx => ?_),
      hc.elim (fun hc => .of_granted hc.2) fun hd _ => hd.crowded, .update hx.subset ⟨⟨_, hu, hdel.extended hh hx⟩, hon, hroom⟩⟩
    obtain ⟨_, he, hr⟩ := Except.map_eq_ok.mp hx
    cases hr
    exact hres _ he

theorem deleteTuple (hs : s.Holds chains maps) (ha : s.Admits h (.delete rid)) :
    ((HeapOp.delete rid).run h).Ends s.pager fun result t =>
      ∃ m, (maps h).Outcome (!t.denied) (.delete rid) result m ∧ s.Grants t ∧
        s.Becomes chains { s with pager := t.forgiven } (Function.update maps h m) := by
  obtain ⟨⟨views, hshows, ht⟩, hon, hroom⟩ := id hs
  obtain ⟨hh, hp⟩ := ha
  have hp := (ht.linked h hh).mem_of_has hshows (ht.valid h hh) hp
  obtain ⟨v, hv⟩ := (ht.linked h hh).view hp
  refine .map <| (TableHeap.deleteTuple_online hshows hon hv (hs.room_on _)).mono ?_
  rintro result t ⟨hon, ⟨rfl, hu⟩ | ⟨rfl, hd, hu⟩⟩
  · refine ⟨_, ?_, .of_granted hu.denied,
      becomes ⟨⟨_, hu.forgiven.symm ▸ hu, ht.setView hh hp hv rfl (w := v.unbind rid.slotNum) rfl⟩, hon, hroom⟩⟩
    rw [←ht.maps_eq hh hp hv, hu.denied]
    exact .deleted
  · refine ⟨_, ?_, .of_refused hd, hs.unchanged ht hu hon⟩
    rw [hd.denied]
    exact .noDelete

theorem getTuple (hs : s.Holds chains maps) (ha : s.Admits h (.get rid)) :
    ((HeapOp.get rid).run h).Ends s.pager fun result t =>
      ∃ m, (maps h).Outcome (!t.denied) (.get rid) result m ∧ s.Grants t ∧
        s.Becomes chains { s with pager := t.forgiven } (Function.update maps h m) := by
  obtain ⟨⟨views, hshows, ht⟩, hon, hroom⟩ := id hs
  obtain ⟨hh, hp⟩ := ha
  have hp := (ht.linked h hh).mem_of_has hshows (ht.valid h hh) hp
  obtain ⟨v, hv⟩ := (ht.linked h hh).view hp
  refine .map <| (TableHeap.getTuple_online hshows hon hv (hs.room_on _)).mono ?_
  rintro result t ⟨hst, ⟨rfl, hu⟩ | ⟨rfl, hd, hu⟩⟩
  · refine ⟨_, ?_, .of_granted hu.denied, hs.unchanged ht (hu.forgiven.symm ▸ hu) <| hst.online hon⟩
    rw [←ht.maps_eq hh hp hv, hu.denied]
    exact .got
  · refine ⟨_, ?_, .of_refused hd, hs.unchanged ht hu <| hst.online hon⟩
    rw [hd.denied]
    exact .noGet

-- A tuple that is put back stays if its page is dirty. An assertion that fails ends the program.
theorem restoreTuple (hs : s.Holds chains maps) (hh : h ∈ s.heaps) (hp : h.Has s.pager rid.pageId) (hl : bytes.length < 65536)
    (hx : h.restoreTuple rid bytes s.pager = some (.ok (), t)) (hd : t.denied = false → s.pager.isDirty rid.pageId = true) :
    s.Becomes chains { s with pager := t.forgiven } (if t.denied then maps else maps.set h rid (some bytes)) := by
  obtain ⟨⟨views, hshows, ht⟩, hon, hroom⟩ := id hs
  have hp := (ht.linked h hh).mem_of_has hshows (ht.valid h hh) hp
  obtain ⟨v, hv⟩ := (ht.linked h hh).view hp
  obtain ⟨restored, u, hpage, hx⟩ := Program.bind_ok hx
  obtain ⟨owned, hk, ho⟩ := id hshows
  obtain ⟨hst, hdenied⟩ := (TableHeap.onPage_online hk hon (ho _ v hv) (hs.room_on _)).of_eq hpage
  cases restored
  case false => cases hx
  case true  =>
    obtain ⟨-, rfl⟩ := Prod.mk.inj <| Option.some.inj hx
    by_cases hden : u.denied = true
    case pos =>
      obtain ⟨-, rfl, -⟩ := hdenied hden
      rw [if_pos hden]
      exact becomes ⟨⟨views, hshows.refused, ht⟩, hon, hroom⟩
    case neg =>
      have hden : u.denied = false := Bool.eq_false_iff.mpr hden
      obtain ⟨hx, -⟩ | ⟨page, hpage', a, page', dirty, hb, hr, hu⟩ := (TableHeap.onPage_shows hshows hv (hs.room_on _)).of_eq hpage
      · cases hden.symm.trans hx
      · obtain rfl := Except.ok.inj hr
        match hq : page.restoreTuple rid.slotNum bytes with
        | none   => simp [hq] at hb
        | some q =>
          simp only [hq, Prod.mk.injEq, true_and] at hb
          obtain ⟨rfl, rfl⟩ := hb
          have hu := hu _ (hpage'.restoreTuple_some hl hq) (.inl (by simp [hd hden]))
          rw [hden, if_neg Bool.false_ne_true]
          have ht := ht.setView hh hp hv rfl (w := v.bind rid.slotNum bytes) rfl
          exact becomes ⟨⟨_, hu.forgiven.symm ▸ hu, ht⟩, hst.online hon, hroom⟩

theorem run (hs : s.Holds chains maps) (ha : s.Admits h op) : (op.run h).Ends s.pager fun result t =>
    ∃ m, (maps h).Outcome (!t.denied) op result m ∧ s.Grants t ∧
      s.Becomes chains { s with pager := t.forgiven } (Function.update maps h m) := by
  cases op
  case insert => exact hs.insertTuple ha
  case update => exact hs.updateTuple ha
  case delete => exact hs.deleteTuple ha
  case get    => exact hs.getTuple ha

theorem forgiven (hs : s.Holds chains maps) : s.pager.forgiven = s.pager := by
  obtain ⟨_, hs, -⟩ := hs.tables
  exact hs.forgiven

theorem granted (hs : s.Holds chains maps) : s.pager.denied = false := by
  obtain ⟨_, hs, -⟩ := hs.tables
  exact hs.denied

theorem create (hs : s.Holds chains maps) (hr : s.pager.Ready) : TableHeap.create.Ends s.pager fun result t =>
    s.pager.allocated.Steady t ∧
      ((∃ h, result = .ok h ∧ h ∉ s.heaps ∧ h.firstPageId = s.pager.pool.disk.allocatePage.1 ∧
        s.Becomes chains { s with heaps := h :: s.heaps, pager := t } (Function.update maps h .empty)) ∨
      ∃ e, result = .error e ∧ t.Refused s.pins.length ∧
        Holds { s with pager := t.forgiven } chains maps) := by
  obtain ⟨⟨views, hshows, ht⟩, -, hroom⟩ := hs
  refine (TableHeap.create_ready hshows hr).mono ?_
  rintro result t ⟨hst, ⟨p, rfl, hp, hv, hi, -, hu⟩ | ⟨⟨e, rfl⟩, hd, hu⟩⟩
  all_goals have hon := hst.online hr.allocated
  · have hnew : ⟨p⟩ ∉ s.heaps := fun hh => (ht.linked _ hh).not_mem hv <| (ht.linked _ hh).first_mem hi
    refine ⟨hst, .inl ⟨⟨p⟩, rfl, hnew, hp, _, fun h hh => ?_, ⟨_, hu, ht.create hv hi rfl⟩, hon, hroom⟩⟩
    rw [Function.update_of_ne (ne_of_mem_of_not_mem hh hnew)]
    exact List.Subset.refl _
  · exact ⟨hst, .inr ⟨e, rfl, hd, ⟨views, hu, ht⟩, hon, hroom⟩⟩

theorem drop {table : Table} (hs : s.Holds chains maps) (hh : table.heap ∈ s.heaps) :
    table.dropPages.Ends s.pager fun result t =>
      (∃ failed, result = .ok (failed, .success) ∧ t.denied = false ∧
          Holds { s with heaps := s.heaps.filter (· ≠ table.heap), pager := t.forgiven } chains maps) ∨
        result = .ok (0, .readPagesFailed) ∧ t.Refused s.pins.length ∧ Holds { s with pager := t.forgiven } chains maps := by
  obtain ⟨⟨views, hshows, ht⟩, hon, hroom⟩ := id hs
  refine (Table.dropPages_online hshows hon (ht.linked _ hh) (ht.valid _ hh) fun q _ => hs.room_on q).mono ?_
  rintro result t ⟨hon, ⟨failed, rfl, hu⟩ | ⟨rfl, hd, hu⟩⟩
  · exact .inl ⟨failed, rfl, hu.denied, ⟨_, hu.forgiven.symm ▸ hu, ht.drop hh⟩, hon, hroom⟩
  · exact .inr ⟨rfl, hd, ⟨views, hu, ht⟩, hon, hroom⟩

theorem fetch (hs : s.Holds chains maps) (hh : h ∈ s.heaps) (hp : h.Has s.pager p) :
    (fetchPage p).Ends s.pager fun result t =>
      (∃ f, result = .ok (some f) ∧ (s.pins.length + 2 < 4294967296 →
        Holds { s with pins := ⟨p, f, false⟩ :: s.pins, pager := t.forgiven } chains maps)) ∨
        result = .ok none ∧ t.Refused s.pins.length ∧ Holds { s with pager := t.forgiven } chains maps := by
  obtain ⟨⟨views, hshows, ht⟩, hon, hroom⟩ := id hs
  obtain ⟨v, hv⟩ := (ht.linked h hh).view <| (ht.linked h hh).mem_of_has hshows (ht.valid h hh) hp
  obtain ⟨owned, hk, ho⟩ := id hshows
  refine (hk.fetchPage_online hon (ho _ v hv) (hs.room_on p)).mono ?_
  rintro result t (⟨rfl, rfl, hd⟩ | ⟨f, rfl, hu, -, hst⟩)
  · exact .inr ⟨rfl, hd, ⟨views, hshows.refused, ht⟩, hon, hroom⟩
  · have hu : t.Shows (⟨p, f, false⟩ :: s.pins) views := ⟨owned, hu, ho⟩
    exact .inl ⟨f, rfl, fun hn => ⟨⟨views, hu.forgiven.symm ▸ hu, ht⟩, hst.online hon, hn⟩⟩

theorem unpin (hs : s.Holds chains maps) (he : s.pins = pins₁ ++ pin :: pins₂) :
    Holds { s with pins := pins₁ ++ pins₂, pager := Pager.unpin pin.frameId false s.pager } chains maps := by
  obtain ⟨⟨views, ⟨owned, hk, ho⟩, ht⟩, hon, hroom⟩ := hs
  have hu : (Pager.unpin pin.frameId false s.pager).Keeps owned (pins₁ ++ pins₂) views.Shown := Keeps.unpin (he ▸ hk)
  refine ⟨⟨views, ⟨owned, hu, ho⟩, ht⟩, (Steady.of_disk unpin_disk).online hon, ?_⟩
  rw [he] at hroom
  simp only [List.length_append, List.length_cons] at hroom ⊢
  omega

theorem flush (hs : s.Holds chains maps) : ∃ m, s.pager.pool.flushAll = (.ok (), m) ∧
    Holds { s with pager := { s.pager with pool := m } } chains maps := by
  obtain ⟨⟨views, ⟨owned, hk, ho⟩, ht⟩, hon, hroom⟩ := hs
  obtain ⟨d, hd, -, hon, hk⟩ := hk.flushAll hon
  exact ⟨_, hd, ⟨⟨views, ⟨owned, hk, ho⟩, ht⟩, hon, hroom⟩⟩

theorem flushDisk (hs : s.Holds chains maps) :
    Holds { s with pager := { s.pager with pool := { s.pager.pool with disk := s.pager.pool.disk.flushAll } } } chains maps := by
  obtain ⟨⟨views, ⟨owned, hk, ho⟩, ht⟩, hon, hroom⟩ := hs
  exact ⟨⟨views, ⟨owned, hk.flushDisk, ho⟩, ht⟩, hon.flushAll, hroom⟩

-- A heap has a page, which is not blank.
theorem reopen (hs : s.Holds chains maps) (n : ℕ) : ∃ m, s.pager.pool.reopened n = .ok m ∧
    Holds { s with pins := [], pager := ⟨m, false⟩ } chains maps := by
  obtain ⟨⟨views, ⟨owned, hk, ho⟩, ht⟩, hon, -⟩ := hs
  by_cases hh : s.heaps = []
  case pos =>
    obtain ⟨m, hm, hon, hk⟩ := hk.reopened_blank hon n
    refine ⟨m, hm, ⟨⟨fun _ => none, ⟨[], hk.mono fun hp => (by cases hp), fun _ _ hv => (by cases hv)⟩, ?_⟩, hon, ?_⟩⟩
    · exact hh ▸ .none
    · exact (by decide : 0 + 1 < 4294967296)
  case neg =>
    obtain ⟨h, hh⟩ := List.exists_mem_of_ne_nil _ hh
    obtain ⟨v, hv⟩ := (ht.linked h hh).view <| (ht.linked h hh).first_mem (ht.valid h hh)
    obtain ⟨m, hm, hon, hk⟩ := hk.reopened hon (ho _ v hv) (fun hz => (hz v hv).not_zero rfl) n
    exact ⟨m, hm, ⟨⟨views, ⟨owned, hk, ho⟩, ht⟩, hon, (by decide : 0 + 1 < 4294967296)⟩⟩

-- Each step is one of the maps.
theorem step {t : HeapPool} (hs : s.Holds chains maps) (e : s.Step event t) :
    ∃ maps', Spec (s.heaps, maps) event (t.heaps, maps') ∧ ∃ chains', t.Holds chains' maps' := by
  cases e
  case create _ u hr hx       =>
    obtain ⟨-, ⟨h, rfl, hh, -, chains', -, hs⟩ | ⟨e, rfl, -, hs⟩⟩ := (hs.create hr).of_eq hx
    · have hf : u.forgiven = u := hs.forgiven
      refine ⟨_, .created hh, chains', ?_⟩
      rwa [hf]
    · exact ⟨_, .noCreate, _, hs⟩
  case run h op _ u ha hx           =>
    obtain ⟨m, ho, -, _, -, hs⟩ := (hs.run ha).of_eq hx
    have hh : h ∈ s.heaps := by
      cases op
      case insert => exact ha.1
      case update => exact ha.1
      case delete => exact ha.1
      case get    => exact ha.1
    exact ⟨_, .ran hh ho, _, hs⟩
  case dropped hh hx          =>
    obtain ⟨_, he, -, hs⟩ | ⟨he, -⟩ := (hs.drop hh).of_eq hx
    · exact ⟨_, .dropped hh, _, hs⟩
    · cases he
  case kept hh hx hn          =>
    obtain ⟨_, rfl, -⟩ | ⟨rfl, -, hs⟩ := (hs.drop hh).of_eq hx
    · exact absurd rfl (hn _)
    · exact ⟨_, .kept hh hn, _, hs⟩
  case fetch hh hp hn hx      =>
    obtain ⟨_, he, hs⟩ | ⟨he, -⟩ := (hs.fetch hh hp).of_eq hx
    · cases he
      exact ⟨_, .fetch, _, hs hn⟩
    · cases he
  case noFetch hh hp hx hn    =>
    obtain ⟨_, rfl, -⟩ | ⟨rfl, -, hs⟩ := (hs.fetch hh hp).of_eq hx
    · exact absurd rfl (hn _)
    · exact ⟨_, .fetch, _, hs⟩
  case unpin he               => exact ⟨_, .unpin, _, hs.unpin he⟩
  case flush hx               =>
    obtain ⟨_, hm, ht⟩ := hs.flush
    obtain ⟨rfl, rfl⟩ := Prod.mk.inj <| hx.symm.trans hm
    exact ⟨_, .flush, _, ht⟩
  case flushDisk              => exact ⟨_, .flushDisk, _, hs.flushDisk⟩
  case reopen n _ hx          =>
    obtain ⟨_, hm, ht⟩ := hs.reopen n
    obtain rfl := Except.ok.inj <| hx.symm.trans hm
    exact ⟨_, .reopen, _, ht⟩

theorem init (h : Initial s) : s.Holds (fun _ => []) fun _ => .empty := by
  obtain ⟨owned, ha⟩ := h.accounts
  refine ⟨⟨fun _ => none, ⟨owned, ⟨ha, h.granted, fun _ _ _ hv => (by cases hv)⟩, fun _ _ hv => (by cases hv)⟩, ?_⟩,
    h.online, h.pins⟩
  exact h.heaps ▸ .none

theorem live_iff (hs : s.Holds chains maps) (hh : h ∈ s.heaps) : h.Live s.pager rid bytes ↔ maps h rid = some bytes := by
  obtain ⟨⟨views, hshows, ht⟩, -, -⟩ := hs
  rw [←ht.maps h hh]
  exact (ht.linked h hh).live_iff hshows (ht.valid h hh)

theorem mem_of_bound (hs : s.Holds chains maps) (hh : h ∈ s.heaps) (hb : maps h rid = some bytes) : rid.pageId ∈ chains h := by
  obtain ⟨⟨_, -, ht⟩, -, -⟩ := hs
  exact ht.mem_of_bound hh hb

theorem length_lt (hs : s.Holds chains maps) (hh : h ∈ s.heaps) (hb : maps h rid = some bytes) : bytes.length < 65536 := by
  obtain ⟨⟨views, hshows, ht⟩, -, -⟩ := hs
  have hp := ht.mem_of_bound hh hb
  obtain ⟨v, hv⟩ := (ht.linked h hh).view hp
  exact (hshows.bytesOf hv).length_lt <| (ht.maps_eq hh hp hv).symm.trans hb

theorem eq_of_bound {h' : TableHeap} (hs : s.Holds chains maps) (hh : h ∈ s.heaps) (hh' : h' ∈ s.heaps) (hp : rid.pageId ∈ chains h)
    (hb : maps h' rid = some bytes) : h' = h := by
  by_contra hne
  obtain ⟨⟨_, -, ht⟩, -, -⟩ := id hs
  exact ht.apart h hh h' hh' (Ne.symm hne) hp (hs.mem_of_bound hh' hb)

theorem has_iff (hs : s.Holds chains maps) (hh : h ∈ s.heaps) : h.Has s.pager p ↔ p ∈ chains h := by
  obtain ⟨⟨views, hshows, ht⟩, -, -⟩ := hs
  exact ⟨(ht.linked h hh).mem_of_has hshows (ht.valid h hh), (ht.linked h hh).has hshows fun _ => .first⟩

end Holds

variable {s t : HeapPool}

theorem Reachable.holds (hr : Runs.Reachable Initial Step s) : ∃ chains maps, s.Holds chains maps :=
  Runs.Reachable.invariant (P := fun s => ∃ chains maps, s.Holds chains maps) hr (fun h => ⟨_, _, .init h⟩) fun e hs => by
    obtain ⟨_, _, hs⟩ := hs
    obtain ⟨maps, -, chains, ht⟩ := hs.step e
    exact ⟨chains, maps, ht⟩

def Simulates (s : HeapPool) (u : List TableHeap × TableMaps) : Prop :=
  s.heaps = u.1 ∧ ∃ chains, s.Holds chains u.2

theorem Simulates.step {u : List TableHeap × TableMaps} (hu : s.Simulates u) (e : s.Step event t) :
    ∃ u', Spec u event u' ∧ t.Simulates u' := by
  obtain ⟨live, maps⟩ := u
  obtain ⟨rfl, _, hu⟩ := hu
  obtain ⟨maps', hspec, ht⟩ := hu.step e
  exact ⟨_, hspec, rfl, ht⟩

-- The heaps that share a pool are maps from RIDs to tuples, whichever pages are refused: a call that fails changes
-- none of them, apart from an update that loses its tuple.
theorem refines (h₀ : Initial s) (hs : Runs.Steps Step s events t) :
    ∃ maps, Runs.Steps Spec ([], fun _ => .empty) events (t.heaps, maps) ∧
      ∀ h ∈ t.heaps, ∀ rid bytes, h.Live t.pager rid bytes ↔ maps h rid = some bytes := by
  have h₁ : s.Simulates ([], fun _ => .empty) := ⟨h₀.heaps, _, .init h₀⟩
  obtain ⟨⟨live, maps⟩, hspec, hlive, _, hm⟩ := hs.simulates (fun hx hu => hu.step hx) h₁
  obtain rfl := hlive
  exact ⟨maps, hspec, fun h hh rid bytes => hm.live_iff hh⟩

-- A heap in a new database.
def fresh : HeapPool :=
  ⟨[⟨1⟩], [], TableHeap.fresh⟩

theorem fresh_ready : fresh.pager.Ready :=
  ⟨⟨rfl, rfl, rfl⟩, fun _ => by decide⟩

theorem fresh_step : ∃ s, Initial s ∧ s.Step (.create (.ok ⟨1⟩)) fresh ∧ ∃ chains, fresh.Holds chains fun _ => .empty := by
  let s₀ : HeapPool := ⟨[], [], ⟨.create (.fresh .empty) 2, false⟩⟩
  have h₀ : Initial s₀ := ⟨rfl, rfl, by decide, ⟨_, .create DiskManager.fresh_wellFormed⟩, ⟨rfl, rfl, rfl⟩⟩
  have e₁ : TableHeap.create s₀.pager = some (.ok ⟨1⟩, TableHeap.fresh) := rfl
  have r₁ : s₀.pager.Ready := ⟨⟨rfl, rfl, rfl⟩, fun _ => by decide⟩
  have h₁ : s₀.Step (.create (.ok ⟨1⟩)) ⟨[⟨1⟩], [], TableHeap.fresh.forgiven⟩ := .create r₁ e₁
  rw [TableHeap.fresh_shows.forgiven] at h₁
  refine ⟨s₀, h₀, h₁, ?_⟩
  obtain ⟨-, ⟨h, he, -, -, chains, -, hs⟩ | ⟨e, he, -⟩⟩ := ((Holds.init h₀).create r₁).of_eq e₁
  · cases he
    rw [Function.update_eq_self (⟨1⟩ : TableHeap) fun _ => HeapMap.empty] at hs
    exact ⟨chains, hs⟩
  · cases he

-- Its first tuple.
def filled : Pager :=
  TableHeap.after (TableHeap.turn [1]) TableHeap.fresh

theorem fresh_insertTuple : TableHeap.insertTuple ⟨1⟩ [1] fresh.pager = some (.ok (some ⟨1, 0⟩), filled) :=
  TableHeap.insertFrom_here (f := 0) rfl rfl

theorem fresh_admits {bytes : List UInt8} : Admits fresh ⟨1⟩ (.insert bytes) :=
  ⟨List.mem_cons_self, fresh_ready⟩

-- A heap that takes a tuple, and a restart.
theorem brief_run : ∃ s t, Initial s ∧ Runs.Steps Step s
    [.create (.ok ⟨1⟩), .run ⟨1⟩ (.insert [1]) true (.ok (.rid (some ⟨1, 0⟩))), .reopen] t ∧ t.heaps = [⟨1⟩] := by
  obtain ⟨s₀, h₀, h₁, -⟩ := fresh_step
  have e₂ : (HeapOp.insert [1]).run ⟨1⟩ fresh.pager = some (.ok (.rid (some ⟨1, 0⟩)), filled) := by
    rw [HeapOp.run, Program.map_apply, fresh_insertTuple]
    rfl
  have h₂ : fresh.Step (.run ⟨1⟩ (.insert [1]) true (.ok (.rid (some ⟨1, 0⟩)))) ⟨[⟨1⟩], [], filled.forgiven⟩ :=
    .run fresh_admits e₂
  have hr : Runs.Reachable Initial Step _ := ((Runs.Reachable.start h₀).next h₁).next h₂
  obtain ⟨_, _, hs⟩ := Reachable.holds hr
  obtain ⟨m, e₃, -⟩ := hs.reopen 2
  exact ⟨_, _, h₀, .step h₁ <| .step h₂ <| .single <| .reopen e₃, rfl⟩

theorem refines_brief_run : ∃ s t, Initial s ∧ Runs.Steps Step s
    [.create (.ok ⟨1⟩), .run ⟨1⟩ (.insert [1]) true (.ok (.rid (some ⟨1, 0⟩))), .reopen] t ∧
      TableHeap.Live ⟨1⟩ t.pager ⟨1, 0⟩ [1] := by
  obtain ⟨s, t, h₀, hs, hh⟩ := brief_run
  obtain ⟨maps, hspec, hlive⟩ := refines h₀ hs
  refine ⟨s, t, h₀, hs, (hlive _ (hh ▸ List.mem_cons_self) _ _).mpr ?_⟩
  rw [hh] at hspec
  cases hspec
  case step e₁ hspec =>
    cases e₁
    cases hspec
    case step e₂ hspec =>
      cases e₂
      case ran ho =>
        cases hspec
        case step e₃ hspec =>
          cases e₃
          cases hspec
          cases ho
          case inserted       => simp
          case noInsert _ hne => exact absurd rfl (hne _)

-- Each heap in use is a finite chain of pages of its own, which are in use and not on the free list, and every walk
-- along it ends.
structure Partition (s : HeapPool) : Prop where
  chains : ∀ h ∈ s.heaps, ∃ ps, TableHeap.Chain s.pager h.firstPageId ps ∧ ps.Nodup ∧ (∀ p, h.Has s.pager p ↔ p ∈ ps) ∧
    (∀ p ∈ ps, s.pager.pool.disk.InUse p) ∧ h.allPages.Ends s.pager fun result t =>
      result = .ok (ps, .success) ∨ t.denied = true ∧ ∃ found, result = .ok (found, .failed)
  apart  : ∀ h ∈ s.heaps, ∀ h' ∈ s.heaps, ∀ p, h.Has s.pager p → h'.Has s.pager p → h = h'
  free   : s.pager.pool.disk.freeList.Nodup
  ends   : ∀ h op, s.Admits h op → (op.run h).Ends s.pager fun _ _ => True
  opens  : ∀ n, ∃ m, s.pager.pool.reopened n = .ok m

theorem partition (hr : Runs.Reachable Initial Step s) : s.Partition := by
  obtain ⟨chains, maps, hs⟩ := Reachable.holds hr
  obtain ⟨⟨views, hshows, ht⟩, hon, -⟩ := id hs
  obtain ⟨owned, hk, ho⟩ := id hshows
  have hhas {h p} (hh : h ∈ s.heaps) : h.Has s.pager p ↔ p ∈ chains h := hs.has_iff hh
  constructor
  case chains =>
    intro h hh
    have hl := ht.linked h hh
    refine ⟨chains h, hl.chain hshows (ht.valid h hh), hl.nodup, fun p => hhas hh, fun p hp => ?_, ?_⟩
    · obtain ⟨v, hv⟩ := hl.view hp
      exact hk.accounts.inUse (ho p v hv)
    · refine (TableHeap.collectPages_online hk hon (fun _ _ => id) ho hl (ht.valid h hh) fun q _ => hs.room_on q).mono ?_
      rintro result t ⟨-, ⟨hr, -⟩ | ⟨hr, hd, -⟩⟩
      · exact .inl hr
      · exact .inr ⟨hd.denied, hr⟩
  case apart  =>
    intro h hh h' hh' p hp hp'
    by_contra hne
    exact ht.apart h hh h' hh' hne ((hhas hh).mp hp) ((hhas hh').mp hp')
  case free   => exact hk.accounts.disk.free_nodup
  case ends   => exact fun h op ha => (hs.run ha).mono fun _ => trivial
  case opens  =>
    intro n
    obtain ⟨m, hm, -⟩ := hs.reopen n
    exact ⟨m, hm⟩

theorem partition_brief_run : ∃ s t, Initial s ∧ Runs.Reachable Initial Step t ∧ t.Partition := by
  obtain ⟨s, t, h₀, hs, -⟩ := brief_run
  exact ⟨s, t, h₀, ⟨s, _, h₀, hs⟩, partition ⟨s, _, h₀, hs⟩⟩

end HeapPool
end Duck
