import Duck.Table.Theorems.Scan
import Duck.Table.Theorems.TableHeap.Tables

namespace Duck

-- One RID comes before another in a scan of these pages.
def RID.Before (ps : List PageID) (a b : RID) : Prop :=
  ∃ i j : ℕ, ps[i]? = some a.pageId ∧ ps[j]? = some b.pageId ∧ (i < j ∨ i = j ∧ a.slotNum < b.slotNum)

namespace TableHeap

-- A tuple of a heap, dead ones apart.
structure Live (h : TableHeap) (s : Pager) (rid : RID) (bytes : List UInt8) : Prop where
  page  : h.Has s rid.pageId
  slot  : (s.pool.bytesOf rid.pageId).slotted.hasSlot rid.slotNum
  tuple : (s.pool.bytesOf rid.pageId).slotted.getTuple rid.slotNum = bytes

-- The pages behind a page in the order of the links.
inductive Chain (s : Pager) : PageID → List PageID → Prop
  | last : ((s.pool.bytesOf page).slotted.nextPage = invalidPageID) → Chain s page [page]
  | next : ((s.pool.bytesOf page).slotted.nextPage ≠ invalidPageID) →
    (Chain s (s.pool.bytesOf page).slotted.nextPage ps) → Chain s page (page :: ps)

-- The live tuples of a heap, each of them once, by pages and on a page by slots.
structure Lists (h : TableHeap) (s : Pager) (tuples : List (RID × List UInt8)) : Prop where
  live    : ∀ rid bytes, (rid, bytes) ∈ tuples ↔ h.Live s rid bytes
  once    : (tuples.map Prod.fst).Nodup
  ordered : ∃ ps, Chain s h.firstPageId ps ∧ tuples.Pairwise fun a b => a.1.Before ps b.1

-- A call of `next` to which every page was granted.
def Scan.Step (a : Scan × Pager) (row : Option (RID × List UInt8)) (b : Scan × Pager) : Prop :=
  a.1.next a.2 = some (.ok (row, b.1), b.2) ∧ b.2.denied = false

end TableHeap

-- The heaps that have been made in a pool, the pool, and the tuples that the calls have left in the heaps.
structure Heaps where
  heaps  : List TableHeap
  pager  : Pager
  tuples : TableMaps

inductive Heaps.Call
  | create
  | run (h : TableHeap) (op : HeapOp)
  | restore (h : TableHeap) (rid : RID) (tuple : List UInt8)

-- What a call leaves of the tuples of its heap, by its result. An update that throws has deleted the old tuple.
def HeapOp.onMap (m : HeapMap) : HeapOp → Except String HeapResult → HeapMap
  | .insert bytes,     .ok (.rid (some rid))  => Function.update m rid (some bytes)
  | .update rid bytes, .ok (.rid (some rid')) => Function.update (Function.update m rid none) rid' (some bytes)
  | .update rid _,     .error _               => Function.update m rid none
  | .delete rid,       .ok (.deleted true)    => Function.update m rid none
  | _,                 _                      => m

namespace Heaps

-- The RIDs are on pages of the heap, and a restore finds a dead slot and the space, as it asserts.
def Admits (s : Heaps) : Call → Prop
  | .create                     => True
  | .run h (.insert _)          => h ∈ s.heaps
  | .run h (.update rid _)      => h ∈ s.heaps ∧ h.Has s.pager rid.pageId
  | .run h (.delete rid)        => h ∈ s.heaps ∧ h.Has s.pager rid.pageId
  | .run h (.get rid)           => h ∈ s.heaps ∧ h.Has s.pager rid.pageId
  | .restore h rid tuple        =>
    let page := (s.pager.pool.bytesOf rid.pageId).slotted
    h ∈ s.heaps ∧ h.Has s.pager rid.pageId ∧ tuple.length < 65536 ∧ rid.slotNum < page.slotCount ∧
      page.hasSlot rid.slotNum = false ∧ page.view.occupied + tuple.length ≤ kPageSize

-- A call to which every page was granted. It may throw.
inductive Step (s : Heaps) : Call → Heaps → Prop
  | create  : (TableHeap.create s.pager = some (.ok h, t)) → (t.denied = false) →
    Step s .create ⟨h :: s.heaps, t, Function.update s.tuples h .empty⟩
  | run     : (s.Admits (.run h op)) → (op.run h s.pager = some (result, t)) → (t.denied = false) →
    Step s (.run h op) ⟨s.heaps, t, Function.update s.tuples h (op.onMap (s.tuples h) result)⟩
  | restore : (s.Admits (.restore h rid tuple)) → (h.restoreTuple rid tuple s.pager = some (.ok (), t)) →
    (t.denied = false) → Step s (.restore h rid tuple) ⟨s.heaps, t, s.tuples.set h rid (some tuple)⟩

-- A tuple is restored to a page that is dirty, and an update stays on its page.
def Careful (s : Heaps) : Call → Prop
  | .run _ (.update _ bytes) => bytes.length < 65536
  | .restore _ rid _         => s.pager.isDirty rid.pageId = true
  | _                        => True

def CarefulStep (s : Heaps) (c : Call) (t : Heaps) : Prop :=
  s.Step c t ∧ s.Careful c

-- A new scan gives every tuple once, in the order of the chain and of the slots, and then nothing.
def ScansAll (s : Heaps) (h : TableHeap) : Prop :=
  h.scan.Ends s.pager fun result t => t.Unless <| ∃ scan tuples, result = .ok scan ∧ h.Lists s.pager tuples ∧
    (∀ rid bytes, (rid, bytes) ∈ tuples ↔ s.tuples h rid = some bytes) ∧
    ∀ results u, Runs.Steps TableHeap.Scan.Step (scan, t) results u →
      results = (List.range results.length).map (tuples[·]?) ∧
      u.1.next.Ends u.2 fun result v => v.Unless <| ∃ row scan', result = .ok (row, scan')

-- A pool without heaps, in which others have these pins.
def Initial (pins : List Pin) (s : Heaps) : Prop :=
  s.heaps = [] ∧ s.pager.denied = false ∧ ∃ owned, s.pager.pool.Accounts owned pins

end Heaps

variable {s t : Pager} {pins : List Pin} {views : Views} {v : PageView} {h : TableHeap} {p q : PageID} {ps : List PageID}
variable {rid : RID} {bytes : List UInt8} {tuples : List (RID × List UInt8)}

theorem Linked.has (hs : s.Shows pins views) (hl : Linked views p ps) (hh : p ≠ invalidPageID → h.Has s p) (hq : q ∈ ps) :
    h.Has s q := by
  induction hl
  case nil                  => cases hq
  case cons hv hi _ hl ih =>
    have hn := (hs.bytesOf hv).nextPage_eq
    obtain rfl | hq := List.mem_cons.mp hq
    · exact hh hi
    · exact ih (fun hx => hn ▸ .next (hh hi) (hn.symm ▸ hx)) hq

theorem Linked.chain (hs : s.Shows pins views) (hl : Linked views p ps) (hp : p ≠ invalidPageID) :
    TableHeap.Chain s p ps := by
  induction hl
  case nil => exact absurd rfl hp
  case cons p v ps hv _ _ hl ih =>
    have hn := (hs.bytesOf hv).nextPage_eq
    by_cases hx : v.nextPage = invalidPageID
    case pos =>
      rw [hx] at hl
      obtain rfl := hl.nil_of_invalid
      exact .last (hn.trans hx)
    case neg => exact .next (hn ▸ hx) (hn ▸ ih hx)

-- The tuples of the chain of a heap are its live ones.
theorem Linked.live_iff (hs : s.Shows pins views) (hl : Linked views h.firstPageId ps) (hp : h.firstPageId ≠ invalidPageID) :
    h.Live s rid bytes ↔ contents views ps rid = some bytes := by
  constructor
  case mp  =>
    rintro ⟨hh, hs', hb⟩
    have hm : rid.pageId ∈ ps := by
      clear hs' hb
      generalize rid.pageId = q at hh
      induction hh
      case first      => exact hl.first_mem hp
      case next hn ih =>
        obtain ⟨v, hv⟩ := hl.view ih
        rw [(hs.bytesOf hv).nextPage_eq] at hn ⊢
        exact hl.next_mem ih hv hn
    obtain ⟨v, hv⟩ := hl.view hm
    have hd := hs.bytesOf hv
    obtain ⟨b, hs'⟩ := Option.ne_none_iff_exists'.mp <| hd.hasSlot_iff.mp hs'
    rw [hd.getTuple_eq, hs', Option.getD_some] at hb
    rw [contents_of_mem hm hv, hs', hb]
  case mpr =>
    intro hc
    by_cases hm : rid.pageId ∈ ps
    case neg =>
      rw [contents_of_not_mem hm] at hc
      cases hc
    case pos =>
      obtain ⟨v, hv⟩ := hl.view hm
      have hd := hs.bytesOf hv
      rw [contents_of_mem hm hv] at hc
      refine ⟨hl.has hs (fun _ => .first) hm, hd.hasSlot_iff.mpr (by simp [hc]), ?_⟩
      rw [hd.getTuple_eq, hc, Option.getD_some]

section rows

theorem PageView.mem_rows : (rid, bytes) ∈ v.rows p 0 ↔
    rid.pageId = p ∧ rid.slotNum < v.slotCount ∧ v.slots rid.slotNum = some bytes := by
  obtain ⟨q, i⟩ := rid
  simp only [rows, List.drop_zero, List.mem_filterMap, List.mem_range, Option.map_eq_some_iff, Prod.mk.injEq,
    RID.mk.injEq]
  constructor
  · rintro ⟨j, hj, b, hb, ⟨rfl, rfl⟩, rfl⟩
    exact ⟨rfl, hj, hb⟩
  · rintro ⟨rfl, hi, hb⟩
    exact ⟨i, hi, bytes, hb, ⟨rfl, rfl⟩, rfl⟩

theorem PageView.rows_pairwise : (v.rows p i).Pairwise fun a b => a.1.slotNum < b.1.slotNum := by
  refine List.Pairwise.filterMap _ (fun j k hjk a ha b hb => ?_) (List.pairwise_lt_range.sublist (List.drop_sublist ..))
  obtain ⟨_, _, rfl⟩ := Option.map_eq_some_iff.mp ha
  obtain ⟨_, _, rfl⟩ := Option.map_eq_some_iff.mp hb
  exact hjk

theorem mem_rows (hs : s.Shows pins views) (hl : Linked views p ps) :
    (rid, bytes) ∈ rows views ps 0 ↔ contents views ps rid = some bytes := by
  induction hl
  case nil                     => simp [rows, contents]
  case cons p v ps hv _ hn _ ih =>
    rw [rows, hv, Option.elim_some, List.mem_append, PageView.mem_rows, ih]
    by_cases hr : rid.pageId = p
    case pos =>
      have hc : contents views (p :: ps) rid = _ := contents_of_mem (hr ▸ List.mem_cons_self) (hr ▸ hv)
      rw [hc, contents_of_not_mem (hr ▸ hn)]
      simp only [hr, true_and, reduceCtorEq, or_false, and_iff_right_iff_imp]
      exact (hs.bytesOf hv).lt_of_bound
    case neg => simp only [contents, List.mem_cons, hr, false_and, false_or]

theorem rows_pairwise (hl : Linked views p ps) : (rows views ps 0).Pairwise fun a b => a.1.Before ps b.1 := by
  induction hl
  case nil                     => exact .nil
  case cons p v ps hv _ hn hl ih =>
    rw [rows, hv, Option.elim_some, List.pairwise_append]
    refine ⟨?_, ?_, ?_⟩
    · refine (PageView.rows_pairwise (p := p) (i := 0)).imp_of_mem fun {a b} ha hb hab => ?_
      exact ⟨0, 0, by rw [(PageView.mem_rows.mp ha).1]; rfl, by rw [(PageView.mem_rows.mp hb).1]; rfl, .inr ⟨rfl, hab⟩⟩
    · refine ih.imp ?_
      rintro a b ⟨i, j, hi, hj, hij⟩
      exact ⟨i + 1, j + 1, hi, hj, hij.imp Nat.succ_lt_succ (And.imp_left (congrArg _))⟩
    · intro a ha b hb
      obtain ⟨q, hq, hb⟩ : ∃ q ∈ ps, b.1.pageId = q := by
        clear ih hl ha
        induction ps
        case nil          => cases hb
        case cons q ps ih =>
          rw [rows] at hb
          obtain hb | hb := List.mem_append.mp hb
          · cases hq : views q <;> rw [hq] at hb
            · cases hb
            · exact ⟨q, List.mem_cons_self, (PageView.mem_rows.mp hb).1⟩
          · obtain ⟨r, hr, hb⟩ := ih (fun hp => hn (List.mem_cons_of_mem _ hp)) hb
            exact ⟨r, List.mem_cons_of_mem _ hr, hb⟩
      obtain ⟨j, hj⟩ := List.mem_iff_getElem?.mp hq
      exact ⟨0, j + 1, by rw [(PageView.mem_rows.mp ha).1]; rfl, by rw [hb]; exact hj, .inl j.succ_pos⟩

end rows

namespace TableHeap

theorem rows_lists (hs : s.Shows pins views) (hl : Linked views h.firstPageId ps) (hp : h.firstPageId ≠ invalidPageID) :
    h.Lists s (rows views ps 0) where
  live rid bytes := (mem_rows hs hl).trans (hl.live_iff hs hp).symm
  once           := by
    refine List.pairwise_map.mpr <| (rows_pairwise hl).imp ?_
    rintro a b ⟨i, j, hi, hj, hij⟩ he
    rw [he] at hi hij
    have hlt : i < ps.length := (List.getElem?_eq_some_iff.mp hi).1
    obtain rfl := (List.getElem?_inj hlt hl.nodup).mp (hi.trans hj.symm)
    omega
  ordered        := ⟨ps, hl.chain hs hp, rows_pairwise hl⟩

-- The results of calls of `next` are the tuples to come, one after the other.
theorem Scan.Reads.steps {a u : Scan × Pager} (hr : a.1.Reads a.2 pins views ps tuples)
    (hn : ∀ q ∈ ps, pinsOn pins q + 1 < 4294967296) (hx : Runs.Steps Scan.Step a results u) :
    results = (List.range results.length).map (tuples[·]?) ∧
      ∃ ps', ps' ⊆ ps ∧ u.1.Reads u.2 pins views ps' (tuples.drop results.length) := by
  induction hx generalizing ps tuples
  case refl             => exact ⟨rfl, ps, List.Subset.refl _, hr⟩
  case step e _ ih =>
    obtain ⟨hd, _⟩ | ⟨scan, ps', he, hr, hsub⟩ := (hr.next_ends hn).of_eq e.1
    · cases e.2.symm.trans hd
    obtain ⟨rfl, rfl⟩ := Prod.mk.inj <| Except.ok.inj he
    obtain ⟨hresults, ps'', hsub', hr⟩ := ih hr fun q hq => hn q (hsub hq)
    refine ⟨?_, ps'', List.Subset.trans hsub' hsub, by rwa [List.drop_tail] at hr⟩
    rw [List.length_cons, List.range_succ_eq_map, List.map_cons, List.map_map, List.head?_eq_getElem?]
    refine congrArg _ <| hresults.trans <| congrArg (List.map · _) ?_
    funext i
    exact List.getElem?_tail

end TableHeap

-- A new heap has a page of its own.
theorem Tables.create {heaps : List TableHeap} {chains : TableHeap → List PageID} {maps : TableMaps}
    (ht : Tables heaps pins views chains maps) (hv : views p = none) (hi : p ≠ invalidPageID) (hn : pinsOn pins p = 0) :
    Tables (⟨p⟩ :: heaps) pins (Function.update views p (some .empty)) (Function.update chains ⟨p⟩ [p])
      (Function.update maps ⟨p⟩ .empty) := by
  have hout {h'} (hh' : h' ∈ heaps) : p ∉ chains h' := (ht.linked h' hh').not_mem hv
  have hne {h'} (hh' : h' ∈ heaps) : h' ≠ ⟨p⟩ := by
    rintro rfl
    exact hout hh' <| (ht.linked _ hh').first_mem (ht.valid _ hh')
  have hp : Function.update views p (some PageView.empty) p = some PageView.empty := Function.update_self ..
  have hsame {h'} (hh' : h' ∈ heaps) {q} (hq : q ∈ chains h') : Function.update views p (some .empty) q = views q :=
    Function.update_of_ne (ne_of_mem_of_not_mem hq (hout hh')) ..
  constructor
  case linked   =>
    intro h' hh'
    obtain rfl | hh' := List.mem_cons.mp hh'
    · rw [Function.update_self]
      exact .cons hp hi List.not_mem_nil .nil
    · rw [Function.update_of_ne (hne hh')]
      exact (ht.linked h' hh').congr fun q hq => hsame hh' hq
  case valid    =>
    intro h' hh'
    obtain rfl | hh' := List.mem_cons.mp hh'
    · exact hi
    · exact ht.valid h' hh'
  case unpinned =>
    intro h' hh' q hq
    obtain rfl | hh' := List.mem_cons.mp hh'
    · rw [Function.update_self] at hq
      exact List.mem_singleton.mp hq ▸ hn
    · rw [Function.update_of_ne (hne hh')] at hq
      exact ht.unpinned h' hh' q hq
  case apart    =>
    intro h₁ hh₁ h₂ hh₂ hne'
    obtain rfl | hh₁ := List.mem_cons.mp hh₁ <;> obtain rfl | hh₂ := List.mem_cons.mp hh₂
    · exact absurd rfl hne'
    · rw [Function.update_self, Function.update_of_ne (hne hh₂)]
      exact List.singleton_disjoint.mpr (hout hh₂)
    · rw [Function.update_self, Function.update_of_ne (hne hh₁)]
      exact List.disjoint_singleton.mpr (hout hh₁)
    · rw [Function.update_of_ne (hne hh₁), Function.update_of_ne (hne hh₂)]
      exact ht.apart h₁ hh₁ h₂ hh₂ hne'
  case maps     =>
    intro h' hh'
    obtain rfl | hh' := List.mem_cons.mp hh'
    · rw [Function.update_self, Function.update_self]
      funext rid
      by_cases hr : rid.pageId = p
      case neg => exact contents_of_not_mem (by simp [hr])
      case pos =>
        have hm : rid.pageId ∈ [p] := List.mem_singleton.mpr hr
        have hv : Function.update views p (some PageView.empty) rid.pageId = some .empty := by rw [hr, hp]
        exact contents_of_mem hm hv
    · rw [Function.update_of_ne (hne hh'), Function.update_of_ne (hne hh'), ←ht.maps h' hh']
      exact contents_congr fun q hq => hsame hh' hq

namespace Heaps

def Invariant (pins : List Pin) (s : Heaps) : Prop :=
  Tracks s.heaps pins [] s.pager s.tuples

namespace Invariant

variable {s t : Heaps}

theorem init (h : Initial pins s) : Invariant pins s := by
  obtain ⟨hh, hd, owned, ha⟩ := h
  refine ⟨fun _ => none, fun _ => [], ⟨owned, ⟨ha, hd, fun _ _ => nofun⟩, nofun⟩, ?_, nofun⟩
  rw [hh]
  exact ⟨nofun, nofun, nofun, nofun, nofun⟩

theorem create {pager : Pager} (hi : Invariant pins s) (hx : TableHeap.create s.pager = some (.ok h, pager))
    (hd : pager.denied = false) : Invariant pins ⟨h :: s.heaps, pager, Function.update s.tuples h .empty⟩ := by
  obtain ⟨views, chains, hs, ht, -⟩ := hi
  obtain hd' | ⟨p, hr, hv, hp, hn, hs⟩ := (TableHeap.create_shows hs).of_eq hx
  · cases hd.symm.trans hd'
  · obtain rfl := Except.ok.inj hr
    exact ⟨_, _, hs, ht.create hv hp hn, nofun⟩

theorem run {pager : Pager} (hi : Invariant pins s) (ha : s.Admits (.run h op)) (hc : s.Careful (.run h op))
    (hx : op.run h s.pager = some (result, pager)) (hd : pager.denied = false) :
    Invariant pins ⟨s.heaps, pager, Function.update s.tuples h (op.onMap (s.tuples h) result)⟩ := by
  have hends : (op.run h).Ends s.pager fun result u =>
      u.Unless <| Tracks s.heaps pins [] u (Function.update s.tuples h (op.onMap (s.tuples h) result)) := by
    have hself : Function.update s.tuples h (s.tuples h) = s.tuples := Function.update_eq_self ..
    cases op
    case insert bytes     =>
      by_cases hb : bytes.length ≤ 8180
      case pos =>
        refine .map <| (Tracks.insertTuple hi ha hb).mono fun hx => hx.imp_right ?_
        rintro ⟨rid, rfl, _, hu⟩
        exact hu
      case neg =>
        have hb' : kPageSize - 8 - 4 < bytes.length := by
          rw [kPageSize_eq]
          omega
        refine .map ?_
        rw [TableHeap.insertTuple, if_pos hb']
        exact .throw <| .inr <| hself.symm ▸ hi
    case update rid bytes =>
      obtain ⟨hh, hp⟩ := ha
      refine .map <| ((Tracks.page hi hh hp).updateTuple List.mem_cons_self hc).mono fun hx => hx.imp_right ?_
      rintro (⟨_, ⟨e, rfl⟩, _, hu⟩ | ⟨_, rfl, hu⟩ | ⟨rid', rfl, _, _, hu⟩)
      · exact hu.mono <| List.nil_subset _
      · exact hself.symm ▸ hu.mono (List.nil_subset _)
      · rw [TableMaps.set_update] at hu
        exact hu.mono <| List.nil_subset _
    case delete rid       =>
      obtain ⟨hh, hp⟩ := ha
      refine .map <| ((Tracks.page hi hh hp).deleteTuple List.mem_cons_self).mono fun hx => hx.imp And.left ?_
      rintro ⟨rfl, hu⟩
      cases hm : s.tuples h rid
      case none   =>
        rw [TableMaps.set_eq_self hm] at hu
        exact hself.symm ▸ hu.mono (List.nil_subset _)
      case some _ => exact hu.mono <| List.nil_subset _
    case get rid          =>
      obtain ⟨hh, hp⟩ := ha
      refine .map <| ((Tracks.page hi hh hp).getTuple List.mem_cons_self).mono fun hx => hx.imp And.left ?_
      rintro ⟨_, hu⟩
      exact hself.symm ▸ hu.mono (List.nil_subset _)
  exact (hends.of_eq hx).resolve_left fun hd' => Bool.false_ne_true <| hd.symm.trans hd'

theorem restore {pager : Pager} (hi : Invariant pins s) (ha : s.Admits (.restore h rid tuple))
    (hdirty : s.pager.isDirty rid.pageId = true) (hx : h.restoreTuple rid tuple s.pager = some (result, pager))
    (hd : pager.denied = false) : Invariant pins ⟨s.heaps, pager, s.tuples.set h rid (some tuple)⟩ := by
  obtain ⟨views, chains, hs, ht, -⟩ := hi
  obtain ⟨hh, hp, hl, hn, hf, hspace⟩ := ha
  have hp := ht.mem_of_has hs hh hp
  obtain ⟨v, hv⟩ := (ht.linked h hh).view hp
  have hholds := hs.bytesOf hv
  rw [hholds.slotCount_eq] at hn
  have hf : v.slots rid.slotNum = none := by
    by_contra hne
    exact Bool.false_ne_true <| hf.symm.trans <| hholds.hasSlot_iff.mpr hne
  have htracks : Tracks s.heaps pins [.restore h rid tuple] s.pager s.tuples :=
    ⟨views, chains, hs, ht, fun r hr => List.mem_singleton.mp hr ▸ ⟨hh, hp, hl, v, hv, hn⟩⟩
  obtain hd' | ⟨_, hu⟩ :=
    (htracks.restoreTuple List.mem_cons_self ((ht.maps_eq hh hp hv).trans hf) hspace hdirty).of_eq hx
  · cases hd.symm.trans hd'
  · exact hu.mono <| List.nil_subset _

theorem step {c : Call} (hi : Invariant pins s) (e : s.CarefulStep c t) : Invariant pins t := by
  obtain ⟨e, hc⟩ := e
  cases e
  case create hx hd     => exact hi.create hx hd
  case run ha hx hd     => exact hi.run ha hc hx hd
  case restore ha hx hd => exact hi.restore ha hc hx hd

theorem scansAll (hi : Invariant pins s) (hh : h ∈ s.heaps) : s.ScansAll h := by
  obtain ⟨views, chains, hs, ht, -⟩ := hi
  have hroom (q : PageID) (hq : q ∈ chains h) := ht.room hh hq
  have hl := ht.linked h hh
  refine (TableHeap.Scan.scan_reads hs hl (ht.valid h hh) hroom).mono fun hx => hx.imp_right ?_
  rintro ⟨scan, hresult, hreads⟩
  refine ⟨scan, _, hresult, TableHeap.rows_lists hs hl (ht.valid h hh), fun rid bytes => ?_, fun results u hx => ?_⟩
  · rw [mem_rows hs hl, ht.maps h hh]
  · obtain ⟨hresults, ps, hsub, hreads⟩ := hreads.steps hroom hx
    refine ⟨hresults, (hreads.next_ends fun q hq => hroom q (hsub hq)).mono fun hx => hx.imp And.left ?_⟩
    rintro ⟨scan', _, he, _⟩
    exact ⟨_, scan', he⟩

end Invariant

variable {s : Heaps}

-- As long as no tuple is restored to a page that has been written back.
theorem scan_complete (hr : Runs.Reachable (Initial pins) CarefulStep s) (hh : h ∈ s.heaps) : s.ScansAll h :=
  have hi : Invariant pins s := hr.invariant .init fun e hi => hi.step e
  hi.scansAll hh

section runs

open Pager TableHeap Program

variable {p q : Pager} {n : ℕ}

-- The pool of a new file.
def small (n : ℕ) : Pager :=
  ⟨.create (.fresh .empty) n, false⟩

-- A step of a run to which every page is granted.
def expected [DecidableEq α] (a : α) (x : PagerM α) : PagerM Unit :=
  x.expect (!·.denied) a

theorem expected_ok [DecidableEq α] {a : α} {x : PagerM α} (h : expected a x p = some (.ok (), q)) :
    x p = some (.ok a, q) ∧ q.denied = false :=
  (expect_ok h).imp_right (Bool.not_eq_true' _).mp

-- A tuple is put into a new heap and taken away again.
def emptied : PagerM Unit := do
  expected ⟨1⟩ TableHeap.create
  expected (some 0) (fetchPage 1)
  expected (.inl ⟨1, 0⟩) (visitPage 0 [7] false)
  expected true (TableHeap.deleteTuple ⟨1⟩ ⟨1, 0⟩)

theorem emptied_reachable (h : emptied (small n) = some (.ok (), p)) :
    ∃ tuples, Runs.Reachable (Initial []) CarefulStep ⟨[⟨1⟩], p, tuples⟩ := by
  obtain ⟨_, p₁, h₁, h⟩ := bind_ok h
  obtain ⟨_, p₂, h₂, h⟩ := bind_ok h
  obtain ⟨_, p₃, h₃, h₄⟩ := bind_ok h
  have ⟨e₁, d₁⟩ := expected_ok h₁
  have ⟨e₂, _⟩ := expected_ok h₂
  have ⟨e₃, d₃⟩ := expected_ok h₃
  have ⟨e₄, d₄⟩ := expected_ok h₄
  have hi : (HeapOp.insert [7]).run ⟨1⟩ p₁ = some (.ok (.rid (some ⟨1, 0⟩)), p₃) := by
    rw [HeapOp.run, map_apply, TableHeap.insertTuple, if_neg (by decide), insertFrom_here e₂ e₃]
    rfl
  have hx : (HeapOp.delete ⟨1, 0⟩).run ⟨1⟩ p₃ = some (.ok (.deleted true), p) := by
    rw [HeapOp.run, map_apply, e₄]
    rfl
  have r : Runs.Reachable (Initial []) CarefulStep ⟨[], small n, fun _ => .empty⟩ :=
    .start ⟨rfl, rfl, _, .create DiskManager.fresh_wellFormed⟩
  have ha (s tuples) : Heaps.Admits ⟨[⟨1⟩], s, tuples⟩ (.run ⟨1⟩ (.insert [7])) := List.mem_cons_self
  have hb (s tuples) : Heaps.Admits ⟨[⟨1⟩], s, tuples⟩ (.run ⟨1⟩ (.delete ⟨1, 0⟩)) := ⟨List.mem_cons_self, .first⟩
  have r := r.next ⟨.create e₁ d₁, trivial⟩
  have r := r.next ⟨.run (ha _ _) hi d₃, trivial⟩
  exact ⟨_, r.next ⟨.run (hb _ _) hx d₄, trivial⟩⟩

-- The slot of the tuple is there, and the space.
def restorable (s : Pager) : Bool :=
  let page := (s.pool.bytesOf 1).slotted
  0 < page.slotCount ∧ page.hasSlot 0 = false ∧ page.view.occupied + 1 ≤ kPageSize

theorem restorable_admits {hs : List TableHeap} (h : restorable p = true) (hm : (⟨1⟩ : TableHeap) ∈ hs) :
    Admits ⟨hs, p, maps⟩ (.restore ⟨1⟩ ⟨1, 0⟩ [7]) :=
  have ⟨hn, hf, hl⟩ := of_decide_eq_true h
  ⟨hm, .first, by decide, hn, hf, hl⟩

-- The tuple is restored while its page is dirty.
def restored : PagerM Unit := do
  emptied
  expected (true, true) (.read fun s => (restorable s, s.isDirty 1))
  expected () (TableHeap.restoreTuple ⟨1⟩ ⟨1, 0⟩ [7])
  expected ⟨2⟩ TableHeap.create

theorem restored_ok : ∃ t, restored (small 2) = some (.ok (), t) := by
  have h : (restored (small 2)).any (fun (result, _) => result.isOk) = true := by
    decide +kernel
  obtain ⟨⟨_ | _, t⟩, hx, hr⟩ := (Option.any_eq_true ..).mp h
  · cases hr
  · exact ⟨t, hx⟩

theorem scan_complete_restored :
    ∃ s : Heaps, s.heaps = [⟨2⟩, ⟨1⟩] ∧ s.tuples ⟨1⟩ ⟨1, 0⟩ = some [7] ∧ s.ScansAll ⟨1⟩ := by
  obtain ⟨q, h⟩ := restored_ok
  obtain ⟨_, p₁, h₁, h⟩ := bind_ok h
  obtain ⟨_, p₂, h₂, h⟩ := bind_ok h
  obtain ⟨_, p₃, h₃, h₄⟩ := bind_ok h
  obtain ⟨tuples, r⟩ := emptied_reachable h₁
  have ⟨e₂, _⟩ := expected_ok h₂
  have ⟨e₃, d₃⟩ := expected_ok h₃
  have ⟨e₄, d₄⟩ := expected_ok h₄
  obtain ⟨hr, rfl⟩ := Prod.mk.inj <| Option.some.inj e₂
  obtain ⟨hr, hdirty⟩ := Prod.mk.inj <| Except.ok.inj hr
  have r := r.next ⟨.restore (restorable_admits hr List.mem_cons_self) e₃ d₃, hdirty⟩
  have r := r.next ⟨.create e₄ d₄, trivial⟩
  refine ⟨_, rfl, ?_, scan_complete r (List.mem_cons_of_mem _ List.mem_cons_self)⟩
  simp [TableMaps.set]

-- The page of the deleted tuple is put out of the only frame, and is read in again when the tuple is restored. It is
-- then put out once more, without being written.
def forgotten : PagerM Unit := do
  emptied
  expected ⟨2⟩ TableHeap.create
  expected true (.read restorable)
  expected () (TableHeap.restoreTuple ⟨1⟩ ⟨1, 0⟩ [7])
  expected none (TableHeap.getTuple ⟨2⟩ ⟨2, 0⟩)
  expected (some 0) (fetchPage 1)
  expected (false, none, false) do
    let page ← slotted 0
    return (page.hasSlot 0, page.nextOccupiedSlot 0, page.hasNextPage)

theorem forgotten_ok : ∃ t, forgotten (small 1) = some (.ok (), t) := by
  have h : (forgotten (small 1)).any (fun (result, _) => result.isOk) = true := by
    decide +kernel
  obtain ⟨⟨_ | _, t⟩, hx, hr⟩ := (Option.any_eq_true ..).mp h
  · cases hr
  · exact ⟨t, hx⟩

-- A page without a tuple, and without a page behind it.
theorem next_none {rid : RID} {f : FrameID} (h : (do
      let page ← slotted f
      return (page.hasSlot rid.slotNum, page.nextOccupiedSlot rid.slotNum, page.hasNextPage) : PagerM _) p =
        some (.ok (false, none, false), q)) :
    Scan.next ⟨rid, some f⟩ p = some (.ok (none, ⟨rid, some f⟩), q) := by
  obtain ⟨page, t, hp, h⟩ := bind_ok h
  obtain ⟨hr, rfl⟩ : Except.ok (page.hasSlot rid.slotNum, page.nextOccupiedSlot rid.slotNum, page.hasNextPage) =
      .ok (false, none, false) ∧ t = q := Prod.mk.inj <| Option.some.inj h
  obtain ⟨hs, hr⟩ := Prod.mk.inj <| Except.ok.inj hr
  obtain ⟨hn, hl⟩ := Prod.mk.inj hr
  obtain ⟨-, rfl⟩ := Prod.mk.inj <| Option.some.inj (show some (Except.ok _, p) = some (.ok page, t) from hp)
  have hnext : Scan.nextPage ⟨rid, some f⟩ p = some (.ok (false, ⟨rid, some f⟩), p) := by
    change (slotted f >>= _) p = _
    rw [bind_eq hp, hl]
    rfl
  rw [Scan.next_eq, bind_eq hp]
  simp only [Scan.skip, hs, hn, Bool.false_eq_true, if_false, Bool.not_false, if_true]
  rw [bind_eq hnext]
  rfl

theorem forgotten_scan : ∃ s p q scan, Runs.Reachable (Initial []) Step s ∧ ⟨1⟩ ∈ s.heaps ∧
    s.tuples ⟨1⟩ ⟨1, 0⟩ = some [7] ∧ TableHeap.scan ⟨1⟩ s.pager = some (.ok scan, p) ∧ p.denied = false ∧
    Scan.Step (scan, p) none (scan, q) := by
  obtain ⟨q, h⟩ := forgotten_ok
  obtain ⟨_, p₁, h₁, h⟩ := bind_ok h
  obtain ⟨_, p₂, h₂, h⟩ := bind_ok h
  obtain ⟨_, p₃, h₃, h⟩ := bind_ok h
  obtain ⟨_, p₄, h₄, h⟩ := bind_ok h
  obtain ⟨_, p₅, h₅, h⟩ := bind_ok h
  obtain ⟨_, p₆, h₆, h₇⟩ := bind_ok h
  obtain ⟨tuples, r⟩ := emptied_reachable h₁
  have ⟨e₂, d₂⟩ := expected_ok h₂
  have ⟨e₃, _⟩ := expected_ok h₃
  have ⟨e₄, d₄⟩ := expected_ok h₄
  have ⟨e₅, d₅⟩ := expected_ok h₅
  have ⟨e₆, d₆⟩ := expected_ok h₆
  have ⟨e₇, d₇⟩ := expected_ok h₇
  obtain ⟨hr, rfl⟩ := Prod.mk.inj <| Option.some.inj e₃
  have hm : (⟨1⟩ : TableHeap) ∈ [(⟨2⟩ : TableHeap), ⟨1⟩] := List.mem_cons_of_mem _ List.mem_cons_self
  have hget : (HeapOp.get ⟨2, 0⟩).run ⟨2⟩ p₄ = some (.ok (.tuple none), p₅) := by
    rw [HeapOp.run, map_apply, e₅]
    rfl
  have hscan : TableHeap.scan ⟨1⟩ p₅ = some (.ok ⟨⟨1, 0⟩, some 0⟩, p₆) := by
    rw [TableHeap.scan, bind_eq e₆]
    rfl
  have hg (s tuples) : Heaps.Admits ⟨[⟨2⟩, ⟨1⟩], s, tuples⟩ (.run ⟨2⟩ (.get ⟨2, 0⟩)) := ⟨List.mem_cons_self, .first⟩
  have r : Runs.Reachable (Initial []) Step _ := r.mono fun e => e.1
  have r := r.next (.create e₂ d₂)
  have r := r.next (.restore (restorable_admits (Except.ok.inj hr) hm) e₄ d₄)
  have r := r.next (.run (hg _ _) hget d₅)
  exact ⟨_, p₆, q, _, r, hm, by simp [TableMaps.set], hscan, d₆, next_none e₇, d₇⟩

theorem not_scan_complete : ¬∀ s h, Runs.Reachable (Initial []) Step s → h ∈ s.heaps → s.ScansAll h := by
  intro hall
  obtain ⟨s, p, q, scan, r, hm, ht, hscan, hd, hstep⟩ := forgotten_scan
  obtain hd' | ⟨_, rows, hresult, _, htuples, hsteps⟩ := (hall s _ r hm).of_eq hscan
  · cases hd.symm.trans hd'
  obtain rfl := Except.ok.inj hresult
  have hnone : [none] = [rows[0]?] := (hsteps _ _ <| .single hstep).1
  have htuple : (⟨1, 0⟩, [7]) ∈ rows := (htuples ⟨1, 0⟩ [7]).mpr ht
  cases rows
  case nil  => cases htuple
  case cons => cases hnone

end runs

end Heaps
end Duck
