import Duck.Table.HeapMap
import Duck.Table.Theorems.TableHeap.Operations

namespace Duck

variable {h : TableHeap} {op : HeapOp} {s t : Pager} {pins : List Pin} {views : Views} {m : HeapMap} {p q : PageID} {ps : List PageID}

-- The pages of a heap: those that its links lead to.
inductive TableHeap.Has (h : TableHeap) (s : Pager) : PageID → Prop
  | first : Has h s h.firstPageId
  | next  : (Has h s page) → ((s.pool.bytesOf page).slotted.nextPage ≠ invalidPageID) →
    Has h s (s.pool.bytesOf page).slotted.nextPage

namespace HeapOp

-- The tuples are not empty and `insert_tuple` admits their size, and the RIDs are on pages of the heap.
def Admitted (h : TableHeap) (s : Pager) : HeapOp → Prop
  | insert bytes     => bytes ≠ [] ∧ bytes.length ≤ kPageSize - 8 - 4
  | update rid bytes => h.Has s rid.pageId ∧ bytes ≠ [] ∧ bytes.length ≤ kPageSize - 8 - 4
  | delete rid       => h.Has s rid.pageId
  | get rid          => h.Has s rid.pageId

end HeapOp

namespace TableHeap

-- A call that returns, and to which every page was granted.
structure Step (h : TableHeap) (s : Pager) (call : HeapOp × HeapResult) (t : Pager) : Prop where
  admitted : call.1.Admitted h s
  returns  : call.1.run h s = some (.ok call.2, t)
  granted  : t.denied = false

structure RefinesMap (h : TableHeap) (s : Pager) : Prop where
  refines : ∀ {calls t}, Runs.Steps h.Step s calls t → ∃ m, Runs.Steps HeapMap.Step .empty calls m
  returns : ∀ {calls t} {op : HeapOp}, Runs.Steps h.Step s calls t → op.Admitted h t →
    (op.run h).Ends t fun result u => u.Unless <| ∃ r, result = .ok r

-- The tuples on the pages of a heap are those of the map.
structure Models (h : TableHeap) (pins : List Pin) (m : HeapMap) (views : Views) (ps : List PageID) : Prop where
  linked   : Linked views h.firstPageId ps
  valid    : h.firstPageId ≠ invalidPageID
  unpinned : ∀ q ∈ ps, pinsOn pins q = 0
  map      : contents views ps = m
  nonempty : ∀ rid, m rid ≠ some []

namespace Models

theorem mem_of_has (hm : h.Models pins m views ps) (hs : s.Shows pins views) (hp : h.Has s p) : p ∈ ps := by
  induction hp
  case first      => exact hm.linked.first_mem hm.valid
  case next hn ih =>
    obtain ⟨v, hv⟩ := hm.linked.view ih
    rw [(hs.bytesOf hv).nextPage_eq] at hn ⊢
    exact hm.linked.next_mem ih hv hn

theorem room (hm : h.Models pins m views ps) (hq : q ∈ ps) : pinsOn pins q + 1 < 4294967296 := by
  rw [hm.unpinned q hq]
  decide

theorem contents_eq (hm : h.Models pins m views ps) (hv : views rid.pageId = some v) (hp : rid.pageId ∈ ps) :
    m rid = v.slots rid.slotNum :=
  hm.map ▸ contents_of_mem hp hv

-- A tuple that is taken away.
theorem unbind (hm : h.Models pins m views ps) (hp : rid.pageId ∈ ps) (hv : views rid.pageId = some v) :
    h.Models pins (Function.update m rid none) (Function.update views rid.pageId (some (v.unbind rid.slotNum))) ps where
  linked   := hm.linked.setView hv rfl
  valid    := hm.valid
  unpinned := hm.unpinned
  map      := hm.map ▸ contents_setView hp hv rfl
  nonempty rid' := by
    by_cases hr : rid' = rid
    case pos => simp [hr]
    case neg => simpa [hr] using hm.nonempty rid'

-- A tuple that gets new bytes where it is.
theorem bind (hm : h.Models pins m views ps) (hp : rid.pageId ∈ ps) (hv : views rid.pageId = some v)
    (hb : bytes ≠ []) : h.Models pins (Function.update m rid (some bytes))
      (Function.update views rid.pageId (some (v.bind rid.slotNum bytes))) ps where
  linked   := hm.linked.setView hv rfl
  valid    := hm.valid
  unpinned := hm.unpinned
  map      := hm.map ▸ contents_setView hp hv rfl
  nonempty rid' := by
    by_cases hr : rid' = rid
    case pos => simpa [hr] using hb
    case neg => simpa [hr] using hm.nonempty rid'

-- A tuple that is placed somewhere.
theorem placed (hm : h.Models pins m views ps) (hx : Placed pins views ps bytes rid views' ps') (hb : bytes ≠ []) :
    m rid = none ∧ h.Models pins (Function.update m rid (some bytes)) views' ps' := by
  refine ⟨hm.map ▸ hx.free hm.linked, hx.linked hm.linked, hm.valid, fun q hq => ?_, ?_, fun rid' => ?_⟩
  · exact (hx.grows hq).elim (hm.unpinned q) And.right
  · exact hm.map ▸ hx.contents hm.linked
  · by_cases hr : rid' = rid
    case pos => simpa [hr] using hb
    case neg => simpa [hr] using hm.nonempty rid'

end Models

-- The heap has the tuples of the map, on some chain of pages.
def Abstracts (h : TableHeap) (pins : List Pin) (s : Pager) (m : HeapMap) : Prop :=
  ∃ views ps, s.Shows pins views ∧ h.Models pins m views ps

theorem Abstracts.run (hm : h.Abstracts pins s m) (ha : op.Admitted h s) :
    (op.run h).Ends s fun result t => t.Unless <| ∃ r m', result = .ok r ∧ HeapMap.Step m (op, r) m' ∧
      h.Abstracts pins t m' := by
  obtain ⟨views, ps, hs, hm⟩ := hm
  cases op
  case insert bytes =>
    obtain ⟨hb, hl⟩ := ha
    rw [kPageSize_eq] at hl
    refine .map <| (insertTuple_ends hs hm.linked hm.valid (fun q hq => hm.room hq) hl).mono
      fun {result t} hx => hx.imp_right ?_
    rintro ⟨rid, views', ps', rfl, ht, hx⟩
    have ⟨hf, hm'⟩ := hm.placed hx hb
    exact ⟨_, _, rfl, .insert hf, _, _, ht, hm'⟩
  case update rid bytes =>
    obtain ⟨hp, hb, hl⟩ := ha
    have hp := hm.mem_of_has hs hp
    obtain ⟨v, hv⟩ := hm.linked.view hp
    have he := hm.contents_eq hv hp
    rw [kPageSize_eq] at hl
    refine .map <| (updateTuple_ends hs hm.linked hm.valid (fun q hq => hm.room hq) hp hv hl).mono
      fun {result t} hx => hx.imp_right ?_
    rintro ⟨result, views', ps', rfl, ht, hx⟩
    cases hx
    case dead hf     => exact ⟨_, m, rfl, .dead (he.trans hf), views, ps, ht, hm⟩
    case rebound hn  =>
      refine ⟨_, Function.update m rid (some bytes), rfl, ?_, _, _, ht, hm.bind hp hv hb⟩
      have hs : HeapMap.Step m (.update rid bytes, _) _ := .update (he ▸ hn) (.inl rfl)
      rwa [Function.update_idem] at hs
    case moved rid' hn hx =>
      have ⟨hf, hm'⟩ := (hm.unbind hp hv).placed hx hb
      refine ⟨_, _, rfl, .update (he ▸ hn) ?_, _, _, ht, hm'⟩
      by_cases hr : rid' = rid
      case pos => exact .inl hr
      case neg => exact .inr <| by rwa [Function.update_of_ne hr] at hf
  case delete rid =>
    have hp := hm.mem_of_has hs ha
    obtain ⟨v, hv⟩ := hm.linked.view hp
    refine .map <| (deleteTuple_ends hs hv (hm.room hp)).mono fun {result t} hx => hx.imp And.left ?_
    rintro ⟨rfl, ht⟩
    refine ⟨_, _, rfl, ?_, _, _, ht, hm.unbind hp hv⟩
    rw [←hm.contents_eq hv hp]
    exact .delete
  case get rid =>
    have hp := hm.mem_of_has hs ha
    obtain ⟨v, hv⟩ := hm.linked.view hp
    refine .map <| (getTuple_ends hs hv (hm.room hp)).mono fun {result t} hx => hx.imp And.left ?_
    rintro ⟨rfl, ht⟩
    refine ⟨_, m, rfl, ?_, views, ps, ht, hm⟩
    have hg : (v.slots rid.slotNum).filter (· ≠ []) = m rid := by
      have hn := hm.nonempty rid
      rw [hm.contents_eq hv hp] at hn ⊢
      cases hs : v.slots rid.slotNum
      case none   => rfl
      case some b => simpa [Option.filter, hs] using hn
    rw [hg]
    exact .get

-- A new heap is empty.
theorem create_abstracts (ha : s.pool.Accounts owned pins) (hg : s.denied = false) :
    create.Ends s fun result t => t.Unless <| ∃ h, result = .ok h ∧ h.Abstracts pins t .empty := by
  have hs : s.Shows pins fun _ => none := ⟨owned, ⟨ha, hg, fun _ _ => nofun⟩, nofun⟩
  refine (create_shows hs).mono fun {result t} hx => hx.imp_right ?_
  rintro ⟨p, rfl, _, hi, hn, ht⟩
  have hp : Function.update (fun _ => none) p (some PageView.empty) p = some PageView.empty := Function.update_self ..
  refine ⟨_, rfl, _, [p], ht, .cons hp hi List.not_mem_nil .nil, hi, fun q hq => ?_, ?_, nofun⟩
  · exact List.mem_singleton.mp hq ▸ hn
  · funext rid
    by_cases hr : rid.pageId = p
    case neg => exact contents_of_not_mem (by simp [hr])
    case pos =>
      subst hr
      exact contents_of_mem List.mem_cons_self hp

theorem Abstracts.step (hm : h.Abstracts pins s m) (e : h.Step s call t) :
    ∃ m', HeapMap.Step m call m' ∧ h.Abstracts pins t m' := by
  obtain hd | ⟨r, m', hr, hx, ht⟩ := (hm.run e.admitted).of_eq e.returns
  · cases e.granted.symm.trans hd
  · obtain rfl := Except.ok.inj hr
    exact ⟨m', hx, ht⟩

theorem Abstracts.steps (hm : h.Abstracts pins s m) (hs : Runs.Steps h.Step s calls t) :
    ∃ m', Runs.Steps HeapMap.Step m calls m' ∧ h.Abstracts pins t m' :=
  hs.simulates (fun e hm => hm.step e) hm

theorem create_refinesMap (ha : s.pool.Accounts owned pins) (hg : s.denied = false)
    (hc : create s = some (.ok h, t)) (ht : t.denied = false) : h.RefinesMap t := by
  obtain hd | ⟨h', hr, hm⟩ := (create_abstracts ha hg).of_eq hc
  · cases ht.symm.trans hd
  · obtain rfl := Except.ok.inj hr
    constructor
    case refines =>
      intro calls u hs
      obtain ⟨m, hx, _⟩ := hm.steps hs
      exact ⟨m, hx⟩
    case returns =>
      intro calls u op hs hop
      obtain ⟨m, _, hu⟩ := hm.steps hs
      refine (hu.run hop).mono fun {result v} hx => hx.imp_right ?_
      rintro ⟨r, _, hr, _⟩
      exact ⟨r, hr⟩

-- The first heap of a new file, in a pool of one frame.
theorem create_refinesMap_fresh : ∃ t, create ⟨.create (.fresh .empty) 1, false⟩ = some (.ok ⟨1⟩, t) ∧
    RefinesMap ⟨1⟩ t :=
  have hc : create ⟨.create (.fresh .empty) 1, false⟩ = some (.ok ⟨1⟩, _) := rfl
  ⟨_, hc, create_refinesMap (.create DiskManager.fresh_wellFormed) rfl hc rfl⟩

end TableHeap
end Duck
