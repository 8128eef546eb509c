import Duck.Table.TableHeap

namespace Duck.TableHeap

-- A missing frame stands for the null pointer.
structure Scan where
  currentRid  : RID
  currentPage : Option FrameID

open Pager

def scan (h : TableHeap) : PagerM Scan := do
  return ⟨⟨h.firstPageId, 0⟩, ← fetchPage h.firstPageId⟩

namespace Scan

def nextRid (scan : Scan) : RID :=
  scan.currentRid

-- The first part of `next`: the next occupied slot of the page if the current one is not.
def skip (scan : Scan) (page : SlottedPage) : Scan :=
  if page.hasSlot scan.currentRid.slotNum then
    scan
  else
    match page.nextOccupiedSlot scan.currentRid.slotNum with
    | some slotNum => { scan with currentRid.slotNum := slotNum }
    | none         => scan

-- A page that cannot be left for the next one stays the current page, without its pin.
def nextPage (scan : Scan) : PagerM (Bool × Scan) :=
  match scan.currentPage with
  | none         => return (false, scan)
  | some frameId => do
    let page ← slotted frameId
    if !page.hasNextPage then
      return (false, scan)
    else
      .update <| unpin frameId false
      match ← fetchPage page.nextPage with
      | none      => return (false, scan)
      | some next => return (true, ⟨⟨← pageId next, 0⟩, some next⟩)

-- The slot number is a `uint16_t`.
def next (scan : Scan) : PagerM (Option (RID × List UInt8) × Scan) :=
  .loop (fun scan => do
    match scan.currentPage with
    | none         => return .inr (none, scan)
    | some frameId =>
      let page ← slotted frameId
      let scan := scan.skip page
      let rid := scan.currentRid
      if !page.hasSlot rid.slotNum then
        match ← scan.nextPage with
        | (true,  scan) => return .inl scan
        | (false, scan) => return .inr (none, scan)
      else
        return .inr (some (rid, page.getTuple rid.slotNum),
          { scan with currentRid.slotNum := (rid.slotNum + 1) % 65536 }))
    scan

-- The destructor.
def close (scan : Scan) : PagerM Unit :=
  match scan.currentPage with
  | none         => return ()
  | some frameId => .update <| unpin frameId false

end Scan
end Duck.TableHeap
