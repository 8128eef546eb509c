import Duck.Buffer.Page
import Mathlib.Logic.Function.Basic

namespace Duck

abbrev FrameID := ℕ

-- The nodes of `mru_pages_` are numbered, and `positions_` holds the number of a node.
structure BufferReplacer where
  mruPages  : List (ℕ × PageID)
  positions : PageID → Option ℕ
  nextNode  : ℕ

namespace BufferReplacer

def empty : BufferReplacer where
  mruPages    := []
  positions _ := none
  nextNode    := 0

def remove (r : BufferReplacer) (pageId : PageID) : BufferReplacer :=
  match r.positions pageId with
  | some node => { r with
    mruPages  := r.mruPages.filter (·.1 ≠ node)
    positions := Function.update r.positions pageId none }
  | none => r

def record (r : BufferReplacer) (pageId : PageID) : BufferReplacer :=
  let r := r.remove pageId
  { mruPages  := r.mruPages ++ [(r.nextNode, pageId)]
    positions := Function.update r.positions pageId (some r.nextNode)
    nextNode  := r.nextNode + 1 }

def findLru (r : BufferReplacer) (frames : FrameID → Page) (pageTable : PageID → Option FrameID) :
    PageID :=
  let unpinned := r.mruPages.find? fun (_, pageId) =>
    (pageTable pageId).any fun frameId => (frames frameId).pinCount = 0
  (unpinned.map Prod.snd).getD invalidPageID

end BufferReplacer
end Duck
