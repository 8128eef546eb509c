import Duck.Lib.Runs
import Mathlib.Logic.Function.Basic

namespace Duck

-- `page_` is a pin, which is a page as one `fetch_page` or `new_page` has given it.
structure PinnedPage (π : Type) where
  page  : Option π
  dirty : Bool := false

namespace PinnedPage

-- `PinnedPage(PinnedPage&& other)`, which does not look at `other.dirty_`.
def ofMoved (other : PinnedPage π) : PinnedPage π where
  page := other.page

-- What is left of a handle that has been moved from.
def moved (handle : PinnedPage π) : PinnedPage π :=
  { handle with page := none }

def markDirty (handle : PinnedPage π) : PinnedPage π :=
  { handle with dirty := true }

-- The call of `unpin_page` of a destructor, and of an assignment to the handle.
def unpins (handle : PinnedPage π) : List (π × Bool) :=
  handle.page.toList.map (·, handle.dirty)

end PinnedPage

-- The handles that are alive, the calls of `unpin_page` that they have made, the pins that handles were
-- constructed with, and those whose handle has been marked dirty.
structure PinnedPages (π : Type) where
  handles : ℕ → Option (PinnedPage π)
  unpins  : List (π × Bool)
  pinned  : List π
  marked  : List π

namespace PinnedPages

def empty : PinnedPages π where
  handles _ := none
  unpins    := []
  pinned    := []
  marked    := []

inductive Event (π : Type)
  | construct (handle : ℕ) (page : Option π)
  | markDirty (handle : ℕ)
  | moveConstruct (handle other : ℕ)
  | moveAssign (handle other : ℕ)
  | destroy (handle : ℕ)

def set (s : PinnedPages π) (i : ℕ) (handle : Option (PinnedPage π)) : PinnedPages π :=
  { s with handles := Function.update s.handles i handle }

inductive Step (s : PinnedPages π) : Event π → PinnedPages π → Prop
  | construct     : (s.handles i = none) → (∀ p ∈ page, p ∉ s.pinned) →
    Step s (.construct i page) { s.set i (some { page }) with pinned := page.toList ++ s.pinned }
  | markDirty     : (s.handles i = some handle) →
    Step s (.markDirty i) { s.set i (some handle.markDirty) with marked := handle.page.toList ++ s.marked }
  | moveConstruct : (s.handles i = none) → (s.handles j = some other) →
    Step s (.moveConstruct i j) ((s.set j (some other.moved)).set i (some (.ofMoved other)))
  | moveAssign    : (i ≠ j) → (s.handles i = some handle) → (s.handles j = some other) →
    Step s (.moveAssign i j) { (s.set j (some other.moved)).set i (some other) with unpins := handle.unpins ++ s.unpins }
  | selfAssign    : (s.handles i = some handle) → Step s (.moveAssign i i) s
  | destroy       : (s.handles i = some handle) →
    Step s (.destroy i) { s.set i none with unpins := handle.unpins ++ s.unpins }

end PinnedPages
end Duck
