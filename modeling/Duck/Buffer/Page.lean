import Duck.Storage.PageData

namespace Duck

-- A frame of the pool.
@[ext]
structure Page where
  pageId   : PageID
  data     : PageData
  pinCount : UInt32
  isDirty  : Bool

namespace Page

def empty : Page where
  pageId   := invalidPageID
  data     := .zero
  pinCount := 0
  isDirty  := false

def setDirty (p : Page) : Page :=
  { p with isDirty := true }

def incPinCount (p : Page) : Page :=
  { p with pinCount := p.pinCount + 1 }

def decPinCount (p : Page) : Page :=
  { p with pinCount := p.pinCount - 1 }

def resetMemory (pageId : PageID) : Page where
  pageId   := pageId
  data     := .zero
  pinCount := 0
  isDirty  := false

end Page
end Duck
