import Duck.Buffer.PoolManager
import Duck.Lib.Runs

namespace Duck

-- A pin that a client holds: the page, the frame it was given for it, and whether it owes the pool a
-- dirty unpin.
structure Pin where
  pageId  : PageID
  frameId : FrameID
  wrote   : Bool

def pinsOn (pins : List Pin) (pageId : PageID) : ℕ :=
  pins.countP fun pin => pin.pageId = pageId

-- What a call shows to its client. A missing page stands for the null pointer.
inductive Event where
  | newPage (page : Option (PageID × PageData))
  | fetchPage (pageId : PageID) (data : Option PageData)
  | write (pageId : PageID) (data : PageData)
  | unpinPage (pageId : PageID) (dirty : Bool)
  | deletePage (pageId : PageID) (deleted : Bool)
  | flushAll
  | flushDisk

-- The map that the pool is meant to be.
abbrev PageMap := PageID → Option PageData

namespace PageMap

def empty : PageMap :=
  fun _ => none

inductive Step (m : PageMap) : Event → PageMap → Prop
  | newPage    : (m p = none) → Step m (.newPage (some (p, .zero))) (Function.update m p (some .zero))
  | noNewPage  : Step m (.newPage none) m
  | fetchPage  : (m p = some data) → Step m (.fetchPage p (some data)) m
  | noPage     : Step m (.fetchPage p none) m
  | write      : (m p = some old) → Step m (.write p data) (Function.update m p (some data))
  | unpinPage  : Step m (.unpinPage p dirty) m
  | deletePage : Step m (.deletePage p true) (Function.update m p none)
  | noDelete   : Step m (.deletePage p false) m
  | flushAll   : Step m .flushAll m
  | flushDisk  : Step m .flushDisk m

end PageMap

-- A pool with the pages its clients own and the pins they hold.
structure Session where
  pool  : PoolManager
  owned : List PageID
  pins  : List Pin

namespace Session

def start (disk : DiskManager) (poolCapacity : ℕ) : Session where
  pool  := .create disk poolCapacity
  owned := []
  pins  := []

-- The calls of clients that keep to the protocol: they touch the pages they own only, give each pin
-- back once, and do so with `dirty` after a write and for a new page. No call of the disk fails.
inductive Step (s : Session) : Event → Session → Prop
  | newPage :
    (s.pool.newPage = (.ok (some f), m)) →
    Step s (.newPage (some ((m.frames f).pageId, (m.frames f).data))) {
      pool  := m
      owned := (m.frames f).pageId :: s.owned
      pins  := ⟨(m.frames f).pageId, f, true⟩ :: s.pins }
  | noNewPage :
    (s.pool.newPage = (.ok none, m)) → Step s (.newPage none) { s with pool := m }
  | fetchPage :
    (p ∈ s.owned) → (s.pool.fetchPage p = (.ok (some f), m)) →
    Step s (.fetchPage p (some (m.frames f).data)) {
      s with pool := m, pins := ⟨p, f, false⟩ :: s.pins }
  | noPage :
    (p ∈ s.owned) → (s.pool.fetchPage p = (.ok none, m)) →
    Step s (.fetchPage p none) { s with pool := m }
  | write :
    (s.pins = pins₁ ++ pin :: pins₂) →
    Step s (.write pin.pageId data) { s with
      pool := s.pool.setFrame pin.frameId { s.pool.frames pin.frameId with data := data }
      pins := pins₁ ++ { pin with wrote := true } :: pins₂ }
  | unpinPage :
    (s.pins = pins₁ ++ pin :: pins₂) → (pin.wrote → dirty = true) →
    Step s (.unpinPage pin.pageId dirty) { s with
      pool := s.pool.unpinPage pin.pageId dirty
      pins := pins₁ ++ pins₂ }
  | deletePage :
    (p ∈ s.owned) → (s.pool.deletePage p = (.ok deleted, m)) →
    Step s (.deletePage p deleted) { s with
      pool  := m
      owned := if deleted then s.owned.filter (· ≠ p) else s.owned }
  | flushAll :
    (s.pool.flushAll = (.ok (), m)) → Step s .flushAll { s with pool := m }
  | flushDisk :
    Step s .flushDisk { s with pool := { s.pool with disk := s.pool.disk.flushAll } }

-- The file stays below 2 ^ 32 - 1 pages.
def RoomyStep (s : Session) (e : Event) (t : Session) : Prop :=
  Step s e t ∧ t.pool.disk.capacity < invalidPageID

-- Also, a page never has 2 ^ 32 pins at once.
def BoundedStep (s : Session) (e : Event) (t : Session) : Prop :=
  RoomyStep s e t ∧ ∀ p, pinsOn t.pins p < 4294967296

end Session
end Duck
