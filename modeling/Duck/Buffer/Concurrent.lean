import Duck.Buffer.Session
import Duck.Buffer.Theorems.PoolManager.Failure

namespace Duck

-- A pool that many clients use at once. A client whose call is between two critical sections waits in
-- one of the last three lists, and other clients may take their turns before it goes on.
structure Concurrent where
  pool     : PoolManager
  owned    : List PageID
  pins     : List Pin
  fetching : List PageID -- after a cache miss of `fetch_page`, before `swap_page`
  loading  : List Pin    -- after the latched section of `swap_page`, before `read_page`
  creating : List PageID -- after `allocate_page`, before the `swap_page` of `new_page`

namespace Concurrent

def start (disk : DiskManager) (poolCapacity : ℕ) : Concurrent where
  pool     := .create disk poolCapacity
  owned    := []
  pins     := []
  fetching := []
  loading  := []
  creating := []

-- The pins that clients have taken and not given back.
def outstanding (s : Concurrent) : List Pin :=
  s.loading ++ s.pins

inductive Section where
  | findCachedPage (pageId : PageID)
  | fetchSwap (pageId : PageID)
  | readPage (pin : Pin)
  | allocatePage
  | newSwap (pageId : PageID)
  | write (pin : Pin) (data : PageData)
  | unpinPage (pageId : PageID) (dirty : Bool)
  | deletePage (pageId : PageID)
  | disk (failing : Bool) -- the operating system starts or stops to refuse calls

-- Every section is one step. Clients touch the pages they own only, in the second section of a call as
-- in the first, and give each pin back once. A call that throws leaves its client without a pin.
inductive Step (s : Concurrent) : Section → Concurrent → Prop
  | hit :
    (p ∈ s.owned) → (s.pool.findCachedPage p = (some f, m)) →
    Step s (.findCachedPage p) { s with pool := m, pins := ⟨p, f, false⟩ :: s.pins }
  | miss :
    (p ∈ s.owned) → (s.pool.findCachedPage p = (none, m)) →
    Step s (.findCachedPage p) { s with pool := m, fetching := p :: s.fetching }
  | fetchSwap :
    (s.fetching = ps₁ ++ p :: ps₂) → (p ∈ s.owned) → (s.pool.swapFrame p = (.ok (some f), m)) →
    Step s (.fetchSwap p) {
      s with pool := m, fetching := ps₁ ++ ps₂, loading := ⟨p, f, false⟩ :: s.loading }
  | noFetchSwap :
    (s.fetching = ps₁ ++ p :: ps₂) → (p ∈ s.owned) → (s.pool.swapFrame p = (result, m)) →
    (∀ f, result ≠ .ok (some f)) → Step s (.fetchSwap p) { s with pool := m, fetching := ps₁ ++ ps₂ }
  | readPage :
    (s.loading = pins₁ ++ pin :: pins₂) →
    (s.pool.readFrame pin.frameId pin.pageId = (.ok (some f), m)) →
    Step s (.readPage pin) { s with pool := m, loading := pins₁ ++ pins₂, pins := pin :: s.pins }
  | noReadPage :
    (s.loading = pins₁ ++ pin :: pins₂) →
    (s.pool.readFrame pin.frameId pin.pageId = (.error e, m)) →
    Step s (.readPage pin) { s with pool := m, loading := pins₁ ++ pins₂ }
  | allocatePage :
    Step s .allocatePage { s with
      pool     := { s.pool with disk := s.pool.disk.allocatePage.2 }
      creating := s.pool.disk.allocatePage.1 :: s.creating }
  | newSwap :
    (s.creating = ps₁ ++ p :: ps₂) → (s.pool.swapFrame p = (.ok (some f), m)) →
    Step s (.newSwap p) { s with
      pool     := m
      creating := ps₁ ++ ps₂
      owned    := p :: s.owned
      pins     := ⟨p, f, true⟩ :: s.pins }
  | noNewSwap :
    (s.creating = ps₁ ++ p :: ps₂) → (s.pool.swapFrame p = (result, m)) →
    (∀ f, result ≠ .ok (some f)) → Step s (.newSwap p) { s with pool := m, creating := ps₁ ++ ps₂ }
  | write :
    (pin ∈ s.pins) →
    Step s (.write pin data) { s with
      pool := s.pool.setFrame pin.frameId { s.pool.frames pin.frameId with data := data } }
  | unpinPage :
    (s.pins = pins₁ ++ pin :: pins₂) →
    Step s (.unpinPage pin.pageId dirty) { s with
      pool := s.pool.unpinPage pin.pageId dirty
      pins := pins₁ ++ pins₂ }
  | deletePage :
    (p ∈ s.owned) → (s.pool.deletePage p = (.ok deleted, m)) →
    Step s (.deletePage p) { s with
      pool  := m
      owned := if deleted then s.owned.filter (· ≠ p) else s.owned }
  | noDeletePage :
    (p ∈ s.owned) → (s.pool.deletePage p = (.error e, m)) →
    Step s (.deletePage p) { s with pool := m }
  | disk :
    Step s (.disk failing) { s with
      pool := { s.pool with
        disk := { s.pool.disk with file := { s.pool.disk.file with failing := failing } } } }

-- The page that would go can be written back, if it is dirty.
def Writable (s : Concurrent) : Prop :=
  ∀ f, s.pool.Victim f → (s.pool.frames f).isDirty → s.pool.disk.file.failing = false

-- The branches that go wrong are not taken: the `swap_page` of a fetch finds its page not cached by
-- another client meanwhile, no write or read of the disk fails, a page never gets 2 ^ 32 pins, and the
-- file does not grow beyond 2 ^ 32 - 1 pages.
def Careful (s : Concurrent) : Section → Prop
  | .findCachedPage p => pinsOn s.outstanding p + 1 < 4294967296
  | .fetchSwap p      => s.pool.pageTable p = none ∧ s.Writable
  | .readPage _       => s.pool.disk.file.failing = false
  | .allocatePage     => s.pool.disk.freeList = [] → s.pool.disk.capacity < invalidPageID
  | .newSwap _        => s.Writable
  | _                 => True

def CarefulStep (s : Concurrent) (a : Section) (t : Concurrent) : Prop :=
  Step s a t ∧ s.Careful a

-- A page is in one frame, which the table knows and all its clients share.
structure OneFrame (s : Concurrent) : Prop where
  unique : ∀ f g, (s.pool.frames f).pageId ≠ invalidPageID →
    (s.pool.frames f).pageId = (s.pool.frames g).pageId → f = g
  table  : ∀ f, (s.pool.frames f).pageId ≠ invalidPageID → s.pool.pageTable (s.pool.frames f).pageId = some f
  count  : ∀ f, (s.pool.frames f).pageId ≠ invalidPageID →
    (s.pool.frames f).pinCount.toNat = pinsOn s.outstanding (s.pool.frames f).pageId
  held   : ∀ pin ∈ s.outstanding, (s.pool.frames pin.frameId).pageId = pin.pageId
  shared : ∀ pin ∈ s.outstanding, ∀ pin' ∈ s.outstanding, pin.pageId = pin'.pageId → pin.frameId = pin'.frameId

-- No frame with a positive pin count is given to another page.
def KeepsPinned (s t : Concurrent) : Prop :=
  ∀ f, (s.pool.frames f).pinCount ≠ 0 → (t.pool.frames f).pageId = (s.pool.frames f).pageId

end Concurrent
end Duck
