import Duck.Buffer.Session
import Duck.Lib.Threads
import Duck.Table.Scan

namespace Duck
namespace ScanThread

-- What a scan does with the pool and its pages, each in one step. The frame stands for the page.
inductive Action
  | fetchPage (pageId : PageID)
  | slotted   (frameId : FrameID)
  | pageId    (frameId : FrameID)
  | unpin     (frameId : FrameID)

@[reducible]
def Action.Result : Action → Type
  | fetchPage _ => Option FrameID
  | slotted _   => SlottedPage
  | pageId _    => PageID
  | unpin _     => Unit

end ScanThread

abbrev ScanThread :=
  Thread ScanThread.Action ScanThread.Action.Result

namespace ScanThread

open Thread TableHeap

def step (a : Action) : ScanThread a.Result :=
  perform a

def scan (h : TableHeap) : ScanThread TableHeap.Scan := do
  return ⟨⟨h.firstPageId, 0⟩, ← step (.fetchPage h.firstPageId)⟩

def nextPage (scan : TableHeap.Scan) : ScanThread (Bool × TableHeap.Scan) :=
  match scan.currentPage with
  | none         => return (false, scan)
  | some frameId => do
    let page ← step (.slotted frameId)
    if !page.hasNextPage then
      return (false, scan)
    else
      step (.unpin frameId)
      match ← step (.fetchPage page.nextPage) with
      | none      => return (false, scan)
      | some next => return (true, ⟨⟨← step (.pageId next), 0⟩, some next⟩)

-- The body of the loop of `next`.
def turn (scan : TableHeap.Scan) : ScanThread (TableHeap.Scan ⊕ Option (RID × List UInt8) × TableHeap.Scan) :=
  match scan.currentPage with
  | none         => return .inr (none, scan)
  | some frameId => do
    let page ← step (.slotted frameId)
    let scan := scan.skip page
    let rid := scan.currentRid
    if !page.hasSlot rid.slotNum then
      match ← nextPage scan with
      | (true,  scan) => return .inl scan
      | (false, scan) => return .inr (none, scan)
    else
      return .inr (some (rid, page.getTuple rid.slotNum),
        { scan with currentRid.slotNum := (rid.slotNum + 1) % 65536 })

def close (scan : TableHeap.Scan) : ScanThread Unit :=
  match scan.currentPage with
  | none         => return ()
  | some frameId => step (.unpin frameId)

-- What a step does to the pager.
def run : (a : Action) → PagerM a.Result
  | .fetchPage pageId => Pager.fetchPage pageId
  | .slotted frameId  => TableHeap.slotted frameId
  | .pageId frameId   => Pager.pageId frameId
  | .unpin frameId    => .update <| Pager.unpin frameId false

-- An object that is not there, between two calls, before a turn of the loop of `next`, or in a move
-- assignment that has unpinned the page of its target.
inductive Life
  | absent
  | ready     (scan : TableHeap.Scan)
  | looping   (scan : TableHeap.Scan)
  | assigning (other : ℕ)

-- The page that the object points to.
def Life.currentPage : Life → Option FrameID
  | absent | assigning _       => none
  | ready scan | looping scan  => scan.currentPage

def construct (h : TableHeap) : ScanThread Life := do
  return .ready (← scan h)

def next (scan : TableHeap.Scan) : ScanThread Life := do
  match ← turn scan with
  | .inl scan      => return .looping scan
  | .inr (_, scan) => return .ready scan

-- What comes after the unpin of the destructor, or of an assignment.
def leave (scan : TableHeap.Scan) (life : Life) : ScanThread Life := do
  close scan
  return life

end ScanThread

-- What is left of a scan that has been moved from.
def TableHeap.Scan.moved (scan : TableHeap.Scan) : TableHeap.Scan :=
  { scan with currentPage := none }

-- The scans on a pool, and its other clients. `fetched` has the page of each `fetch_page` that gave one to a
-- scan, `unpinned` the page of each `unpin_page` that a scan has called, and `held` the pins that a scan has
-- fetched and not unpinned since.
structure Scans where
  clients  : Session
  threads  : ℕ → ScanThread ScanThread.Life
  held     : List (ℕ × Pin)
  fetched  : List PageID
  unpinned : List PageID

namespace Scans

inductive Label
  | others (event : Event)
  | construct (scan : ℕ)
  | next (scan : ℕ)
  | turn (scan : ℕ)
  | moveConstruct (scan other : ℕ)
  | moveAssign (scan other : ℕ)
  | assigned (scan other : ℕ)
  | destroy (scan : ℕ)
  | fetchPage (scan : ℕ)
  | noPage (scan : ℕ)
  | slotted (scan : ℕ)
  | pageId (scan : ℕ)
  | unpin (scan : ℕ)

def set (s : Scans) (i : ℕ) (x : ScanThread ScanThread.Life) : Scans :=
  { s with threads := Function.update s.threads i x }

-- What `j` points to is what `i` points to from then on.
def move (s : Scans) (j i : ℕ) (other : TableHeap.Scan) : Scans :=
  { (s.set j (.ret (.ready other.moved))).set i (.ret (.ready other)) with
    held := s.held.map fun (k, pin) => (if k = j then i else k, pin) }

def setPool (s : Scans) (m : PoolManager) : Scans :=
  { s with clients.pool := m }

-- Other clients come between any two steps of a scan. The pages of a heap are owned by clients, and no call
-- of the disk fails.
inductive Step (s : Scans) : Label → Scans → Prop
  | others        : (s.clients.Step event c) → Step s (.others event) { s with clients := c }
  | construct     : (s.threads i = .ret .absent) → Step s (.construct i) (s.set i (ScanThread.construct h))
  | next          : (s.threads i = .ret (.ready scan)) → Step s (.next i) (s.set i (.ret (.looping scan)))
  | turn          : (s.threads i = .ret (.looping scan)) → Step s (.turn i) (s.set i (ScanThread.next scan))
  | moveConstruct : (s.threads i = .ret .absent) → (s.threads j = .ret (.ready other)) →
    Step s (.moveConstruct i j) (s.move j i other)
  | moveAssign    : (i ≠ j) → (s.threads i = .ret (.ready scan)) →
    Step s (.moveAssign i j) (s.set i (ScanThread.leave scan (.assigning j)))
  | assigned      : (s.threads i = .ret (.assigning j)) → (s.threads j = .ret (.ready other)) →
    Step s (.assigned i j) (s.move j i other)
  | selfAssign    : (s.threads i = .ret (.ready scan)) → Step s (.moveAssign i i) s
  | destroy       : (s.threads i = .ret (.ready scan)) → Step s (.destroy i) (s.set i (ScanThread.leave scan .absent))
  | fetchPage     : (s.threads i = .act (.fetchPage p) k) → (p ∈ s.clients.owned) →
    (s.clients.pool.fetchPage p = (.ok (some f), m)) →
    Step s (.fetchPage i) { (s.set i (k (some f))).setPool m with
      held    := (i, ⟨p, f, false⟩) :: s.held
      fetched := p :: s.fetched }
  | noPage        : (s.threads i = .act (.fetchPage p) k) → (p ∈ s.clients.owned) →
    (s.clients.pool.fetchPage p = (.ok none, m)) → Step s (.noPage i) ((s.set i (k none)).setPool m)
  | slotted       : (s.threads i = .act (.slotted f) k) →
    Step s (.slotted i) (s.set i (k ⟨(s.clients.pool.frames f).data.bytes⟩))
  | pageId        : (s.threads i = .act (.pageId f) k) →
    Step s (.pageId i) (s.set i (k (s.clients.pool.frames f).pageId))
  | unpin         : (s.threads i = .act (.unpin f) k) →
    Step s (.unpin i) {
      (s.set i (k ())).setPool (s.clients.pool.unpinPage (s.clients.pool.frames f).pageId false) with
      held     := s.held.filter (·.1 ≠ i)
      unpinned := (s.clients.pool.frames f).pageId :: s.unpinned }

def Holds (s : Scans) (i : ℕ) (f : FrameID) : Prop :=
  ∃ pin, (i, pin) ∈ s.held ∧ pin.frameId = f

-- A scan looks at pages it holds only, unpins those only, and holds none when it fetches one and when it is
-- no more. Every page it has fetched it has unpinned once or holds, and the pins of a page are those of the
-- scans and the other clients.
structure Balanced (s : Scans) : Prop where
  fetches   : ∀ i p k, s.threads i = .act (.fetchPage p) k → ∀ f, ¬s.Holds i f
  reads     : ∀ i f k, s.threads i = .act (.slotted f) k → s.Holds i f
  names     : ∀ i f k, s.threads i = .act (.pageId f) k → s.Holds i f
  unpins    : ∀ i f k, s.threads i = .act (.unpin f) k → s.Holds i f
  destroyed : ∀ i, s.threads i = .ret .absent → ∀ f, ¬s.Holds i f
  once      : s.fetched.Perm (s.unpinned ++ s.held.map (·.2.pageId))
  count     : ∀ p f, s.clients.pool.pageTable p = some f →
    (s.clients.pool.frames f).pinCount.toNat = pinsOn s.clients.pins p + pinsOn (s.held.map Prod.snd) p

end Scans
end Duck
