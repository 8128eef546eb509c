import Duck.Buffer.Replacer
import Duck.Storage.DiskManager

namespace Duck

abbrev invalidFrameID : FrameID := 4294967295

@[ext]
structure PoolManager where
  disk         : DiskManager
  poolCapacity : ℕ
  poolSize     : ℕ
  frames       : FrameID → Page
  pageTable    : PageID → Option FrameID
  freeFrames   : List FrameID -- the back of the vector is the end of the list
  replacer     : BufferReplacer

namespace PoolManager

def create (disk : DiskManager) (poolCapacity : ℕ) : PoolManager where
  disk         := disk
  poolCapacity := poolCapacity
  poolSize     := 0
  frames _     := .empty
  pageTable _  := none
  freeFrames   := []
  replacer     := .empty

def setFrame (m : PoolManager) (frameId : FrameID) (page : Page) : PoolManager :=
  { m with frames := Function.update m.frames frameId page }

-- `pool_size_++` is narrowed to a `FrameID`. The page that `find_lru` names is in the table.
def findNextFrame (m : PoolManager) : FrameID × PoolManager :=
  match m.freeFrames.getLast? with
  | some frameId => (frameId, { m with freeFrames := m.freeFrames.dropLast })
  | none =>
    if m.poolSize < m.poolCapacity then
      (m.poolSize % 4294967296, { m with poolSize := m.poolSize + 1 })
    else
      let pageId := m.replacer.findLru m.frames m.pageTable
      if pageId ≠ invalidPageID then
        ((m.pageTable pageId).getD 0, m)
      else
        (invalidFrameID, m)

def findCachedPage (m : PoolManager) (pageId : PageID) : Option FrameID × PoolManager :=
  match m.pageTable pageId with
  | some frameId =>
    let m := m.setFrame frameId (m.frames frameId).incPinCount
    (some frameId, { m with replacer := m.replacer.record pageId })
  | none => (none, m)

def flushPage (m : PoolManager) (page : Page) : Except String DiskManager :=
  m.disk.writePage page.pageId page.data

-- `swap_page` up to `lock.unlock()`. `none` stands for the null pointer. A failing write-back leaves
-- the section with the victim out of the table already.
def swapFrame (m : PoolManager) (pageId : PageID) : Except String (Option FrameID) × PoolManager :=
  let (frameId, m) := m.findNextFrame
  if frameId = invalidFrameID then
    (.ok none, m)
  else
    let page := m.frames frameId
    let m := if page.pageId ≠ invalidPageID then
        { m with
          pageTable := Function.update m.pageTable page.pageId none
          replacer  := m.replacer.remove page.pageId }
      else
        m
    match if page.isDirty then m.flushPage page else .ok m.disk with
    | .error e => (.error e, m)
    | .ok disk =>
      let m := { m with
        disk      := disk
        pageTable := Function.update m.pageTable pageId (some frameId)
        replacer  := m.replacer.record pageId }
      (.ok (some frameId), m.setFrame frameId (Page.resetMemory pageId).incPinCount)

-- The rest of `swap_page`, outside the latch of the pool.
def readFrame (m : PoolManager) (frameId : FrameID) (pageId : PageID) :
    Except String (Option FrameID) × PoolManager :=
  match m.disk.readPage pageId with
  | .error e => (.error e, m)
  | .ok data => (.ok (some frameId), m.setFrame frameId { m.frames frameId with data := data })

def swapPage (m : PoolManager) (pageId : PageID) (readFromDisk : Bool) :
    Except String (Option FrameID) × PoolManager :=
  match m.swapFrame pageId with
  | (.ok (some frameId), m) =>
    if readFromDisk then m.readFrame frameId pageId else (.ok (some frameId), m)
  | result => result

def fetchPage (m : PoolManager) (pageId : PageID) : Except String (Option FrameID) × PoolManager :=
  match m.findCachedPage pageId with
  | (some frameId, m) => (.ok (some frameId), m)
  | (none,         m) => m.swapPage pageId true

def newPage (m : PoolManager) : Except String (Option FrameID) × PoolManager :=
  let (pageId, disk) := m.disk.allocatePage
  { m with disk := disk }.swapPage pageId false

def deallocate (m : PoolManager) (pageId : PageID) : Except String Bool × PoolManager :=
  match m.disk.deallocatePage pageId with
  | .error e => (.error e, m)
  | .ok disk => (.ok true, { m with disk := disk })

def deletePage (m : PoolManager) (pageId : PageID) : Except String Bool × PoolManager :=
  match m.pageTable pageId with
  | some frameId =>
    if 0 < (m.frames frameId).pinCount then
      (.ok false, m)
    else
      let m := { m with
        pageTable  := Function.update m.pageTable pageId none
        replacer   := m.replacer.remove pageId
        freeFrames := m.freeFrames ++ [frameId] }
      (m.setFrame frameId (.resetMemory invalidPageID)).deallocate pageId
  | none => m.deallocate pageId

def unpinPage (m : PoolManager) (pageId : PageID) (dirty : Bool) : PoolManager :=
  match m.pageTable pageId with
  | some frameId =>
    let page := m.frames frameId
    let page := if dirty then page.setDirty else page
    m.setFrame frameId page.decPinCount
  | none => m

-- The loop of `flush_all` over the given frames, which the first failing write ends.
def flushFrames (m : PoolManager) : List FrameID → Except String Unit × PoolManager
  | []                  => (.ok (), m)
  | frameId :: frameIds =>
    if (m.frames frameId).isDirty then
      match m.flushPage (m.frames frameId) with
      | .error e => (.error e, m)
      | .ok disk => { m with disk := disk }.flushFrames frameIds
    else
      m.flushFrames frameIds

def flushAll (m : PoolManager) : Except String Unit × PoolManager :=
  m.flushFrames (List.range m.poolSize)

end PoolManager
end Duck
