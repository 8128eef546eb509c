import Duck.Buffer.PoolManager
import Duck.Lib.Program

namespace Duck

-- A pool, and whether it has let a caller down: a `fetch_page` or `new_page` that gave no page, or a
-- page without a valid id.
structure Pager where
  pool   : PoolManager
  denied : Bool

abbrev PagerM := Program Pager String

namespace Pager

def fetchPage (pageId : PageID) : PagerM (Option FrameID) :=
  .call fun s => match s.pool.fetchPage pageId with
    | (.ok (some frameId), m) => (.ok (some frameId), { s with pool := m })
    | (result, m)             => (result, ⟨m, true⟩)

def newPage : PagerM (Option FrameID) :=
  .call fun s => match s.pool.newPage with
    | (.ok (some frameId), m) =>
      (.ok (some frameId), ⟨m, s.denied || (m.frames frameId).pageId = invalidPageID⟩)
    | (result, m)             => (result, ⟨m, true⟩)

def deletePage (pageId : PageID) : PagerM Bool :=
  .call fun s => ((s.pool.deletePage pageId).1, { s with pool := (s.pool.deletePage pageId).2 })

def unpin (frameId : FrameID) (dirty : Bool) (s : Pager) : Pager :=
  { s with pool := s.pool.unpinPage (s.pool.frames frameId).pageId dirty }

-- The scope of a `PinnedPage`. Its body says whether it has marked the page dirty; a body that throws
-- has not.
def pinned (frameId : FrameID) (body : PagerM (α × Bool)) : PagerM α :=
  .cleanly body fun dirty => unpin frameId (dirty.getD false)

def pageId (frameId : FrameID) : PagerM PageID :=
  .read fun s => (s.pool.frames frameId).pageId

def data (frameId : FrameID) : PagerM PageData :=
  .read fun s => (s.pool.frames frameId).data

def write (frameId : FrameID) (data : PageData) (s : Pager) : Pager :=
  { s with pool := s.pool.setFrame frameId { s.pool.frames frameId with data := data } }

def store (frameId : FrameID) (data : PageData) : PagerM Unit :=
  .update <| write frameId data

end Pager
end Duck
