import Duck.Buffer.Pager
import Duck.Table.SlottedPage

namespace Duck

structure TableHeap where
  firstPageId : PageID
  deriving DecidableEq, Repr

namespace TableHeap

open Pager

-- `SlottedPage slotted{page->data()}`
def slotted (frameId : FrameID) : PagerM SlottedPage :=
  (⟨·.bytes⟩) <$> data frameId

-- What is written through the span of a page stays on the page.
def put (frameId : FrameID) (page : SlottedPage) : PagerM Unit :=
  store frameId (.ofMemory page.data)

def create : PagerM TableHeap := do
  match ← newPage with
  | none         => throw "TableHeap: failed to create next page"
  | some frameId =>
    pinned frameId do
      put frameId (← slotted frameId).init
      return (⟨← pageId frameId⟩, true)

-- The two attempts of `insert_tuple` on one page.
def tryInsert (page : SlottedPage) (tupleData : List UInt8) : Option RID × SlottedPage :=
  match page.insertTuple tupleData none with
  | (some rid, page) => (some rid, page)
  | (none,     page) =>
    if page.isCompacted then (none, page) else page.compact.insertTuple tupleData none

-- The end of the chain: a new page is made and linked. The result is the page to try next.
def appendPage (frameId : FrameID) : PagerM (PageID × Bool) := do
  match ← newPage with
  | none             => throw "TableHeap: failed to create next page"
  | some nextFrameId =>
    pinned nextFrameId do
      put nextFrameId (← slotted nextFrameId).init
      return ((), true)
    let page ← slotted frameId
    if page.nextPage = invalidPageID then
      let page := page.setNextPage (← pageId nextFrameId)
      put frameId page
      return (page.nextPage, true)
    else
      discard <| deletePage (← pageId nextFrameId)
      return (page.nextPage, false)

-- The body of the loop of `insert_tuple`: the RID, or the page to try next and `created_new_page`.
def visitPage (frameId : FrameID) (tupleData : List UInt8) (createdNewPage : Bool) :
    PagerM (RID ⊕ PageID × Bool) :=
  pinned frameId do
    let (rid, page) := tryInsert (← slotted frameId) tupleData
    put frameId page
    match rid with
    | some rid => return (.inl { rid with pageId := ← pageId frameId }, true)
    | none     =>
      if page.nextPage ≠ invalidPageID then
        return (.inr (page.nextPage, createdNewPage), false)
      else if createdNewPage then
        throw <| "TableHeap::insert_tuple: tuple failed to fit even on a freshly created page — " ++
          "this indicates a bug in SlottedPage size accounting"
      else
        let (next, dirty) ← appendPage frameId
        return (.inr (next, true), dirty)

def insertFrom (pageId : PageID) (tupleData : List UInt8) (createdNewPage : Bool) :
    PagerM (Option RID) :=
  .loop (fun (pageId, createdNewPage) => do
    match ← fetchPage pageId with
    | none         => return .inr none
    | some frameId =>
      match ← visitPage frameId tupleData createdNewPage with
      | .inl rid  => return .inr (some rid)
      | .inr next => return .inl next)
    (pageId, createdNewPage)

def insertTuple (h : TableHeap) (tupleData : List UInt8) : PagerM (Option RID) :=
  if kPageSize - 8 - 4 < tupleData.length then
    throw "TableHeap::insert_tuple: tuple exceeds maximum page capacity"
  else
    insertFrom h.firstPageId tupleData false

-- A call that fetches one page, and looks at it or changes it at once. It says whether it has marked
-- the page dirty.
def onPage (id : PageID) (missing : α) (body : PageID → SlottedPage → α × SlottedPage × Bool) :
    PagerM α := do
  match ← fetchPage id with
  | none         => return missing
  | some frameId =>
    pinned frameId do
      let (result, page, dirty) := body (← pageId frameId) (← slotted frameId)
      put frameId page
      return (result, dirty)

def getTuple (_ : TableHeap) (rid : RID) : PagerM (Option (List UInt8)) :=
  onPage rid.pageId none fun _ page =>
    let view := page.getTuple rid.slotNum
    (if view = [] then none else some view, page, false)

-- What `update_tuple` does on the page: the answer, or `none` where it goes on to `insert_tuple`.
def tryUpdate (rid : RID) (tuple : List UInt8) (id : PageID) (page : SlottedPage) :
    Option (Option RID) × SlottedPage × Bool :=
  if !page.hasSlot rid.slotNum then
    (some none, page, false)
  else
    match page.tryUpdateInPlace rid tuple with
    | (true,  page) => (some rid, page, true)
    | (false, page) =>
      match page.deleteTuple rid.slotNum with
      | (false, page) => (some none, page, false)
      | (true,  page) =>
        let page := if page.isCompacted then page else page.compact
        match page.insertTuple tuple rid.slotNum with
        | (some rid', page) => (some (some { rid' with pageId := id }), page, true)
        | (none,      page) => (none, page, true)

def updateTuple (h : TableHeap) (rid : RID) (tuple : List UInt8) : PagerM (Option RID) := do
  match ← onPage rid.pageId (some none) (tryUpdate rid tuple) with
  | some result => return result
  | none        => h.insertTuple tuple

def deleteTuple (_ : TableHeap) (rid : RID) : PagerM Bool :=
  onPage rid.pageId false fun _ page =>
    let (deleted, page) := page.deleteTuple rid.slotNum
    (deleted, page, deleted)

-- The page is not marked dirty. A failing assertion ends the program.
def restoreTuple (_ : TableHeap) (rid : RID) (tuple : List UInt8) : PagerM Unit := do
  let restored ← onPage rid.pageId true fun _ page =>
    match page.restoreTuple rid.slotNum tuple with
    | some page => (true,  page, false)
    | none      => (false, page, false)
  if !restored then
    throw "SlottedPage::restore_tuple: assertion failed"

inductive FetchStatus
  | failed
  | success
  deriving DecidableEq

-- The loop of `all_pages`, with the pages found so far.
def collectPages (id : PageID) (result : List PageID) : PagerM (List PageID × FetchStatus) :=
  .loop (fun (id, result) => do
    match ← fetchPage id with
    | none         => return .inr (result, .failed)
    | some frameId =>
      let nextPage ← pinned frameId do return ((← slotted frameId).nextPage, false)
      let result := result ++ [id]
      if nextPage = invalidPageID then
        return .inr (result, .success)
      else
        return .inl (nextPage, result))
    (id, result)

def allPages (h : TableHeap) : PagerM (List PageID × FetchStatus) :=
  collectPages h.firstPageId []

def dropPage (_ : TableHeap) (pageId : PageID) : PagerM Bool :=
  deletePage pageId

end TableHeap
end Duck
