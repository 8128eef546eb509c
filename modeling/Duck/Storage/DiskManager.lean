import Duck.Storage.File

namespace Duck

abbrev kDBMagic : ℕ := 0x4455434B

abbrev kDBFormatVersion : ℕ := 1

abbrev kDiskMetadataPageID : PageID := 0

@[ext]
structure DiskManager where
  file     : File
  capacity : PageID
  freeList : List PageID -- the back of the vector is the end of the list
  magic    : ℕ
  version  : ℕ

namespace DiskManager

-- `sizeof(DiskHeader)`: magic, version, capacity and free_list_size, 8 bytes each.
abbrev headerSize : ℕ := 32

def allocatePage (d : DiskManager) : PageID × DiskManager :=
  match d.freeList.getLast? with
  | some pageId => (pageId, { d with freeList := d.freeList.dropLast })
  | none        => (d.capacity, { d with capacity := d.capacity + 1 })

def deallocatePage (d : DiskManager) (pageId : PageID) : Except String DiskManager :=
  if pageId = kDiskMetadataPageID then
    .error "DiskManager::deallocate_page: deallocating disk meta page is not allowed"
  else if 1024 < d.freeList.length then
    .ok d
  else
    .ok { d with freeList := d.freeList ++ [pageId] }

-- The results of the two writes are not looked at.
def flushAll (d : DiskManager) : DiskManager :=
  let header := Bytes.le 8 d.magic ++ Bytes.le 8 d.version ++ Bytes.le 8 d.capacity.toNat ++
    Bytes.le 8 d.freeList.length
  let list := d.freeList.flatMap fun pageId => Bytes.le 4 pageId.toNat
  let file := (d.file.pwrite header 0).getD d.file
  { d with file := (file.pwrite list headerSize).getD file }

def writePage (d : DiskManager) (pageId : PageID) (data : PageData) : Except String DiskManager :=
  if d.capacity ≤ pageId then
    .error ("DiskManager: trying to write into not allocated page: " ++ toString pageId)
  else
    match d.file.pwrite data.toList (pageId.toNat * kPageSize) with
    | some file => .ok { d with file := file }
    | none      => .error ("DiskManager: incomplete write for page: " ++ toString pageId)

-- A short read is filled up with zeros.
def readPage (d : DiskManager) (pageId : PageID) : Except String PageData :=
  if d.capacity ≤ pageId then
    .error ("DiskManager: trying to read not allocated page: " ++ toString pageId)
  else
    match d.file.pread kPageSize (pageId.toNat * kPageSize) with
    | some bytes => .ok <| .ofList (bytes ++ List.replicate (kPageSize - bytes.length) 0)
    | none       => .error ("DiskManager: incomplete read for page: " ++ toString pageId)

-- The free list stands behind the header on page 0; a longer one would be read from behind the page.
def initHeader (d : DiskManager) : Except String DiskManager := do
  let buffer ← d.readPage kDiskMetadataPageID
  let freeListSize := buffer.bytes.read 24 8
  if kPageSize < headerSize + freeListSize * 4 then
    throw "DiskManager::init_header: free list runs past the page"
  else
    return { d with
      magic    := buffer.bytes.read 0 8
      version  := buffer.bytes.read 8 8
      capacity := .ofNat (buffer.bytes.read 16 8)
      freeList := (List.range freeListSize).map fun i => .ofNat (buffer.bytes.read (headerSize + 4 * i) 4) }

-- The constructor, on the file that `path` names.
def openFile (file : File) : Except String DiskManager := do
  let fresh : DiskManager := ⟨file, 0, [], kDBMagic, kDBFormatVersion⟩
  let d ← if file.size / kPageSize < 1 then
      pure fresh.allocatePage.2.flushAll
    else
      initHeader { fresh with capacity := 1 }
  if d.magic ≠ kDBMagic then
    throw "DiskManager::DiskManager: Database file is not recognized by DUCKDB."
  else if d.version ≠ kDBFormatVersion then
    throw "DiskManager::DiskManager: Database file version not supported."
  else
    return d

end DiskManager
end Duck
