import Duck.Common.Types
import Duck.Lib.Memory
import Mathlib.Data.Int.Notation

namespace Duck

-- The bytes a `SlottedPage` looks at, from `data_.data()` on. The span itself ends at `kPageSize`:
-- a copy that runs past it changes what stands behind the page.
@[ext]
structure SlottedPage where
  data : Memory

namespace SlottedPage

abbrev invalidSlotOffset : ℕ := 0

-- `PageHeader` (packed, 8 bytes): next_page_id at 0, slot_count at 4, free_space_offset at 6.

def nextPage (p : SlottedPage) : PageID :=
  .ofNat (p.data.read 0 4)

def slotCount (p : SlottedPage) : ℕ :=
  p.data.read 4 2

def freeSpaceOffset (p : SlottedPage) : ℕ :=
  p.data.read 6 2

-- `Slot` (packed, 4 bytes): offset at 0, length at 2. The slot array follows the header.

def slotOffset (p : SlottedPage) (i : ℕ) : ℕ :=
  p.data.read (8 + 4 * i) 2

def slotLength (p : SlottedPage) (i : ℕ) : ℕ :=
  p.data.read (8 + 4 * i + 2) 2

def setNextPage (p : SlottedPage) (pageId : PageID) : SlottedPage :=
  ⟨p.data.write 0 4 pageId.toNat⟩

def setSlotCount (p : SlottedPage) (n : ℕ) : SlottedPage :=
  ⟨p.data.write 4 2 n⟩

def setFreeSpaceOffset (p : SlottedPage) (n : ℕ) : SlottedPage :=
  ⟨p.data.write 6 2 n⟩

def setSlotOffset (p : SlottedPage) (i n : ℕ) : SlottedPage :=
  ⟨p.data.write (8 + 4 * i) 2 n⟩

def setSlotLength (p : SlottedPage) (i n : ℕ) : SlottedPage :=
  ⟨p.data.write (8 + 4 * i + 2) 2 n⟩

def copyTo (p : SlottedPage) (dest : ℕ) (bytes : List UInt8) : SlottedPage :=
  ⟨p.data.copy dest bytes⟩

def init (p : SlottedPage) : SlottedPage :=
  ((p.setNextPage invalidPageID).setFreeSpaceOffset kPageSize).setSlotCount 0

def freeSpaceBytes (p : SlottedPage) : ℤ :=
  (p.freeSpaceOffset : ℤ) - (8 + p.slotCount * 4 : ℕ)

def findEmptySlot (p : SlottedPage) : Option ℕ :=
  (List.range p.slotCount).find? (p.slotOffset · = invalidSlotOffset)

def allocateSlot (p : SlottedPage) : ℕ × SlottedPage :=
  (p.slotCount, (p.setSlotCount (p.slotCount + 1)).setSlotOffset p.slotCount invalidSlotOffset)

-- The tail of `insert_tuple`, from `Slot* slot = &slots_[slot_idx]` on. The narrowing to `uint16_t`
-- is the store's.
def placeTuple (p : SlottedPage) (slotIdx : ℕ) (tupleData : List UInt8) : SlottedPage :=
  let p := p.setSlotLength slotIdx tupleData.length
  let p := p.setSlotOffset slotIdx (p.freeSpaceOffset + 65536 - p.slotLength slotIdx)
  let p := p.setFreeSpaceOffset (p.slotOffset slotIdx)
  p.copyTo (p.slotOffset slotIdx) tupleData

def insertTuple (p : SlottedPage) (tupleData : List UInt8) (preferedSlot : Option ℕ) :
    Option RID × SlottedPage :=
  let availableSpace := p.freeSpaceBytes
  let tupleSize := tupleData.length % 65536
  if availableSpace < tupleSize then
    (none, p)
  else
    match preferedSlot.filter (fun i => i < p.slotCount ∧ p.slotOffset i = invalidSlotOffset)
      <|> p.findEmptySlot with
    | some slotIdx => (some ⟨invalidPageID, slotIdx⟩, p.placeTuple slotIdx tupleData)
    | none =>
      if availableSpace - tupleSize < 4 then
        (none, p)
      else
        let (slotIdx, p) := p.allocateSlot
        (some ⟨invalidPageID, slotIdx⟩, p.placeTuple slotIdx tupleData)

-- The empty span stands for "no such tuple".
def getTuple (p : SlottedPage) (slotNum : ℕ) : List UInt8 :=
  if p.slotCount ≤ slotNum then
    []
  else if p.slotOffset slotNum = invalidSlotOffset then
    []
  else
    p.data.slice (p.slotOffset slotNum) (p.slotLength slotNum)

-- The size check looks at the low 16 bits of the size, the copy takes every byte.
def tryUpdateInPlace (p : SlottedPage) (rid : RID) (tupleData : List UInt8) : Bool × SlottedPage :=
  if p.slotCount ≤ rid.slotNum then
    (false, p)
  else if p.slotOffset rid.slotNum = invalidSlotOffset then
    (false, p)
  else
    let tupleSize := tupleData.length % 65536
    if p.slotLength rid.slotNum < tupleSize then
      (false, p)
    else
      let p := p.copyTo (p.slotOffset rid.slotNum) tupleData
      (true, p.setSlotLength rid.slotNum tupleSize)

def deleteTuple (p : SlottedPage) (slotNum : ℕ) : Bool × SlottedPage :=
  if p.slotCount ≤ slotNum then
    (false, p)
  else if p.slotOffset slotNum = invalidSlotOffset then
    (false, p)
  else
    (true, p.setSlotOffset slotNum invalidSlotOffset)

def isCompacted (p : SlottedPage) : Bool :=
  p.slotCount = 0 || go (List.range p.slotCount) (p.slotOffset 0)
where
  go : List ℕ → ℕ → Bool
    | [],      nextOffset => nextOffset = kPageSize
    | i :: is, nextOffset =>
      if p.slotOffset i = invalidSlotOffset then
        go is nextOffset
      else if nextOffset ≠ p.slotOffset i then
        false
      else
        go is ((nextOffset + p.slotLength i) % 65536)

structure Compaction where
  slots  : List (ℕ × ℕ)
  data   : Memory
  offset : ℕ

-- The loop of `compact` over the first `n` slots.
def compactSlots (p : SlottedPage) : (n : ℕ) → Compaction
  | 0     => { slots := [], data := fun _ => 0, offset := kPageSize }
  | i + 1 =>
    let c := p.compactSlots i
    if p.slotOffset i = invalidSlotOffset then
      { c with slots := c.slots ++ [(invalidSlotOffset, 0)] }
    else
      let offset := (c.offset + 65536 - p.slotLength i) % 65536
      { slots  := c.slots ++ [(offset, p.slotLength i)]
        data   := c.data.copy offset (p.data.slice (p.slotOffset i) (p.slotLength i))
        offset := offset }

def compact (p : SlottedPage) : SlottedPage :=
  let c := p.compactSlots p.slotCount
  let header := Bytes.le 4 p.nextPage.toNat ++ Bytes.le 2 p.slotCount ++ Bytes.le 2 c.offset
  let slots  := c.slots.flatMap fun (offset, length) => Bytes.le 2 offset ++ Bytes.le 2 length
  let data   := p.data.fill 0 kPageSize 0
  let data   := data.copy 0 header
  let data   := data.copy 8 slots
  ⟨data.copy c.offset (c.data.slice c.offset (kPageSize - c.offset))⟩

-- `none` when an assertion fails.
def restoreTuple (p : SlottedPage) (slotNum : ℕ) (tupleData : List UInt8) : Option SlottedPage :=
  if slotNum < p.slotCount ∧ p.slotOffset slotNum = invalidSlotOffset then
    let tupleSize := tupleData.length % 65536
    let p := if p.freeSpaceBytes < tupleSize then p.compact else p
    if tupleSize ≤ p.freeSpaceBytes then
      match p.insertTuple tupleData slotNum with
      | (some _, p) => some p
      | (none,   _) => none
    else
      none
  else
    none

def hasSlot (p : SlottedPage) (slotNum : ℕ) : Bool :=
  slotNum < p.slotCount ∧ p.slotOffset slotNum ≠ invalidSlotOffset

-- `slot_num` is a `uint16_t`, so the increment wraps.
def nextOccupiedSlot (p : SlottedPage) (slotNum : ℕ) : Option ℕ :=
  (List.range p.slotCount).find? fun i =>
    (slotNum + 1) % 65536 ≤ i ∧ p.slotOffset i ≠ invalidSlotOffset

def hasNextPage (p : SlottedPage) : Bool :=
  p.nextPage ≠ invalidPageID

end SlottedPage
end Duck
