import Duck.Table.SlottedPage

open Memory

namespace Duck.SlottedPage

variable {p q : SlottedPage} {i j n : ℕ} {bytes : List UInt8}

theorem slotCount_lt (p : SlottedPage) : p.slotCount < 65536 :=
  read_lt ..

theorem freeSpaceOffset_lt (p : SlottedPage) : p.freeSpaceOffset < 65536 :=
  read_lt ..

theorem slotOffset_lt (p : SlottedPage) (i : ℕ) : p.slotOffset i < 65536 :=
  read_lt ..

theorem slotLength_lt (p : SlottedPage) (i : ℕ) : p.slotLength i < 65536 :=
  read_lt ..

section setNextPage

variable {pageId : PageID}

@[simp]
theorem setNextPage_nextPage : (p.setNextPage pageId).nextPage = pageId := by
  rw [nextPage, setNextPage, read_write_self pageId.toNat_lt, UInt32.ofNat_toNat]

@[simp]
theorem setNextPage_slotCount : (p.setNextPage pageId).slotCount = p.slotCount :=
  read_write_disjoint (by omega)

@[simp]
theorem setNextPage_freeSpaceOffset : (p.setNextPage pageId).freeSpaceOffset = p.freeSpaceOffset :=
  read_write_disjoint (by omega)

@[simp]
theorem setNextPage_slotOffset : (p.setNextPage pageId).slotOffset i = p.slotOffset i :=
  read_write_disjoint (by omega)

@[simp]
theorem setNextPage_slotLength : (p.setNextPage pageId).slotLength i = p.slotLength i :=
  read_write_disjoint (by omega)

theorem setNextPage_data (h : 8 ≤ a) : (p.setNextPage pageId).data a = p.data a :=
  write_of_ge (by omega)

end setNextPage

section setSlotCount

@[simp]
theorem setSlotCount_slotCount (h : n < 65536) : (p.setSlotCount n).slotCount = n :=
  read_write_self h

@[simp]
theorem setSlotCount_nextPage : (p.setSlotCount n).nextPage = p.nextPage := by
  rw [nextPage, setSlotCount, read_write_disjoint (by omega), nextPage]

@[simp]
theorem setSlotCount_freeSpaceOffset : (p.setSlotCount n).freeSpaceOffset = p.freeSpaceOffset :=
  read_write_disjoint (by omega)

@[simp]
theorem setSlotCount_slotOffset : (p.setSlotCount n).slotOffset i = p.slotOffset i :=
  read_write_disjoint (by omega)

@[simp]
theorem setSlotCount_slotLength : (p.setSlotCount n).slotLength i = p.slotLength i :=
  read_write_disjoint (by omega)

theorem setSlotCount_data (h : 8 ≤ a) : (p.setSlotCount n).data a = p.data a :=
  write_of_ge (by omega)

end setSlotCount

section setFreeSpaceOffset

@[simp]
theorem setFreeSpaceOffset_freeSpaceOffset (h : n < 65536) :
    (p.setFreeSpaceOffset n).freeSpaceOffset = n :=
  read_write_self h

@[simp]
theorem setFreeSpaceOffset_nextPage : (p.setFreeSpaceOffset n).nextPage = p.nextPage := by
  rw [nextPage, setFreeSpaceOffset, read_write_disjoint (by omega), nextPage]

@[simp]
theorem setFreeSpaceOffset_slotCount : (p.setFreeSpaceOffset n).slotCount = p.slotCount :=
  read_write_disjoint (by omega)

@[simp]
theorem setFreeSpaceOffset_slotOffset : (p.setFreeSpaceOffset n).slotOffset i = p.slotOffset i :=
  read_write_disjoint (by omega)

@[simp]
theorem setFreeSpaceOffset_slotLength : (p.setFreeSpaceOffset n).slotLength i = p.slotLength i :=
  read_write_disjoint (by omega)

theorem setFreeSpaceOffset_data (h : 8 ≤ a) : (p.setFreeSpaceOffset n).data a = p.data a :=
  write_of_ge (by omega)

end setFreeSpaceOffset

section setSlotOffset

theorem setSlotOffset_slotOffset_mod : (p.setSlotOffset i n).slotOffset i = n % 65536 :=
  read_write_mod ..

@[simp]
theorem setSlotOffset_slotOffset (h : n < 65536) : (p.setSlotOffset i n).slotOffset i = n :=
  read_write_self h

@[simp]
theorem setSlotOffset_slotOffset_ne (h : j ≠ i) :
    (p.setSlotOffset i n).slotOffset j = p.slotOffset j :=
  read_write_disjoint (by omega)

@[simp]
theorem setSlotOffset_slotLength : (p.setSlotOffset i n).slotLength j = p.slotLength j :=
  read_write_disjoint (by omega)

@[simp]
theorem setSlotOffset_nextPage : (p.setSlotOffset i n).nextPage = p.nextPage := by
  rw [nextPage, setSlotOffset, read_write_disjoint (by omega), nextPage]

@[simp]
theorem setSlotOffset_slotCount : (p.setSlotOffset i n).slotCount = p.slotCount :=
  read_write_disjoint (by omega)

@[simp]
theorem setSlotOffset_freeSpaceOffset : (p.setSlotOffset i n).freeSpaceOffset = p.freeSpaceOffset :=
  read_write_disjoint (by omega)

theorem setSlotOffset_data (h : 8 + 4 * (i + 1) ≤ a) : (p.setSlotOffset i n).data a = p.data a :=
  write_of_ge (by omega)

end setSlotOffset

section setSlotLength

@[simp]
theorem setSlotLength_slotLength (h : n < 65536) : (p.setSlotLength i n).slotLength i = n :=
  read_write_self h

@[simp]
theorem setSlotLength_slotLength_ne (h : j ≠ i) :
    (p.setSlotLength i n).slotLength j = p.slotLength j :=
  read_write_disjoint (by omega)

@[simp]
theorem setSlotLength_slotOffset : (p.setSlotLength i n).slotOffset j = p.slotOffset j :=
  read_write_disjoint (by omega)

@[simp]
theorem setSlotLength_nextPage : (p.setSlotLength i n).nextPage = p.nextPage := by
  rw [nextPage, setSlotLength, read_write_disjoint (by omega), nextPage]

@[simp]
theorem setSlotLength_slotCount : (p.setSlotLength i n).slotCount = p.slotCount :=
  read_write_disjoint (by omega)

@[simp]
theorem setSlotLength_freeSpaceOffset : (p.setSlotLength i n).freeSpaceOffset = p.freeSpaceOffset :=
  read_write_disjoint (by omega)

theorem setSlotLength_data (h : 8 + 4 * (i + 1) ≤ a) : (p.setSlotLength i n).data a = p.data a :=
  write_of_ge (by omega)

end setSlotLength

-- A copy into the data area leaves the header and the slots below it alone.
section copyTo

@[simp]
theorem copyTo_nil : p.copyTo n [] = p := by
  simp [copyTo]

theorem copyTo_nextPage (h : 8 ≤ n) : (p.copyTo n bytes).nextPage = p.nextPage := by
  rw [nextPage, copyTo, read_copy_disjoint (by omega), nextPage]

theorem copyTo_slotCount (h : 8 ≤ n) : (p.copyTo n bytes).slotCount = p.slotCount :=
  read_copy_disjoint (by omega)

theorem copyTo_freeSpaceOffset (h : 8 ≤ n) : (p.copyTo n bytes).freeSpaceOffset = p.freeSpaceOffset :=
  read_copy_disjoint (by omega)

theorem copyTo_slotOffset (h : 8 + 4 * (i + 1) ≤ n) :
    (p.copyTo n bytes).slotOffset i = p.slotOffset i :=
  read_copy_disjoint (by omega)

theorem copyTo_slotLength (h : 8 + 4 * (i + 1) ≤ n) :
    (p.copyTo n bytes).slotLength i = p.slotLength i :=
  read_copy_disjoint (by omega)

theorem copyTo_data (h : n + bytes.length ≤ a) : (p.copyTo n bytes).data a = p.data a :=
  copy_of_ge h

end copyTo

end Duck.SlottedPage
