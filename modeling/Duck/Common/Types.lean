import Mathlib.Data.Nat.Notation

namespace Duck

abbrev PageID := UInt32

abbrev invalidPageID : PageID := 4294967295

abbrev kPageSize : ℕ := 8192

@[simp]
theorem kPageSize_eq : kPageSize = 8192 :=
  rfl

structure RID where
  pageId  : PageID
  slotNum : ℕ
  deriving DecidableEq, Repr

end Duck
