import Duck.Common.Types
import Duck.Lib.Memory

namespace Duck

-- The contents of a page. Nothing stands behind its `kPageSize` bytes.
@[ext]
structure PageData where
  bytes : Memory
  past  : ∀ a, kPageSize ≤ a → bytes a = 0

namespace PageData

def zero : PageData where
  bytes _  := 0
  past _ _ := rfl

def ofMemory (m : Memory) : PageData where
  bytes a  := if a < kPageSize then m a else 0
  past _ h := if_neg (Nat.not_lt.mpr h)

def ofList (bytes : List UInt8) : PageData :=
  ofMemory <| Memory.copy (fun _ => 0) 0 bytes

def toList (data : PageData) : List UInt8 :=
  data.bytes.slice 0 kPageSize

@[simp]
theorem toList_length {data : PageData} : data.toList.length = kPageSize :=
  Memory.slice_length

theorem ofMemory_eq {data : PageData} (h : ∀ a, a < kPageSize → m a = data.bytes a) :
    ofMemory m = data := by
  ext a
  by_cases ha : a < kPageSize
  case pos => simp only [ofMemory, ha, if_true, h]
  case neg => simp only [ofMemory, ha, if_false, data.past a (Nat.not_lt.mp ha)]

theorem ofMemory_bytes {data : PageData} : ofMemory data.bytes = data :=
  ofMemory_eq fun _ _ => rfl

end PageData
end Duck
