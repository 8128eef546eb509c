import Duck.Storage.PageData

namespace Duck

-- The file under the database. The bytes behind its end read as zero once it grows over them.
@[ext]
structure File where
  bytes   : Memory
  size    : ℕ
  past    : ∀ a, size ≤ a → bytes a = 0
  failing : Bool -- whether the operating system refuses every call

namespace File

def empty : File where
  bytes _  := 0
  size     := 0
  past _ _ := rfl
  failing  := false

-- `none` stands for a negative result.
def pread (f : File) (count offset : ℕ) : Option (List UInt8) :=
  if f.failing then none else f.bytes.slice offset (min count (f.size - offset))

def pwrite (f : File) (buffer : List UInt8) (offset : ℕ) : Option File :=
  if f.failing then
    none
  else if buffer = [] then
    some f
  else some {
    bytes   := f.bytes.copy offset buffer
    size    := max f.size (offset + buffer.length)
    past a h := by
      rw [Memory.copy_of_ge ((Nat.le_max_right ..).trans h), f.past a ((Nat.le_max_left ..).trans h)]
    failing := f.failing
  }

end File
end Duck
