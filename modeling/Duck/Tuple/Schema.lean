import Duck.Tuple.Column
import Mathlib.Algebra.GroupWithZero.Nat

namespace Duck

@[ext]
structure Schema where
  columns : List Column
  deriving DecidableEq

namespace Schema

-- `explicit Schema(std::vector<Column>)`.
def ofColumns (columns : List Column) : Except String Schema :=
  if columns.length = 0 then
    .error "Schema::Schema: tried to create schema with 0 columns"
  else
    .ok ⟨columns⟩

def columnCount (s : Schema) : ℕ :=
  s.columns.length

def columnIndex (s : Schema) (name : List UInt8) : Option ℕ :=
  s.columns.findIdx? (·.name = name)

-- `none` when the function throws: an unknown type.
def fixedSizeOf (c : Column) : Option ℕ :=
  match c.type with
  | .int64 | .uint64 | .double => some 8
  | .int32 | .uint32 | .float  => some 4
  | .bool                      => some 1
  | .char                      => some c.length.toNat
  | .varchar | .varbinary      => some 0
  | .other ..                  => none

def compatibleWith (s t : Schema) : Bool :=
  s.columns = t.columns

-- The column count is narrowed to 16 bits, and the loop stops there.
def serialize (s : Schema) : List UInt8 :=
  let n := s.columnCount % 65536
  Bytes.le 2 n ++ (s.columns.take n).flatMap Column.serialize

-- The loop over the columns. `offset` is a `uint16_t`.
def deserializeColumns (raw : List UInt8) : (n offset : ℕ) → Except String (List Column)
  | 0, _          => .ok []
  | n + 1, offset =>
    if raw.length < offset then
      .error "Schema::deserialize: raw data too small for specified column count"
    else do
      let (column, size) ← Column.deserialize (raw.drop offset)
      let columns ← deserializeColumns raw n ((offset + size) % 65536)
      return column :: columns

-- `Schema(std::span<const std::byte>)`.
def deserialize (raw : List UInt8) : Except String Schema :=
  if raw.length < 2 then
    .error "Schema::deserialize: raw data too small for column count"
  else do
    let columns ← deserializeColumns raw (Bytes.readLE (raw.take 2)) 2
    return ⟨columns⟩

instance : Add Schema where
  add s t := ⟨s.columns ++ t.columns⟩

end Schema
end Duck
