import Duck.Tuple.Tuple

namespace Duck

open Duck.Tuple (Fault readBytes)

-- The decoders of `Column` and `Schema` once more, with every access to the bytes made explicit: one
-- past the end is a `Fault.outside`.

def Column.read (raw : List UInt8) : Except Fault (Column × ℕ) :=
  if raw.length < 2 then
    throw <| .error "Column::deserialize: raw data too small for name length"
  else do
    let nameLength := Bytes.readLE (← readBytes raw 0 2)
    if raw.length < 2 + nameLength + 4 then
      throw <| .error "Column::deserialize: raw data too small for column body"
    else
      let name ← readBytes raw 2 nameLength
      let type := TypeId.ofCode <| Bytes.readLE (← readBytes raw (2 + nameLength) 2)
      let length := UInt16.ofNat <| Bytes.readLE (← readBytes raw (2 + nameLength + 2) 2)
      return (⟨name, type, length⟩, (2 + nameLength + 2 + 2) % 65536)

namespace Schema

-- `raw.subspan(offset)`, which must not start past the end.
def subspan (raw : List UInt8) (offset : ℕ) : Except Fault (List UInt8) :=
  if offset ≤ raw.length then
    .ok (raw.drop offset)
  else
    .error .outside

def readColumns (raw : List UInt8) : (n offset : ℕ) → Except Fault (List Column)
  | 0, _          => return []
  | n + 1, offset =>
    if raw.length < offset then
      throw <| .error "Schema::deserialize: raw data too small for specified column count"
    else do
      let (column, size) ← Column.read (← subspan raw offset)
      let columns ← readColumns raw n ((offset + size) % 65536)
      return column :: columns

def read (raw : List UInt8) : Except Fault Schema :=
  if raw.length < 2 then
    throw <| .error "Schema::deserialize: raw data too small for column count"
  else do
    let columns ← readColumns raw (Bytes.readLE (← readBytes raw 0 2)) 2
    return ⟨columns⟩

section layout

-- The fields of the column whose encoding starts at `o`, as they stand in the bytes.

def columnCountOf (raw : List UInt8) : ℕ :=
  Bytes.readLE (raw.take 2)

def columnSizeOf (raw : List UInt8) (o : ℕ) : ℕ :=
  6 + Bytes.readLE ((raw.drop o).take 2)

def typeCodeOf (raw : List UInt8) (o : ℕ) : ℕ :=
  Bytes.readLE <| (raw.drop (o + columnSizeOf raw o - 4)).take 2

def columnBytes (raw : List UInt8) (o : ℕ) : List UInt8 :=
  (raw.drop o).take (columnSizeOf raw o)

-- Where the encodings of `n` columns start when they stand one behind the other from `o` on. Their
-- sizes are read where the decoder looks for them, which is at an offset of 16 bits.
def starts (raw : List UInt8) : (n o : ℕ) → List ℕ
  | 0, _     => []
  | n + 1, o => o :: starts raw n (o + columnSizeOf raw (o % 65536))

-- All columns lie within the bytes.
def Complete (raw : List UInt8) : Prop :=
  2 ≤ raw.length ∧
    ∀ o ∈ starts raw (columnCountOf raw) 2, o % 65536 + columnSizeOf raw (o % 65536) ≤ raw.length

end layout

end Schema
end Duck
