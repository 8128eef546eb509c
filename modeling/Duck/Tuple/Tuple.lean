import Duck.Tuple.Schema
import Duck.Tuple.Value
import Mathlib.Data.List.DropRight

namespace Duck

namespace NullBitmap

def size (columnCount : ℕ) : ℕ :=
  (columnCount + 7) / 8

def setNull (bitmap : List UInt8) (column : ℕ) : List UInt8 :=
  bitmap.modify (column / 8) (· ||| (1 <<< UInt8.ofNat (column % 8)))

def isNull (byte : UInt8) (column : ℕ) : Bool :=
  byte.toNat.testBit (column % 8)

end NullBitmap

structure Tuple where
  schema : Schema
  values : List Value
  deriving DecidableEq

namespace Tuple

-- `Tuple(std::vector<Value>, const Schema&)`.
def ofValues (values : List Value) (schema : Schema) : Except String Tuple :=
  if values.length ≠ schema.columnCount then
    .error "Tuple::Tuple: value vector size doesn't match schema column count"
  else if (values.zip schema.columns).all fun (v, c) => c.type.toValueType = some v.type then
    .ok ⟨schema, values⟩
  else
    .error "Tuple::Tuple: value type is not supported by column type"

-- The values have the types of the columns, which is what the constructor checks.
structure Typed (t : Tuple) : Prop where
  types : List.Forall₂ (fun v c => c.type.toValueType = some v.type) t.values t.schema.columns

section serialize

-- The bitmap with a bit set for each null value.
def nullBitmap (values : List Value) : List UInt8 :=
  (List.range values.length).foldl
    (fun bitmap i => if (values[i]?.map Value.isNull).getD false then NullBitmap.setNull bitmap i else bitmap)
    (List.replicate (NullBitmap.size values.length) 0)

-- The checks of the CHAR and VARCHAR branch. The VARBINARY checks stand in the same branch, where
-- the column is never VARBINARY.
def checkSize (c : Column) (v : Value) : Except String Unit :=
  if v.isNull then
    .ok ()
  else if c.type = .char ∨ c.type = .varchar then
    if c.type = .char ∧ c.length.toNat < v.serializedSize then
      .error "Tuple::serialize: CHAR value exceeds defined size"
    else if c.type = .varchar ∧ 0 < c.length.toNat ∧ c.length.toNat < v.serializedSize then
      .error "Tuple::serialize: VARCHAR value exceeds defined maximum size"
    else if c.type = .varchar ∧ 65535 < v.serializedSize then
      .error "Tuple::serialize: VARCHAR value exceeds 65535-byte protocol limit"
    else if c.type = .varbinary ∧ 0 < c.length.toNat ∧ c.length.toNat < v.serializedSize then
      .error "Tuple::serialize: VARBINARY value exceeds defined maximum size"
    else if c.type = .varbinary ∧ 65535 < v.serializedSize then
      .error "Tuple::serialize: VARBINARY value exceeds 65535-byte protocol limit"
    else
      .ok ()
  else
    .ok ()

-- What one column adds to `out`.
def serializeColumn (c : Column) (v : Value) : Except String (List UInt8) := do
  checkSize c v
  if c.isFixedSize then
    let fixed := (Schema.fixedSizeOf c).getD 0
    let bytes := if v.isNull then [] else v.serializeTo
    return bytes ++ List.replicate (fixed - bytes.length) 0
  else
    let len := if v.isNull then 0 else v.serializedSize % 65536
    return Bytes.le 2 len ++ if v.isNull then [] else v.serializeTo

def serializeColumns : List Column → List Value → Except String (List UInt8)
  | c :: cs, v :: vs => return (← serializeColumn c v) ++ (← serializeColumns cs vs)
  | _,       _       => return []

def serialize (t : Tuple) : Except String (List UInt8) :=
  return nullBitmap t.values ++ (← serializeColumns t.schema.columns t.values)

end serialize

section deserialize

-- A read outside the bytes is undefined behaviour.
inductive Fault
  | outside
  | error (what : String)
  deriving DecidableEq

def readBytes (raw : List UInt8) (offset size : ℕ) : Except Fault (List UInt8) :=
  if offset + size ≤ raw.length then
    .ok ((raw.drop offset).take size)
  else
    .error .outside

def readLength (raw : List UInt8) (offset : ℕ) : Except Fault ℕ :=
  Bytes.readLE <$> readBytes raw offset 2

def fixedSize (c : Column) : Except Fault ℕ :=
  match Schema.fixedSizeOf c with
  | some n => .ok n
  | none   => .error (.error "Schema::fixed_size_of: unknown typeId")

def columnSize (raw : List UInt8) (c : Column) (offset : ℕ) : Except Fault ℕ := do
  let fixed ← fixedSize c
  if 0 < fixed then
    return fixed
  else
    return (← readLength raw (offset % 65536)) + 2

-- The offsets are kept as `uint16_t`.
def computeOffsets (raw : List UInt8) : List Column → (offset : ℕ) → Except Fault (List ℕ)
  | [],      _      => return []
  | c :: cs, offset => do
    let size ← columnSize raw c offset
    return (offset % 65536) :: (← computeOffsets raw cs (offset + size))

def decode (type : TypeId) (bytes : List UInt8) : Except Fault Value :=
  match type with
  | .int64     => return .int64 (UInt64.ofNat (Bytes.readLE bytes)).toInt64
  | .uint64    => return .uint64 (.ofNat (Bytes.readLE bytes))
  | .double    => return .double (.ofNat (Bytes.readLE bytes))
  | .int32     => return .int32 (UInt32.ofNat (Bytes.readLE bytes)).toInt32
  | .uint32    => return .uint32 (.ofNat (Bytes.readLE bytes))
  | .float     => return .float (.ofNat (Bytes.readLE bytes))
  | .bool      => return .bool (bytes.headD 0 ≠ 0)
  | .char      => return .string (bytes.rdropWhile (· = 0))
  | .varchar   => return .string bytes
  | .varbinary => return .bytes bytes
  | .other ..  => throw (.error "Tuple::get: unknown TypeId")

def deserializeValue (raw : List UInt8) (index offset : ℕ) (c : Column) : Except Fault Value := do
  let bitmap ← readBytes raw (index / 8) 1
  if bitmap.any (NullBitmap.isNull · index) then
    match c.type.toValueType with
    | some type => return .null type
    | none      => throw (.error "type_id_to_value_type: invalid type id")
  else
    let fixed ← fixedSize c
    if c.isFixedSize then
      decode c.type (← readBytes raw offset fixed)
    else
      let size ← readLength raw offset
      decode c.type (← readBytes raw ((offset + 2) % 65536) size)

def deserializeValues (raw : List UInt8) :
    List Column → List ℕ → (index : ℕ) → Except Fault (List Value)
  | c :: cs, offset :: offsets, index =>
    return (← deserializeValue raw index offset c) :: (← deserializeValues raw cs offsets (index + 1))
  | _, _, _ => return []

-- `Tuple(std::span<const std::byte>, const Schema&)`.
def deserialize (raw : List UInt8) (schema : Schema) : Except Fault Tuple := do
  let offsets ← computeOffsets raw schema.columns (NullBitmap.size schema.columnCount)
  return ⟨schema, ← deserializeValues raw schema.columns offsets 0⟩

end deserialize

end Tuple
end Duck
