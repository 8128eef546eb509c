import Duck.Lib.Bytes

namespace Duck

-- A `TypeId` has 16 bits and can hold codes that name no type.
inductive TypeId
  | int32
  | int64
  | uint32
  | uint64
  | float
  | double
  | bool
  | char
  | varchar
  | varbinary
  | other (code : ℕ) (le : 10 ≤ code) (lt : code < 65536)
  deriving DecidableEq

namespace TypeId

def toCode : TypeId → ℕ
  | int32          => 0
  | int64          => 1
  | uint32         => 2
  | uint64         => 3
  | float          => 4
  | double         => 5
  | bool           => 6
  | char           => 7
  | varchar        => 8
  | varbinary      => 9
  | other code _ _ => code

-- `std::bit_cast<TypeId>` of a 16-bit number.
def ofCode (code : ℕ) : TypeId :=
  match code % 65536, Nat.mod_lt code (show 65536 > 0 by decide) with
  | 0, _ => int32
  | 1, _ => int64
  | 2, _ => uint32
  | 3, _ => uint64
  | 4, _ => float
  | 5, _ => double
  | 6, _ => bool
  | 7, _ => char
  | 8, _ => varchar
  | 9, _ => varbinary
  | n + 10, h => other (n + 10) (Nat.le_add_left ..) h

end TypeId

structure Column where
  name   : List UInt8
  type   : TypeId
  length : UInt16
  deriving DecidableEq

namespace Column

def isFixedSize (c : Column) : Bool :=
  match c.type with
  | .int64 | .uint64 | .int32 | .uint32 | .double | .float | .bool | .char => true
  | .varchar | .varbinary | .other .. => false

def serialize (c : Column) : List UInt8 :=
  Bytes.le 2 c.name.length ++ c.name ++ Bytes.le 2 c.type.toCode ++ Bytes.le 2 c.length.toNat

-- The column and the number of bytes it took, which is a `uint16_t`.
def deserialize (raw : List UInt8) : Except String (Column × ℕ) :=
  if raw.length < 2 then
    .error "Column::deserialize: raw data too small for name length"
  else
    let nameLength := Bytes.readLE (raw.take 2)
    if raw.length < 2 + nameLength + 4 then
      .error "Column::deserialize: raw data too small for column body"
    else
      let name   := (raw.drop 2).take nameLength
      let type   := TypeId.ofCode <| Bytes.readLE <| (raw.drop (2 + nameLength)).take 2
      let length := UInt16.ofNat <| Bytes.readLE <| (raw.drop (2 + nameLength + 2)).take 2
      .ok (⟨name, type, length⟩, (2 + nameLength + 2 + 2) % 65536)

end Column
end Duck
