import Duck.Lib.Floating
import Duck.Tuple.Column

namespace Duck

inductive ValueType
  | int64
  | uint64
  | int32
  | uint32
  | double
  | float
  | bool
  | string
  | bytes
  deriving DecidableEq

-- `none` when the function throws.
def TypeId.toValueType : TypeId → Option ValueType
  | bool           => some .bool
  | double         => some .double
  | float          => some .float
  | int64          => some .int64
  | uint64         => some .uint64
  | int32          => some .int32
  | uint32         => some .uint32
  | char | varchar => some .string
  | varbinary      => some .bytes
  | other ..       => none

-- Only the alternative that the type names is ever stored. A FLOAT or DOUBLE is kept as its bits.
inductive Value
  | null   (type : ValueType)
  | int64  (v : Int64)
  | uint64 (v : UInt64)
  | int32  (v : Int32)
  | uint32 (v : UInt32)
  | double (bits : UInt64)
  | float  (bits : UInt32)
  | bool   (v : Bool)
  | string (v : List UInt8)
  | bytes  (v : List UInt8)
  deriving DecidableEq

namespace Value

def isNull : Value → Bool
  | null _ => true
  | _      => false

def type : Value → ValueType
  | null type => type
  | int64 _   => .int64
  | uint64 _  => .uint64
  | int32 _   => .int32
  | uint32 _  => .uint32
  | double _  => .double
  | float _   => .float
  | bool _    => .bool
  | string _  => .string
  | bytes _   => .bytes

-- Asked of no null value.
def serializeTo : Value → List UInt8
  | null _      => []
  | int64 v     => Bytes.le 8 v.toUInt64.toNat
  | uint64 v    => Bytes.le 8 v.toNat
  | double bits => Bytes.le 8 bits.toNat
  | int32 v     => Bytes.le 4 v.toUInt32.toNat
  | uint32 v    => Bytes.le 4 v.toNat
  | float bits  => Bytes.le 4 bits.toNat
  | bool v      => [if v then 1 else 0]
  | string v    => v
  | bytes v     => v

def serializedSize : Value → ℕ
  | null _                            => 0
  | int64 _ | uint64 _ | double _     => 8
  | int32 _ | uint32 _ | float _      => 4
  | bool _                            => 1
  | string v | bytes v                => v.length

def isIntegral (v : Value) : Bool :=
  v.type = .int32 || v.type = .int64 || v.type = .uint32 || v.type = .uint64

def isFloating (v : Value) : Bool :=
  v.type = .float || v.type = .double

def isNumeric (v : Value) : Bool :=
  v.isIntegral || v.isFloating

-- `std::get` of an alternative that is not the stored one.
def wrongIndex : Except String α :=
  .error "std::get: wrong index for variant"

def asInt64 : Value → Except String Int64
  | null _  => .error "Value::as_int64: tried to read null value"
  | int64 v => .ok v
  | _       => wrongIndex

def asUInt64 : Value → Except String UInt64
  | null _   => .error "Value::as_uint64: tried to read null value"
  | uint64 v => .ok v
  | _        => wrongIndex

def asInt32 : Value → Except String Int32
  | null _  => .error "Value::as_int32: tried to read null value"
  | int32 v => .ok v
  | _       => wrongIndex

def asUInt32 : Value → Except String UInt32
  | null _   => .error "Value::as_uint32: tried to read null value"
  | uint32 v => .ok v
  | _        => wrongIndex

def asIntegral (v : Value) : Except String Int64 :=
  match v.type with
  | .int32  => (·.toInt64) <$> v.asInt32
  | .uint32 => (·.toUInt64.toInt64) <$> v.asUInt32
  | .int64  => v.asInt64
  | _       => .error "Value::as_integral: is not a non-uint64 integral"

-- A floating-point number is the number its bits stand for.

def asDouble : Value → Except String Floating
  | null _      => .error "Value::as_double: tried to read null value"
  | double bits => .ok <| .ofBits 11 52 bits.toNat
  | _           => wrongIndex

def asFloat : Value → Except String Floating
  | null _     => .error "Value::as_float: tried to read null value"
  | float bits => .ok <| .ofBits 8 23 bits.toNat
  | _          => wrongIndex

def asBool : Value → Except String Bool
  | null _ => .error "Value::as_bool: tried to read null value"
  | bool v => .ok v
  | _      => wrongIndex

def asString : Value → Except String (List UInt8)
  | null _   => .error "Value::as_string: tried to read null value"
  | string v => .ok v
  | _        => wrongIndex

def asBytes : Value → Except String (List UInt8)
  | null _  => .error "Value::as_bytes: tried to read null value"
  | bytes v => .ok v
  | _       => wrongIndex

end Value
end Duck
