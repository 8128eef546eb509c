import Duck.Tuple.Value

namespace Duck

inductive ComparisonOperator
  | greater
  | less
  | greaterEq
  | lessEq
  | equal
  | notEq
  deriving DecidableEq

inductive CompareResult
  | less
  | eq
  | greater
  | unknown
  deriving DecidableEq

def compareGeneric [LT α] [DecidableLT α] (left right : α) : CompareResult :=
  if left < right then
    .less
  else if right < left then
    .greater
  else
    .eq

def compareFloating (left right : Floating) : CompareResult :=
  if left.isNan || right.isNan then .unknown else compareGeneric left right

namespace Value

-- The operand of type FLOAT or DOUBLE. No FLOAT changes when it is made a DOUBLE.
def floatingOperand (v : Value) : Except String Floating :=
  if v.type = .float then v.asFloat else v.asDouble

-- The integral operand next to it. Both branches of the conditional become a `uint64_t`, and that is what
-- is made a DOUBLE.
def integralOperand (v : Value) : Except String Floating := do
  let n ← if v.type = .uint64 then v.asUInt64 else (·.toUInt64) <$> v.asIntegral
  return .finite <| Floating.roundNat 53 n.toNat

-- The largest `std::int64_t`.
def int64Max : UInt64 :=
  9223372036854775807

def compare (left right : Value) : Except String CompareResult := do
  if left.isNull || right.isNull then
    return .unknown
  else if left.isFloating && right.isFloating then
    return compareFloating (← left.floatingOperand) (← right.floatingOperand)
  else if left.isFloating && right.isNumeric then
    return compareFloating (← left.floatingOperand) (← right.integralOperand)
  else if left.isNumeric && right.isFloating then
    return compareFloating (← left.integralOperand) (← right.floatingOperand)
  else if left.isIntegral && right.isIntegral then
    if left.type = .uint64 && right.type = .uint64 then
      return compareGeneric (← left.asUInt64) (← right.asUInt64)
    else if left.type = .uint64 then
      if int64Max < (← left.asUInt64) then
        return .greater
      else
        return compareGeneric (← left.asUInt64).toInt64 (← right.asIntegral)
    else if right.type = .uint64 then
      if int64Max < (← right.asUInt64) then
        return .less
      else
        return compareGeneric (← left.asIntegral) (← right.asUInt64).toInt64
    else
      return compareGeneric (← left.asIntegral) (← right.asIntegral)
  else if left.type = .bool && right.type = .bool then
    return compareGeneric (← left.asBool) (← right.asBool)
  else if left.type = .string && right.type = .string then
    return compareGeneric (← left.asString) (← right.asString)
  else if left.type = .bytes && right.type = .bytes then
    return compareGeneric (← left.asBytes) (← right.asBytes)
  else
    return .unknown

end Value
end Duck
