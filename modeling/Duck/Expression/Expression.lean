import Duck.Expression.Comparison

namespace Duck

structure Record where
  values : List Value
  deriving DecidableEq

namespace Record

-- `std::vector::at`
def get (record : Record) (index : ℕ) : Except String Value :=
  match record.values[index]? with
  | some value => .ok value
  | none       => .error "vector::_M_range_check"

def size (record : Record) : ℕ :=
  record.values.length

instance : Add Record where
  add record other := ⟨record.values ++ other.values⟩

end Record

inductive BinaryOperator
  | and
  | or
  deriving DecidableEq

inductive UnaryOperator
  | not
  deriving DecidableEq

inductive Expression
  | column (index : ℕ)
  | constant (value : Value)
  | comparison (left : Expression) (op : ComparisonOperator) (right : Expression)
  | binary (left : Expression) (op : BinaryOperator) (right : Expression)
  | unary (expr : Expression) (op : UnaryOperator)

def ComparisonOperator.apply (cmp : CompareResult) : ComparisonOperator → Bool
  | equal     => cmp = .eq
  | notEq     => cmp ≠ .eq
  | greater   => cmp = .greater
  | less      => cmp = .less
  | greaterEq => cmp = .greater || cmp = .eq
  | lessEq    => cmp = .less || cmp = .eq

-- `!v.is_null() && v.as_bool()`, or `!v.is_null() && !v.as_bool()`
def Value.isKnownToBe (b : Bool) (v : Value) : Except String Bool := do
  if v.isNull then return false else return (← v.asBool) = b

-- What `BinaryExpression::evaluate` and `UnaryExpression::evaluate` make of the values of their operands.

def BinaryOperator.apply (left right : Value) (op : BinaryOperator) : Except String Value := do
  if left.isNull && right.isNull then
    return .null .bool
  else if left.type ≠ .bool || right.type ≠ .bool then
    throw "BinaryExpression expects boolean operands"
  else
    match op with
    | and =>
      if ← left.isKnownToBe false then
        return .bool false
      else if ← right.isKnownToBe false then
        return .bool false
      else if left.isNull || right.isNull then
        return .null .bool
      else
        return .bool true
    | or  =>
      if ← left.isKnownToBe true then
        return .bool true
      else if ← right.isKnownToBe true then
        return .bool true
      else if left.isNull || right.isNull then
        return .null .bool
      else
        return .bool false

def UnaryOperator.apply (value : Value) (op : UnaryOperator) : Except String Value := do
  if value.isNull then
    return .null .bool
  else if value.type ≠ .bool then
    throw "UnaryExpression expects boolean operand"
  else
    match op with
    | not => return .bool !(← value.asBool)

namespace Expression

def evaluate (record : Record) : Expression → Except String Value
  | column index             => record.get index
  | constant value           => return value
  | comparison left op right => do
    let left ← left.evaluate record
    let right ← right.evaluate record
    let cmp ← left.compare right
    if cmp = .unknown then
      return .null .bool
    else
      return .bool (op.apply cmp)
  | binary left op right     => do
    let left ← left.evaluate record
    let right ← right.evaluate record
    op.apply left right
  | unary expr op            => do
    let value ← expr.evaluate record
    op.apply value

end Expression

-- What an operator asks of a record.
abbrev Predicate := Record → Except String Value

def Expression.predicate (expr : Expression) : Predicate :=
  fun record => expr.evaluate record

-- An assertion that fails ends the program. What stands for it here is none of the exceptions of the source.
def Predicate.assertFailed : String :=
  "Assertion comp.type() == ValueType::BOOL failed."

-- What a filter and a join keep is of type BOOL, as they assert, and neither unknown nor false.
def Predicate.accepts (predicate : Predicate) (record : Record) : Except String Bool := do
  let comp ← predicate record
  if comp.type ≠ .bool then
    throw assertFailed
  else if comp.isNull then
    return false
  else
    comp.asBool

end Duck
