import Duck.Expression.Expression

namespace Duck

abbrev Name := List UInt8

-- The bytes of a name as they are put into a message.
def Name.text (name : Name) : String :=
  .ofList <| name.map fun b => .ofNat b.toNat

structure ColumnRef where
  qualifier : Option Name
  name      : Name
  deriving DecidableEq

structure TableRef where
  name   : Name
  alias_ : Option Name
  deriving DecidableEq

-- A `std::unique_ptr` can be empty.
inductive UnboundExpression
  | null
  | column (ref : ColumnRef)
  | constant (value : Value)
  | comparison (left : UnboundExpression) (op : ComparisonOperator) (right : UnboundExpression)
  | binary (left : UnboundExpression) (op : BinaryOperator) (right : UnboundExpression)
  | unary (expression : UnboundExpression) (op : UnaryOperator)

-- The only `type` is INNER, which nothing looks at.
structure JoinClause where
  table : TableRef
  on    : UnboundExpression

structure SelectQuery where
  columns   : Option (List ColumnRef)
  table     : Option TableRef
  predicate : UnboundExpression
  limit     : Option ℕ
  joins     : List JoinClause

end Duck
