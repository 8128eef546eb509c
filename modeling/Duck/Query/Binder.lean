import Duck.Plan.Plan
import Duck.Query.SelectQuery

namespace Duck

structure TableBinding where
  name   : Name
  schema : Schema
  offset : ℕ

abbrev BindingContext := List TableBinding

namespace Binder

-- One turn of the loop over the bindings: the match, and how many there were.
def matchBinding (column : ColumnRef) : ℕ × ℕ → TableBinding → Except String (ℕ × ℕ)
  | (found, matchCount), binding => do
    if column.qualifier.any (· ≠ binding.name) then
      return (found, matchCount)
    else
      match binding.schema.columnIndex column.name with
      | none       =>
        throw s!"Binder::resolve_column: table {binding.name.text} has no column named {column.name.text}"
      | some index =>
        if 0 < matchCount then
          throw s!"Binder::resolve_column: ambiguous column named {column.name.text}"
        else
          return (binding.offset + index, matchCount + 1)

def resolveColumn (column : ColumnRef) (context : BindingContext) : Except String ℕ := do
  if column.qualifier.isNone ∧ 1 < context.length then
    throw "Binder::resolve_column: column in multiple table query must have qualifer"
  let (found, matchCount) ← context.foldlM (matchBinding column) (0, 0)
  if matchCount = 0 then
    match column.qualifier with
    | some qualifier => throw s!"Binder: table {qualifier.text} is not in the FROM clause"
    | none           => throw s!"Binder: column {column.name.text} doesn't exist"
  else
    return found

def bindExpression (context : BindingContext) : UnboundExpression → Except String Expression
  | .null                     => throw "Binder::bind_expression: null expression"
  | .column ref               => return .column (← resolveColumn ref context)
  | .constant value           => return .constant value
  | .comparison left op right => do
    let left ← bindExpression context left
    let right ← bindExpression context right
    return .comparison left op right
  | .binary left op right     => do
    let left ← bindExpression context left
    let right ← bindExpression context right
    return .binary left op right
  | .unary expression op      => return .unary (← bindExpression context expression) op

def binding (table : TableRef) (schema : Schema) (offset : ℕ) : TableBinding where
  name   := table.alias_.getD table.name
  schema := schema
  offset := offset

-- What `Catalog::get_table` answers to the transaction.
variable (getTable : Name → Except String (Option Table))

-- One turn of the loop over the joins.
def bindJoin : BindingContext × LogicalPlanNode → JoinClause → Except String (BindingContext × LogicalPlanNode)
  | (context, plan), clause => do
    match ← getTable clause.table.name with
    | none           => throw s!"Binder::bind: join table {clause.table.name.text} doesn't exist"
    | some joinTable =>
      let context := context ++ [binding clause.table joinTable.schema plan.outputSchema.columnCount]
      let predicate ← bindExpression context clause.on
      return (context, ← LogicalPlanNode.ofJoin plan (.scan joinTable) predicate)

def bindFilter (context : BindingContext) (predicate : UnboundExpression) (plan : LogicalPlanNode) :
    Except String LogicalPlanNode :=
  match predicate with
  | .null => return plan
  | _     => return .filter plan (← bindExpression context predicate)

def bindProjection (context : BindingContext) (columns : Option (List ColumnRef)) (plan : LogicalPlanNode) :
    Except String LogicalPlanNode :=
  match columns with
  | none         => return plan
  | some columns => do
    if columns.isEmpty then
      throw "Binder::bind: columns not specified"
    else
      LogicalPlanNode.ofProjection plan (← columns.mapM (resolveColumn · context))

def bindLimit (limit : Option ℕ) (plan : LogicalPlanNode) : LogicalPlanNode :=
  match limit with
  | none       => plan
  | some limit => .limit plan limit

def bind (query : SelectQuery) : Except String LogicalPlanNode := do
  match query.table with
  | none          => throw "Binder::bind: FROM table not provided in select query"
  | some tableRef =>
    match ← getTable tableRef.name with
    | none       => throw s!"Binder::bind: table {tableRef.name.text} doesn't exist"
    | some table =>
      let (context, plan) ← query.joins.foldlM (bindJoin getTable) ([binding tableRef table.schema 0], .scan table)
      let plan ← bindFilter context query.predicate plan
      let plan ← bindProjection context query.columns plan
      return bindLimit query.limit plan

end Binder
end Duck
