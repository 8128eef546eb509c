import Duck.Expression.Expression
import Duck.Table.Table

namespace Duck

namespace Schema

-- `operator+` ends in the constructor that checks for columns.
def append (s t : Schema) : Except String Schema :=
  ofColumns (s.columns ++ t.columns)

-- `std::vector::at`
def column (s : Schema) (index : ℕ) : Except String Column :=
  match s.columns[index]? with
  | some column => .ok column
  | none        => .error "vector::_M_range_check"

def projected (s : Schema) (columnIdxs : List ℕ) : Except String Schema := do
  ofColumns (← columnIdxs.mapM s.column)

end Schema

inductive LogicalPlanNode
  | scan (table : Table)
  | join (left right : LogicalPlanNode) (predicate : Expression) (schema : Schema)
  | filter (child : LogicalPlanNode) (predicate : Expression)
  | projection (child : LogicalPlanNode) (columns : List ℕ) (schema : Schema)
  | limit (child : LogicalPlanNode) (limit : ℕ)

namespace LogicalPlanNode

def outputSchema : LogicalPlanNode → Schema
  | scan table            => table.schema
  | join _ _ _ schema     => schema
  | filter child _        => child.outputSchema
  | projection _ _ schema => schema
  | limit child _         => child.outputSchema

-- The constructors of a join and of a projection compute the schema.

def ofJoin (left right : LogicalPlanNode) (predicate : Expression) : Except String LogicalPlanNode :=
  return join left right predicate (← left.outputSchema.append right.outputSchema)

def ofProjection (child : LogicalPlanNode) (columns : List ℕ) : Except String LogicalPlanNode :=
  return projection child columns (← child.outputSchema.projected columns)

end LogicalPlanNode

inductive PhysicalPlanNode
  | sequentialScan (table : Table)
  | nestedLoopJoin (left right : PhysicalPlanNode) (predicate : Expression) (schema : Schema)
  | filter (child : PhysicalPlanNode) (predicate : Expression)
  | projection (child : PhysicalPlanNode) (columns : List ℕ) (schema : Schema)
  | limit (child : PhysicalPlanNode) (limit : ℕ)

def PhysicalPlanNode.outputSchema : PhysicalPlanNode → Schema
  | sequentialScan table      => table.schema
  | nestedLoopJoin _ _ _ schema => schema
  | filter child _            => child.outputSchema
  | projection _ _ schema     => schema
  | limit child _             => child.outputSchema

def Optimizer.optimize : LogicalPlanNode → PhysicalPlanNode
  | .scan table                        => .sequentialScan table
  | .join left right predicate schema  => .nestedLoopJoin (optimize left) (optimize right) predicate schema
  | .filter child predicate            => .filter (optimize child) predicate
  | .projection child columns schema   => .projection (optimize child) columns schema
  | .limit child limit                 => .limit (optimize child) limit

end Duck
