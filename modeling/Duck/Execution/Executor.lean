import Duck.Execution.Operator
import Duck.Plan.Plan

namespace Duck

-- The constructors of a tree make its scans, and leave all other members as they start.
def Operator.create : (op : Operator) → DatabaseM op.State
  | scan table tx                 => SequentialScanOperator.create table tx
  | nestedLoopJoin left right _ _ => do
    let left ← left.create
    let right ← right.create
    return ((left, right), ({} : NestedLoopJoin.State))
  | filter child _                => child.create
  | projection child _ _          => child.create
  | limit child _                 => do return (← child.create, 0)

namespace Executor

variable (tx : Option TransactionID)

-- The tree of `build`, without the members that change.
def operator : PhysicalPlanNode → Operator
  | .sequentialScan table                       => .scan table tx
  | .nestedLoopJoin left right predicate schema => .nestedLoopJoin (operator left) (operator right) predicate schema
  | .filter child predicate                     => .filter (operator child) predicate
  | .projection child columns schema            => .projection (operator child) columns schema
  | .limit child limit                          => .limit (operator child) limit

def build (plan : PhysicalPlanNode) : DatabaseM (Σ op : Operator, op.State) := do
  return ⟨operator tx plan, ← (operator tx plan).create⟩

end Executor
end Duck
