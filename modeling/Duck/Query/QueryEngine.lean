import Duck.Execution.Executor
import Duck.Query.Binder

namespace Duck.QueryEngine

-- `getTable` is what the catalog answers to the transaction. The `init` of every operator does nothing.
def execute (getTable : Name → Except String (Option Table)) (query : SelectQuery) (tx : Option TransactionID) :
    DatabaseM (Σ op : Operator, op.State) := do
  let logicalPlan ← .ofExcept (Binder.bind getTable query)
  Executor.build tx (Optimizer.optimize logicalPlan)

end Duck.QueryEngine
