import Duck.Execution.NestedLoopJoin
import Duck.Table.Table

namespace Duck

namespace SequentialScanOperator

open Database

variable (others : Database → Database) (table : Table) (tx : Option TransactionID)

def onDatabase (x : DatabaseM α) : Program (Database × Table.Scan) String α :=
  .on Prod.fst (fun db s => (db, s.2)) x

def create : DatabaseM Table.Scan :=
  onHeap <| table.scan tx

-- The scan is replaced by a new one, which has read its first page before the old one is closed.
def reset : Program (Database × Table.Scan) String Unit := do
  let scan ← onDatabase (create table tx)
  let old ← .read Prod.snd
  .update fun s => (s.1, scan)
  onDatabase <| onHeap old.heapScan.close

-- `Table::Scan::next`. A tuple that cannot be read is behind the scan by then.
def nextTuple : Program (Database × Table.Scan) String (Option (RID × Tuple)) := do
  let scan ← .read Prod.snd
  if !(← onDatabase (lockShared others scan.tx scan.heapScan.nextRid)) then
    return none
  else
    let (result, heapScan) ← onDatabase (onHeap scan.heapScan.next)
    .update fun s => (s.1, { s.2 with heapScan := heapScan })
    match result with
    | none              => return none
    | some (rid, bytes) => return some (rid, ← onDatabase (scan.table.decode bytes))

def next : Program (Database × Table.Scan) String (Option Record) := do
  match ← nextTuple others with
  | none            => return none
  | some (_, tuple) => return some ⟨tuple.values⟩

def cursor : Cursor (Database × Table.Scan) String Record where
  reset := reset table tx
  next  := next others

end SequentialScanOperator

namespace FilterOperator

variable (child : Cursor σ String Record) (comparator : Predicate)

def cursor : Cursor σ String Record where
  reset := child.reset
  next  := .untilSome do
    match ← child.next with
    | none        => return some none
    | some record => return if ← .ofExcept (comparator.accepts record) then some (some record) else none

end FilterOperator

namespace ProjectionOperator

variable (child : Cursor σ String Record) (columns : List ℕ)

def cursor : Cursor σ String Record where
  reset := child.reset
  next  := do
    match ← child.next with
    | none        => return none
    | some record => return some ⟨← .ofExcept (columns.mapM record.get)⟩

end ProjectionOperator

namespace LimitOperator

variable (child : Cursor σ String Record) (limit : ℕ)

-- The number next to the child is `produced_`.
def cursor : Cursor (σ × ℕ) String Record where
  reset := do
    child.beside.reset
    .update fun s => (s.1, 0)
  next  := do
    if limit ≤ (← .read Prod.snd) then
      return none
    else
      .update fun s => (s.1, s.2 + 1)
      child.beside.next

end LimitOperator

-- A tree of operators, without the members that change.
inductive Operator
  | scan (table : Table) (tx : Option TransactionID)
  | nestedLoopJoin (left right : Operator) (predicate : Expression) (schema : Schema)
  | filter (child : Operator) (comparator : Expression)
  | projection (child : Operator) (columns : List ℕ) (schema : Schema)
  | limit (child : Operator) (limit : ℕ)

namespace Operator

-- The members that change.
def State : Operator → Type
  | scan ..                     => Table.Scan
  | nestedLoopJoin left right .. => (left.State × right.State) × NestedLoopJoin.State
  | filter child _              => child.State
  | projection child ..         => child.State
  | limit child _               => child.State × ℕ

def outputSchema : Operator → Schema
  | scan table _              => table.schema
  | nestedLoopJoin _ _ _ schema => schema
  | filter child _            => child.outputSchema
  | projection _ _ schema     => schema
  | limit child _             => child.outputSchema

-- The tree with the given scans at its leaves.
def withScans (scans : Table → Option TransactionID → Cursor (Database × Table.Scan) String Record) :
    (op : Operator) → Cursor (Database × op.State) String Record
  | scan table tx                       => scans table tx
  | nestedLoopJoin left right predicate _ =>
    (NestedLoopJoin.cursor (left.withScans scans).onLeft (right.withScans scans).onRight predicate.predicate).on
      (fun s => ((s.1, s.2.1), s.2.2)) fun s _ => (s.1.1, s.1.2, s.2)
  | filter child comparator             => FilterOperator.cursor (child.withScans scans) comparator.predicate
  | projection child columns _          => ProjectionOperator.cursor (child.withScans scans) columns
  | limit child count                   =>
    (LimitOperator.cursor (child.withScans scans) count).on (fun s => ((s.1, s.2.1), s.2.2)) fun s _ => (s.1.1, s.1.2, s.2)

def cursor (others : Database → Database) (op : Operator) : Cursor (Database × op.State) String Record :=
  op.withScans <| SequentialScanOperator.cursor others

end Operator
end Duck
