import Duck.Table.Scan
import Duck.Transaction.Undo
import Duck.Tuple.Tuple

namespace Duck

structure Table where
  heap   : TableHeap
  schema : Schema

inductive DropTableStatus
  | readPagesFailed
  | success
  deriving DecidableEq

namespace Table

open Database

variable (others : Database → Database) (t : Table)

-- An insert that is not granted the lock takes its tuple away again.
def insertTuple (tuple : Tuple) (tx : Option TransactionID) : DatabaseM (Option RID) := do
  if !t.schema.compatibleWith tuple.schema then
    throw "Table::insert_tuple: schemas not compatible"
  match ← onHeap (t.heap.insertTuple (← .ofExcept tuple.serialize)) with
  | none     => return none
  | some rid =>
    if !(← lockExclusive others tx rid) then
      discard <| onHeap (t.heap.deleteTuple rid)
      return none
    else
      pushUndo tx [.delete t.heap rid]
      return some rid

-- What stands for a read outside the bytes of a tuple, after which the program may do anything.
def readOutside : String :=
  "Tuple::deserialize: read outside the tuple"

-- The constructor of the tuple that is read.
def decode (bytes : List UInt8) : DatabaseM Tuple :=
  .ofExcept <| (Tuple.deserialize bytes t.schema).mapError fun
    | .outside => readOutside
    | .error e => e

def getTuple (rid : RID) (tx : Option TransactionID) : DatabaseM (Option Tuple) := do
  if !(← lockShared others tx rid) then
    return none
  else
    match ← onHeap (t.heap.getTuple rid) with
    | none       => return none
    | some bytes => return some (← t.decode bytes)

def deleteTuple (rid : RID) (tx : Option TransactionID) : DatabaseM Bool := do
  if !(← lockExclusive others tx rid) then
    return false
  else
    match ← onHeap (t.heap.getTuple rid) with
    | none       => return false
    | some bytes =>
      if !(← onHeap (t.heap.deleteTuple rid)) then
        return false
      else
        pushUndo tx [.restore t.heap rid bytes]
        return true

-- A tuple that has moved to an RID whose lock is not granted stays there, and nothing is recorded.
def updateTuple (rid : RID) (tuple : Tuple) (tx : Option TransactionID) : DatabaseM (Option RID) := do
  if !t.schema.compatibleWith tuple.schema then
    throw "Table::update_tuple: schemas not compatible"
  if !(← lockExclusive others tx rid) then
    return none
  else
    match ← onHeap (t.heap.getTuple rid) with
    | none               => return none
    | some oldTupleBytes =>
      match ← onHeap (t.heap.updateTuple rid (← .ofExcept tuple.serialize)) with
      | none        => return none
      | some retRid =>
        if retRid ≠ rid then
          if !(← lockExclusive others tx retRid) then
            return none
        pushUndo tx [.restore t.heap rid oldTupleBytes, .delete t.heap retRid]
        return some retRid

-- The pages that could not be deleted are counted.
def dropPages : PagerM (ℕ × DropTableStatus) := do
  match ← t.heap.allPages with
  | (_,       .failed)  => return (0, .readPagesFailed)
  | (pageIds, .success) =>
    let failed ← pageIds.foldlM (fun failed pageId => do
      return if ← t.heap.dropPage pageId then failed else failed + 1) 0
    return (failed, .success)

structure Scan where
  heapScan : TableHeap.Scan
  table    : Table
  tx       : Option TransactionID

def scan (tx : Option TransactionID) : PagerM Scan := do
  return ⟨← t.heap.scan, t, tx⟩

def Scan.next (scan : Scan) : DatabaseM (Option (RID × Tuple) × Scan) := do
  if !(← lockShared others scan.tx scan.heapScan.nextRid) then
    return (none, scan)
  else
    match ← onHeap scan.heapScan.next with
    | (none, heapScan)              => return (none, { scan with heapScan := heapScan })
    | (some (rid, bytes), heapScan) =>
      return (some (rid, ← scan.table.decode bytes), { scan with heapScan := heapScan })

end Table
end Duck
