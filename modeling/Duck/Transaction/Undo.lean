import Duck.Table.TableHeap
import Duck.Transaction.TransactionManager

namespace Duck

-- The classes of undo records that work on tables. They skip the transaction.
inductive UndoRecord
  | delete (heap : TableHeap) (rid : RID)
  | restore (heap : TableHeap) (rid : RID) (tuple : List UInt8)

def UndoRecord.undo : UndoRecord → PagerM Unit
  | delete heap rid        => discard <| heap.deleteTuple rid
  | restore heap rid tuple => heap.restoreTuple rid tuple

abbrev Database :=
  TransactionManager UndoRecord Pager

abbrev DatabaseM :=
  Program Database String

namespace Database

def onHeap (x : PagerM α) : DatabaseM α :=
  .on (·.database) (fun pager s => { s with database := pager }) x

-- A call of the lock manager that may have to wait. `others` is what the other transactions do
-- meanwhile.
def await (others : Database → Database) (tx : TransactionID) (call : LockManager → Option Bool × LockManager) :
    DatabaseM Bool :=
  .call fun s => match call s.locks with
    | (some granted, locks) => (.ok granted, { s with locks := locks })
    | (none,         locks) =>
      let s := others { s with locks := locks }
      (.ok <| (s.locks.timeOut tx).1.getD false, { s with locks := (s.locks.timeOut tx).2 })

variable (others : Database → Database)

-- Without a transaction nothing is locked.
def lockShared (tx : Option TransactionID) (rid : RID) : DatabaseM Bool :=
  match tx with
  | none    => return true
  | some tx => await others tx (·.lockShared tx rid)

def lockExclusive (tx : Option TransactionID) (rid : RID) : DatabaseM Bool :=
  match tx with
  | none    => return true
  | some tx => await others tx (·.lockExclusive tx rid)

def pushUndo (tx : Option TransactionID) (records : List UndoRecord) : DatabaseM Unit :=
  match tx with
  | none    => return ()
  | some tx => .update fun s => { s with
    undoLog := Function.update s.undoLog tx (s.undoLog tx ++ records) }

end Database
end Duck
