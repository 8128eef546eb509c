import Duck.Table.Table
import Duck.Transaction.Threads

namespace Duck
namespace TableThread

-- The undo records, where `γ` is what is known of a tuple.
inductive Record (γ : Type)
  | delete (heap : TableHeap) (rid : RID)
  | restore (heap : TableHeap) (rid : RID) (tuple : γ)

-- What the calls of a transaction do besides locking, each in one step.
inductive Action (γ : Type)
  | insertTuple (heap : TableHeap) (tupleData : List UInt8)
  | getTuple    (heap : TableHeap) (rid : RID)
  | updateTuple (heap : TableHeap) (rid : RID) (tuple : List UInt8)
  | deleteTuple (heap : TableHeap) (rid : RID)
  | undo        (record : Record γ)
  | pushUndo    (records : List (Record γ))
  | undoLog
  | setState    (state : TransactionState)
  | unlockAll   (commits : Bool)
  | erase

@[reducible]
def Action.Result : Action γ → Type
  | insertTuple .. | updateTuple .. => Option RID
  | getTuple ..                     => Option γ
  | deleteTuple ..                  => Bool
  | undoLog                         => List (Record γ)
  | _                               => Unit

end TableThread

abbrev TableThread (γ : Type) :=
  LockingThread (@TableThread.Action.Result γ)

namespace TableThread

open LockingThread

def step (a : Action γ) : TableThread γ a.Result :=
  own a

section calls

variable (heap : TableHeap) (rid : RID) (tx : TransactionID)

def insertTuple (tupleData : List UInt8) : TableThread γ (Option RID) := do
  match ← step (.insertTuple heap tupleData) with
  | none     => return none
  | some rid =>
    if !(← lock .exclusive rid) then
      discard <| step (.deleteTuple heap rid)
      return none
    else
      step (.pushUndo [.delete heap rid])
      return some rid

def getTuple : TableThread γ (Option γ) := do
  if !(← lock .shared rid) then
    return none
  else
    step (.getTuple heap rid)

def deleteTuple : TableThread γ Bool := do
  if !(← lock .exclusive rid) then
    return false
  else
    match ← step (.getTuple heap rid) with
    | none       => return false
    | some tuple =>
      if !(← step (.deleteTuple heap rid)) then
        return false
      else
        step (.pushUndo [.restore heap rid tuple])
        return true

-- The tuple is serialized once the old one has been read, which may fail.
def updateTuple (tuple : Except String (List UInt8)) : TableThread γ (Option RID) := do
  if !(← lock .exclusive rid) then
    return none
  else
    match ← step (.getTuple heap rid) with
    | none          => return none
    | some oldTuple =>
      match tuple with
      | .error _  => return none
      | .ok tuple =>
        match ← step (.updateTuple heap rid tuple) with
        | none        => return none
        | some retRid =>
          if retRid ≠ rid then
            if !(← lock .exclusive retRid) then
              return none
          step (.pushUndo [.restore heap rid oldTuple, .delete heap retRid])
          return some retRid

def commit : TableThread γ Unit := do
  step (.setState .shrinking)
  step (.unlockAll true)
  step (.setState .committed)
  step .erase

def abort : TableThread γ Unit := do
  step (.setState .shrinking)
  (← step .undoLog).reverse.forM fun record => step (.undo record)
  step (.unlockAll false)
  step (.setState .aborted)
  step .erase

end calls

-- The records as those of the transaction, where the bytes of a tuple are what is known of it.

def Record.toUndoRecord : Record (List UInt8) → UndoRecord
  | delete heap rid        => .delete heap rid
  | restore heap rid tuple => .restore heap rid tuple

def Record.ofUndoRecord : UndoRecord → Record (List UInt8)
  | .delete heap rid        => delete heap rid
  | .restore heap rid tuple => restore heap rid tuple

open Database in
-- What a step does to the database. `others` is what the other transactions do while the call waits.
def run (others : Database → Database) (tx : TransactionID) :
    (a : LockSection ⊕ Action (List UInt8)) → DatabaseM (LockSection.OrResult Action.Result a)
  | .inl (.request mode rid)           => .call fun s =>
    (.ok (s.locks.lock tx rid mode).1, { s with locks := (s.locks.lock tx rid mode).2 })
  | .inl .await                        => .call fun s =>
    let s := others s
    (.ok <| (s.locks.timeOut tx).1.getD false, { s with locks := (s.locks.timeOut tx).2 })
  | .inr (.insertTuple heap tupleData) => onHeap (heap.insertTuple tupleData)
  | .inr (.getTuple heap rid)          => onHeap (heap.getTuple rid)
  | .inr (.updateTuple heap rid tuple) => onHeap (heap.updateTuple rid tuple)
  | .inr (.deleteTuple heap rid)       => onHeap (heap.deleteTuple rid)
  | .inr (.undo record)                => onHeap record.toUndoRecord.undo
  | .inr (.pushUndo records)           => pushUndo tx (records.map Record.toUndoRecord)
  | .inr .undoLog                      => .read fun s => (s.undoLog tx).map Record.ofUndoRecord
  | .inr (.setState state)             => TransactionManager.onLocks (·.setState tx state)
  | .inr (.unlockAll _)                => TransactionManager.onLocks (·.unlockAll tx)
  | .inr .erase                        => TransactionManager.erase tx

end TableThread
end Duck
