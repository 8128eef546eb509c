import Duck.Lib.Program
import Duck.Transaction.LockManager

namespace Duck

-- The manager together with its lock manager, the undo logs of the transactions and the database that
-- the undo records work on. `ρ` stands for the classes of undo records.
structure TransactionManager (ρ σ : Type) where
  locks     : LockManager
  undoLog   : TransactionID → List ρ
  nextTxId  : TransactionID
  activeTxs : List TransactionID
  database  : σ

namespace TransactionManager

variable {ρ σ : Type}

def init (database : σ) : TransactionManager ρ σ where
  locks     := .init
  undoLog _ := []
  nextTxId  := 0
  activeTxs := []
  database  := database

abbrev state (m : TransactionManager ρ σ) (tx : TransactionID) : TransactionState :=
  (m.locks.txs tx).state

-- `set_state` and the calls of the lock manager that return nothing.
def onLocks (f : LockManager → LockManager) : Program (TransactionManager ρ σ) String Unit :=
  .update fun m => { m with locks := f m.locks }

def onDatabase (x : Program σ String Unit) : Program (TransactionManager ρ σ) String Unit :=
  .on database (fun d m => { m with database := d }) x

def erase (tx : TransactionID) : Program (TransactionManager ρ σ) String Unit :=
  .update fun m => { m with activeTxs := m.activeTxs.filter (· ≠ tx) }

def begin (m : TransactionManager ρ σ) : TransactionID × TransactionManager ρ σ :=
  (m.nextTxId, { m with
    locks     := m.locks.setTx m.nextTxId {}
    undoLog   := Function.update m.undoLog m.nextTxId []
    nextTxId  := m.nextTxId + 1
    activeTxs := m.activeTxs.insert m.nextTxId })

def commit (tx : TransactionID) : Program (TransactionManager ρ σ) String Unit := do
  onLocks (·.setState tx .shrinking)
  onLocks (·.unlockAll tx)
  onLocks (·.setState tx .committed)
  erase tx

-- `Transaction::undo`, where `undo` is that of the records.
def undoAll (undo : ρ → Program σ String Unit) (undoLog : List ρ) : Program σ String Unit :=
  undoLog.reverse.forM undo

def abort (undo : ρ → Program σ String Unit) (tx : TransactionID) :
    Program (TransactionManager ρ σ) String Unit := do
  onLocks (·.setState tx .shrinking)
  onDatabase (undoAll undo (← .read (·.undoLog tx)))
  onLocks (·.unlockAll tx)
  onLocks (·.setState tx .aborted)
  erase tx

inductive Action where
  | begin  (tx : TransactionID)
  | lock   (action : LockManager.Action)
  | work   (tx : TransactionID)
  | commit (tx : TransactionID) (completed : Bool)
  | abort  (tx : TransactionID) (completed : Bool)

-- The latched sections of `lock_shared` and `lock_exclusive`.
def Locking : LockManager.Action → Prop
  | .lockShared _ _ | .lockExclusive _ _ | .wake _ | .timeOut _ => True
  | .unlockAll _ | .setState _ _                                => False

-- A transaction that works on the database records how to undo what it does while it is growing.
inductive Step (undo : ρ → Program σ String Unit) (m : TransactionManager ρ σ) :
    Action → TransactionManager ρ σ → Prop
  | begin  : Step undo m (.begin m.begin.1) m.begin.2
  | lock   : Locking a → LockManager.Step m.locks a l → Step undo m (.lock a) { m with locks := l }
  | work   : (records ≠ [] → m.state tx = .growing) →
    Step undo m (.work tx) { m with
      undoLog  := Function.update m.undoLog tx (m.undoLog tx ++ records)
      database := d }
  | commit : m.locks.waiting tx = none → commit tx m = some (result, m') →
    Step undo m (.commit tx result.isOk) m'
  | abort  : m.locks.waiting tx = none → abort undo tx m = some (result, m') →
    Step undo m (.abort tx result.isOk) m'

end TransactionManager
end Duck
