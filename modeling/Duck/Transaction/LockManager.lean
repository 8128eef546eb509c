import Duck.Common.Types
import Duck.Lib.Runs
import Mathlib.Logic.Function.Basic

namespace Duck

abbrev TransactionID := UInt64

inductive TransactionState
  | growing
  | shrinking
  | committed
  | aborted
  deriving DecidableEq

-- The two lock sets are unordered: only membership and the order of no iteration matter.
structure Transaction where
  state          : TransactionState := .growing
  sharedLocks    : List RID := []
  exclusiveLocks : List RID := []
  deriving DecidableEq

inductive LockMode
  | shared
  | exclusive
  deriving DecidableEq

-- `node` tells the list nodes apart, as iterators do.
structure LockRequest where
  node     : ℕ
  txId     : TransactionID
  lockMode : LockMode
  granted  : Bool
  deriving DecidableEq

-- The lock manager with the transactions it works on. `waiting` is the thread of a transaction
-- inside `wait_for`: the queue it waits on and its own request there.
@[ext]
structure LockManager where
  lockTable : RID → List LockRequest
  txs       : TransactionID → Transaction
  waiting   : TransactionID → Option (RID × LockRequest)
  nextNode  : ℕ

namespace LockManager

def init : LockManager where
  lockTable _ := []
  txs _       := {}
  waiting _   := none
  nextNode    := 0

def canGrant (queue : List LockRequest) (request : LockRequest) : Bool :=
  queue.all fun it =>
    if !it.granted || it.txId = request.txId then
      true
    else if request.lockMode = .exclusive then
      false
    else
      it.lockMode ≠ .exclusive

section

variable (m : LockManager) (tx : TransactionID) (rid : RID)

def setQueue (queue : List LockRequest) : LockManager :=
  { m with lockTable := Function.update m.lockTable rid queue }

def setTx (t : Transaction) : LockManager :=
  { m with txs := Function.update m.txs tx t }

def setWaiting (w : Option (RID × LockRequest)) : LockManager :=
  { m with waiting := Function.update m.waiting tx w }

def setState (state : TransactionState) : LockManager :=
  m.setTx tx { m.txs tx with state := state }

-- `queue.requests.insert(queue.requests.end(), request)` and the call of `wait_for`.
def enqueue (mode : LockMode) : LockManager :=
  let request : LockRequest := ⟨m.nextNode, tx, mode, false⟩
  { (m.setQueue rid (m.lockTable rid ++ [request])).setWaiting tx (rid, request) with
    nextNode := m.nextNode + 1 }

def addLock (t : Transaction) (mode : LockMode) (rid : RID) : Transaction :=
  match mode with
  | .shared    => { t with sharedLocks    := t.sharedLocks.insert rid }
  | .exclusive => { t with exclusiveLocks := t.exclusiveLocks.insert rid }

-- The way out of `wait_for` with the request granted.
def grant (request : LockRequest) : LockManager :=
  let queue := (m.lockTable rid).map fun it =>
    if it.node = request.node then { it with granted := true } else it
  ((m.setQueue rid queue).setTx tx (addLock (m.txs tx) request.lockMode rid)).setWaiting tx none

-- The way out of `wait_for` after the timeout.
def giveUp (request : LockRequest) : LockManager :=
  let queue := (m.lockTable rid).filter (·.node ≠ request.node)
  ((m.setQueue rid queue).setState tx .aborted).setWaiting tx none

-- `wait_for` evaluates its predicate: at its start, after a notification and spuriously. A call that
-- goes on waiting has no result yet.
def wake : Option Bool × LockManager :=
  match m.waiting tx with
  | none => (none, m)
  | some (rid, request) =>
    if canGrant (m.lockTable rid) request then
      (some true, m.grant tx rid request)
    else
      (none, m)

-- `wait_for` runs out of time: the predicate decides once more.
def timeOut : Option Bool × LockManager :=
  match m.waiting tx with
  | none => (none, m)
  | some (rid, request) =>
    if canGrant (m.lockTable rid) request then
      (some true, m.grant tx rid request)
    else
      (some false, m.giveUp tx rid request)

def lockShared : Option Bool × LockManager :=
  if (m.txs tx).state ≠ .growing then
    (some false, m)
  else if rid ∈ (m.txs tx).sharedLocks ∨ rid ∈ (m.txs tx).exclusiveLocks then
    (some true, m)
  else
    (m.enqueue tx rid .shared).wake tx

def eraseRequests : LockManager :=
  m.setQueue rid ((m.lockTable rid).filter (·.txId ≠ tx))

-- The upgrade: the shared request goes before the exclusive one is made.
def dropShared : LockManager :=
  if rid ∈ (m.txs tx).sharedLocks then
    (m.eraseRequests tx rid).setTx tx
      { m.txs tx with sharedLocks := (m.txs tx).sharedLocks.filter (· ≠ rid) }
  else
    m

def lockExclusive : Option Bool × LockManager :=
  if (m.txs tx).state ≠ .growing then
    (some false, m)
  else if rid ∈ (m.txs tx).exclusiveLocks then
    (some true, m)
  else
    ((m.dropShared tx rid).enqueue tx rid .exclusive).wake tx

def unlockAll : LockManager :=
  let t := m.txs tx
  let m := (t.exclusiveLocks ++ t.sharedLocks).foldl (fun m rid => m.eraseRequests tx rid) m
  m.setTx tx { t with sharedLocks := [], exclusiveLocks := [] }

end

inductive Action
  | lockShared    (tx : TransactionID) (rid : RID)
  | lockExclusive (tx : TransactionID) (rid : RID)
  | wake          (tx : TransactionID)
  | timeOut       (tx : TransactionID)
  | unlockAll     (tx : TransactionID)
  | setState      (tx : TransactionID) (state : TransactionState)
  deriving DecidableEq

-- Each latched section is one step. A transaction has one thread, so its next call starts only when
-- it waits for nothing.
inductive Step (m : LockManager) : Action → LockManager → Prop
  | lockShared    : m.waiting tx = none → Step m (.lockShared tx rid) (m.lockShared tx rid).2
  | lockExclusive : m.waiting tx = none → Step m (.lockExclusive tx rid) (m.lockExclusive tx rid).2
  | wake          : Step m (.wake tx) (m.wake tx).2
  | timeOut       : Step m (.timeOut tx) (m.timeOut tx).2
  | unlockAll     : m.waiting tx = none → Step m (.unlockAll tx) (m.unlockAll tx)
  | setState      : m.waiting tx = none → Step m (.setState tx st) (m.setState tx st)

abbrev Reachable : LockManager → Prop :=
  Runs.Reachable (· = init) Step

end LockManager
end Duck
