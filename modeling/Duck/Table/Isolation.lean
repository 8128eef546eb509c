import Duck.Table.Theorems.HeapPool
import Duck.Table.Threads
import Duck.Transaction.Theorems.LockManager.Locked

namespace Duck.TableThread

-- The bytes of a tuple and who wrote them.
structure Written where
  bytes  : List UInt8
  writer : TransactionID

-- Who wrote the tuples of all tables, the undo logs, and the transactions that have released their locks, with
-- whether they did so in `commit`.
structure Rows where
  heap     : RID → Option Written
  undoLog  : TransactionID → List (Record Written)
  released : TransactionID → Option Bool

namespace Rows

variable (s : Rows) (tx : TransactionID)

def put (rid : RID) (w : Option Written) : Rows :=
  { s with heap := Function.update s.heap rid w }

-- After a call that may have taken the tuple away.
def clear (rid : RID) (pager : Pager) : Rows :=
  if (pager.pool.bytesOf rid.pageId).slotted.hasSlot rid.slotNum then s else s.put rid none

def insert (bytes : List UInt8) : Option RID → Rows
  | some rid => s.put rid (some ⟨bytes, tx⟩)
  | none     => s

def update (rid : RID) (bytes : List UInt8) (pager : Pager) : Option RID → Rows
  | some rid' => (s.put rid none).put rid' (some ⟨bytes, tx⟩)
  | none      => s.clear rid pager

-- What is read at the RID, and who wrote it.
def read (rid : RID) (bytes : Option (List UInt8)) : Option Written :=
  bytes.bind fun bytes => (s.heap rid).map ({ · with bytes })

def push (records : List (Record Written)) : Rows :=
  { s with undoLog := Function.update s.undoLog tx (s.undoLog tx ++ records) }

def release (commits : Bool) : Rows :=
  { s with released := Function.update s.released tx commits }

-- The undo log says how to take back what the transaction has written at the RID.
def Logs (rid : RID) : Prop :=
  ∃ heap, .delete heap rid ∈ s.undoLog tx

end Rows

-- The heaps in the pool, and what is known of their tuples.
structure Stored where
  pool : HeapPool
  rows : Rows

def Stored.set (s : Stored) (pager : Pager) (rows : Rows) : Stored :=
  ⟨{ s.pool with pager := pager.forgiven }, rows⟩

-- The calls of heaps are those of the pool. One that throws ends the call of its table, as one without a result does.
-- The RIDs are on pages of the heap. Where `restore_tuple` does not find an empty slot the program ends.
inductive Effect (tx : TransactionID) (s : LockManager × Stored) :
    (a : Action Written) → a.Result → LockManager × Stored → Prop
  | insertTuple : (s.2.pool.Admits heap (.insert bytes)) → (heap.insertTuple bytes s.2.pool.pager = some (result, t)) →
    Effect tx s (.insertTuple heap bytes) result.toOption.join
      (s.1, s.2.set t (s.2.rows.insert tx bytes result.toOption.join))
  | getTuple    : (s.2.pool.Admits heap (.get rid)) → (heap.getTuple rid s.2.pool.pager = some (result, t)) →
    Effect tx s (.getTuple heap rid) (s.2.rows.read rid result.toOption.join) (s.1, s.2.set t s.2.rows)
  | updateTuple : (s.2.pool.Admits heap (.insert bytes)) → (s.2.pool.Admits heap (.get rid)) →
    (heap.updateTuple rid bytes s.2.pool.pager = some (result, t)) →
    Effect tx s (.updateTuple heap rid bytes) result.toOption.join
      (s.1, s.2.set t (s.2.rows.update tx rid bytes t result.toOption.join))
  | deleteTuple : (s.2.pool.Admits heap (.delete rid)) → (heap.deleteTuple rid s.2.pool.pager = some (result, t)) →
    Effect tx s (.deleteTuple heap rid) (result.toOption.getD false) (s.1, s.2.set t (s.2.rows.clear rid t))
  | undoDelete  : (s.2.pool.Admits heap (.delete rid)) → (heap.deleteTuple rid s.2.pool.pager = some (result, t)) →
    Effect tx s (.undo (.delete heap rid)) () (s.1, s.2.set t (s.2.rows.clear rid t))
  | undoRestore : (s.2.pool.Admits heap (.get rid)) → (heap.restoreTuple rid w.bytes s.2.pool.pager = some (.ok (), t)) →
    Effect tx s (.undo (.restore heap rid w)) ()
      (s.1, s.2.set t (if t.denied then s.2.rows else s.2.rows.put rid (some w)))
  | pushUndo    : Effect tx s (.pushUndo records) () (s.1, { s.2 with rows := s.2.rows.push tx records })
  | undoLog     : Effect tx s .undoLog (s.2.rows.undoLog tx) s
  | setState    : Effect tx s (.setState state) () (s.1.setState tx state, s.2)
  | unlockAll   : Effect tx s (.unlockAll commits) () (s.1.unlockAll tx, { s.2 with rows := s.2.rows.release tx commits })
  | erase       : Effect tx s .erase () s

-- The calls of a transaction, which ends once. The result of its thread is whether it has ended.
inductive Calls : Bool → TableThread Written Bool → Prop
  | insertTuple : Calls ended (do discard <| insertTuple heap tupleData; return ended)
  | getTuple    : Calls ended (do discard <| getTuple heap rid; return ended)
  | updateTuple : Calls ended (do discard <| updateTuple heap rid tuple; return ended)
  | deleteTuple : Calls ended (do discard <| deleteTuple heap rid; return ended)
  | commit      : Calls false (do commit; return true)
  | abort       : Calls false (do abort; return true)

-- Transactions that work on tables.
abbrev Isolation :=
  Thread.System (LockSection ⊕ Action Written) (LockSection.OrResult Action.Result) TransactionID
    (LockManager × Stored) Bool

-- Nothing is locked, and the tuples there are have been written by transactions that have committed.
structure Isolation.Initial (s : Isolation) : Prop where
  pool    : Runs.Reachable HeapPool.Initial HeapPool.Step s.shared.2.pool
  locks   : s.shared.1 = { LockManager.init with
    txs tx := { state := if s.shared.2.rows.released tx = none then .growing else .committed } }
  heap    : ∀ rid bytes, (s.shared.2.rows.heap rid).map (·.bytes) = some bytes ↔
    ∃ heap ∈ s.shared.2.pool.heaps, heap.Live s.shared.2.pool.pager rid bytes
  writers : ∀ rid w, s.shared.2.rows.heap rid = some w → s.shared.2.rows.released w.writer = some true
  undoLog : ∀ tx, s.shared.2.rows.undoLog tx = []
  threads : ∀ tx, s.threads tx = .ret (s.shared.2.rows.released tx).isSome

abbrev Isolation.Step (s : Isolation) :=
  Thread.System.Step (LockManager.Locking Effect) Calls s

abbrev Isolation.Reachable : Isolation → Prop :=
  Runs.Reachable Isolation.Initial Isolation.Step

-- A tuple that a transaction reads was written by itself, or by one that has committed.
def Isolation.Clean (s : Isolation) (tx : TransactionID) (w : Written) : Prop :=
  w.writer = tx ∨ s.shared.2.rows.released w.writer = some true

def NoDirtyReads : Prop :=
  ∀ {s s' : Isolation} {tx heap rid w}, s.Reachable → s.Step (tx, some ⟨.inr (.getTuple heap rid), some w⟩) s' → s.Clean tx w

-- No page is refused to the program.
def Granted (x : PagerM α) (s : Pager) : Prop :=
  ∀ {result t}, x s = some (result, t) → t.denied = false

-- No other transaction has a lock on the RID or waits for one.
def Unclaimed (m : LockManager) (tx : TransactionID) (rid : RID) : Prop :=
  ∀ tx', tx' ≠ tx → ¬m.Claims tx' rid

-- A lock of an RID is not asked for where an uncommitted tuple of another transaction stands that has not locked it.
def Asks (tx : TransactionID) (m : LockManager) (s : Rows) : LockSection ⊕ Action Written → Prop
  | .inl (.request _ rid) => ∀ {w}, s.heap rid = some w →
    w.writer = tx ∨ s.released w.writer = some true ∨ rid ∈ (m.txs w.writer).exclusiveLocks
  | _                     => True

-- A tuple is put where no other transaction has a claim. The page of a tuple that is taken back is not refused, and the
-- page of one that is put back is dirty.
def Careful (tx : TransactionID) (s : LockManager × Stored) :
    (a : LockSection ⊕ Action Written) → LockSection.OrResult Action.Result a → Prop
  | .inr (.insertTuple ..), r                => ∀ rid ∈ r, Unclaimed s.1 tx rid
  | .inr (.updateTuple _ rid bytes), r       => bytes.length < 65536 ∧ ∀ rid' ∈ r, rid' = rid ∨ Unclaimed s.1 tx rid'
  | .inr (.deleteTuple heap rid), _          => (∀ {w}, s.2.rows.heap rid = some w → w.writer = tx → s.2.rows.Logs tx rid) ∨
    Granted (heap.deleteTuple rid) s.2.pool.pager
  | .inr (.undo (.delete heap rid)), _       => Granted (heap.deleteTuple rid) s.2.pool.pager
  | .inr (.undo (.restore heap rid w)), _    => Granted (heap.restoreTuple rid w.bytes) s.2.pool.pager →
    s.2.pool.pager.isDirty rid.pageId = true
  | a, _                                     => Asks tx s.1 s.2.rows a

def CarefulEffect (tx : TransactionID) (s : LockManager × Stored) (a : LockSection ⊕ Action Written)
    (r : LockSection.OrResult Action.Result a) (s' : LockManager × Stored) : Prop :=
  LockManager.Locking Effect tx s a r s' ∧ Careful tx s a r

abbrev Isolation.CarefulStep (s : Isolation) :=
  Thread.System.Step CarefulEffect Calls s

end Duck.TableThread
