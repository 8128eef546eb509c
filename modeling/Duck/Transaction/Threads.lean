import Duck.Lib.Threads
import Duck.Transaction.Undo

namespace Duck

-- A call that asks for a lock: the section up to `wait_for`, and the one after it.
inductive LockSection
  | request (mode : LockMode) (rid : RID)
  | await

@[reducible]
def LockSection.Result : LockSection → Type
  | request .. => Option Bool
  | await      => Bool

@[reducible]
def LockSection.OrResult (R : B → Type) : LockSection ⊕ B → Type
  | .inl a => a.Result
  | .inr b => R b

-- The threads of transactions, which lock RIDs and do what else `R` gives the results of.
abbrev LockingThread (R : B → Type) :=
  Thread (LockSection ⊕ B) (LockSection.OrResult R)

namespace LockingThread

variable {R : B → Type}

def lockSection (a : LockSection) : LockingThread R a.Result :=
  .perform (A := LockSection ⊕ B) (.inl a)

def own (b : B) : LockingThread R (R b) :=
  .perform (A := LockSection ⊕ B) (.inr b)

def lock (mode : LockMode) (rid : RID) : LockingThread R Bool := do
  match ← lockSection (.request mode rid) with
  | some granted => return granted
  | none         => lockSection .await

end LockingThread

namespace LockManager

def lock (m : LockManager) (tx : TransactionID) (rid : RID) : LockMode → Option Bool × LockManager
  | .shared    => m.lockShared tx rid
  | .exclusive => m.lockExclusive tx rid

-- A section of the transaction, with its result. A call waits as long as neither of the two that end
-- the waiting has one.
inductive Section (tx : TransactionID) (m : LockManager) : (a : LockSection) → a.Result → LockManager → Prop
  | request : Section tx m (.request mode rid) (m.lock tx rid mode).1 (m.lock tx rid mode).2
  | wake    : ((m.wake tx).1 = some granted) → Section tx m .await granted (m.wake tx).2
  | timeOut : ((m.timeOut tx).1 = some granted) → Section tx m .await granted (m.timeOut tx).2

-- The sections next to what else the threads do.
inductive Locking {R : B → Type} (effect : TransactionID → LockManager × σ → (b : B) → R b → LockManager × σ → Prop)
    (tx : TransactionID) (s : LockManager × σ) :
    (a : LockSection ⊕ B) → LockSection.OrResult R a → LockManager × σ → Prop
  | lock : (s.1.Section tx a r m) → Locking effect tx s (.inl a) r (m, s.2)
  | own  : (effect tx s b r s') → Locking effect tx s (.inr b) r s'

end LockManager
end Duck
