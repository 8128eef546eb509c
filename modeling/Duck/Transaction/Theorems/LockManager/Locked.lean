import Duck.Transaction.Theorems.LockManager.Safety
import Duck.Transaction.Threads

namespace Duck.LockManager

-- The transaction has a lock on the RID, of the given mode or a stronger one.
def Has (m : LockManager) (tx : TransactionID) (rid : RID) (mode : LockMode) : Prop :=
  rid ∈ (m.txs tx).locks mode ∨ rid ∈ (m.txs tx).exclusiveLocks

def Locked (m : LockManager) (tx : TransactionID) (rid : RID) : Prop :=
  rid ∈ (m.txs tx).sharedLocks ∨ rid ∈ (m.txs tx).exclusiveLocks

variable {m m' : LockManager} {tx tx' : TransactionID} {rid rid' : RID} {mode : LockMode} {request : LockRequest}

theorem Has.locked (h : m.Has tx rid mode) : m.Locked tx rid := by
  cases mode
  case shared    => exact h
  case exclusive => exact .inr <| or_self_iff.mp h

theorem has_exclusive : m.Has tx rid .exclusive ↔ rid ∈ (m.txs tx).exclusiveLocks :=
  or_self_iff

-- Who has a lock has it alone, where it or the other one is exclusive.
theorem Invariant.alone (hi : m.Invariant) (hx : rid ∈ (m.txs tx).exclusiveLocks) (h : m.Locked tx' rid) : tx' = tx := by
  have hx : rid ∈ (m.txs tx).locks .exclusive := hx
  obtain ⟨r, hr⟩ := hi.locks.mp hx
  have ⟨mode, hl⟩ : ∃ mode, rid ∈ (m.txs tx').locks mode := h.elim (⟨.shared, ·⟩) (⟨.exclusive, ·⟩)
  obtain ⟨r', hr'⟩ := hi.locks.mp hl
  exact hr'.tx.symm.trans <| (hi.compatible hr.mem hr'.mem hr.granted hr'.granted hr.mode).trans hr.tx

section sections

theorem enqueue_waiting : (m.enqueue tx rid mode).waiting tx = some (rid, ⟨m.nextNode, tx, mode, false⟩) := by
  simp [enqueue, setWaiting]

theorem grant_waiting : (m.grant tx rid request).waiting tx = none := by
  simp [grant, setWaiting]

theorem grant_txs : (m.grant tx rid request).txs = Function.update m.txs tx (addLock (m.txs tx) request.lockMode rid) :=
  rfl

theorem grant_has : (m.grant tx rid request).Has tx rid request.lockMode := by
  simp only [Has, grant_txs, Function.update_self]
  exact .inl <| mem_addLock.mpr <| .inr ⟨rfl, rfl⟩

theorem grant_exclusive (h : rid' ∈ (m.txs tx).exclusiveLocks) :
    rid' ∈ ((m.grant tx rid request).txs tx).exclusiveLocks := by
  have hx : rid' ∈ (m.txs tx).locks .exclusive := h
  rw [grant_txs, Function.update_self]
  have hl : rid' ∈ (addLock (m.txs tx) request.lockMode rid).locks .exclusive := mem_addLock.mpr <| .inl hx
  exact hl

theorem grant_locked : (m.grant tx rid request).Locked tx rid' ↔ rid' = rid ∨ m.Locked tx rid' := by
  simp only [Locked, grant_txs, Function.update_self, addLock]
  cases request.lockMode <;> simp [List.mem_insert_iff, or_assoc, or_left_comm]

-- What a call does that waits: it gives up its shared lock first when it asks for an exclusive one.
def requested (m : LockManager) (tx : TransactionID) (rid : RID) : LockMode → LockManager
  | .shared    => m.enqueue tx rid .shared
  | .exclusive => (m.dropShared tx rid).enqueue tx rid .exclusive

theorem requested_waiting (m : LockManager) (tx : TransactionID) (rid : RID) (mode : LockMode) :
    ∃ request, (m.requested tx rid mode).waiting tx = some (rid, request) ∧ request.lockMode = mode := by
  cases mode
  case shared    => exact ⟨_, enqueue_waiting, rfl⟩
  case exclusive => exact ⟨_, enqueue_waiting, rfl⟩

theorem requested_waiting_of_ne (hn : tx' ≠ tx) : (m.requested tx rid mode).waiting tx' = m.waiting tx' := by
  cases mode
  case shared    => simp [requested, enqueue, setWaiting, setQueue, hn]
  case exclusive => simp [requested, enqueue, setWaiting, setQueue, hn, dropShared_waiting]

theorem dropShared_txs_of_ne (hn : tx' ≠ tx) : (m.dropShared tx rid).txs tx' = m.txs tx' := by
  simp only [dropShared]
  split
  case isTrue  => simp [setTx, eraseRequests, setQueue, hn]
  case isFalse => rfl

theorem requested_txs_of_ne (hn : tx' ≠ tx) : (m.requested tx rid mode).txs tx' = m.txs tx' := by
  cases mode
  case shared    => rfl
  case exclusive => exact dropShared_txs_of_ne hn

theorem dropShared_kept : ((m.dropShared tx rid).txs tx).state = (m.txs tx).state ∧
    ((m.dropShared tx rid).txs tx).exclusiveLocks = (m.txs tx).exclusiveLocks := by
  simp only [dropShared]
  split
  case isTrue  => simp [setTx]
  case isFalse => exact ⟨rfl, rfl⟩

theorem requested_kept : ((m.requested tx rid mode).txs tx).state = (m.txs tx).state ∧
    ((m.requested tx rid mode).txs tx).exclusiveLocks = (m.txs tx).exclusiveLocks := by
  cases mode
  case shared    => exact ⟨rfl, rfl⟩
  case exclusive => exact dropShared_kept

-- A call is refused, or has the lock, or waits for it.
theorem lock_cases (m : LockManager) (tx : TransactionID) (rid : RID) (mode : LockMode) :
    m.lock tx rid mode = (some false, m) ∧ (m.txs tx).state ≠ .growing ∨
    m.lock tx rid mode = (some true, m) ∧ (m.txs tx).state = .growing ∧ m.Has tx rid mode ∨
    m.lock tx rid mode = (m.requested tx rid mode).wake tx ∧ (m.txs tx).state = .growing ∧ ¬m.Has tx rid mode := by
  by_cases hg : (m.txs tx).state = .growing
  case neg => cases mode <;> simp [lock, lockShared, lockExclusive, hg]
  case pos =>
    have hs : ¬(m.txs tx).state ≠ .growing := not_not.mpr hg
    by_cases hh : m.Has tx rid mode
    case pos =>
      refine .inr <| .inl ⟨?_, hg, hh⟩
      cases mode
      case shared    => exact (if_neg hs).trans <| if_pos hh
      case exclusive => exact (if_neg hs).trans <| if_pos <| has_exclusive.mp hh
    case neg =>
      refine .inr <| .inr ⟨?_, hg, hh⟩
      cases mode
      case shared    => exact (if_neg hs).trans <| if_neg hh
      case exclusive => exact (if_neg hs).trans <| if_neg <| mt has_exclusive.mpr hh

theorem wake_granted (hw : m.waiting tx = some (rid, request)) :
    m.wake tx = (some true, m.grant tx rid request) ∨ m.wake tx = (none, m) := by
  simp only [wake, hw]
  split
  case isTrue  => exact .inl rfl
  case isFalse => exact .inr rfl

theorem timeOut_granted (hw : m.waiting tx = some (rid, request)) :
    m.timeOut tx = (some true, m.grant tx rid request) ∨ m.timeOut tx = (some false, m.giveUp tx rid request) := by
  simp only [timeOut, hw]
  split
  case isTrue  => exact .inl rfl
  case isFalse => exact .inr rfl

theorem giveUp_state : ((m.giveUp tx rid request).txs tx).state = .aborted := by
  simp [giveUp, setState, setTx, setWaiting]

end sections

namespace Section

variable {a : LockSection} {r : a.Result} {result : Option Bool} {granted : Bool}

theorem inv (hi : m.Invariant) (hw : ∀ mode rid, a = .request mode rid → m.waiting tx = none) (e : m.Section tx a r m') :
    m'.Invariant := by
  cases e
  case wake    => exact hi.wake
  case timeOut => exact hi.timeOut
  case request mode rid =>
    cases mode
    case shared    => exact hi.lockShared <| hw _ _ rfl
    case exclusive => exact hi.lockExclusive <| hw _ _ rfl

-- What a section of a transaction leaves as it is.
structure Frame (tx : TransactionID) (m m' : LockManager) : Prop where
  txs       : ∀ tx', tx' ≠ tx → m'.txs tx' = m.txs tx'
  waiting   : ∀ tx', tx' ≠ tx → m'.waiting tx' = m.waiting tx'
  exclusive : ∀ rid, rid ∈ (m.txs tx).exclusiveLocks → rid ∈ (m'.txs tx).exclusiveLocks

theorem Frame.refl : Frame tx m m :=
  ⟨fun _ _ => rfl, fun _ _ => rfl, fun _ => id⟩

theorem Frame.trans (h₁ : Frame tx m₁ m₂) (h₂ : Frame tx m₂ m₃) : Frame tx m₁ m₃ where
  txs tx' hn       := (h₂.txs tx' hn).trans <| h₁.txs tx' hn
  waiting tx' hn   := (h₂.waiting tx' hn).trans <| h₁.waiting tx' hn
  exclusive rid hx := h₂.exclusive rid <| h₁.exclusive rid hx

theorem Frame.requested : Frame tx m (m.requested tx rid mode) where
  txs _ hn      := requested_txs_of_ne hn
  waiting _ hn  := requested_waiting_of_ne hn
  exclusive _ h := requested_kept.2.symm ▸ h

theorem Frame.grant : Frame tx m (m.grant tx rid request) where
  txs _ hn      := Function.update_of_ne hn _ _
  waiting _ hn  := Function.update_of_ne hn _ _
  exclusive _ h := grant_exclusive h

theorem Frame.giveUp : Frame tx m (m.giveUp tx rid request) where
  txs _ hn      := Function.update_of_ne hn _ _
  waiting _ hn  := Function.update_of_ne hn _ _
  exclusive _ h := by simpa [LockManager.giveUp, setState, setTx, setWaiting, setQueue] using h

theorem Frame.wake : Frame tx m (m.wake tx).2 := by
  obtain h | ⟨rid, request, _, _, h⟩ := m.wake_cases tx
  · exact h.symm ▸ .refl
  · exact h.symm ▸ .grant

theorem frame (e : m.Section tx a r m') : Frame tx m m' := by
  cases e
  case wake    => exact .wake
  case timeOut =>
    obtain h | ⟨rid, request, _, h⟩ := m.timeOut_cases tx
    · exact h.symm ▸ .wake
    · exact h.symm ▸ .giveUp
  case request mode rid =>
    obtain ⟨h, _⟩ | ⟨h, _⟩ | ⟨h, _⟩ := m.lock_cases tx rid mode
    · exact h.symm ▸ .refl
    · exact h.symm ▸ .refl
    · exact h.symm ▸ Frame.requested.trans .wake

-- No transaction starts to grow again.
theorem growing (e : m.Section tx a r m') (hg : (m'.txs tx).state = .growing) : (m.txs tx).state = .growing := by
  cases e
  case wake    => rwa [wake_state] at hg
  case timeOut =>
    obtain h | ⟨rid, request, _, h⟩ := m.timeOut_cases tx
    · rwa [h, wake_state] at hg
    · simp [h, giveUp, setState, setTx, setWaiting] at hg
  case request mode rid =>
    obtain ⟨h, _⟩ | ⟨h, _⟩ | ⟨_, h, _⟩ := m.lock_cases tx rid mode
    · rwa [h] at hg
    · rwa [h] at hg
    · exact h

-- A call is over, with the lock if it is told so, or it waits for it.
theorem of_request (e : m.Section tx (.request mode rid) result m') :
    (∃ granted, result = some granted ∧ (m.waiting tx = none → m'.waiting tx = none) ∧
      (granted → m'.Has tx rid mode ∧ (m'.txs tx).state = .growing)) ∨
    result = none ∧ ∃ request, m'.waiting tx = some (rid, request) ∧ request.lockMode = mode ∧
      (m'.txs tx).state = .growing := by
  cases e
  obtain ⟨h, -⟩ | ⟨h, hg, hh⟩ | ⟨h, hg, -⟩ := m.lock_cases tx rid mode
  · rw [h]
    exact .inl ⟨false, rfl, id, nofun⟩
  · rw [h]
    exact .inl ⟨true, rfl, id, fun _ => ⟨hh, hg⟩⟩
  · obtain ⟨request, hw, hm⟩ := requested_waiting m tx rid mode
    have hg : ((m.requested tx rid mode).txs tx).state = .growing := requested_kept.1.trans hg
    obtain h' | h' := wake_granted hw
    · rw [h, h']
      refine .inl ⟨true, rfl, fun _ => grant_waiting, fun _ => ⟨hm ▸ grant_has, ?_⟩⟩
      exact grant_state.trans hg
    · rw [h, h']
      exact .inr ⟨rfl, request, hw, hm, hg⟩

theorem of_await (hw : m.waiting tx = some (rid, request)) (e : m.Section tx .await granted m') :
    m'.waiting tx = none ∧ (granted → m'.Has tx rid request.lockMode ∧ (m'.txs tx).state = (m.txs tx).state) := by
  cases e
  case wake ht    =>
    obtain h | h := wake_granted hw
    · rw [h]
      exact ⟨grant_waiting, fun _ => ⟨grant_has, grant_state⟩⟩
    · rw [h] at ht
      cases ht
  case timeOut ht =>
    obtain h | h := timeOut_granted hw
    · rw [h]
      exact ⟨grant_waiting, fun _ => ⟨grant_has, grant_state⟩⟩
    · rw [h] at ht
      cases ht
      rw [h]
      exact ⟨by simp [giveUp, setWaiting], nofun⟩

-- Who does not grow is refused at once.
theorem idle (hg : (m.txs tx).state ≠ .growing) (e : m.Section tx (.request mode rid) result m') : m' = m := by
  cases e
  obtain ⟨h, _⟩ | ⟨_, h, _⟩ | ⟨_, h, _⟩ := m.lock_cases tx rid mode
  · rw [h]
  · exact absurd h hg
  · exact absurd h hg

theorem of_refused (e : m.Section tx (.request mode rid) (some false) m') : (m.txs tx).state ≠ .growing := by
  generalize hr : some false = result at e
  cases e
  obtain ⟨_, h⟩ | ⟨h, _⟩ | ⟨h, _⟩ := m.lock_cases tx rid mode
  · exact h
  · rw [h] at hr
    cases hr
  · obtain ⟨_, hw, -⟩ := requested_waiting m tx rid mode
    obtain h' | h' := wake_granted hw
    all_goals rw [h, h'] at hr; cases hr

-- Who waits for a lock does not have it.
theorem of_waits (e : m.Section tx (.request mode rid) none m') : ¬m'.Has tx rid mode := by
  generalize hr : none = result at e
  cases e
  obtain ⟨h, _⟩ | ⟨h, _⟩ | ⟨h, -, hh⟩ := m.lock_cases tx rid mode
  · rw [h] at hr
    cases hr
  · rw [h] at hr
    cases hr
  · obtain ⟨_, hw, -⟩ := requested_waiting m tx rid mode
    obtain h' | h' := wake_granted hw
    · rw [h, h'] at hr
      cases hr
    · rw [h, h']
      change ¬(m.requested tx rid mode).Has tx rid mode
      refine fun hx => hh ?_
      cases mode
      case shared    => exact hx
      case exclusive =>
        rw [has_exclusive, requested_kept.2] at hx
        exact has_exclusive.mpr hx

theorem of_timeOut (hw : m.waiting tx = some (rid, request)) (e : m.Section tx .await false m') :
    (m'.txs tx).state ≠ .growing ∧ ∀ mode, (m'.txs tx).locks mode = (m.txs tx).locks mode := by
  generalize hr : false = granted at e
  cases e
  case wake ht    =>
    obtain h | h := wake_granted hw
    · rw [h] at ht
      cases ht
      cases hr
    · rw [h] at ht
      cases ht
  case timeOut ht =>
    obtain h | h := timeOut_granted hw
    · rw [h] at ht
      cases ht
      cases hr
    · rw [h]
      refine ⟨by simp [giveUp_state], fun mode => ?_⟩
      cases mode <;> simp [Transaction.locks, LockManager.giveUp, setState, setTx, setWaiting, setQueue]

end Section

-- The transaction has a lock on the RID or waits for one.
def Claims (m : LockManager) (tx : TransactionID) (rid : RID) : Prop :=
  m.Locked tx rid ∨ ∃ request, m.waiting tx = some (rid, request)

theorem requested_claims (h : (m.requested tx rid' mode).Claims tx rid) : m.Claims tx rid ∨ rid = rid' := by
  obtain h | ⟨request, h⟩ := h
  · refine .inl <| .inl ?_
    cases mode
    case shared    => exact h
    case exclusive =>
      refine h.imp (fun h => ?_) fun h => by rwa [requested_kept.2] at h
      simp only [requested, dropShared] at h
      split at h
      case isTrue  =>
        have h : rid ∈ (m.txs tx).sharedLocks ∧ ¬rid = rid' := by simpa [enqueue, setTx, setWaiting, setQueue] using h
        exact h.1
      case isFalse => exact h
  · obtain ⟨_, hw, -⟩ := requested_waiting m tx rid' mode
    cases hw.symm.trans h
    exact .inr rfl

theorem wake_claims (h : (m.wake tx).2.Claims tx rid) : m.Claims tx rid := by
  obtain he | ⟨rid', request, hw, -, he⟩ := m.wake_cases tx
  · exact he ▸ h
  · rw [he] at h
    obtain h | ⟨_, h⟩ := h
    · obtain rfl | h := grant_locked.mp h
      · exact .inr ⟨request, hw⟩
      · exact .inl h
    · cases grant_waiting.symm.trans h

-- A transaction claims nothing but what it asks for.
theorem Section.claims {a : LockSection} {r : a.Result} (e : m.Section tx a r m') (h : m'.Claims tx rid) :
    m.Claims tx rid ∨ ∃ mode, a = .request mode rid := by
  cases e
  case wake             => exact .inl <| wake_claims h
  case timeOut          =>
    obtain he | ⟨rid', request, _, he⟩ := m.timeOut_cases tx
    · exact .inl <| wake_claims <| he ▸ h
    · rw [he] at h
      refine .inl <| h.imp ?_ fun ⟨_, h⟩ => ?_
      · intro h
        simpa [Locked, giveUp, setState, setTx, setWaiting, setQueue] using h
      · simp [giveUp, setWaiting] at h
  case request mode rid' =>
    obtain ⟨he, _⟩ | ⟨he, _⟩ | ⟨he, _⟩ := m.lock_cases tx rid' mode
    · rw [he] at h
      exact .inl h
    · rw [he] at h
      exact .inl h
    · rw [he] at h
      obtain h | rfl := requested_claims <| wake_claims h
      · exact .inl h
      · exact .inr ⟨mode, rfl⟩

end Duck.LockManager
