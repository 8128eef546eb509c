import Duck.Transaction.Theorems.LockManager.Invariant

namespace Duck.LockManager

variable {m m' : LockManager} {tx tx' : TransactionID} {rid rid' : RID} {mode mode' : LockMode}
  {r r' request : LockRequest} {a : Action}

section sections

-- What the sections of a call come down to.

theorem wake_cases (m : LockManager) (tx : TransactionID) :
    (m.wake tx).2 = m ∨ ∃ rid request,
    m.waiting tx = some (rid, request) ∧ canGrant (m.lockTable rid) request ∧
      (m.wake tx).2 = m.grant tx rid request := by
  simp only [wake]
  split
  case h_1 => exact .inl rfl
  case h_2 rid request hw =>
    split
    case isTrue hc  => exact .inr ⟨rid, request, hw, hc, rfl⟩
    case isFalse hc => exact .inl rfl

theorem timeOut_cases (m : LockManager) (tx : TransactionID) :
    (m.timeOut tx).2 = (m.wake tx).2 ∨ ∃ rid request,
    m.waiting tx = some (rid, request) ∧ (m.timeOut tx).2 = m.giveUp tx rid request := by
  simp only [timeOut, wake]
  split
  case h_1 => exact .inl rfl
  case h_2 rid request hw =>
    split
    case isTrue hc  => exact .inl rfl
    case isFalse hc => exact .inr ⟨rid, request, hw, rfl⟩

theorem lockShared_cases (m : LockManager) (tx : TransactionID) (rid : RID) :
    (m.lockShared tx rid).2 = m ∨
    (∀ mode, rid ∉ (m.txs tx).locks mode) ∧
      (m.lockShared tx rid).2 = ((m.enqueue tx rid .shared).wake tx).2 := by
  simp only [lockShared]
  split_ifs with hg hl
  case pos   => exact .inl rfl
  case pos   => exact .inl rfl
  case neg   =>
    refine .inr ⟨fun mode hm => hl ?_, rfl⟩
    cases mode
    case shared    => exact .inl hm
    case exclusive => exact .inr hm

theorem lockExclusive_cases (m : LockManager) (tx : TransactionID) (rid : RID) :
    (m.lockExclusive tx rid).2 = m ∨
    (m.txs tx).state = .growing ∧ rid ∉ (m.txs tx).exclusiveLocks ∧
      (m.lockExclusive tx rid).2 = (((m.dropShared tx rid).enqueue tx rid .exclusive).wake tx).2 := by
  simp only [lockExclusive]
  split_ifs with hg hl
  case pos   => exact .inl rfl
  case pos   => exact .inl rfl
  case neg   => exact .inr ⟨not_not.mp hg, hl, rfl⟩

end sections

section states

@[simp]
theorem setState_state : ((m.setState tx st).txs tx').state = if tx' = tx then st else (m.txs tx').state := by
  by_cases h : tx' = tx
  case pos => simp [h, setState, setTx]
  case neg => simp [h, setState, setTx]

@[simp]
theorem unlockAll_state : ((m.unlockAll tx).txs tx').state = (m.txs tx').state := by
  rw [(m.unlockAll_eq tx).2.2.1]
  by_cases h : tx' = tx
  case pos => simp [h]
  case neg => simp [h]

@[simp]
theorem unlockAll_waiting : (m.unlockAll tx).waiting = m.waiting :=
  (m.unlockAll_eq tx).1

theorem grant_state : ((m.grant tx rid request).txs tx').state = (m.txs tx').state := by
  by_cases h : tx' = tx
  case neg => simp [grant, setTx, setWaiting, setQueue, h]
  case pos =>
    subst h
    simp only [grant, setTx, setWaiting, Function.update_self]
    cases request.lockMode <;> rfl

theorem wake_state : ((m.wake tx).2.txs tx').state = (m.txs tx').state := by
  obtain h | ⟨rid, request, _, _, h⟩ := m.wake_cases tx
  · rw [h]
  · rw [h, grant_state]

theorem dropShared_state : ((m.dropShared tx rid).txs tx').state = (m.txs tx').state := by
  simp only [dropShared]
  split
  case isFalse => rfl
  case isTrue  =>
    by_cases h : tx' = tx
    case pos => simp [h, setTx]
    case neg => simp [h, setTx, eraseRequests, setQueue]

theorem wake_waiting (hn : tx' ≠ tx) : (m.wake tx).2.waiting tx' = m.waiting tx' := by
  obtain h | ⟨rid, request, _, _, h⟩ := m.wake_cases tx
  · rw [h]
  · simp [h, grant, setWaiting, setTx, setQueue, hn]

end states

theorem dropShared_waiting : (m.dropShared tx rid).waiting = m.waiting := by
  simp only [dropShared]
  split <;> rfl

theorem dropShared_locks (hl : rid ∉ (m.txs tx).exclusiveLocks) :
    rid ∉ ((m.dropShared tx rid).txs tx).locks mode := by
  simp only [dropShared]
  split
  case isTrue hs  => cases mode <;> simp [setTx, Transaction.locks, hl]
  case isFalse hs => cases mode <;> simp [Transaction.locks, hl, hs]

section

variable (hi : m.Invariant)

include hi

theorem Invariant.wake : (m.wake tx).2.Invariant := by
  obtain h | ⟨rid, request, hw, hc, h⟩ := m.wake_cases tx
  · exact h.symm ▸ hi
  · exact h ▸ hi.grant hw hc

theorem Invariant.timeOut : (m.timeOut tx).2.Invariant := by
  obtain h | ⟨rid, request, hw, h⟩ := m.timeOut_cases tx
  · exact h ▸ hi.wake
  · exact h ▸ hi.giveUp hw

theorem Invariant.lockShared (hw : m.waiting tx = none) : (m.lockShared tx rid).2.Invariant := by
  obtain h | ⟨hl, h⟩ := m.lockShared_cases tx rid
  · exact h.symm ▸ hi
  · exact h ▸ (hi.enqueue rid .shared hw <| hi.no_request hw hl).wake

theorem Invariant.lockExclusive (hw : m.waiting tx = none) : (m.lockExclusive tx rid).2.Invariant := by
  obtain h | ⟨_, hl, h⟩ := m.lockExclusive_cases tx rid
  · exact h.symm ▸ hi
  · have hd := hi.dropShared rid hw
    have hw : (m.dropShared tx rid).waiting tx = none := by rwa [dropShared_waiting]
    exact h ▸ (hd.enqueue rid .exclusive hw <| hd.no_request hw fun _ => dropShared_locks hl).wake

theorem Invariant.step (e : Step m a m') : m'.Invariant := by
  cases e
  case lockShared hw    => exact hi.lockShared hw
  case lockExclusive hw => exact hi.lockExclusive hw
  case wake             => exact hi.wake
  case timeOut          => exact hi.timeOut
  case unlockAll hw     => exact hi.unlockAll hw
  case setState         => exact hi.setState _ _

end

theorem Reachable.inv (h : Reachable m) : m.Invariant :=
  h.invariant (fun h => h ▸ init_invariant) fun e hi => hi.step e

section holds

theorem holds_enqueue : (m.enqueue tx rid mode).Holds tx' rid' mode' r ↔ m.Holds tx' rid' mode' r := by
  constructor
  · intro h
    obtain hm | ⟨_, rfl⟩ := mem_enqueue.mp h.mem
    · exact ⟨hm, h.tx, h.granted, h.mode⟩
    · exact nomatch h.granted
  · exact fun h => ⟨mem_enqueue.mpr <| .inl h.mem, h.tx, h.granted, h.mode⟩

theorem Invariant.holds_grant (hi : m.Invariant) (hw : m.waiting tx = some (rid, request)) :
    (m.grant tx rid request).Holds tx' rid' mode r ↔ m.Holds tx' rid' mode r ∨
      tx' = tx ∧ rid' = rid ∧ mode = request.lockMode ∧ r = { request with granted := true } := by
  have ht := (hi.waits hw).2.1
  constructor
  · intro h
    obtain ⟨hm, _⟩ | ⟨rfl, rfl⟩ := (hi.mem_grant hw).mp h.mem
    · exact .inl ⟨hm, h.tx, h.granted, h.mode⟩
    · exact .inr ⟨h.tx.symm.trans ht, rfl, h.mode.symm, rfl⟩
  · rintro (h | ⟨rfl, rfl, rfl, rfl⟩)
    · have hm := (hi.mem_grant hw).mpr <| .inl ⟨h.mem, hi.ne_of_granted hw h.granted⟩
      exact ⟨hm, h.tx, h.granted, h.mode⟩
    · exact ⟨(hi.mem_grant hw).mpr <| .inr ⟨rfl, rfl⟩, ht, rfl, rfl⟩

theorem Invariant.holds_giveUp (hi : m.Invariant) (hw : m.waiting tx = some (rid, request)) :
    (m.giveUp tx rid request).Holds tx' rid' mode r ↔ m.Holds tx' rid' mode r := by
  constructor
  · exact fun h => ⟨((hi.mem_giveUp hw).mp h.mem).1, h.tx, h.granted, h.mode⟩
  · intro h
    have hm := (hi.mem_giveUp hw).mpr ⟨h.mem, hi.ne_of_granted hw h.granted⟩
    exact ⟨hm, h.tx, h.granted, h.mode⟩

theorem holds_dropShared : (m.dropShared tx rid).Holds tx' rid' mode r ↔
    m.Holds tx' rid' mode r ∧ ¬(rid ∈ (m.txs tx).sharedLocks ∧ rid' = rid ∧ tx' = tx) := by
  simp only [dropShared]
  split
  case isFalse hs => simp [hs]
  case isTrue hs  =>
    constructor
    · intro h
      obtain ⟨hm, hn⟩ := mem_eraseRequests.mp h.mem
      exact ⟨⟨hm, h.tx, h.granted, h.mode⟩, fun he => hn ⟨he.2.1, h.tx.trans he.2.2⟩⟩
    · rintro ⟨h, hn⟩
      have hm := mem_eraseRequests.mpr ⟨h.mem, fun he => hn ⟨hs, he.1, h.tx.symm.trans he.2⟩⟩
      exact ⟨hm, h.tx, h.granted, h.mode⟩

theorem Invariant.holds_unlockAll (hi : m.Invariant) :
    (m.unlockAll tx).Holds tx' rid mode r ↔ m.Holds tx' rid mode r ∧ tx' ≠ tx := by
  obtain ⟨_, _, _, hm⟩ := unlockAll_eq m tx
  constructor
  · intro h
    obtain ⟨hr, hn⟩ := hm.mp h.mem
    have hh : m.Holds tx' rid mode r := ⟨hr, h.tx, h.granted, h.mode⟩
    refine ⟨hh, fun he => hn ⟨?_, h.tx.trans he⟩⟩
    have := hi.locks.mpr ⟨r, he ▸ hh⟩
    cases mode <;> simp_all [Transaction.locks]
  · rintro ⟨h, hn⟩
    exact ⟨hm.mpr ⟨h.mem, fun he => hn (h.tx.symm.trans he.2)⟩, h.tx, h.granted, h.mode⟩

-- A lock of mode `mode` may join those that other transactions hold.
def Admits (m : LockManager) (tx : TransactionID) (rid : RID) (mode : LockMode) : Prop :=
  ∀ {tx' mode' r}, tx' ≠ tx → m.Holds tx' rid mode' r → mode = .shared ∧ mode' = .shared

theorem Invariant.admits (hi : m.Invariant) (hw : m.waiting tx = some (rid, request))
    (hc : canGrant (m.lockTable rid) request) : m.Admits tx rid request.lockMode := by
  intro tx' mode' r hn h
  have ht := (hi.waits hw).2.1
  exact h.mode ▸ canGrant_iff.mp hc r h.mem h.granted (h.tx ▸ ht ▸ hn)

theorem Invariant.holds_wake (hi : m.Invariant) (h : (m.wake tx).2.Holds tx' rid mode r) :
    m.Holds tx' rid mode r ∨ tx' = tx ∧ m.Admits tx rid mode := by
  obtain hw | ⟨rid', request, hw, hc, he⟩ := m.wake_cases tx
  · exact .inl (hw ▸ h)
  · obtain h | ⟨rfl, rfl, rfl, _⟩ := (hi.holds_grant hw).mp (he ▸ h)
    · exact .inl h
    · exact .inr ⟨rfl, hi.admits hw hc⟩

theorem Invariant.wake_holds (hi : m.Invariant) (h : m.Holds tx' rid mode r) :
    (m.wake tx).2.Holds tx' rid mode r := by
  obtain hw | ⟨rid', request, hw, _, he⟩ := m.wake_cases tx
  · exact hw.symm ▸ h
  · exact he ▸ (hi.holds_grant hw).mpr (.inl h)

-- Every lock held after a step was held before it or has been granted next to those held.
theorem Invariant.holds_of_step (hi : m.Invariant) (e : Step m a m') (h : m'.Holds tx rid mode r) :
    m.Holds tx rid mode r ∨ m.Admits tx rid mode := by
  cases e
  case setState  => exact .inl ⟨h.mem, h.tx, h.granted, h.mode⟩
  case unlockAll => exact .inl (hi.holds_unlockAll.mp h).1
  case wake tx'  => exact (hi.holds_wake h).imp_right fun ⟨ht, ha⟩ => ht ▸ ha
  case timeOut tx' =>
    obtain he | ⟨rid', request, hw, he⟩ := m.timeOut_cases tx'
    · exact (hi.holds_wake (he ▸ h)).imp_right fun ⟨ht, ha⟩ => ht ▸ ha
    · exact .inl <| (hi.holds_giveUp hw).mp (he ▸ h)
  case lockShared tx' rid' hw =>
    obtain he | ⟨hl, he⟩ := m.lockShared_cases tx' rid'
    · exact .inl (he ▸ h)
    · have hq := hi.enqueue rid' .shared hw <| hi.no_request hw hl
      obtain h | ⟨rfl, ha⟩ := hq.holds_wake (he ▸ h)
      · exact .inl (holds_enqueue.mp h)
      · exact .inr fun hn hr => ha hn (holds_enqueue.mpr hr)
  case lockExclusive tx' rid' hw =>
    obtain he | ⟨_, hl, he⟩ := m.lockExclusive_cases tx' rid'
    · exact .inl (he ▸ h)
    · have hd := hi.dropShared rid' hw
      have hw : (m.dropShared tx' rid').waiting tx' = none := by rwa [dropShared_waiting]
      have hq := hd.enqueue rid' .exclusive hw <|
        hd.no_request hw fun _ => dropShared_locks hl
      obtain h | ⟨rfl, ha⟩ := hq.holds_wake (he ▸ h)
      · exact .inl (holds_dropShared.mp <| holds_enqueue.mp h).1
      · exact .inr fun hn hr =>
          ha hn <| holds_enqueue.mpr <| holds_dropShared.mpr ⟨hr, fun ⟨_, _, ht⟩ => hn ht⟩

-- A step takes a lock away only by `unlock_all` and, for a shared one, by an upgrade.
theorem Invariant.step_holds (hi : m.Invariant) (e : Step m a m') (h : m.Holds tx rid mode r) :
    m'.Holds tx rid mode r ∨ a = .unlockAll tx ∨ a = .lockExclusive tx rid ∧ mode = .shared ∧
      m' = (((m.dropShared tx rid).enqueue tx rid .exclusive).wake tx).2 := by
  cases e
  case setState  => exact .inl ⟨h.mem, h.tx, h.granted, h.mode⟩
  case wake      => exact .inl <| hi.wake_holds h
  case unlockAll tx' _ =>
    by_cases ht : tx = tx'
    case pos => exact .inr <| .inl <| ht ▸ rfl
    case neg => exact .inl <| hi.holds_unlockAll.mpr ⟨h, ht⟩
  case timeOut tx' =>
    obtain he | ⟨rid', request, hw, he⟩ := m.timeOut_cases tx'
    · exact .inl <| he ▸ hi.wake_holds h
    · exact .inl <| he ▸ (hi.holds_giveUp hw).mpr h
  case lockShared tx' rid' hw =>
    obtain he | ⟨hl, he⟩ := m.lockShared_cases tx' rid'
    · exact .inl (he.symm ▸ h)
    · have hq := hi.enqueue rid' .shared hw <| hi.no_request hw hl
      exact .inl <| he ▸ hq.wake_holds (holds_enqueue.mpr h)
  case lockExclusive tx' rid' hw =>
    obtain he | ⟨_, hl, he⟩ := m.lockExclusive_cases tx' rid'
    · exact .inl (he.symm ▸ h)
    · have hd := hi.dropShared rid' hw
      have hw : (m.dropShared tx' rid').waiting tx' = none := by rwa [dropShared_waiting]
      have hq := hd.enqueue rid' .exclusive hw <|
        hd.no_request hw fun _ => dropShared_locks hl
      by_cases hu : rid' ∈ (m.txs tx').sharedLocks ∧ rid = rid' ∧ tx = tx'
      case neg =>
        exact .inl <| he ▸ hq.wake_holds (holds_enqueue.mpr <| holds_dropShared.mpr ⟨h, hu⟩)
      case pos =>
        obtain ⟨hs, rfl, rfl⟩ := hu
        have hs : rid ∈ (m.txs tx).locks .shared := hs
        exact .inr <| .inr ⟨rfl, (hi.locks_unique hs <| hi.locks.mpr ⟨r, h⟩).symm, he⟩

end holds

-- The locks of a state: who holds what, and how that shows in the transactions.
structure Safe (m : LockManager) : Prop where
  alone         : ∀ {tx tx' rid mode r r'}, m.Holds tx rid .exclusive r → m.Holds tx' rid mode r' →
    tx' = tx
  shared_iff    : ∀ {tx rid}, rid ∈ (m.txs tx).sharedLocks ↔ ∃ r, m.Holds tx rid .shared r
  exclusive_iff : ∀ {tx rid}, rid ∈ (m.txs tx).exclusiveLocks ↔ ∃ r, m.Holds tx rid .exclusive r
  not_both      : ∀ {tx rid}, ¬(rid ∈ (m.txs tx).sharedLocks ∧ rid ∈ (m.txs tx).exclusiveLocks)
  kept          : ∀ {a m' tx rid r}, Step m a m' → m.Holds tx rid .exclusive r →
    ¬m'.Holds tx rid .exclusive r → a = .unlockAll tx
  idle          : ∀ {tx rid r}, m.waiting tx = none → r ∈ m.lockTable rid → r.txId = tx → r.granted

theorem Reachable.safe (h : Reachable m) : m.Safe where
  alone hx hr      := hr.tx.symm.trans <|
    (h.inv.compatible hx.mem hr.mem hx.granted hr.granted hx.mode).trans hx.tx
  shared_iff       := @fun tx rid => @Invariant.locks _ h.inv tx rid .shared
  exclusive_iff    := @fun tx rid => @Invariant.locks _ h.inv tx rid .exclusive
  not_both {tx rid} h' := by
    have hs : rid ∈ (m.txs tx).locks .shared := h'.1
    have hx : rid ∈ (m.txs tx).locks .exclusive := h'.2
    exact nomatch h.inv.locks_unique hs hx
  kept e hx hn     := by
    obtain h | h | ⟨_, h, _⟩ := h.inv.step_holds e hx
    · exact absurd h hn
    · exact h
    · exact nomatch h
  idle hw hm ht    := by
    subst ht
    by_contra hg
    simp [h.inv.ungranted hm (by simpa using hg)] at hw

theorem Reachable.safe_locked : (init.lockExclusive 1 ⟨1, 0⟩).2.Safe :=
  Reachable.safe <| Runs.Reachable.next (.start rfl) (.lockExclusive rfl)

end Duck.LockManager
