import Duck.Transaction.LockManager

namespace Duck

def Transaction.locks (t : Transaction) : LockMode → List RID
  | .shared    => t.sharedLocks
  | .exclusive => t.exclusiveLocks

namespace LockManager

variable {m : LockManager} {tx tx' : TransactionID} {rid rid' : RID} {mode mode' : LockMode}
  {r r' request : LockRequest}

section queues

theorem mem_enqueue : r ∈ (m.enqueue tx rid mode).lockTable rid' ↔
    r ∈ m.lockTable rid' ∨ rid' = rid ∧ r = ⟨m.nextNode, tx, mode, false⟩ := by
  by_cases h : rid' = rid
  case pos => subst h; simp [enqueue, setQueue, setWaiting]
  case neg => simp [enqueue, setQueue, setWaiting, h]

theorem mem_giveUp : r ∈ (m.giveUp tx rid request).lockTable rid' ↔
    r ∈ m.lockTable rid' ∧ ¬(rid' = rid ∧ r.node = request.node) := by
  by_cases h : rid' = rid
  case pos => subst h; simp [giveUp, setQueue, setState, setTx, setWaiting]
  case neg => simp [giveUp, setQueue, setState, setTx, setWaiting, h]

theorem mem_grant : r ∈ (m.grant tx rid request).lockTable rid' ↔
    r ∈ m.lockTable rid' ∧ ¬(rid' = rid ∧ r.node = request.node) ∨
    rid' = rid ∧ ∃ it ∈ m.lockTable rid, it.node = request.node ∧ r = { it with granted := true } := by
  by_cases h : rid' = rid
  case neg => simp [grant, setQueue, setTx, setWaiting, h]
  case pos =>
    subst h
    simp only [grant, setQueue, setTx, setWaiting, Function.update_self, List.mem_map, true_and]
    constructor
    · rintro ⟨it, hm, rfl⟩
      by_cases hn : it.node = request.node
      case pos => exact .inr ⟨it, hm, hn, if_pos hn⟩
      case neg => exact .inl <| by simpa [hn] using hm
    · rintro (⟨hm, hn⟩ | ⟨it, hm, hn, rfl⟩)
      · exact ⟨r, hm, if_neg hn⟩
      · exact ⟨it, hm, if_pos hn⟩

theorem mem_eraseRequests : r ∈ (m.eraseRequests tx rid).lockTable rid' ↔
    r ∈ m.lockTable rid' ∧ ¬(rid' = rid ∧ r.txId = tx) := by
  by_cases h : rid' = rid
  case pos => subst h; simp [eraseRequests, setQueue]
  case neg => simp [eraseRequests, setQueue, h]

-- The loops of `unlock_all` leave everything but the queues of the given locks as it is.
theorem foldl_eraseRequests (m : LockManager) (tx : TransactionID) (rids : List RID) :
    let m' := rids.foldl (fun m rid => m.eraseRequests tx rid) m
    m'.txs = m.txs ∧ m'.waiting = m.waiting ∧ m'.nextNode = m.nextNode ∧
      ∀ {r rid}, r ∈ m'.lockTable rid ↔ r ∈ m.lockTable rid ∧ ¬(rid ∈ rids ∧ r.txId = tx) := by
  induction rids generalizing m
  case nil => simp
  case cons rid rids hi =>
    have ⟨ht, hw, hn, hm⟩ := hi (m.eraseRequests tx rid)
    refine ⟨ht, hw, hn, fun {r rid'} => hm.trans ?_⟩
    rw [mem_eraseRequests, List.mem_cons]
    tauto

theorem unlockAll_eq (m : LockManager) (tx : TransactionID) :
    (m.unlockAll tx).waiting = m.waiting ∧ (m.unlockAll tx).nextNode = m.nextNode ∧
      (m.unlockAll tx).txs = Function.update m.txs tx { state := (m.txs tx).state } ∧
      ∀ {r rid}, r ∈ (m.unlockAll tx).lockTable rid ↔ r ∈ m.lockTable rid ∧
        ¬(rid ∈ (m.txs tx).exclusiveLocks ++ (m.txs tx).sharedLocks ∧ r.txId = tx) := by
  have ⟨ht, hw, hn, hm⟩ := foldl_eraseRequests m tx
    ((m.txs tx).exclusiveLocks ++ (m.txs tx).sharedLocks)
  exact ⟨hw, hn, by simp only [unlockAll, setTx, ht], hm⟩

end queues

theorem mem_addLock {t : Transaction} :
    rid' ∈ (addLock t mode rid).locks mode' ↔ rid' ∈ t.locks mode' ∨ rid' = rid ∧ mode' = mode := by
  cases mode <;> cases mode' <;> simp [addLock, Transaction.locks, or_comm]

-- A granted request of the transaction.
structure Holds (m : LockManager) (tx : TransactionID) (rid : RID) (mode : LockMode)
    (r : LockRequest) : Prop where
  mem     : r ∈ m.lockTable rid
  tx      : r.txId = tx
  granted : r.granted
  mode    : r.lockMode = mode

structure Invariant (m : LockManager) : Prop where
  node_lt    : ∀ {rid r}, r ∈ m.lockTable rid → r.node < m.nextNode
  node_inj   : ∀ {rid r r'}, r ∈ m.lockTable rid → r' ∈ m.lockTable rid → r.node = r'.node → r = r'
  tx_inj     : ∀ {rid r r'}, r ∈ m.lockTable rid → r' ∈ m.lockTable rid → r.txId = r'.txId → r = r'
  waits      : ∀ {tx rid r}, m.waiting tx = some (rid, r) →
    r ∈ m.lockTable rid ∧ r.txId = tx ∧ r.granted = false
  ungranted  : ∀ {rid r}, r ∈ m.lockTable rid → r.granted = false → m.waiting r.txId = some (rid, r)
  locks      : ∀ {tx rid mode}, rid ∈ (m.txs tx).locks mode ↔ ∃ r, m.Holds tx rid mode r
  compatible : ∀ {rid r r'}, r ∈ m.lockTable rid → r' ∈ m.lockTable rid → r.granted → r'.granted →
    r.lockMode = .exclusive → r'.txId = r.txId

theorem init_invariant : init.Invariant where
  node_lt    := nofun
  node_inj   := nofun
  tx_inj     := nofun
  waits      := nofun
  ungranted  := nofun
  compatible := nofun
  locks {_ _ mode} := by
    constructor
    · cases mode <;> nofun
    · exact fun ⟨_, h⟩ => nomatch h.mem

section

variable (hi : m.Invariant)

include hi

-- A transaction outside `wait_for` has no request on an RID it holds no lock of.
theorem Invariant.no_request (hw : m.waiting tx = none) (hl : ∀ mode, rid ∉ (m.txs tx).locks mode)
    (hr : r ∈ m.lockTable rid) : r.txId ≠ tx := by
  intro ht
  cases hg : r.granted
  case false => exact nomatch (ht ▸ hi.ungranted hr hg).symm.trans hw
  case true  => exact hl _ <| hi.locks.mpr ⟨r, hr, ht, hg, rfl⟩

theorem Invariant.locks_unique (h : rid ∈ (m.txs tx).locks mode) (h' : rid ∈ (m.txs tx).locks mode') :
    mode = mode' := by
  have ⟨r, hr⟩ := hi.locks.mp h
  have ⟨r', hr'⟩ := hi.locks.mp h'
  exact hr.mode ▸ hr'.mode ▸ hi.tx_inj hr.mem hr'.mem (hr.tx.trans hr'.tx.symm) ▸ rfl

theorem Invariant.setState (tx : TransactionID) (st : TransactionState) :
    (m.setState tx st).Invariant where
  node_lt    := hi.node_lt
  node_inj   := hi.node_inj
  tx_inj     := hi.tx_inj
  waits      := hi.waits
  ungranted  := hi.ungranted
  compatible := hi.compatible
  locks {tx' rid mode} := by
    have he : ((m.setState tx st).txs tx').locks mode = (m.txs tx').locks mode := by
      by_cases h : tx' = tx
      case pos => cases mode <;> simp [h, LockManager.setState, setTx, Transaction.locks]
      case neg => simp [h, LockManager.setState, setTx]
    exact he ▸ hi.locks.trans ⟨fun ⟨r, h⟩ => ⟨r, h.mem, h.tx, h.granted, h.mode⟩,
      fun ⟨r, h⟩ => ⟨r, h.mem, h.tx, h.granted, h.mode⟩⟩

theorem Invariant.enqueue (rid : RID) (mode : LockMode)
    (hw : m.waiting tx = none) (hn : ∀ {r}, r ∈ m.lockTable rid → r.txId ≠ tx) :
    (m.enqueue tx rid mode).Invariant where
  node_lt h := by
    cases mem_enqueue.mp h
    case inl h => exact Nat.lt_succ_of_lt (hi.node_lt h)
    case inr h => exact h.2 ▸ Nat.lt_succ_self _
  node_inj h h' he := by
    obtain h | ⟨_, rfl⟩ := mem_enqueue.mp h <;> obtain h' | ⟨_, rfl⟩ := mem_enqueue.mp h'
    · exact hi.node_inj h h' he
    · exact absurd he (Nat.ne_of_lt <| hi.node_lt h)
    · exact absurd he.symm (Nat.ne_of_lt <| hi.node_lt h')
    · rfl
  tx_inj h h' he := by
    obtain h | ⟨hr, rfl⟩ := mem_enqueue.mp h <;> obtain h' | ⟨hr', rfl⟩ := mem_enqueue.mp h'
    · exact hi.tx_inj h h' he
    · exact absurd he (hn (hr' ▸ h))
    · exact absurd he.symm (hn (hr ▸ h'))
    · rfl
  waits {tx' rid' r} h := by
    by_cases ht : tx' = tx
    case pos =>
      subst ht
      simp only [LockManager.enqueue, setWaiting, Function.update_self, Option.some.injEq,
        Prod.mk.injEq] at h
      obtain ⟨rfl, rfl⟩ := h
      exact ⟨mem_enqueue.mpr <| .inr ⟨rfl, rfl⟩, rfl, rfl⟩
    case neg =>
      simp only [LockManager.enqueue, setWaiting, Function.update_of_ne ht] at h
      have ⟨hm, hr⟩ := hi.waits h
      exact ⟨mem_enqueue.mpr <| .inl hm, hr⟩
  ungranted {rid' r} h hg := by
    obtain h | ⟨rfl, rfl⟩ := mem_enqueue.mp h
    case inr => simp [LockManager.enqueue, setWaiting]
    case inl =>
      have hw' := hi.ungranted h hg
      have ht : r.txId ≠ tx := fun ht => nomatch (ht ▸ hw').symm.trans hw
      simpa [LockManager.enqueue, setQueue, setWaiting, ht] using hw'
  locks {tx' rid' mode'} := by
    refine hi.locks.trans ⟨fun ⟨r, h⟩ => ?_, fun ⟨r, h⟩ => ?_⟩
    · exact ⟨r, mem_enqueue.mpr <| .inl h.mem, h.tx, h.granted, h.mode⟩
    · obtain hm | ⟨_, rfl⟩ := mem_enqueue.mp h.mem
      · exact ⟨r, hm, h.tx, h.granted, h.mode⟩
      · exact nomatch h.granted
  compatible h h' hg hg' he := by
    obtain h | ⟨_, rfl⟩ := mem_enqueue.mp h <;> obtain h' | ⟨_, rfl⟩ := mem_enqueue.mp h'
    · exact hi.compatible h h' hg hg' he
    · exact nomatch hg'
    · exact nomatch hg
    · exact nomatch hg

-- What `can_grant` promises.
omit hi in
theorem canGrant_iff : canGrant (m.lockTable rid) request ↔
    ∀ r ∈ m.lockTable rid, r.granted → r.txId ≠ request.txId →
      request.lockMode = .shared ∧ r.lockMode = .shared := by
  simp only [canGrant, List.all_eq_true]
  refine forall₂_congr fun r _ => ?_
  cases r.granted <;> cases request.lockMode <;> cases r.lockMode <;> simp

section

variable (hw : m.waiting tx = some (rid, request))

include hw

theorem Invariant.mem_grant : r ∈ (m.grant tx rid request).lockTable rid' ↔
    r ∈ m.lockTable rid' ∧ ¬(rid' = rid ∧ r = request) ∨
    rid' = rid ∧ r = { request with granted := true } := by
  have ⟨hm, _, _⟩ := hi.waits hw
  rw [LockManager.mem_grant]
  constructor
  · rintro (⟨h, hn⟩ | ⟨rfl, it, h, hn, rfl⟩)
    · exact .inl ⟨h, fun ⟨he, hr⟩ => hn ⟨he, hr ▸ rfl⟩⟩
    · exact .inr ⟨rfl, hi.node_inj h hm hn ▸ rfl⟩
  · rintro (⟨h, hn⟩ | ⟨rfl, rfl⟩)
    · exact .inl ⟨h, fun ⟨he, hr⟩ => hn ⟨he, hi.node_inj h (he ▸ hm) hr⟩⟩
    · exact .inr ⟨rfl, request, hm, rfl, rfl⟩

theorem Invariant.mem_giveUp : r ∈ (m.giveUp tx rid request).lockTable rid' ↔
    r ∈ m.lockTable rid' ∧ ¬(rid' = rid ∧ r = request) := by
  have ⟨hm, _, _⟩ := hi.waits hw
  rw [LockManager.mem_giveUp]
  refine and_congr_right fun h => not_congr <| and_congr_right fun he => ?_
  exact ⟨fun hr => hi.node_inj h (he ▸ hm) hr, fun hr => hr ▸ rfl⟩

theorem Invariant.waiting_of_ne (h : r ∈ m.lockTable rid') (hg : r.granted = false)
    (hn : ¬(rid' = rid ∧ r = request)) : r.txId ≠ tx := by
  intro ht
  have := (hi.ungranted h hg).symm.trans (ht ▸ hw)
  simp only [Option.some.injEq, Prod.mk.injEq] at this
  exact hn this

theorem Invariant.ne_of_granted (hg : r.granted) :
    ¬(rid' = rid ∧ r = request) :=
  fun ⟨_, hr⟩ => nomatch (hr ▸ (hi.waits hw).2.2).symm.trans hg

theorem Invariant.giveUp : (m.giveUp tx rid request).Invariant where
  node_lt h         := hi.node_lt ((hi.mem_giveUp hw).mp h).1
  node_inj h h'     := hi.node_inj ((hi.mem_giveUp hw).mp h).1 ((hi.mem_giveUp hw).mp h').1
  tx_inj h h'       := hi.tx_inj ((hi.mem_giveUp hw).mp h).1 ((hi.mem_giveUp hw).mp h').1
  compatible h h'   := hi.compatible ((hi.mem_giveUp hw).mp h).1 ((hi.mem_giveUp hw).mp h').1
  waits {tx' _ _} h := by
    by_cases ht : tx' = tx
    case pos => simp [LockManager.giveUp, setWaiting, ht] at h
    case neg =>
      simp only [LockManager.giveUp, setWaiting, Function.update_of_ne ht] at h
      have ⟨hm, hr, hg⟩ := hi.waits h
      refine ⟨(hi.mem_giveUp hw).mpr ⟨hm, fun ⟨_, he⟩ => ht ?_⟩, hr, hg⟩
      exact hr.symm.trans (he ▸ (hi.waits hw).2.1)
  ungranted h hg := by
    have ⟨hm, hn⟩ := (hi.mem_giveUp hw).mp h
    have ht := hi.waiting_of_ne hw hm hg hn
    simpa [LockManager.giveUp, setQueue, LockManager.setState, setTx, setWaiting, ht] using hi.ungranted hm hg
  locks {tx' rid' mode} := by
    refine (hi.setState tx .aborted).locks.trans ⟨fun ⟨r, h⟩ => ?_, fun ⟨r, h⟩ => ?_⟩
    · have hm := (hi.mem_giveUp hw).mpr ⟨h.mem, hi.ne_of_granted hw h.granted⟩
      exact ⟨r, hm, h.tx, h.granted, h.mode⟩
    · exact ⟨r, ((hi.mem_giveUp hw).mp h.mem).1, h.tx, h.granted, h.mode⟩

theorem Invariant.grant (hc : canGrant (m.lockTable rid) request) :
    (m.grant tx rid request).Invariant := by
  have ⟨hm, ht, hg⟩ := hi.waits hw
  have hc := canGrant_iff.mp hc
  constructor
  case node_lt =>
    intro rid' r h
    obtain ⟨h, _⟩ | ⟨rfl, rfl⟩ := (hi.mem_grant hw).mp h
    · exact hi.node_lt h
    · exact hi.node_lt (r := request) hm
  case node_inj =>
    intro rid' r r' h h' he
    obtain ⟨h, hn⟩ | ⟨rfl, rfl⟩ := (hi.mem_grant hw).mp h <;>
      obtain ⟨h', hn'⟩ | ⟨hr, rfl⟩ := (hi.mem_grant hw).mp h'
    · exact hi.node_inj h h' he
    · exact absurd ⟨hr, hi.node_inj h (hr ▸ hm) he⟩ hn
    · exact absurd ⟨rfl, hi.node_inj h' hm he.symm⟩ hn'
    · rfl
  case tx_inj =>
    intro rid' r r' h h' he
    obtain ⟨h, hn⟩ | ⟨rfl, rfl⟩ := (hi.mem_grant hw).mp h <;>
      obtain ⟨h', hn'⟩ | ⟨hr, rfl⟩ := (hi.mem_grant hw).mp h'
    · exact hi.tx_inj h h' he
    · exact absurd ⟨hr, hi.tx_inj h (hr ▸ hm) he⟩ hn
    · exact absurd ⟨rfl, hi.tx_inj h' hm he.symm⟩ hn'
    · rfl
  case waits =>
    intro tx' rid' r h
    by_cases he : tx' = tx
    case pos => simp [LockManager.grant, setWaiting, he] at h
    case neg =>
      simp only [LockManager.grant, setWaiting, Function.update_of_ne he] at h
      have ⟨hm', hr, hg'⟩ := hi.waits h
      exact ⟨(hi.mem_grant hw).mpr <| .inl ⟨hm', fun ⟨_, hq⟩ => he (hr ▸ hq ▸ ht)⟩, hr, hg'⟩
  case ungranted =>
    intro rid' r h hr
    obtain ⟨h, hn⟩ | ⟨rfl, rfl⟩ := (hi.mem_grant hw).mp h
    · have ht := hi.waiting_of_ne hw h hr hn
      simpa [LockManager.grant, setQueue, setTx, setWaiting, ht] using hi.ungranted h hr
    · exact nomatch hr
  case locks =>
    intro tx' rid' mode
    have hl : rid' ∈ ((m.grant tx rid request).txs tx').locks mode ↔
        rid' ∈ (m.txs tx').locks mode ∨ tx' = tx ∧ rid' = rid ∧ mode = request.lockMode := by
      by_cases he : tx' = tx
      case pos => subst he; simp [LockManager.grant, setWaiting, setTx, mem_addLock]
      case neg => simp [LockManager.grant, setWaiting, setTx, setQueue, he]
    rw [hl, hi.locks]
    constructor
    · rintro (⟨r, h⟩ | ⟨rfl, rfl, rfl⟩)
      · have hm := (hi.mem_grant hw).mpr <| .inl ⟨h.mem, hi.ne_of_granted hw h.granted⟩
        exact ⟨r, hm, h.tx, h.granted, h.mode⟩
      · exact ⟨_, (hi.mem_grant hw).mpr <| .inr ⟨rfl, rfl⟩, ht, rfl, rfl⟩
    · rintro ⟨r, h⟩
      obtain ⟨hr, _⟩ | ⟨rfl, rfl⟩ := (hi.mem_grant hw).mp h.mem
      · exact .inl ⟨r, hr, h.tx, h.granted, h.mode⟩
      · exact .inr ⟨h.tx.symm.trans ht, rfl, h.mode.symm⟩
  case compatible =>
    intro rid' r r' h h' hr hr' he
    obtain ⟨h, _⟩ | ⟨rfl, rfl⟩ := (hi.mem_grant hw).mp h <;>
      obtain ⟨h', _⟩ | ⟨heq, rfl⟩ := (hi.mem_grant hw).mp h'
    · exact hi.compatible h h' hr hr' he
    · by_contra hn
      exact nomatch he.symm.trans (hc r (heq ▸ h) hr (Ne.symm hn)).2
    · by_contra hn
      exact nomatch he.symm.trans (hc r' h' hr' hn).1
    · rfl

end

theorem Invariant.waits_ne (hw : m.waiting tx = none) (h : m.waiting tx' = some (rid, r)) :
    r.txId ≠ tx := by
  intro ht
  obtain rfl := (hi.waits h).2.1.symm.trans ht
  simp [hw] at h

theorem Invariant.dropShared (rid : RID) (hw : m.waiting tx = none) :
    (m.dropShared tx rid).Invariant := by
  simp only [LockManager.dropShared]
  split
  case isFalse => exact hi
  case isTrue hs =>
    have hs : rid ∈ (m.txs tx).locks .shared := hs
    constructor
    case node_lt    => exact fun h => hi.node_lt (mem_eraseRequests.mp h).1
    case node_inj   => exact fun h h' => hi.node_inj (mem_eraseRequests.mp h).1 (mem_eraseRequests.mp h').1
    case tx_inj     => exact fun h h' => hi.tx_inj (mem_eraseRequests.mp h).1 (mem_eraseRequests.mp h').1
    case compatible =>
      exact fun h h' => hi.compatible (mem_eraseRequests.mp h).1 (mem_eraseRequests.mp h').1
    case waits      =>
      intro tx' rid' r h
      have ⟨hm, hr, hg⟩ := hi.waits h
      exact ⟨mem_eraseRequests.mpr ⟨hm, fun ⟨_, ht⟩ => hi.waits_ne hw h ht⟩, hr, hg⟩
    case ungranted  => exact fun h => hi.ungranted (mem_eraseRequests.mp h).1
    case locks      =>
      intro tx' rid' mode
      have hl : rid' ∈ (((m.eraseRequests tx rid).setTx tx { m.txs tx with
            sharedLocks := (m.txs tx).sharedLocks.filter (· ≠ rid) }).txs tx').locks mode ↔
          rid' ∈ (m.txs tx').locks mode ∧ ¬(rid' = rid ∧ tx' = tx) := by
        by_cases ht : tx' = tx
        case neg => simp [setTx, eraseRequests, setQueue, ht]
        case pos =>
          subst ht
          cases mode
          case shared    => simp [setTx, Transaction.locks]
          case exclusive =>
            simp only [setTx, Transaction.locks, Function.update_self, and_true]
            refine (and_iff_left_of_imp fun h he => ?_).symm
            exact nomatch hi.locks_unique hs (he ▸ h : rid ∈ (m.txs tx').locks .exclusive)
      rw [hl, hi.locks]
      constructor
      · rintro ⟨⟨r, h⟩, hn⟩
        exact ⟨r, mem_eraseRequests.mpr ⟨h.mem, fun ⟨hr, ht⟩ => hn ⟨hr, h.tx ▸ ht⟩⟩, h.tx, h.granted, h.mode⟩
      · rintro ⟨r, h⟩
        have ⟨hm, hn⟩ := mem_eraseRequests.mp h.mem
        exact ⟨⟨r, hm, h.tx, h.granted, h.mode⟩, fun ⟨hr, ht⟩ => hn ⟨hr, h.tx.trans ht⟩⟩

theorem Invariant.unlockAll (hw : m.waiting tx = none) : (m.unlockAll tx).Invariant := by
  have ⟨hwt, hn, ht, hm⟩ := unlockAll_eq m tx
  constructor
  case node_lt    => exact fun h => hn ▸ hi.node_lt (hm.mp h).1
  case node_inj   => exact fun h h' => hi.node_inj (hm.mp h).1 (hm.mp h').1
  case tx_inj     => exact fun h h' => hi.tx_inj (hm.mp h).1 (hm.mp h').1
  case compatible => exact fun h h' => hi.compatible (hm.mp h).1 (hm.mp h').1
  case ungranted  => exact fun h => hwt ▸ hi.ungranted (hm.mp h).1
  case waits      =>
    intro tx' rid r h
    rw [hwt] at h
    have ⟨hr, hrt, hg⟩ := hi.waits h
    exact ⟨hm.mpr ⟨hr, fun ⟨_, ht⟩ => hi.waits_ne hw h ht⟩, hrt, hg⟩
  case locks      =>
    intro tx' rid mode
    have hl : rid ∈ ((m.unlockAll tx).txs tx').locks mode ↔ rid ∈ (m.txs tx').locks mode ∧ tx' ≠ tx := by
      by_cases he : tx' = tx
      case pos => cases mode <;> simp [ht, he, Transaction.locks]
      case neg => simp [ht, he]
    rw [hl, hi.locks]
    constructor
    · rintro ⟨⟨r, h⟩, hne⟩
      exact ⟨r, hm.mpr ⟨h.mem, fun ⟨_, ht⟩ => hne (h.tx ▸ ht)⟩, h.tx, h.granted, h.mode⟩
    · rintro ⟨r, h⟩
      have ⟨hr, hne⟩ := hm.mp h.mem
      have hr : m.Holds tx' rid mode r := ⟨hr, h.tx, h.granted, h.mode⟩
      refine ⟨⟨r, hr⟩, fun he => hne ⟨?_, h.tx.trans he⟩⟩
      have := hi.locks.mpr ⟨r, he ▸ hr⟩
      cases mode <;> simp_all [Transaction.locks]

end

end LockManager
end Duck
