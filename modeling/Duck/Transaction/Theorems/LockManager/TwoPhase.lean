import Duck.Transaction.Theorems.LockManager.Safety

namespace Duck.LockManager

variable {m m' : LockManager} {tx tx' : TransactionID} {rid : RID} {mode mode' : LockMode}
  {r : LockRequest} {a : Action}

-- The step from `m` to `m'` grants the lock.
def Grants (m m' : LockManager) (tx : TransactionID) (rid : RID) (mode : LockMode) : Prop :=
  ∃ r, m'.Holds tx rid mode r ∧ ¬m.Holds tx rid mode r

-- Between a grant to `tx` and the `unlock_all` of `tx`, no other transaction is granted a
-- conflicting lock.
def StrictTwoPhase (step : LockManager → Action → LockManager → Prop) : Prop :=
  ∀ {m₁ m₂ m₃ m₄ a as b tx tx' rid mode mode'}, Runs.Reachable (· = init) step m₁ →
    step m₁ a m₂ → Grants m₁ m₂ tx rid mode →
    Runs.Steps step m₂ as m₃ → .unlockAll tx ∉ as →
    step m₃ b m₄ → Grants m₃ m₄ tx' rid mode' →
    tx' ≠ tx → mode = .shared ∧ mode' = .shared

-- No transaction upgrades a lock while another one holds a lock on the same RID.
def UpgradesAlone (m : LockManager) (a : Action) : Prop :=
  ∀ {tx rid}, a = .lockExclusive tx rid → (m.txs tx).state = .growing →
    rid ∈ (m.txs tx).sharedLocks → ∀ {tx' mode r}, m.Holds tx' rid mode r → tx' = tx

structure CarefulStep (m : LockManager) (a : Action) (m' : LockManager) : Prop where
  step  : Step m a m'
  alone : m.UpgradesAlone a

theorem Reachable.of_careful (h : Runs.Reachable (· = init) CarefulStep m) : Reachable m :=
  h.mono CarefulStep.step

-- An upgrade that meets no other lock is granted at once.
theorem Invariant.upgrade_granted
    (hi : m.Invariant) (hw : m.waiting tx = none) (hx : rid ∉ (m.txs tx).exclusiveLocks)
    (ha : ∀ {tx' mode r}, m.Holds tx' rid mode r → tx' = tx) :
    ∃ r, (((m.dropShared tx rid).enqueue tx rid .exclusive).wake tx).2.Holds tx rid .exclusive r := by
  have hd := hi.dropShared rid hw
  have hw : (m.dropShared tx rid).waiting tx = none := by rwa [dropShared_waiting]
  have hq := hd.enqueue rid .exclusive hw <| hd.no_request hw fun _ => dropShared_locks hx
  generalize hr : LockRequest.mk (m.dropShared tx rid).nextNode tx .exclusive false = request
  have hwt : ((m.dropShared tx rid).enqueue tx rid .exclusive).waiting tx = some (rid, request) := by
    simp [LockManager.enqueue, setWaiting, hr]
  have hc : canGrant (((m.dropShared tx rid).enqueue tx rid .exclusive).lockTable rid) request := by
    refine canGrant_iff.mpr fun r hm hg hn => ?_
    have h := holds_dropShared.mp <| holds_enqueue.mp <| Holds.mk hm rfl hg rfl
    exact absurd (ha h.1) (by simpa [←hr] using hn)
  refine ⟨{ request with granted := true }, ?_⟩
  simp only [LockManager.wake, hwt, hc, if_true]
  exact (hq.holds_grant hwt).mpr <| .inr ⟨rfl, rfl, hr ▸ rfl, rfl⟩

-- The lock that has been granted, or the stronger one it was upgraded to.
def Keeps (m : LockManager) (tx : TransactionID) (rid : RID) (mode : LockMode) : Prop :=
  ∃ mode' r, m.Holds tx rid mode' r ∧ (mode' = .shared → mode = .shared)

theorem CarefulStep.keeps
    (hi : m.Invariant) (e : CarefulStep m a m') (hn : a ≠ .unlockAll tx) (h : m.Keeps tx rid mode) :
    m'.Keeps tx rid mode := by
  have ⟨mode', r, hr, hm⟩ := h
  obtain h | h | ⟨rfl, rfl, h⟩ := hi.step_holds e.step hr
  · exact ⟨mode', r, h, hm⟩
  · exact absurd h hn
  · have hs : rid ∈ (m.txs tx).locks .shared := hi.locks.mpr ⟨r, hr⟩
    have hx : rid ∉ (m.txs tx).exclusiveLocks := fun hx =>
      have hx : rid ∈ (m.txs tx).locks .exclusive := hx
      nomatch hi.locks_unique hs hx
    by_cases hg : (m.txs tx).state = .growing
    case pos =>
      cases e.step with | lockExclusive hw =>
      have ⟨r, hr⟩ := hi.upgrade_granted hw hx (e.alone rfl hg hs)
      exact ⟨.exclusive, r, h ▸ hr, nofun⟩
    case neg =>
      cases e.step with | lockExclusive hw =>
      exact ⟨.shared, r, by simpa [lockExclusive, hg] using hr, hm⟩

theorem Keeps.steps
    (hr : Reachable m) (hs : Runs.Steps CarefulStep m as m') (hn : .unlockAll tx ∉ as)
    (h : m.Keeps tx rid mode) : Reachable m' ∧ m'.Keeps tx rid mode :=
  hs.preserves_of_mem (P := fun m => Reachable m ∧ m.Keeps tx rid mode)
    (fun ha e ⟨hr, h⟩ => ⟨hr.next e.step, e.keeps hr.inv (fun he => hn (he ▸ ha)) h⟩) ⟨hr, h⟩

theorem CarefulStep.strictTwoPhase (hr : Runs.Reachable (· = init) CarefulStep m₁)
    (e : CarefulStep m₁ a m₂) (hg : Grants m₁ m₂ tx rid mode) (hs : Runs.Steps CarefulStep m₂ as m₃)
    (hu : .unlockAll tx ∉ as) (e' : CarefulStep m₃ b m₄) (hg' : Grants m₃ m₄ tx' rid mode')
    (hne : tx' ≠ tx) : mode = .shared ∧ mode' = .shared := by
  obtain ⟨r, hg, _⟩ := hg
  obtain ⟨r', hg', hn'⟩ := hg'
  have hr := Reachable.of_careful hr
  obtain ⟨hr₃, mode'', r'', h, hm⟩ := Keeps.steps (hr.next e.step) hs hu ⟨mode, r, hg, id⟩
  obtain h' | ha := hr₃.inv.holds_of_step e'.step hg'
  · exact absurd h' hn'
  · have ⟨hs', hs''⟩ := ha hne.symm h
    exact ⟨hm hs'', hs'⟩

-- Transaction 1 has a shared lock, so transaction 2 is not granted an exclusive one.
theorem CarefulStep.strictTwoPhase_shared : ¬Grants (init.lockShared 1 ⟨1, 0⟩).2
    ((init.lockShared 1 ⟨1, 0⟩).2.lockExclusive 2 ⟨1, 0⟩).2 2 ⟨1, 0⟩ .exclusive := by
  intro hg'
  have e₁ : CarefulStep init (.lockShared 1 ⟨1, 0⟩) _ := ⟨.lockShared rfl, fun he => by cases he⟩
  have e₂ : CarefulStep (init.lockShared 1 ⟨1, 0⟩).2 (.lockExclusive 2 ⟨1, 0⟩)
      ((init.lockShared 1 ⟨1, 0⟩).2.lockExclusive 2 ⟨1, 0⟩).2 := by
    refine ⟨.lockExclusive rfl, fun {tx rid} he _ hm => ?_⟩
    obtain ⟨rfl, rfl⟩ : 2 = tx ∧ ⟨1, 0⟩ = rid := by simpa using he
    exact absurd hm (by decide)
  have hg : Grants init (init.lockShared 1 ⟨1, 0⟩).2 1 ⟨1, 0⟩ .shared :=
    ⟨⟨0, 1, .shared, true⟩, ⟨by decide, rfl, rfl, rfl⟩, fun h => absurd h.mem (by decide)⟩
  have hc := strictTwoPhase (.start rfl) e₁ hg .refl List.not_mem_nil e₂ hg' (by decide)
  exact absurd hc.2 (by decide)

-- Transactions 1 and 2 share a lock, 1 starts to upgrade it, 2 upgrades it first.
theorem not_strictTwoPhase : ¬StrictTwoPhase Step := by
  intro h
  let rid : RID := ⟨1, 0⟩
  let m₂ := (init.lockShared 1 rid).2
  let m₃ := (m₂.lockShared 2 rid).2
  let m₄ := (m₃.lockExclusive 1 rid).2
  have e₁ : Step init (.lockShared 1 rid) m₂ := .lockShared rfl
  have e₂ : Step m₂ (.lockShared 2 rid) m₃ := .lockShared rfl
  have e₃ : Step m₃ (.lockExclusive 1 rid) m₄ := .lockExclusive rfl
  have e₄ : Step m₄ (.lockExclusive 2 rid) (m₄.lockExclusive 2 rid).2 := .lockExclusive rfl
  have g₁ : Grants init m₂ 1 rid .shared :=
    ⟨⟨0, 1, .shared, true⟩, ⟨by decide, rfl, rfl, rfl⟩, fun h => nomatch h.mem⟩
  have g₂ : Grants m₄ (m₄.lockExclusive 2 rid).2 2 rid .exclusive :=
    ⟨⟨3, 2, .exclusive, true⟩, ⟨by decide, rfl, rfl, rfl⟩, fun h => absurd h.mem (by decide)⟩
  have hn : Action.unlockAll 1 ∉ [.lockShared 2 rid, .lockExclusive 1 rid] := by decide
  have hc := h (.start rfl) e₁ g₁ (.step e₂ <| .step e₃ .refl) hn e₄ g₂ (by decide)
  exact nomatch hc.2

end Duck.LockManager
