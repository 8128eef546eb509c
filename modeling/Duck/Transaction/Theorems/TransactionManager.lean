import Duck.Transaction.TransactionManager
import Duck.Transaction.Theorems.LockManager.Safety

namespace Duck

namespace TransactionManager

open LockManager (setState unlockAll)

variable {m m' m₁ m₂ : TransactionManager ρ σ} {undo : ρ → Program σ String Unit}
  {tx tx' : TransactionID} {a b : Action}

-- A lock call changes a state to ABORTED at most.
theorem Locking.state {l l' : LockManager} {a : LockManager.Action} (ha : Locking a) (e : l.Step a l') :
    (l'.txs tx).state = (l.txs tx).state ∨ (l'.txs tx).state = .aborted := by
  cases e
  case lockShared tx' rid _ =>
    obtain h | ⟨_, h⟩ := l.lockShared_cases tx' rid
    · exact .inl (by rw [h])
    · exact .inl (by rw [h, LockManager.wake_state]; rfl)
  case lockExclusive tx' rid _ =>
    obtain h | ⟨_, _, h⟩ := l.lockExclusive_cases tx' rid
    · exact .inl (by rw [h])
    · exact .inl (by rw [h, LockManager.wake_state]; exact LockManager.dropShared_state)
  case wake                    => exact .inl LockManager.wake_state
  case timeOut tx'             =>
    obtain h | ⟨rid, request, _, h⟩ := l.timeOut_cases tx'
    · exact .inl (by rw [h, LockManager.wake_state])
    · rw [h]
      by_cases he : tx = tx'
      case pos => exact .inr (by simp [he, LockManager.giveUp, setState, LockManager.setTx, LockManager.setWaiting])
      case neg => exact .inl (by simp [he, LockManager.giveUp, setState, LockManager.setTx, LockManager.setWaiting, LockManager.setQueue])
  case unlockAll | setState    => exact ha.elim

-- A transaction that is not growing gets no lock, and it does not wait for one.
theorem Locking.idle {l l' : LockManager} {a : LockManager.Action} (ha : Locking a) (e : l.Step a l')
    (hw : l.waiting tx = none) (hg : (l.txs tx).state ≠ .growing) :
    l'.waiting tx = none ∧ (l'.txs tx).state = (l.txs tx).state := by
  cases e
  case lockShared tx' rid _ =>
    by_cases he : tx = tx'
    case pos => exact ⟨by simp [←he, LockManager.lockShared, hg, hw], by simp [←he, LockManager.lockShared, hg]⟩
    case neg =>
      obtain h | ⟨_, h⟩ := l.lockShared_cases tx' rid
      · exact ⟨by rw [h, hw], by rw [h]⟩
      · refine ⟨?_, by rw [h, LockManager.wake_state]; rfl⟩
        rw [h, LockManager.wake_waiting he]
        simpa [LockManager.enqueue, LockManager.setWaiting, LockManager.setQueue, he] using hw
  case lockExclusive tx' rid _ =>
    by_cases he : tx = tx'
    case pos =>
      exact ⟨by simp [←he, LockManager.lockExclusive, hg, hw], by simp [←he, LockManager.lockExclusive, hg]⟩
    case neg =>
      obtain h | ⟨_, _, h⟩ := l.lockExclusive_cases tx' rid
      · exact ⟨by rw [h, hw], by rw [h]⟩
      · refine ⟨?_, by rw [h, LockManager.wake_state]; exact LockManager.dropShared_state⟩
        rw [h, LockManager.wake_waiting he]
        simpa [LockManager.enqueue, LockManager.setWaiting, LockManager.setQueue, he,
          LockManager.dropShared_waiting] using hw
  case wake tx' =>
    by_cases he : tx = tx'
    case pos => exact ⟨by simp [←he, LockManager.wake, hw], LockManager.wake_state⟩
    case neg => exact ⟨(LockManager.wake_waiting he).trans hw, LockManager.wake_state⟩
  case timeOut tx' =>
    obtain h | ⟨rid, request, hw', h⟩ := l.timeOut_cases tx'
    · by_cases he : tx = tx'
      case pos => exact ⟨by simp [←he, LockManager.timeOut, hw], by rw [h, LockManager.wake_state]⟩
      case neg => exact ⟨by rw [h, LockManager.wake_waiting he, hw], by rw [h, LockManager.wake_state]⟩
    · have he : tx ≠ tx' := by
        rintro rfl
        cases hw.symm.trans hw'
      rw [h]
      constructor
      · simpa [LockManager.giveUp, LockManager.setWaiting, setState, LockManager.setTx, LockManager.setQueue, he]
          using hw
      · simp [he, LockManager.giveUp, setState, LockManager.setTx, LockManager.setWaiting, LockManager.setQueue]
  case unlockAll | setState => exact ha.elim

-- A transaction that has ended with the given state, its locks gone.
def ended (m : TransactionManager ρ σ) (tx : TransactionID) (st : TransactionState) (d : σ) :
    TransactionManager ρ σ :=
  { m with
    locks     := ((m.locks.setState tx .shrinking).unlockAll tx).setState tx st
    activeTxs := m.activeTxs.filter (· ≠ tx)
    database  := d }

theorem commit_eq : commit tx m = some (.ok (), m.ended tx .committed m.database) :=
  rfl

-- An abort ends with the undo log run, or with the error of one of its records.
theorem abort_cases (h : abort undo tx m = some (result, m')) :
    (result = .ok () ∧ ∃ d, undoAll undo (m.undoLog tx) m.database = some (.ok (), d) ∧
      m' = m.ended tx .aborted d) ∨
    ∃ e d, result = .error e ∧ m' = { m with locks := m.locks.setState tx .shrinking, database := d } := by
  have he : abort undo tx m = (undoAll undo (m.undoLog tx) m.database).bind fun
      | (.ok (), d)   => some (.ok (), m.ended tx .aborted d)
      | (.error e, d) => some (.error e, { m with locks := m.locks.setState tx .shrinking, database := d }) := by
    simp only [abort, onLocks, Program.update_bind, Program.read_bind]
    rw [Program.bind_apply, onDatabase, Program.on]
    obtain _ | ⟨_ | _, d⟩ := undoAll undo (m.undoLog tx) m.database <;> rfl
  rw [he] at h
  rcases hu : undoAll undo (m.undoLog tx) m.database with _ | ⟨e | ⟨⟩, d⟩
  · simp [hu] at h
  · simp only [hu, Option.bind_some, Option.some.injEq, Prod.mk.injEq] at h
    exact .inr ⟨e, d, h.1.symm, h.2.symm⟩
  · simp only [hu, Option.bind_some, Option.some.injEq, Prod.mk.injEq] at h
    exact .inl ⟨h.1.symm, d, rfl, h.2.symm⟩

-- The client may commit a growing transaction, and abort one that has not been ended yet. It may also
-- repeat itself: commit again, or abort again where there is nothing to undo.
def Allows (m : TransactionManager ρ σ) : Action → Prop
  | .commit tx _ => m.state tx = .growing ∨ m.state tx = .committed
  | .abort tx _  =>
    tx ∈ m.activeTxs ∧ m.state tx ≠ .shrinking ∨ m.state tx = .aborted ∧ m.undoLog tx = []
  | _            => True

structure CarefulStep (undo : ρ → Program σ String Unit) (m : TransactionManager ρ σ) (a : Action)
    (m' : TransactionManager ρ σ) : Prop where
  step   : Step undo m a m'
  allows : m.Allows a

inductive Action.Ends (tx : TransactionID) : (completed : Bool) → Action → Prop
  | commit : Ends tx completed (.commit tx completed)
  | abort  : Ends tx completed (.abort tx completed)

structure OutcomeFinal (step : TransactionManager ρ σ → Action → TransactionManager ρ σ → Prop) : Prop where
  from_growing : ∀ {d m m' a tx}, Runs.Reachable (· = init d) step m → step m a m' →
    m'.state tx = .committed → m.state tx = .growing ∨ m.state tx = .committed
  final        : ∀ {d m₁ m₂ m₃ m₄ a as b tx completed}, Runs.Reachable (· = init d) step m₁ →
    step m₁ a m₂ → a.Ends tx true → Runs.Steps step m₂ as m₃ → .begin tx ∉ as →
    step m₃ b m₄ → b.Ends tx completed → m₄.state tx = m₂.state tx ∧ m₄.database = m₃.database
  undone_once  : ∀ {d m₁ m₂ m₃ m₄ a as tx c₁ c₂}, Runs.Reachable (· = init d) step m₁ →
    step m₁ a m₂ → a.Ends tx c₁ → Runs.Steps step m₂ as m₃ → .begin tx ∉ as →
    step m₃ (.abort tx c₂) m₄ → m₃.undoLog tx = []

theorem ended_state : (m.ended tx st d).state tx' = if tx' = tx then st else m.state tx' := by
  simp only [state, ended, LockManager.setState_state, LockManager.unlockAll_state]
  split <;> rfl

theorem ended_waiting : (m.ended tx st d).locks.waiting = m.locks.waiting :=
  LockManager.unlockAll_waiting

section run

-- What a call of `commit` or `abort` leaves, completed or not.
structure Closed (m : TransactionManager ρ σ) (tx : TransactionID) (st : TransactionState) : Prop where
  idle     : m.locks.waiting tx = none
  state    : m.state tx = st
  inactive : st = .shrinking ∨ tx ∉ m.activeTxs
  closed   : st ≠ .growing

theorem CarefulStep.closes (e : CarefulStep undo m a m') (ha : a.Ends tx c) :
    ∃ st, m'.Closed tx st ∧ (c = true → st ≠ .shrinking) := by
  cases ha <;> cases e.step
  case commit.commit result hw h =>
    obtain ⟨rfl, rfl⟩ := Prod.mk.inj <| Option.some.inj <| commit_eq.symm.trans h
    refine ⟨.committed, ⟨?_, ?_, .inr ?_, nofun⟩, nofun⟩
    · rw [ended_waiting, hw]
    · simp [ended_state]
    · simp [ended]
  case abort.abort result hw h =>
    obtain ⟨rfl, d, _, rfl⟩ | ⟨e, d, rfl, rfl⟩ := abort_cases h
    · refine ⟨.aborted, ⟨?_, ?_, .inr ?_, nofun⟩, nofun⟩
      · rw [ended_waiting, hw]
      · simp [ended_state]
      · simp [ended]
    · exact ⟨.shrinking, ⟨hw, by simp [TransactionManager.state], .inl rfl, nofun⟩, nofun⟩

theorem commit_step (e : Step undo m (.commit tx c) m') : m' = m.ended tx .committed m.database := by
  cases e
  case commit hw h => exact (Prod.mk.inj <| Option.some.inj <| commit_eq.symm.trans h).2.symm

-- An abort with nothing to undo.
theorem abort_step (e : Step undo m (.abort tx c) m') (hl : m.undoLog tx = []) :
    m' = m.ended tx .aborted m.database := by
  cases e
  case abort hw h =>
    have hu : undoAll undo (m.undoLog tx) m.database = some (.ok (), m.database) := by rw [hl]; rfl
    obtain ⟨_, d, hd, rfl⟩ | ⟨e, d, rfl, _⟩ := abort_cases h
    · rw [hu] at hd
      rw [(Prod.mk.inj <| Option.some.inj hd).2]
    · simp only [abort, onLocks, Program.update_bind, Program.read_bind] at h
      rw [Program.bind_apply, onDatabase, Program.on] at h
      simp only [hu] at h
      cases h

theorem Closed.ended (h : m.Closed tx st) (hn : tx ≠ tx') : (m.ended tx' st' d).Closed tx st where
  idle     := by rw [ended_waiting, h.idle]
  state    := by rw [ended_state, if_neg hn, h.state]
  inactive := h.inactive.imp_right fun ht hm => ht (List.mem_filter.mp hm).1
  closed   := h.closed

theorem Closed.ended_self (h : m.Closed tx st) : (m.ended tx st m.database).Closed tx st where
  idle     := by rw [ended_waiting, h.idle]
  state    := by rw [ended_state, if_pos rfl]
  inactive := .inr (by simp [TransactionManager.ended])
  closed   := h.closed

-- What is allowed on a closed transaction has no effect on it or the database.
theorem CarefulStep.repeats (e : CarefulStep undo m a m') (h : m.Closed tx st) (ha : a.Ends tx c) :
    m' = m.ended tx st m.database := by
  have ha' := e.allows
  cases ha
  case commit =>
    obtain hg | hc := ha'
    · exact absurd (h.state.symm.trans hg) h.closed
    · rw [commit_step e.step, ←h.state, hc]
  case abort  =>
    obtain ⟨hm, hs⟩ | ⟨hs, hl⟩ := ha'
    · rw [h.state] at hs
      exact absurd hm <| h.inactive.resolve_left hs
    · rw [abort_step e.step hl, ←h.state, hs]

theorem Step.keeps_closed (e : Step undo m a m') (hb : a ≠ .begin tx) (hn : ∀ c, ¬a.Ends tx c)
    (h : m.Closed tx st) : m'.Closed tx st := by
  cases e
  case begin =>
    have hn : tx ≠ m.nextTxId := fun he => hb (he ▸ rfl)
    refine ⟨h.idle, ?_, h.inactive.imp_right fun ht hm => ?_, h.closed⟩
    · simpa [TransactionManager.begin, LockManager.setTx, TransactionManager.state, hn] using h.state
    · exact ht <| (List.mem_insert_iff.mp hm).resolve_left hn
  case lock a l ha e =>
    obtain ⟨hw, hs⟩ := ha.idle e h.idle fun hg => h.closed <| h.state.symm.trans hg
    exact ⟨hw, hs.trans h.state, h.inactive, h.closed⟩
  case work    => exact ⟨h.idle, h.state, h.inactive, h.closed⟩
  case commit tx' result hw hc =>
    have hne : tx ≠ tx' := by
      rintro rfl
      exact hn _ .commit
    rw [commit_step (.commit hw hc : Step undo m (.commit tx' _) _)]
    exact h.ended hne
  case abort tx' result hw hc  =>
    have hne : tx ≠ tx' := by
      rintro rfl
      exact hn _ .abort
    obtain ⟨_, d, _, rfl⟩ | ⟨e, d, _, rfl⟩ := abort_cases hc
    · exact h.ended hne
    · exact ⟨h.idle, by simpa [TransactionManager.state, hne] using h.state, h.inactive, h.closed⟩

theorem CarefulStep.keeps_closed (e : CarefulStep undo m a m') (hb : a ≠ .begin tx) (h : m.Closed tx st) :
    m'.Closed tx st := by
  by_cases ha : ∃ c, a.Ends tx c
  case pos =>
    have ⟨c, ha⟩ := ha
    exact e.repeats h ha ▸ h.ended_self
  case neg => exact e.step.keeps_closed hb (not_exists.mp ha) h

theorem Closed.steps (h : m.Closed tx st) (hs : Runs.Steps (CarefulStep undo) m as m')
    (hb : .begin tx ∉ as) : m'.Closed tx st :=
  hs.preserves_of_mem (P := (Closed · tx st)) (fun ha e => e.keeps_closed fun he => hb (he ▸ ha)) h

theorem CarefulStep.from_growing (e : CarefulStep undo m a m') (h : m'.state tx = .committed) :
    m.state tx = .growing ∨ m.state tx = .committed := by
  have ⟨e, ha⟩ := e
  cases e
  case begin =>
    by_cases ht : tx = m.nextTxId
    case pos => simp [ht, TransactionManager.begin, LockManager.setTx, TransactionManager.state] at h
    case neg => exact .inr (by simpa [TransactionManager.begin, LockManager.setTx, TransactionManager.state, ht] using h)
  case lock a l hl e' =>
    have hs : (l.txs tx).state = (m.locks.txs tx).state ∨ (l.txs tx).state = .aborted := hl.state e'
    obtain hs | hs := hs
    · exact .inr (hs.symm.trans h)
    · cases hs.symm.trans h
  case work => exact .inr h
  case commit tx' result hw hc =>
    by_cases ht : tx = tx'
    case pos => exact ht ▸ ha
    case neg =>
      rw [commit_step (.commit hw hc : Step undo m (.commit tx' _) _), ended_state, if_neg ht] at h
      exact .inr h
  case abort tx' result hw hc =>
    obtain ⟨_, d, _, rfl⟩ | ⟨e, d, _, rfl⟩ := abort_cases hc
    · rw [ended_state] at h
      split at h
      · cases h
      · exact .inr h
    · simp only [TransactionManager.state, LockManager.setState_state] at h
      split at h
      · cases h
      · exact .inr h

theorem CarefulStep.outcomeFinal (undo : ρ → Program σ String Unit) : OutcomeFinal (CarefulStep undo) where
  from_growing _ e h := e.from_growing h
  final _ e ha hs hb e' hb' := by
    have ⟨st, h, _⟩ := e.closes ha
    have h' := h.steps hs hb
    rw [e'.repeats h' hb', ended_state, if_pos rfl]
    exact ⟨h.state.symm, rfl⟩
  undone_once _ e ha hs hb e' := by
    have ⟨st, h, _⟩ := e.closes ha
    have h := h.steps hs hb
    obtain ⟨hm, hc⟩ | ⟨_, hl⟩ := e'.allows
    · rw [h.state] at hc
      exact absurd hm <| h.inactive.resolve_left hc
    · exact hl

end run

-- Transaction 1 waits for a lock of transaction 0 and times out, and its client commits it.
theorem not_outcomeFinal : ¬OutcomeFinal (Step fun (_ : Unit) => (pure () : Program Unit String Unit)) := by
  intro h
  let rid : RID := ⟨1, 0⟩
  let m₀ : TransactionManager Unit Unit := init ()
  let m₁ := m₀.begin.2
  let m₂ := m₁.begin.2
  let l₃ := (m₂.locks.lockShared 0 rid).2
  let l₄ := (l₃.lockExclusive 1 rid).2
  let l₅ := (l₄.timeOut 1).2
  let m₅ := { m₂ with locks := l₅ }
  have hr : Runs.Reachable (· = init ()) (Step fun (_ : Unit) => pure ()) m₀ := .start rfl
  have hr := hr.next .begin |>.next .begin |>.next (.lock (a := .lockShared 0 rid) trivial <| .lockShared rfl)
    |>.next (.lock (a := .lockExclusive 1 rid) trivial <| .lockExclusive rfl)
    |>.next (.lock (a := .timeOut 1) trivial .timeOut)
  have e : Step (fun (_ : Unit) => pure ()) m₅ (.commit 1 _) _ := .commit rfl rfl
  have hc : m₅.state 1 = .growing ∨ m₅.state 1 = .committed := h.from_growing hr e rfl
  exact absurd hc (by decide)

end TransactionManager
end Duck
