import Duck.Table.Isolation
import Duck.Transaction.Theorems.Threads

namespace Duck.TableThread

open Thread LockManager LockingThread

-- What the calls do to the tuples, where they are careful: a tuple is put where no other transaction has a claim, or
-- where it was. Calls of heaps may fail.
inductive Spec (tx : TransactionID) (s : LockManager × Rows) :
    (a : Action Written) → a.Result → LockManager × Rows → Prop
  | insertTuple : (bytes.length < 65536) → Unclaimed s.1 tx rid →
    Spec tx s (.insertTuple heap bytes) (some rid) (s.1, s.2.put rid (some ⟨bytes, tx⟩))
  | insertFails : Spec tx s (.insertTuple heap bytes) none s
  | getTuple    : Spec tx s (.getTuple heap rid) (s.2.heap rid) s
  | getFails    : Spec tx s (.getTuple heap rid) none s
  | updateTuple : (bytes.length < 65536) → (rid' = rid ∨ Unclaimed s.1 tx rid') →
    Spec tx s (.updateTuple heap rid bytes) (some rid') (s.1, (s.2.put rid none).put rid' (some ⟨bytes, tx⟩))
  | updateFails : Spec tx s (.updateTuple heap rid bytes) none s
  | updateLoses : Spec tx s (.updateTuple heap rid bytes) none (s.1, s.2.put rid none)
  | deleteTuple : Spec tx s (.deleteTuple heap rid) deleted (s.1, s.2.put rid none)
  | deleteFails : (∀ {w}, s.2.heap rid = some w → w.writer = tx → s.2.Logs tx rid) →
    Spec tx s (.deleteTuple heap rid) false s
  | undoDelete  : Spec tx s (.undo (.delete heap rid)) () (s.1, s.2.put rid none)
  | undoRestore : Spec tx s (.undo (.restore heap rid w)) () (s.1, s.2.put rid (some w))
  | undoFails   : Spec tx s (.undo (.restore heap rid w)) () s
  | pushUndo    : Spec tx s (.pushUndo records) () (s.1, s.2.push tx records)
  | undoLog     : Spec tx s .undoLog (s.2.undoLog tx) s
  | setState    : Spec tx s (.setState state) () (s.1.setState tx state, s.2)
  | unlockAll   : Spec tx s (.unlockAll commits) () (s.1.unlockAll tx, s.2.release tx commits)
  | erase       : Spec tx s .erase () s

def Orderly (tx : TransactionID) (s : LockManager × Rows) (a : LockSection ⊕ Action Written)
    (r : LockSection.OrResult Action.Result a) (s' : LockManager × Rows) : Prop :=
  Locking Spec tx s a r s' ∧ Asks tx s.1 s.2 a

variable {s s' : LockManager × Rows} {tx tx' : TransactionID} {rid : RID} {w : Written}

structure Inv (s : LockManager × Rows) : Prop where
  locks    : s.1.Invariant
  contents : ∀ {rid w}, s.2.heap rid = some w → s.2.released w.writer = some true ∨
    rid ∈ (s.1.txs w.writer).exclusiveLocks ∨ Unclaimed s.1 w.writer rid
  lengths  : ∀ {rid w}, s.2.heap rid = some w → w.bytes.length < 65536
  restores : ∀ {tx pre heap rid w post}, s.2.undoLog tx = pre ++ .restore heap rid w :: post → w.bytes.length < 65536 ∧
    (s.2.released w.writer = some true ∨ w.writer = tx ∧ ∃ heap, .delete heap rid ∈ pre)
  deletes  : ∀ {tx rid}, s.2.Logs tx rid → s.2.released tx = none → rid ∈ (s.1.txs tx).exclusiveLocks
  released : ∀ {tx}, (s.1.txs tx).state = .growing → s.2.released tx = none

-- What the steps of the other transactions leave to a transaction.
structure Rely (tx : TransactionID) (s s' : LockManager × Rows) : Prop where
  txs       : s'.1.txs tx = s.1.txs tx
  waiting   : s'.1.waiting tx = s.1.waiting tx
  undoLog   : s'.2.undoLog tx = s.2.undoLog tx
  released  : s'.2.released tx = s.2.released tx
  committed : ∀ t, s.2.released t = some true → s'.2.released t = some true
  contents  : ∀ {rid w}, s'.2.heap rid = some w → w.writer = tx → s.2.heap rid = some w ∨ s.2.released tx = some true

-- The tuple may be put back at the RID: it is of a transaction that has committed, or will be taken away again.
structure Rows.Restores (s : Rows) (tx : TransactionID) (rid : RID) (w : Written) : Prop where
  length : w.bytes.length < 65536
  writer : s.released w.writer = some true ∨ w.writer = tx ∧ s.Logs tx rid

def Pre (tx : TransactionID) (s : LockManager × Rows) : LockSection ⊕ Action Written → Prop
  | .inl (.request ..)              => s.1.waiting tx = none
  | .inr (.getTuple _ rid)          => s.1.Locked tx rid
  | .inr (.updateTuple _ rid _)     => rid ∈ (s.1.txs tx).exclusiveLocks
  | .inr (.pushUndo records)        => s.2.released tx = none ∧
    (∀ heap rid, .delete heap rid ∈ records → rid ∈ (s.1.txs tx).exclusiveLocks) ∧
    ∀ heap rid w, .restore heap rid w ∈ records → s.2.Restores tx rid w
  | .inr (.undo (.restore _ rid w)) => s.2.released tx = none ∧ s.2.Restores tx rid w
  | .inr (.setState state)          => state ≠ .growing
  | .inr (.unlockAll commits)       => s.1.waiting tx = none ∧ (s.1.txs tx).state ≠ .growing ∧
    s.2.released tx = none ∧ (commits = false → ∀ {rid w}, s.2.heap rid = some w → w.writer = tx →
      rid ∉ (s.1.txs tx).exclusiveLocks)
  | _                               => True

section kept

theorem Rely.refl : Rely tx s s :=
  ⟨rfl, rfl, rfl, rfl, fun _ => id, fun h _ => .inl h⟩

theorem Rely.trans {s₁ s₂ s₃ : LockManager × Rows} (h₁ : Rely tx s₁ s₂) (h₂ : Rely tx s₂ s₃) : Rely tx s₁ s₃ where
  txs            := h₂.txs.trans h₁.txs
  waiting        := h₂.waiting.trans h₁.waiting
  undoLog        := h₂.undoLog.trans h₁.undoLog
  released       := h₂.released.trans h₁.released
  committed t h  := h₂.committed t <| h₁.committed t h
  contents h w   := by
    obtain h | h := h₂.contents h w
    · exact h₁.contents h w
    · exact .inr <| h₁.released ▸ h

theorem put_heap {w' : Option Written} {rid' : RID} (h : (s.2.put rid w').heap rid' = some w) :
    rid' = rid ∧ w' = some w ∨ rid' ≠ rid ∧ s.2.heap rid' = some w := by
  by_cases he : rid' = rid
  case pos => exact .inl ⟨he, by simpa [Rows.put, he] using h⟩
  case neg => exact .inr ⟨he, by simpa [Rows.put, he] using h⟩

-- Another tuple at the RID, which is the transaction's own or of one that has committed.
theorem Inv.putWritten (hi : Inv s) (hl : w.bytes.length < 65536) (hw : s.2.released w.writer = some true ∨
    w.writer = tx ∧ (rid ∈ (s.1.txs tx).exclusiveLocks ∨ Unclaimed s.1 tx rid)) :
    Inv (s.1, s.2.put rid (some w)) ∧ ∀ tx', tx' ≠ tx → Rely tx' s (s.1, s.2.put rid (some w)) := by
  refine ⟨⟨hi.locks, fun h => ?_, fun h => ?_, hi.restores, hi.deletes, hi.released⟩,
    fun tx' hn => ⟨rfl, rfl, rfl, rfl, fun _ => id, fun h ht => ?_⟩⟩
  all_goals obtain ⟨rfl, hw'⟩ | ⟨-, h⟩ := put_heap h
  · cases hw'
    exact hw.imp_right fun ⟨ht, hx⟩ => ht ▸ hx
  · exact hi.contents h
  · cases hw'
    exact hl
  · exact hi.lengths h
  · cases hw'
    obtain hc | ⟨hw, -⟩ := hw
    · exact .inr <| ht ▸ hc
    · exact absurd (ht.symm.trans hw) hn
  · exact .inl h

theorem Inv.putNone (hi : Inv s) (tx : TransactionID) (rid : RID) :
    Inv (s.1, s.2.put rid none) ∧ ∀ tx', tx' ≠ tx → Rely tx' s (s.1, s.2.put rid none) := by
  have hput {rid' w} (h : (s.2.put rid none).heap rid' = some w) : s.2.heap rid' = some w :=
    (put_heap h).elim (fun ⟨_, hw⟩ => by cases hw) And.right
  exact ⟨⟨hi.locks, fun h => hi.contents (hput h), fun h => hi.lengths (hput h), hi.restores, hi.deletes, hi.released⟩,
    fun tx' hn => ⟨rfl, rfl, rfl, rfl, fun _ => id, fun h _ => .inl (hput h)⟩⟩

theorem mem_push_undoLog {records : List (Record Written)} {record : Record Written} :
    record ∈ (s.2.push tx records).undoLog tx' ↔ record ∈ s.2.undoLog tx' ∨ tx' = tx ∧ record ∈ records := by
  by_cases h : tx' = tx
  case pos => subst h; simp [Rows.push]
  case neg => simp [Rows.push, h]

theorem Inv.push {records : List (Record Written)} (hi : Inv s) (hp : Pre tx s (.inr (.pushUndo records))) :
    Inv (s.1, s.2.push tx records) ∧ ∀ tx', tx' ≠ tx → Rely tx' s (s.1, s.2.push tx records) := by
  obtain ⟨ha, hd, hr⟩ := hp
  refine ⟨⟨hi.locks, hi.contents, hi.lengths, fun {tx' pre heap rid w post} h => ?_, fun {tx' rid} h hn => ?_, hi.released⟩,
    fun tx' hn => ⟨rfl, rfl, ?_, rfl, fun _ => id, fun h _ => .inl h⟩⟩
  · by_cases ht : tx' = tx
    case neg => exact hi.restores (by simpa [Rows.push, ht] using h)
    case pos =>
      subst ht
      simp only [Rows.push, Function.update_self] at h
      have hnew (as : List (Record Written)) (hp : pre = s.2.undoLog tx' ++ as) (hm : .restore heap rid w ∈ records) :
          w.bytes.length < 65536 ∧
            (s.2.released w.writer = some true ∨ w.writer = tx' ∧ ∃ heap, .delete heap rid ∈ pre) := by
        refine ⟨(hr heap rid w hm).length, (hr heap rid w hm).writer.imp_right fun ⟨ht, heap, hd⟩ => ⟨ht, heap, ?_⟩⟩
        exact hp ▸ List.mem_append_left as hd
      obtain ⟨as, hp, h⟩ | ⟨_ | ⟨record, as⟩, hp, h⟩ := List.append_eq_append_iff.mp h
      · exact hnew as hp (h ▸ List.mem_append_right as List.mem_cons_self)
      · have hr : records = .restore heap rid w :: post := h.symm
        exact hnew [] (by simpa using hp.symm) (hr ▸ List.mem_cons_self)
      · obtain ⟨rfl, rfl⟩ := List.cons.inj h
        exact hi.restores hp
  · obtain ⟨heap, h⟩ := h
    obtain h | ⟨ht, h⟩ := mem_push_undoLog.mp h
    · exact hi.deletes ⟨heap, h⟩ hn
    · exact ht ▸ hd heap rid h
  · simp [Rows.push, hn]

theorem setState_locked {m : LockManager} {state : TransactionState} :
    (m.setState tx state).Locked tx' rid ↔ m.Locked tx' rid := by
  by_cases h : tx' = tx
  case pos => simp [Locked, h, LockManager.setState, setTx]
  case neg => simp [Locked, h, LockManager.setState, setTx]

theorem Inv.setState {state : TransactionState} (hi : Inv s) (hs : state ≠ .growing) :
    Inv (s.1.setState tx state, s.2) ∧ ∀ tx', tx' ≠ tx → Rely tx' s (s.1.setState tx state, s.2) := by
  have hx (tx' : TransactionID) :
      ((s.1.setState tx state).txs tx').exclusiveLocks = (s.1.txs tx').exclusiveLocks := by
    by_cases h : tx' = tx
    case pos => simp [h, LockManager.setState, setTx]
    case neg => simp [h, LockManager.setState, setTx]
  refine ⟨⟨hi.locks.setState _ _, fun {rid w} h => ?_, hi.lengths, hi.restores, fun {tx' rid} h hn => ?_, fun {tx'} hg => ?_⟩,
    fun tx' hn => ⟨?_, rfl, rfl, rfl, fun _ => id, fun h _ => .inl h⟩⟩
  · refine (hi.contents h).imp_right <| Or.imp (fun h => hx w.writer ▸ h) fun h tx' hn hc => h tx' hn ?_
    exact hc.imp_left setState_locked.mp
  · exact hx tx' ▸ hi.deletes h hn
  · rw [setState_state] at hg
    split at hg
    case isTrue  => exact absurd hg hs
    case isFalse => exact hi.released hg
  · simp [LockManager.setState, setTx, hn]

theorem Inv.unlockAll {commits : Bool} (hi : Inv s) (hp : Pre tx s (.inr (.unlockAll commits))) :
    Inv (s.1.unlockAll tx, s.2.release tx commits) ∧
      ∀ tx', tx' ≠ tx → Rely tx' s (s.1.unlockAll tx, s.2.release tx commits) := by
  obtain ⟨hw, hg, ha, hc⟩ := hp
  obtain ⟨hwt, _, ht, _⟩ := unlockAll_eq s.1 tx
  have htx {tx'} (hn : tx' ≠ tx) : (s.1.unlockAll tx).txs tx' = s.1.txs tx' := by rw [ht, Function.update_of_ne hn]
  have hrel {tx'} (hn : tx' ≠ tx) : (s.2.release tx commits).released tx' = s.2.released tx' :=
    Function.update_of_ne hn _ _
  have hcom {tx'} (h : s.2.released tx' = some true) : (s.2.release tx commits).released tx' = some true := by
    have hn : tx' ≠ tx := by
      rintro rfl
      cases ha.symm.trans h
    rwa [hrel hn]
  have hfree {t rid} (h : Unclaimed s.1 t rid) : Unclaimed (s.1.unlockAll tx) t rid := by
    intro tx' hn hx
    by_cases he : tx' = tx
    case neg =>
      refine h tx' hn ?_
      simpa only [Claims, Locked, htx he, hwt] using hx
    case pos =>
      subst he
      obtain hx | ⟨_, hx⟩ := hx
      · simp [Locked, ht] at hx
      · rw [hwt, hw] at hx
        cases hx
  refine ⟨⟨hi.locks.unlockAll hw, fun {rid w} h => ?_, hi.lengths, fun {tx'} _ _ _ _ _ h => ?_, fun {tx' rid} h hn => ?_,
    fun {tx'} h => ?_⟩,
    fun tx' hn => ⟨htx hn, by rw [hwt], rfl, hrel hn, fun _ => hcom, fun h _ => .inl h⟩⟩
  · by_cases he : w.writer = tx
    case neg => exact (hi.contents h).imp hcom <| Or.imp (htx he ▸ ·) hfree
    case pos =>
      cases hb : commits
      case true  => exact .inl <| by simp [he, Rows.release]
      case false =>
        obtain h' | h' | h' := hi.contents h
        · cases ha.symm.trans (he ▸ h')
        · exact absurd (he ▸ h') (hc hb h he)
        · exact .inr <| .inr <| hfree h'
  · exact (hi.restores h).imp_right <| Or.imp_left hcom
  · have hne : tx' ≠ tx := by
      rintro rfl
      simp [Rows.release] at hn
    exact (htx hne).symm ▸ hi.deletes h (hrel hne ▸ hn)
  · by_cases hne : tx' = tx
    case pos =>
      subst hne
      exact absurd (unlockAll_state ▸ h) hg
    case neg =>
      rw [htx hne] at h
      exact (hrel hne).trans <| hi.released h

theorem Inv.own {a : Action Written} {r : a.Result} (hi : Inv s) (hp : Pre tx s (.inr a)) (e : Spec tx s a r s') :
    Inv s' ∧ ∀ tx', tx' ≠ tx → Rely tx' s s' := by
  have hsame : Inv s ∧ ∀ tx', tx' ≠ tx → Rely tx' s s := ⟨hi, fun _ _ => .refl⟩
  cases e
  case insertTuple hl hu  => exact hi.putWritten hl <| .inr ⟨rfl, .inr hu⟩
  case updateTuple hl hu  =>
    obtain ⟨hi, hr⟩ := hi.putNone tx _
    obtain ⟨hi, hr'⟩ := hi.putWritten (w := ⟨_, tx⟩) hl <| .inr ⟨rfl, hu.imp_left fun hr => hr ▸ hp⟩
    exact ⟨hi, fun tx' hn => (hr tx' hn).trans <| hr' tx' hn⟩
  case updateLoses | deleteTuple | undoDelete => exact hi.putNone tx _
  case undoRestore        =>
    exact hi.putWritten hp.2.length <| hp.2.writer.imp_right fun ⟨ht, hl⟩ => ⟨ht, .inl <| hi.deletes hl hp.1⟩
  case pushUndo           => exact hi.push hp
  case setState           => exact hi.setState hp
  case unlockAll          => exact hi.unlockAll hp
  all_goals exact hsame

theorem Inv.lock {a : LockSection} {r : a.Result} {m : LockManager} (hi : Inv s) (hp : Pre tx s (.inl a))
    (ha : Asks tx s.1 s.2 (.inl a)) (e : s.1.Section tx a r m) :
    Inv (m, s.2) ∧ ∀ tx', tx' ≠ tx → Rely tx' s (m, s.2) := by
  have hf := e.frame
  have hx (tx' : TransactionID) {rid} (h : rid ∈ (s.1.txs tx').exclusiveLocks) : rid ∈ (m.txs tx').exclusiveLocks := by
    by_cases hn : tx' = tx
    case pos => exact hn ▸ hf.exclusive rid (hn ▸ h)
    case neg => exact (hf.txs tx' hn).symm ▸ h
  refine ⟨⟨e.inv hi.locks fun _ _ ha => ?_, fun {rid w} h => ?_, hi.lengths, hi.restores,
    fun h hn => hx _ <| hi.deletes h hn, fun {tx'} hg => hi.released ?_⟩,
    fun tx' hn => ⟨hf.txs tx' hn, hf.waiting tx' hn, rfl, rfl, fun _ => id, fun h _ => .inl h⟩⟩
  · subst ha
    exact hp
  · obtain hc | hl | hu := hi.contents h
    · exact .inl hc
    · exact .inr <| .inl <| hx _ hl
    · -- a new claim is one that was asked for
      by_cases hn : (∃ mode, a = .request mode rid) ∧ w.writer ≠ tx
      case pos =>
        obtain ⟨⟨mode, rfl⟩, hn⟩ := hn
        obtain ht | hc | hl := ha h
        · exact absurd ht hn
        · exact .inl hc
        · exact .inr <| .inl <| hx _ hl
      case neg =>
        refine .inr <| .inr fun tx' ht hc => hu tx' ht ?_
        by_cases hne : tx' = tx
        case neg => simpa only [Claims, Locked, hf.txs tx' hne, hf.waiting tx' hne] using hc
        case pos =>
          subst hne
          exact (e.claims hc).resolve_right fun ha => hn ⟨ha, ht.symm⟩
  · by_cases hn : tx' = tx
    case neg => exact hf.txs tx' hn ▸ hg
    case pos => exact hn ▸ e.growing (hn ▸ hg)

end kept

def isolation : Agreement Orderly where
  inv         := Inv
  rely        := Rely
  pre tx a s  := Pre tx s a
  kept {tx s a r s'} hi hp e := by
    obtain ⟨e, ha⟩ := e
    cases a
    case inl a =>
      obtain ⟨m, h, rfl⟩ := locking_inl e
      exact hi.lock hp ha h
    case inr a => exact hi.own hp (locking_inr e)

theorem isolation_locks : Locks isolation where
  inv      := Inv.locks
  rely hr  := ⟨hr.txs, hr.waiting⟩
  sections := fun e => locking_inl e.1
  request  := .rfl
  await    := trivial

end Duck.TableThread
