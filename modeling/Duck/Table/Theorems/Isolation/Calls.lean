import Duck.Table.Theorems.Isolation.Invariant

namespace Duck.TableThread

open Thread LockManager LockingThread

variable {s s' : LockManager × Rows} {tx tx' : TransactionID} {rid : RID} {w : Written}

section calls

variable {ended : Bool} {heap : TableHeap} {α : Type}

-- What a transaction has written, apart from an RID, will be taken back, or it has no lock there and gets none.
def Recorded (tx : TransactionID) (except : Option RID) (s : LockManager × Rows) : Prop :=
  ∀ {rid w}, s.2.heap rid = some w → w.writer = tx → some rid ≠ except →
    s.2.Logs tx rid ∨ (s.1.txs tx).state ≠ .growing ∧ rid ∉ (s.1.txs tx).exclusiveLocks

-- What a transaction knows as long as it has not ended.
structure Active (tx : TransactionID) (ended : Bool) (except : Option RID) (s : LockManager × Rows) : Prop where
  released : ended = false → s.2.released tx = none
  recorded : s.2.released tx = none → Recorded tx except s

-- Between the calls of a transaction.
def Idle (tx : TransactionID) (ended : Bool) (s : LockManager × Rows) : Prop :=
  s.1.waiting tx = none ∧ Active tx ended none s

theorem active_lasting {except : Option RID} : Lasting isolation tx (Active tx ended except) where
  stable s s' _ _ hr h := by
    refine ⟨fun he => hr.released.trans (h.released he), fun ha {rid w} hh ht hn => ?_⟩
    have ha := hr.released.symm.trans ha
    obtain hh | hc := hr.contents hh ht
    · rw [hr.txs, Rows.Logs, hr.undoLog]
      exact h.recorded ha hh ht hn
    · cases ha.symm.trans hc
  frame {m m' s} _ hg h := by
    refine ⟨h.released, fun ha {rid w} hh ht hn => ?_⟩
    obtain hl | ⟨hs, hx⟩ := h.recorded ha hh ht hn
    · exact .inl hl
    · exact .inr <| hg hs ▸ ⟨hs, hx⟩

theorem restores_lasting : Lasting isolation tx fun s => s.2.Restores tx rid w where
  stable _ _ _ _ hr h :=
    ⟨h.length, h.writer.imp (hr.committed _) (And.imp_right fun ⟨heap, h⟩ => ⟨heap, hr.undoLog ▸ h⟩)⟩
  frame _ _           := id

theorem idle_stable : isolation.Stable tx (Idle tx ended) :=
  isolation_locks.stable_waiting.and active_lasting.stable

theorem step_safe {a : Action Written} {P : LockManager × Rows → Prop} {Q : a.Result → LockManager × Rows → Prop}
    (hs : isolation.Stable tx P) (hp : ∀ s, Inv s → P s → Pre tx s (.inr a))
    (h : ∀ s r s', Inv s → P s → Spec tx s a r s' → Q r s') : isolation.Safe tx Q P (step a) :=
  .act hs hp fun s r s' hi _ hps e => ⟨Q r, h s r s' hi hps (locking_inr e.1), .ret fun _ _ => id⟩

-- With the exclusive lock of the RID.
def Owner (tx : TransactionID) (rid : RID) (ended : Bool) (except : Option RID) (s : LockManager × Rows) : Prop :=
  s.1.waiting tx = none ∧ Active tx ended except s ∧ rid ∈ (s.1.txs tx).exclusiveLocks ∧ (s.1.txs tx).state = .growing

theorem owner_stable {except : Option RID} : isolation.Stable tx (Owner tx rid ended except) :=
  isolation_locks.stable_waiting.and <| active_lasting.stable.and <|
    isolation_locks.stable_txs fun t => rid ∈ t.exclusiveLocks ∧ t.state = .growing

theorem Owner.idle (h : Owner tx rid ended none s) : Idle tx ended s :=
  ⟨h.1, h.2.1⟩

-- Nobody else has a tuple that is not committed where a transaction has the exclusive lock, and its own is logged.
theorem Owner.restores (hi : Inv s) (ho : Owner tx rid ended none s) (h : s.2.heap rid = some w) :
    s.2.Restores tx rid w := by
  refine ⟨hi.lengths h, ?_⟩
  have hown (ht : w.writer = tx) : w.writer = tx ∧ s.2.Logs tx rid :=
    have hk := ho.2.1.recorded (hi.released ho.2.2.2) h ht (Option.some_ne_none rid)
    ⟨ht, hk.resolve_right fun hx => hx.2 ho.2.2.1⟩
  obtain hc | hx | hu := hi.contents h
  · exact .inl hc
  · exact .inr <| hown (hi.locks.alone hx (.inr ho.2.2.1)).symm
  · by_cases ht : w.writer = tx
    case pos => exact .inr <| hown ht
    case neg => exact absurd (.inl <| .inr ho.2.2.1) (hu tx <| Ne.symm ht)

section

variable {K : LockManager × Rows → Prop} {Q : α → LockManager × Rows → Prop} {except : Option RID}

-- A transaction that grows is only refused the lock of a tuple of its own that it has not locked yet.
theorem lockExclusive_safe {next : Bool → TableThread Written α} (grows : Prop) (hk : Lasting isolation tx K)
    (ht : isolation.Safe tx Q (fun s => Owner tx rid ended except s ∧ K s) (next true))
    (hf : isolation.Safe tx Q (fun s => s.1.waiting tx = none ∧ Active tx ended except s ∧ K s ∧
      (grows → (s.1.txs tx).state ≠ .growing ∧ rid ∉ (s.1.txs tx).exclusiveLocks)) (next false)) :
    isolation.Safe tx Q (fun s => s.1.waiting tx = none ∧ Active tx ended except s ∧ K s ∧
      (grows → (s.1.txs tx).state = .growing)) (lock .exclusive rid >>= next) := by
  have ha : Lasting isolation tx (Active tx ended except) := active_lasting
  refine ((isolation_locks.lock_safe (ha.and hk) grows).weaken fun s _ h => ?_).bind fun granted => ?_
  · exact ⟨h.1, ⟨h.2.1, h.2.2.1⟩, h.2.2.2⟩
  cases granted
  case false =>
    refine hf.weaken fun s _ ⟨hw, ⟨ha, hk⟩, _, hg⟩ => ⟨hw, ha, hk, fun hx => ⟨(hg rfl hx).1, ?_⟩⟩
    exact mt has_exclusive.mpr (hg rfl hx).2
  case true  =>
    refine ht.weaken fun s _ ⟨hw, ⟨ha, hk⟩, hg, _⟩ => ⟨⟨hw, ha, ?_, (hg rfl).2⟩, hk⟩
    exact has_exclusive.mp (hg rfl).1

theorem true_lasting : Lasting isolation tx fun _ => True :=
  ⟨fun _ _ _ _ _ => id, fun _ _ => id⟩

-- The way into a call that changes a tuple.
theorem owner_safe {next : Bool → TableThread Written α} (ht : isolation.Safe tx Q (Owner tx rid ended none) (next true))
    (hf : isolation.Safe tx Q (Idle tx ended) (next false)) :
    isolation.Safe tx Q (Idle tx ended) (lock .exclusive rid >>= next) := by
  refine (lockExclusive_safe False true_lasting ?_ ?_).weaken fun s _ hs => ⟨hs.1, hs.2, trivial, False.elim⟩
  · exact ht.weaken fun s _ => And.left
  · exact hf.weaken fun s _ hs => ⟨hs.1, hs.2.1⟩

theorem getTuple_safe {next : Option Written → TableThread Written α}
    (hn : ∀ w, isolation.Safe tx Q (fun s => Owner tx rid ended none s ∧ s.2.Restores tx rid w) (next (some w)))
    (h : isolation.Safe tx Q (Idle tx ended) (next none)) :
    isolation.Safe tx Q (Owner tx rid ended none) (step (.getTuple heap rid) >>= next) := by
  refine (step_safe (Q := fun r s => Owner tx rid ended none s ∧ ∀ w, r = some w → s.2.Restores tx rid w) owner_stable
    (fun s _ hs => by exact Or.inr hs.2.2.1) ?_).bind fun r => ?_
  · intro s r s' hi hs e
    cases e
    case getTuple => exact ⟨hs, fun w hw => hs.restores hi hw⟩
    case getFails => exact ⟨hs, fun w hw => by cases hw⟩
  cases r
  case none   => exact h.weaken fun s _ hs => hs.1.idle
  case some w => exact (hn w).weaken fun s _ hs => ⟨hs.1, hs.2 w rfl⟩

-- The last step of a call that has changed something.
theorem pushUndo_safe {records : List (Record Written)} {b : α} {rid' : RID} {except : Option RID}
    (hd : ∀ heap rid, .delete heap rid ∈ records → rid = rid')
    (he : except = none ∨ except = some rid' ∧ ∃ heap, .delete heap rid' ∈ records)
    (hr : ∀ s heap rid w, K s → .restore heap rid w ∈ records → s.2.Restores tx rid w) (hk : Lasting isolation tx K) :
    isolation.Safe tx (fun _ => Idle tx ended) (fun s => Owner tx rid' ended except s ∧ K s)
      (do step (.pushUndo records); return b) := by
  refine (step_safe (Q := fun _ => Idle tx ended) (owner_stable.and hk.stable) ?_ ?_).bind fun _ => .ret fun _ _ => id
  · intro s hi hs
    refine ⟨hi.released hs.1.2.2.2, fun heap rid h => ?_, fun heap rid w h => hr s heap rid w hs.2 h⟩
    exact hd heap rid h ▸ hs.1.2.2.1
  · intro s r s' _ hs e
    cases e
    refine ⟨hs.1.1, hs.1.2.1.released, fun ha {rid w} hh ht _ => ?_⟩
    by_cases hx : some rid = except
    case pos =>
      obtain rfl | ⟨rfl, heap, hm⟩ := he
      · cases hx
      · cases hx
        exact .inl ⟨heap, mem_push_undoLog.mpr <| .inr ⟨rfl, hm⟩⟩
    case neg =>
      refine (hs.1.2.1.recorded ha hh ht hx).imp_left fun ⟨heap, hm⟩ => ⟨heap, mem_push_undoLog.mpr <| .inl hm⟩

end

variable {except : Option RID}

theorem Active.put {w : Option Written} (h : Active tx ended none s) : Active tx ended (some rid) (s.1, s.2.put rid w) where
  released           := h.released
  recorded ha {rid' w'} hh ht hn := by
    obtain ⟨rfl, -⟩ | ⟨-, hh⟩ := put_heap hh
    · exact absurd rfl hn
    · exact h.recorded ha hh ht (Option.some_ne_none rid')

theorem Active.putNone (h : Active tx ended except s) (he : except = none ∨ except = some rid) :
    Active tx ended none (s.1, s.2.put rid none) where
  released           := h.released
  recorded ha {rid' w'} hh ht _ := by
    obtain ⟨-, hw⟩ | ⟨hr, hh⟩ := put_heap hh
    · cases hw
    · refine h.recorded ha hh ht fun hx => ?_
      obtain rfl | rfl := he
      · cases hx
      · exact hr (Option.some.inj hx)

-- Nothing is left to be recorded of the tuple at the RID.
theorem Active.all (h : Active tx ended (some rid) s) (hr : s.2.released tx = none → ∀ {w}, s.2.heap rid = some w → w.writer = tx →
    s.2.Logs tx rid ∨ (s.1.txs tx).state ≠ .growing ∧ rid ∉ (s.1.txs tx).exclusiveLocks) : Active tx ended none s where
  released           := h.released
  recorded ha {rid' w} hh ht _ := by
    by_cases he : rid' = rid
    case pos => exact he ▸ hr ha (he ▸ hh) ht
    case neg => exact h.recorded ha hh ht fun hx => he (Option.some.inj hx)

theorem insertTuple_safe : isolation.Safe tx (fun _ => Idle tx ended) (Idle tx ended)
    (insertTuple heap tupleData : TableThread Written (Option RID)) := by
  refine (step_safe (Q := fun r s => s.1.waiting tx = none ∧ Active tx ended r s) idle_stable
    (fun _ _ _ => by trivial) ?_).bind fun r => ?_
  · intro s r s' _ hs e
    cases e
    case insertTuple => exact ⟨hs.1, hs.2.put⟩
    case insertFails => exact hs
  cases r
  case none     => exact .ret fun _ _ => id
  case some rid =>
    refine .weaken (lockExclusive_safe False true_lasting ?_ ?_) fun s _ hs => ⟨hs.1, hs.2, trivial, False.elim⟩
    · refine pushUndo_safe (fun heap rid h => ?_) (.inr ⟨rfl, heap, List.mem_cons_self⟩) (fun s heap rid w _ h => ?_) true_lasting
      · simp only [List.mem_singleton, Record.delete.injEq] at h
        exact h.2
      · simp at h
    · -- without the lock the tuple is taken back
      refine .weaken ((step_safe (P := fun s => s.1.waiting tx = none ∧ Active tx ended (some rid) s)
        (Q := fun _ => Idle tx ended) (isolation_locks.stable_waiting.and active_lasting.stable)
        (fun _ _ _ => by trivial) ?_).bind fun _ => .ret fun _ _ => id) fun s _ hs => ⟨hs.1, hs.2.1⟩
      intro s r s' _ hs e
      cases e
      case deleteTuple    => exact ⟨hs.1, hs.2.putNone (.inr rfl)⟩
      case deleteFails hl => exact ⟨hs.1, hs.2.all fun _ _ hh ht => .inl (hl hh ht)⟩

theorem getTuple_call_safe : isolation.Safe tx (fun _ => Idle tx ended) (Idle tx ended)
    (getTuple heap rid : TableThread Written (Option Written)) := by
  have ha : Lasting isolation tx (Active tx ended none) := active_lasting
  refine ((isolation_locks.lock_safe ha False).weaken fun s _ hs => ⟨hs.1, hs.2, False.elim⟩).bind fun granted => ?_
  cases granted
  case false => exact .ret fun s _ hs => ⟨hs.1, hs.2.1⟩
  case true  =>
    refine .weaken (step_safe (P := fun s => Idle tx ended s ∧ s.1.Has tx rid .shared)
      (idle_stable.and isolation_locks.stable_has) (fun s _ hs => by exact hs.2) ?_) fun s _ hs =>
        ⟨⟨hs.1, hs.2.1⟩, (hs.2.2.1 rfl).1⟩
    intro s r s' _ hs e
    cases e <;> exact hs.1

theorem deleteTuple_safe : isolation.Safe tx (fun _ => Idle tx ended) (Idle tx ended)
    (deleteTuple heap rid : TableThread Written Bool) := by
  refine owner_safe (getTuple_safe (fun w => ?_) <| .ret fun _ _ => id) <| .ret fun _ _ => id
  refine (step_safe (Q := fun _ s => Owner tx rid ended none s ∧ s.2.Restores tx rid w)
    (owner_stable.and restores_lasting.stable) (fun _ _ _ => by trivial) ?_).bind fun deleted => ?_
  · intro s r s' _ hs e
    cases e
    case deleteTuple => exact ⟨⟨hs.1.1, hs.1.2.1.putNone (.inl rfl), hs.1.2.2⟩, hs.2.length, hs.2.writer⟩
    case deleteFails => exact hs
  cases deleted
  case false => exact .ret fun s _ hs => hs.1.idle
  case true  =>
    refine pushUndo_safe (fun heap rid h => ?_) (.inl rfl) (fun s heap rid w hs h => ?_) restores_lasting
    · simp at h
    · simp only [List.mem_singleton, Record.restore.injEq] at h
      obtain ⟨_, rfl, rfl⟩ := h
      exact hs

theorem updateTuple_safe {tuple : Except String (List UInt8)} : isolation.Safe tx (fun _ => Idle tx ended)
    (Idle tx ended) (updateTuple heap rid tuple : TableThread Written (Option RID)) := by
  refine owner_safe (getTuple_safe (fun w => ?_) <| .ret fun _ _ => id) <| .ret fun _ _ => id
  cases tuple
  case error => exact .ret fun s _ hs => hs.1.idle
  case ok tuple =>
    refine (step_safe (Q := fun r s => Owner tx rid ended r s ∧ s.2.Restores tx rid w)
      (owner_stable.and restores_lasting.stable) (fun s _ hs => by exact hs.1.2.2.1) ?_).bind fun r => ?_
    · intro s r s' _ hs e
      cases e
      case updateTuple => exact ⟨⟨hs.1.1, (hs.1.2.1.putNone (.inl rfl)).put, hs.1.2.2⟩, hs.2.length, hs.2.writer⟩
      case updateFails => exact hs
      case updateLoses => exact ⟨⟨hs.1.1, hs.1.2.1.putNone (.inl rfl), hs.1.2.2⟩, hs.2.length, hs.2.writer⟩
    cases r
    case none        => exact .ret fun s _ hs => hs.1.idle
    case some retRid =>
      have hpush : isolation.Safe tx (fun _ => Idle tx ended)
          (fun s => Owner tx retRid ended (some retRid) s ∧ s.2.Restores tx rid w)
          (do step (.pushUndo [.restore heap rid w, .delete heap retRid]); return some retRid) := by
        refine pushUndo_safe (fun heap rid h => ?_) (.inr ⟨rfl, heap, by simp⟩) (fun s heap rid w hs h => ?_) restores_lasting
        · simp only [List.mem_cons, reduceCtorEq, Record.delete.injEq, List.not_mem_nil, or_false, false_or] at h
          exact h.2
        · simp only [List.mem_cons, reduceCtorEq, Record.restore.injEq, List.not_mem_nil, or_false] at h
          obtain ⟨_, rfl, rfl⟩ := h
          exact hs
      by_cases hr : retRid = rid
      case pos =>
        subst hr
        simp only [ne_eq, not_true_eq_false, if_false]
        exact hpush
      case neg =>
        simp only [ne_eq, hr, not_false_eq_true, if_true]
        refine .weaken (lockExclusive_safe True restores_lasting hpush <| .ret fun s _ hs => ?_) fun s _ hs =>
          ⟨hs.1.1, hs.1.2.1, hs.2, fun _ => hs.1.2.2.2⟩
        exact ⟨hs.1, hs.2.1.all fun _ _ _ _ => .inr (hs.2.2.2 trivial)⟩

-- While a transaction ends: it has not released its locks yet, and will get no more.
def Ending (tx : TransactionID) (s : LockManager × Rows) : Prop :=
  Idle tx false s ∧ (s.1.txs tx).state ≠ .growing

theorem ending_stable : isolation.Stable tx (Ending tx) :=
  idle_stable.and <| isolation_locks.stable_txs (·.state ≠ .growing)

theorem shrinking_safe :
    isolation.Safe tx (fun _ => Ending tx) (Idle tx false) (step (.setState .shrinking) : TableThread Written Unit) := by
  refine step_safe idle_stable (fun _ _ _ => by exact fun h => by cases h) ?_
  intro s r s' _ hs e
  cases e
  have hg : ((s.1.setState tx .shrinking).txs tx).state ≠ .growing := by simp [LockManager.setState, setTx]
  refine ⟨⟨hs.1, hs.2.released, fun ha {rid w} hh ht hn => ?_⟩, hg⟩
  obtain hl | ⟨_, hx⟩ := hs.2.recorded ha hh ht hn
  · exact .inl hl
  · exact .inr ⟨hg, by simpa [LockManager.setState, setTx] using hx⟩

-- A transaction that has released its locks.
def Released (tx : TransactionID) (s : LockManager × Rows) : Prop :=
  s.1.waiting tx = none ∧ s.2.released tx ≠ none

theorem released_stable : isolation.Stable tx (Released tx) :=
  isolation_locks.stable_waiting.and fun _ _ _ _ hr h => hr.released ▸ h

-- The way out of `commit` and of `abort`.
theorem finish_safe {state : TransactionState} (hs : state ≠ .growing) :
    isolation.Safe tx (fun _ => Idle tx true) (Released tx)
      (do step (.setState state); step .erase : TableThread Written Unit) := by
  refine (step_safe (Q := fun _ => Released tx) released_stable (fun _ _ _ => by exact hs) ?_).bind
    fun _ => .weaken (step_safe released_stable (fun _ _ _ => by trivial) ?_) fun _ _ => id
  · intro s r s' _ hw e
    cases e
    exact hw
  · intro s r s' _ hw e
    cases e
    exact ⟨hw.1, ⟨fun h => (by cases h), fun ha => absurd ha hw.2⟩⟩

theorem released_unlockAll {commits : Bool} {r : Unit} (hw : s.1.waiting tx = none)
    (e : Spec tx s (.unlockAll commits) r s') : Released tx s' := by
  cases e
  exact ⟨(congrFun unlockAll_waiting tx).trans hw, by simp [Rows.release]⟩

theorem commit_safe :
    isolation.Safe tx (fun _ => Idle tx true) (Idle tx false) (commit : TableThread Written Unit) := by
  refine shrinking_safe.bind fun _ => ?_
  refine (step_safe (Q := fun _ => Released tx) ending_stable (fun s _ hs => ?_) ?_).bind fun _ => finish_safe (by decide)
  · exact ⟨hs.1.1, hs.2, hs.1.2.released rfl, fun h => by cases h⟩
  · exact fun s r s' _ hs e => released_unlockAll hs.1.1 e

-- What the transaction has written is taken back by the records that are left, or it has no lock there.
structure Undoing (tx : TransactionID) (records : List (Record Written)) (s : LockManager × Rows) : Prop where
  waiting  : s.1.waiting tx = none
  state    : (s.1.txs tx).state ≠ .growing
  released : s.2.released tx = none
  undoLog  : ∃ post, s.2.undoLog tx = records ++ post
  contents : ∀ {rid w}, s.2.heap rid = some w → w.writer = tx →
    (∃ heap, .delete heap rid ∈ records) ∨ rid ∉ (s.1.txs tx).exclusiveLocks

theorem undoing_stable {records : List (Record Written)} : isolation.Stable tx (Undoing tx records) := by
  intro s s' _ _ hr hu
  refine ⟨hr.waiting.trans hu.waiting, hr.txs ▸ hu.state, hr.released.trans hu.released, hr.undoLog ▸ hu.undoLog,
    fun {rid w} h ht => ?_⟩
  obtain h | h := hr.contents h ht
  · exact hr.txs ▸ hu.contents h ht
  · cases hu.released.symm.trans h

theorem Ending.undoing (h : Ending tx s) : Undoing tx (s.2.undoLog tx) s where
  waiting        := h.1.1
  state          := h.2
  released       := h.1.2.released rfl
  undoLog        := ⟨[], (List.append_nil _).symm⟩
  contents hh ht := (h.1.2.recorded (h.1.2.released rfl) hh ht (Option.some_ne_none _)).imp_right And.right

variable {records : List (Record Written)} {record : Record Written}

theorem Undoing.restores (hi : Inv s) (hu : Undoing tx (records ++ [.restore heap rid w]) s) : w.bytes.length < 65536 ∧
    (s.2.released w.writer = some true ∨ w.writer = tx ∧ ∃ heap, .delete heap rid ∈ records) := by
  obtain ⟨post, hl⟩ := hu.undoLog
  exact hi.restores (by rw [hl, List.append_assoc, List.singleton_append])

theorem Undoing.step (hi : Inv s) (hu : Undoing tx (records ++ [record]) s) (e : Spec tx s (.undo record) r s') :
    Undoing tx records s' := by
  have hlog : ∃ post, s.2.undoLog tx = records ++ post := by
    obtain ⟨post, hl⟩ := hu.undoLog
    exact ⟨record :: post, by rw [hl, List.append_assoc, List.singleton_append]⟩
  cases e
  case undoDelete heap rid  =>
    refine ⟨hu.waiting, hu.state, hu.released, hlog, fun {rid' w} h ht => ?_⟩
    obtain ⟨-, hw⟩ | ⟨hr, h⟩ := put_heap h
    · cases hw
    · exact (hu.contents h ht).imp_left fun ⟨heap', hm⟩ => ⟨heap', by simpa [hr] using hm⟩
  case undoRestore rid heap w =>
    refine ⟨hu.waiting, hu.state, hu.released, hlog, fun {rid' w'} h ht => ?_⟩
    obtain ⟨rfl, hw⟩ | ⟨-, h⟩ := put_heap h
    · cases hw
      obtain hc | ⟨_, hd⟩ := (hu.restores hi).2
      · cases hu.released.symm.trans (ht ▸ hc)
      · exact .inl hd
    · exact (hu.contents h ht).imp_left fun ⟨heap', hm⟩ => ⟨heap', by simpa using hm⟩
  case undoFails            =>
    refine ⟨hu.waiting, hu.state, hu.released, hlog, fun h ht => ?_⟩
    exact (hu.contents h ht).imp_left fun ⟨heap', hm⟩ => ⟨heap', by simpa using hm⟩

theorem undoAll_safe (records : List (Record Written)) : isolation.Safe tx (fun _ => Undoing tx []) (Undoing tx records)
    (records.reverse.forM fun record => step (.undo record) : TableThread Written Unit) := by
  induction records using List.reverseRecOn
  case nil => exact .ret fun _ _ => id
  case append_singleton records record ih =>
    rw [List.reverse_append, List.reverse_singleton, List.singleton_append]
    change isolation.Safe tx _ _ (step (.undo record) >>= fun _ => records.reverse.forM fun record => step (.undo record))
    refine (step_safe undoing_stable (fun s hi hs => ?_) fun s r s' hi hs e => hs.step hi e).bind fun _ => ih
    cases record
    case delete  => trivial
    case restore =>
      obtain ⟨hl, hw⟩ := hs.restores hi
      refine ⟨hs.released, hl, hw.imp_right <| And.imp_right fun ⟨heap, h⟩ => ⟨heap, ?_⟩⟩
      obtain ⟨post, hl⟩ := hs.undoLog
      rw [hl]
      exact List.mem_append_left _ <| List.mem_append_left _ h

theorem abort_safe :
    isolation.Safe tx (fun _ => Idle tx true) (Idle tx false) (abort : TableThread Written Unit) := by
  refine shrinking_safe.bind fun _ => ?_
  refine (step_safe (Q := fun records => Undoing tx records) ending_stable (fun _ _ _ => by trivial) ?_).bind fun records => ?_
  · intro s r s' _ hs e
    cases e
    exact hs.undoing
  refine (undoAll_safe records).bind fun _ => ?_
  refine (step_safe (Q := fun _ => Released tx) undoing_stable (fun s _ hs => ?_) ?_).bind fun _ => finish_safe (by decide)
  · refine ⟨hs.waiting, hs.state, hs.released, fun _ rid w h ht => ?_⟩
    obtain ⟨_, hm⟩ | hx := hs.contents h ht
    · cases hm
    · exact hx
  · exact fun s r s' _ hs e => released_unlockAll hs.waiting e

theorem calls_safe {x : TableThread Written Bool} (h : Calls ended x) :
    isolation.Safe tx (Idle tx) (Idle tx ended) x := by
  have hcall {α : Type} {x : TableThread Written α} {ended : Bool}
      (hx : isolation.Safe tx (fun _ => Idle tx ended) (Idle tx ended) x) :
      isolation.Safe tx (Idle tx) (Idle tx ended) (do discard x; return ended) :=
    have hd : isolation.Safe tx (fun _ => Idle tx ended) (Idle tx ended) (discard x) :=
      hx.bind fun _ => .ret fun _ _ => id
    hd.bind fun _ => .ret fun _ _ => id
  cases h
  case insertTuple => exact hcall insertTuple_safe
  case getTuple    => exact hcall getTuple_call_safe
  case updateTuple => exact hcall updateTuple_safe
  case deleteTuple => exact hcall deleteTuple_safe
  case commit      => exact commit_safe.bind fun _ => .ret fun _ _ => id
  case abort       => exact abort_safe.bind fun _ => .ret fun _ _ => id

end calls

-- The careful transactions, where the heaps are what their calls are meant to make of them.
abbrev Orderly.System :=
  Thread.System (LockSection ⊕ Action Written) (LockSection.OrResult Action.Result) TransactionID (LockManager × Rows) Bool

abbrev Orderly.Agrees (s : Orderly.System) : Prop :=
  isolation.Agrees Idle s

theorem Orderly.Agrees.step {s s' : Orderly.System} (h : Orderly.Agrees s) (e : s.Step Orderly Calls l s') : Orderly.Agrees s' :=
  Agreement.Agrees.step (fun _ _ => idle_stable) (fun _ _ _ => calls_safe) h e

-- Who has a lock where a tuple stands has written it, or it is committed.
theorem Inv.clean (hi : Inv s) (hl : s.1.Locked tx rid) (h : s.2.heap rid = some w) :
    w.writer = tx ∨ s.2.released w.writer = some true := by
  obtain hc | hx | hu := hi.contents h
  · exact .inr hc
  · exact .inl (hi.locks.alone hx hl).symm
  · by_cases ht : w.writer = tx
    case pos => exact .inl ht
    case neg => exact absurd (.inl hl) (hu tx <| Ne.symm ht)

theorem unlocked_invariant {state : TransactionID → TransactionState} :
    { LockManager.init with txs := fun tx => { state := state tx } }.Invariant where
  node_lt    := nofun
  node_inj   := nofun
  tx_inj     := nofun
  waits      := nofun
  ungranted  := nofun
  compatible := nofun
  locks {_ _ mode} := by
    constructor
    · cases mode <;> nofun
    · exact fun ⟨_, h⟩ => nomatch h.mem

end Duck.TableThread
