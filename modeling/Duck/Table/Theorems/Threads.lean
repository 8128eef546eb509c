import Duck.Table.Threads

namespace Duck

open Database Thread LockingThread

variable {others : Database → Database} {tx : TransactionID} {rid : RID}

namespace TableThread

theorem interpret_step (a : Action (List UInt8)) : (step a).interpret (run others tx) = run others tx (.inr a) :=
  interpret_perform (Sum.inr a)

theorem interpret_lock (mode : LockMode) :
    (LockingThread.lock mode rid).interpret (run others tx) = await others tx (·.lock tx rid mode) := by
  funext s
  have hr : (lockSection (.request mode rid)).interpret (run others tx) = run others tx (.inl (.request mode rid)) :=
    interpret_perform (Sum.inl (LockSection.request mode rid))
  have ha : (lockSection .await).interpret (run others tx) = run others tx (.inl .await) :=
    interpret_perform (Sum.inl LockSection.await)
  rw [LockingThread.lock, interpret_bind, hr, Program.bind_apply]
  simp only [run, await, Program.call, Option.bind_some]
  rcases s.locks.lock tx rid mode with ⟨_ | granted, locks⟩
  · exact congrFun ha _
  · rfl

end TableThread

namespace Table

open TableThread

variable (t : Table)

-- The calls of a transaction are its threads, where nothing comes between their steps but what happens
-- while they wait.

theorem insertTuple_eq (tuple : Tuple) : t.insertTuple others tuple (some tx) = (do
    if !t.schema.compatibleWith tuple.schema then
      throw "Table::insert_tuple: schemas not compatible"
    let tupleData ← .ofExcept tuple.serialize
    (TableThread.insertTuple t.heap tupleData).interpret (run others tx)) := by
  rw [insertTuple]
  by_cases hc : t.schema.compatibleWith tuple.schema
  case neg => simp [hc]
  case pos =>
    simp only [hc, Bool.not_true, Bool.false_eq_true, if_false]
    refine bind_congr fun tupleData => ?_
    rw [TableThread.insertTuple, interpret_bind, interpret_step]
    refine bind_congr fun rid => ?_
    cases rid
    case none     => rfl
    case some rid =>
      simp only [interpret_bind, interpret_lock]
      refine bind_congr fun granted => ?_
      cases granted
      case false =>
        simp only [Bool.not_false, if_true]
        rw [interpret_bind, interpret_discard, interpret_step]
        rfl
      case true  =>
        simp only [Bool.not_true, Bool.false_eq_true, if_false]
        rw [interpret_bind, interpret_step]
        rfl

theorem getTuple_eq : t.getTuple others rid (some tx) = (do
    match ← (TableThread.getTuple t.heap rid).interpret (run others tx) with
    | none       => return none
    | some bytes => return some (← t.decode bytes)) := by
  rw [getTuple, TableThread.getTuple, interpret_bind, interpret_lock, bind_assoc]
  refine bind_congr fun granted => ?_
  cases granted
  case false => rfl
  case true  =>
    simp only [Bool.not_true, Bool.false_eq_true, if_false]
    rw [interpret_step]
    rfl

theorem deleteTuple_eq : t.deleteTuple others rid (some tx) =
    (TableThread.deleteTuple t.heap rid).interpret (run others tx) := by
  rw [deleteTuple, TableThread.deleteTuple, interpret_bind, interpret_lock]
  refine bind_congr fun granted => ?_
  cases granted
  case false => rfl
  case true  =>
    simp only [Bool.not_true, Bool.false_eq_true, if_false]
    rw [interpret_bind, interpret_step]
    refine bind_congr fun tuple => ?_
    cases tuple
    case none       => rfl
    case some tuple =>
      rw [interpret_bind, interpret_step]
      refine bind_congr fun deleted => ?_
      cases deleted
      case false => rfl
      case true  =>
        simp only [Bool.not_true, Bool.false_eq_true, if_false]
        rw [interpret_bind, interpret_step]
        rfl

theorem updateTuple_eq (tuple : Tuple) (hc : t.schema.compatibleWith tuple.schema) (hs : tuple.serialize = .ok bytes) :
    t.updateTuple others rid tuple (some tx) =
      (TableThread.updateTuple t.heap rid (.ok bytes)).interpret (run others tx) := by
  rw [updateTuple, TableThread.updateTuple]
  simp only [hc, Bool.not_true, Bool.false_eq_true, if_false, hs]
  rw [interpret_bind, interpret_lock]
  refine bind_congr fun granted => ?_
  cases granted
  case false => rfl
  case true  =>
    simp only [Bool.not_true, Bool.false_eq_true, if_false]
    rw [interpret_bind, interpret_step]
    refine bind_congr fun oldTuple => ?_
    cases oldTuple
    case none          => rfl
    case some oldTuple =>
      simp only
      rw [interpret_bind, interpret_step]
      refine (pure_bind bytes _).trans <| bind_congr fun retRid => ?_
      cases retRid
      case none        => rfl
      case some retRid =>
        by_cases hr : retRid = rid
        case pos =>
          subst hr
          simp only [ne_eq, not_true_eq_false, if_false]
          rw [interpret_bind, interpret_step]
          rfl
        case neg =>
          simp only [hr, ne_eq, not_false_eq_true, if_true]
          rw [interpret_bind, interpret_lock]
          refine bind_congr fun granted => ?_
          cases granted
          case false => rfl
          case true  =>
            simp only [Bool.not_true, Bool.false_eq_true, if_false]
            rw [interpret_bind, interpret_step]
            rfl

end Table

namespace TableThread

theorem commit_eq : TransactionManager.commit tx = commit.interpret (run others tx) := by
  simp only [commit, interpret_bind]
  rw [interpret_step, interpret_step, interpret_step, interpret_step]
  rfl

theorem toUndoRecord_ofUndoRecord (record : UndoRecord) : (Record.ofUndoRecord record).toUndoRecord = record := by
  cases record <;> rfl

theorem interpret_undoAll (records : List UndoRecord) :
    ((records.map Record.ofUndoRecord).forM fun record => step (.undo record)).interpret (run others tx) =
      records.forM fun record => onHeap record.undo := by
  induction records
  case nil                    => rfl
  case cons record records ih =>
    change (step (.undo (.ofUndoRecord record)) >>= fun _ => (records.map Record.ofUndoRecord).forM _).interpret _ =
      onHeap record.undo >>= fun _ => records.forM _
    rw [interpret_bind, interpret_step, ih, run, toUndoRecord_ofUndoRecord]

theorem abort_eq : TransactionManager.abort UndoRecord.undo tx = abort.interpret (run others tx) := by
  have hundo (undoLog : List UndoRecord) :
      TransactionManager.onDatabase (TransactionManager.undoAll UndoRecord.undo undoLog) =
        ((undoLog.map Record.ofUndoRecord).reverse.forM fun record => step (.undo record)).interpret (run others tx) := by
    rw [←List.map_reverse, interpret_undoAll]
    exact Program.on_forM (·.database) (fun pager (s : Database) => { s with database := pager }) (fun _ => rfl)
      (fun _ _ => rfl) (fun _ _ _ => rfl) UndoRecord.undo undoLog.reverse
  simp only [abort, interpret_bind]
  rw [interpret_step, interpret_step, interpret_step, interpret_step, interpret_step]
  simp only [TransactionManager.abort, hundo]
  rfl

end TableThread
end Duck
