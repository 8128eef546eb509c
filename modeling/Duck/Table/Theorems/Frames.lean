import Duck.Buffer.Theorems.Frames
import Duck.Table.Table

-- No call changes how many frames the pool has.

namespace Duck

open Program Pager

namespace TableHeap

variable {h : TableHeap} {rid : RID} {bytes : List UInt8} {p : PageID} {f : FrameID}

theorem slotted_poolCapacity (f : FrameID) : (slotted f).Preserves (·.pool.poolCapacity) :=
  Preserves.map <| .read _

theorem put_poolCapacity (f : FrameID) (page : SlottedPage) : (put f page).Preserves (·.pool.poolCapacity) :=
  .update fun _ => rfl

theorem initPage_poolCapacity {a : α} : (do
    put f (← slotted f).init
    return (a, true) : PagerM (α × Bool)).Preserves (·.pool.poolCapacity) :=
  (slotted_poolCapacity f).bind fun _ => (put_poolCapacity f _).bind fun _ => .pure _

theorem create_poolCapacity : create.Preserves (·.pool.poolCapacity) := by
  refine newPage_poolCapacity.bind ?_
  rintro (_ | f)
  · exact .throw _
  · refine pinned_poolCapacity <| (slotted_poolCapacity f).bind fun _ => ?_
    exact (put_poolCapacity f _).bind fun _ => (Preserves.read _).bind fun _ => .pure _

theorem appendPage_poolCapacity (f : FrameID) : (appendPage f).Preserves (·.pool.poolCapacity) := by
  refine newPage_poolCapacity.bind ?_
  rintro (_ | g)
  · exact .throw _
  · refine (pinned_poolCapacity initPage_poolCapacity).bind fun _ => (slotted_poolCapacity f).bind fun page => ?_
    split
    · exact (Preserves.read _).bind fun _ => (put_poolCapacity f _).bind fun _ => .pure _
    · exact (Preserves.read _).bind fun _ => (deletePage_poolCapacity _).map.bind fun _ => .pure _

theorem visitPage_poolCapacity {created : Bool} : (visitPage f bytes created).Preserves (·.pool.poolCapacity) := by
  refine pinned_poolCapacity <| (slotted_poolCapacity f).bind fun page => ?_
  obtain ⟨_ | rid, page⟩ := tryInsert page bytes
  · refine (put_poolCapacity f _).bind fun _ => ?_
    dsimp only
    split
    · exact .pure _
    · split
      · exact .throw _
      · exact (appendPage_poolCapacity f).bind fun _ => .pure _
  · exact (put_poolCapacity f _).bind fun _ => (Preserves.read _).bind fun _ => .pure _

theorem insertTuple_poolCapacity : (h.insertTuple bytes).Preserves (·.pool.poolCapacity) := by
  rw [insertTuple]
  split
  · exact .throw _
  · refine .loop (fun a => ?_) _
    refine (fetchPage_poolCapacity _).bind ?_
    rintro (_ | f)
    · exact .pure _
    · refine visitPage_poolCapacity.bind ?_
      rintro (_ | _)
      · exact .pure _
      · exact .pure _

theorem onPage_poolCapacity {body : PageID → SlottedPage → α × SlottedPage × Bool} :
    (onPage p missing body).Preserves (·.pool.poolCapacity) := by
  refine (fetchPage_poolCapacity p).bind ?_
  rintro (_ | f)
  · exact .pure _
  · refine pinned_poolCapacity <| (Preserves.read _).bind fun id => (slotted_poolCapacity f).bind fun page => ?_
    exact (put_poolCapacity f _).bind fun _ => .pure _

theorem updateTuple_poolCapacity : (h.updateTuple rid bytes).Preserves (·.pool.poolCapacity) := by
  refine onPage_poolCapacity.bind ?_
  rintro (_ | _)
  · exact insertTuple_poolCapacity
  · exact .pure _

theorem allPages_poolCapacity : h.allPages.Preserves (·.pool.poolCapacity) := by
  refine .loop (fun a => (fetchPage_poolCapacity _).bind ?_) _
  rintro (_ | f)
  · exact .pure _
  · refine (pinned_poolCapacity <| (slotted_poolCapacity f).bind fun _ => .pure _).bind fun next => ?_
    dsimp only
    split
    · exact .pure _
    · exact .pure _

theorem Scan.next_poolCapacity (scan : Scan) : scan.next.Preserves (·.pool.poolCapacity) := by
  refine .loop (fun scan => ?_) scan
  split
  · exact .pure _
  · refine (slotted_poolCapacity _).bind fun page => ?_
    dsimp only
    split
    · refine Preserves.bind ?_ ?_
      · rw [nextPage]
        split
        · exact .pure _
        · refine (slotted_poolCapacity _).bind fun page => ?_
          split
          · exact .pure _
          · refine (Preserves.update fun _ => unpin_poolCapacity).bind fun _ => (fetchPage_poolCapacity _).bind ?_
            rintro (_ | g)
            · exact .pure _
            · exact (Preserves.read _).bind fun _ => .pure _
      · rintro ⟨_ | _, scan⟩
        · exact .pure _
        · exact .pure _
    · exact .pure _

theorem Scan.close_poolCapacity (scan : Scan) : scan.close.Preserves (·.pool.poolCapacity) := by
  rw [close]
  split
  · exact .pure _
  · exact .update fun _ => unpin_poolCapacity

end TableHeap

namespace Database

theorem onHeap_poolCapacity {x : PagerM α} (h : x.Preserves (·.pool.poolCapacity)) :
    (onHeap x).Preserves (·.database.pool.poolCapacity) :=
  h.on (fun _ => rfl) fun _ _ => rfl

variable {tx : Option TransactionID} {rid : RID}

theorem await_poolCapacity {tx : TransactionID} {call : LockManager → Option Bool × LockManager} :
    (await id tx call).Preserves (·.database.pool.poolCapacity) := by
  refine .call fun s => ?_
  split <;> rfl

theorem lockShared_poolCapacity : (lockShared id tx rid).Preserves (·.database.pool.poolCapacity) := by
  unfold lockShared
  split
  · exact .pure _
  · exact await_poolCapacity

theorem lockExclusive_poolCapacity : (lockExclusive id tx rid).Preserves (·.database.pool.poolCapacity) := by
  unfold lockExclusive
  split
  · exact .pure _
  · exact await_poolCapacity

theorem pushUndo_poolCapacity {records : List UndoRecord} : (pushUndo tx records).Preserves (·.database.pool.poolCapacity) := by
  cases tx
  · exact .pure _
  · exact .update fun _ => rfl

end Database

namespace Table

open Database

variable {t : Table} {tuple : Tuple} {tx : Option TransactionID} {rid : RID}

theorem insertTuple_poolCapacity : (t.insertTuple id tuple tx).Preserves (·.database.pool.poolCapacity) := by
  rw [insertTuple]
  split
  · exact .throw _
  · refine (Preserves.ofExcept _).bind fun bytes => (onHeap_poolCapacity TableHeap.insertTuple_poolCapacity).bind ?_
    rintro (_ | rid)
    · exact .pure _
    · refine lockExclusive_poolCapacity.bind fun granted => ?_
      split
      · exact (onHeap_poolCapacity TableHeap.onPage_poolCapacity).map.bind fun _ => .pure _
      · exact pushUndo_poolCapacity.bind fun _ => .pure _

theorem getTuple_poolCapacity : (t.getTuple id rid tx).Preserves (·.database.pool.poolCapacity) := by
  refine lockShared_poolCapacity.bind fun granted => ?_
  split
  · exact .pure _
  · refine (onHeap_poolCapacity TableHeap.onPage_poolCapacity).bind ?_
    rintro (_ | bytes)
    · exact .pure _
    · exact (Preserves.ofExcept _).bind fun _ => .pure _

theorem deleteTuple_poolCapacity : (t.deleteTuple id rid tx).Preserves (·.database.pool.poolCapacity) := by
  refine lockExclusive_poolCapacity.bind fun granted => ?_
  split
  · exact .pure _
  · refine (onHeap_poolCapacity TableHeap.onPage_poolCapacity).bind ?_
    rintro (_ | bytes)
    · exact .pure _
    · refine (onHeap_poolCapacity TableHeap.onPage_poolCapacity).bind fun deleted => ?_
      split
      · exact .pure _
      · exact pushUndo_poolCapacity.bind fun _ => .pure _

theorem updateTuple_poolCapacity : (t.updateTuple id rid tuple tx).Preserves (·.database.pool.poolCapacity) := by
  rw [updateTuple]
  split
  · exact .throw _
  · refine lockExclusive_poolCapacity.bind fun granted => ?_
    split
    · exact .pure _
    · refine (onHeap_poolCapacity TableHeap.onPage_poolCapacity).bind ?_
      rintro (_ | bytes)
      · exact .pure _
      · refine (Preserves.ofExcept _).bind fun bytes => (onHeap_poolCapacity TableHeap.updateTuple_poolCapacity).bind ?_
        rintro (_ | rid')
        · exact .pure _
        · dsimp only
          split
          · refine lockExclusive_poolCapacity.bind fun granted => ?_
            split
            · exact .pure _
            · exact pushUndo_poolCapacity.bind fun _ => .pure _
          · exact pushUndo_poolCapacity.bind fun _ => .pure _

theorem dropPages_poolCapacity : t.dropPages.Preserves (·.pool.poolCapacity) := by
  refine TableHeap.allPages_poolCapacity.bind ?_
  rintro ⟨pageIds, _ | _⟩
  · exact .pure _
  · exact (Preserves.foldlM (fun _ _ => (deletePage_poolCapacity _).bind fun _ => .pure _) _ _).bind fun _ => .pure _

theorem scan_poolCapacity : (t.scan tx).Preserves (·.pool.poolCapacity) :=
  ((fetchPage_poolCapacity _).bind fun _ => .pure _).bind fun _ => .pure _

theorem Scan.next_poolCapacity (scan : Scan) : (scan.next id).Preserves (·.database.pool.poolCapacity) := by
  refine lockShared_poolCapacity.bind fun granted => ?_
  split
  · exact .pure _
  · refine (onHeap_poolCapacity scan.heapScan.next_poolCapacity).bind ?_
    rintro ⟨_ | ⟨rid, bytes⟩, heapScan⟩
    · exact .pure _
    · exact (Preserves.ofExcept _).bind fun _ => .pure _

end Table
end Duck
