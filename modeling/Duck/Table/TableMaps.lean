import Duck.Table.HeapMap
import Duck.Lib.Undo
import Duck.Transaction.Undo

namespace Duck

-- What a database is meant to be: a map for each heap.
abbrev TableMaps := TableHeap → HeapMap

namespace TableMaps

variable {maps : TableMaps} {h : TableHeap} {rid rid' : RID} {bytes : List UInt8}

def set (maps : TableMaps) (h : TableHeap) (rid : RID) (tuple : Option (List UInt8)) : TableMaps :=
  Function.update maps h (Function.update (maps h) rid tuple)

@[simp]
theorem set_self : maps.set h rid tuple h rid = tuple := by
  simp [set]

@[simp]
theorem set_set : (maps.set h rid tuple).set h rid tuple' = maps.set h rid tuple' := by
  simp [set]

theorem set_eq_self (hm : maps h rid = tuple) : maps.set h rid tuple = maps := by
  simp [set, ←hm]

theorem set_update : (maps.set h rid tuple).set h rid' tuple' =
    Function.update maps h (Function.update (Function.update (maps h) rid tuple) rid' tuple') := by
  simp [set]

theorem set_of_ne (hr : rid' ≠ rid) : maps.set h rid tuple h rid' = maps h rid' := by
  simp [set, hr]

end TableMaps

-- What a record is meant to do. A tuple is only restored where there is none.
def UndoRecord.onMaps : UndoRecord → TableMaps → Option TableMaps
  | delete h rid,        maps => some (maps.set h rid none)
  | restore h rid tuple, maps => if maps h rid = none then some (maps.set h rid (some tuple)) else none

namespace TableMaps

variable {maps maps₀ : TableMaps} {h : TableHeap} {rid rid' : RID} {bytes old : List UInt8} {log : List UndoRecord}

abbrev Covered (maps₀ : TableMaps) (log : List UndoRecord) (maps : TableMaps) : Prop :=
  Undo.Covers UndoRecord.onMaps maps₀ log maps

theorem Covered.insert (bytes : List UInt8) (hc : maps₀.Covered log maps) (hf : maps h rid = none) :
    maps₀.Covered (log ++ [.delete h rid]) (maps.set h rid (some bytes)) :=
  hc.push <| by rw [UndoRecord.onMaps, set_set, set_eq_self hf]

theorem Covered.delete (hc : maps₀.Covered log maps) (hb : maps h rid = some bytes) :
    maps₀.Covered (log ++ [.restore h rid bytes]) (maps.set h rid none) :=
  hc.push <| by rw [UndoRecord.onMaps, if_pos set_self, set_set, set_eq_self hb]

-- An update takes the tuple away, and puts the new one where it was or where there is none.
theorem Covered.update (hc : maps₀.Covered log maps) (hb : maps h rid = some old) (hf : rid' = rid ∨ maps h rid' = none) :
    maps₀.Covered (log ++ [.restore h rid old, .delete h rid']) ((maps.set h rid none).set h rid' (some bytes)) := by
  have hd : (maps.set h rid none) h rid' = none := by
    obtain rfl | hf := hf
    · exact set_self
    · by_cases hr : rid' = rid
      case pos => exact hr ▸ set_self
      case neg => rwa [set_of_ne hr]
  have hu := (hc.delete hb).insert bytes hd
  rwa [List.append_assoc] at hu

end TableMaps
end Duck
