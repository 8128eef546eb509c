import Duck.Lib.Runs
import Duck.Table.TableHeap

namespace Duck

inductive HeapOp
  | insert (tupleData : List UInt8)
  | update (rid : RID) (tuple : List UInt8)
  | delete (rid : RID)
  | get (rid : RID)

inductive HeapResult
  | rid (rid : Option RID)
  | deleted (deleted : Bool)
  | tuple (tuple : Option (List UInt8))

def HeapOp.run (h : TableHeap) : HeapOp → PagerM HeapResult
  | insert tupleData => .rid <$> h.insertTuple tupleData
  | update rid tuple => .rid <$> h.updateTuple rid tuple
  | delete rid       => .deleted <$> h.deleteTuple rid
  | get rid          => .tuple <$> h.getTuple rid

-- The map that a heap is meant to be.
abbrev HeapMap := RID → Option (List UInt8)

namespace HeapMap

def empty : HeapMap :=
  fun _ => none

-- A call of the map with its result. A tuple that is updated may change its RID.
inductive Step (m : HeapMap) : HeapOp × HeapResult → HeapMap → Prop
  | insert : (m rid = none) → Step m (.insert bytes, .rid (some rid)) (Function.update m rid (some bytes))
  | dead   : (m rid = none) → Step m (.update rid bytes, .rid none) m
  | update : (m rid ≠ none) → (rid' = rid ∨ m rid' = none) →
    Step m (.update rid bytes, .rid (some rid')) (Function.update (Function.update m rid none) rid' (some bytes))
  | delete : Step m (.delete rid, .deleted (m rid).isSome) (Function.update m rid none)
  | get    : Step m (.get rid, .tuple (m rid)) m

end HeapMap
end Duck
