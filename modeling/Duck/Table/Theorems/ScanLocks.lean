import Duck.Table.Table
import Duck.Table.Theorems.Scan
import Duck.Table.Theorems.TableHeap.Map
import Duck.Transaction.Theorems.LockManager.Locked

namespace Duck

namespace Database

variable {others : Database → Database} {s t : Database} {tx : TransactionID} {rid : RID}

end Database

namespace Table.Scan

open Database

variable {others : Database → Database} {s t u : Database} {scan scan' : Table.Scan} {tx : TransactionID} {rid : RID}
variable {tuples : List (RID × List UInt8)} {tuple : Tuple}

-- A scan is on a page of the chain, and these tuples are still to come.
def Reading (scan : Table.Scan) (s : Database) (tuples : List (RID × List UInt8)) : Prop :=
  ∃ pins views ps, scan.heapScan.Reads s.database pins views ps tuples ∧ ∀ q ∈ ps, pinsOn pins q + 1 < 4294967296

-- What the others do while a call waits: they leave its request and its locks to the transaction, and the tuples to
-- come as they are.
structure Undisturbed (others : Database → Database) (scan : Table.Scan) (tx : TransactionID) : Prop where
  waiting : ∀ s, (others s).locks.waiting tx = s.locks.waiting tx
  locked  : ∀ s rid, s.locks.Locked tx rid → (others s).locks.Locked tx rid
  reading : ∀ s tuples, scan.Reading s tuples → scan.Reading (others s) tuples

-- The pages of the call are granted, and the tuple has the columns of the schema.
structure Readable (scan : Table.Scan) (s : Database) (tuples : List (RID × List UInt8)) : Prop where
  granted : ∀ result p, scan.heapScan.next s.database = some (result, p) → p.denied = false
  decoded : ∀ rid bytes, tuples.head? = some (rid, bytes) → ∃ tuple, Tuple.deserialize bytes scan.table.schema = .ok tuple

-- A table with one column of booleans, whose first page is the first of a new file.
def flags : Table where
  heap   := ⟨1⟩
  schema := ⟨[{ name := [], type := .bool, length := 0 }]⟩

end Table.Scan
end Duck
