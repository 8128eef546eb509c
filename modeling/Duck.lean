import Duck.Buffer.Theorems.Concurrent.DoubleFetch
import Duck.Buffer.Theorems.PinnedPage
import Duck.Buffer.Theorems.PoolManager.PinOverflow
import Duck.Catalog.Theorems.Queries
import Duck.Expression.Theorems.Logic
import Duck.Expression.Theorems.Numeric
import Duck.Table.Theorems.Isolation.DirtyReads
import Duck.Table.Theorems.Readers
import Duck.Table.Theorems.ScanLocks
import Duck.Table.Theorems.ScanThreads
import Duck.Table.Theorems.SlottedPage.Exact
import Duck.Table.Theorems.Threads
import Duck.Transaction.Theorems.LockManager.TwoPhase
import Duck.Transaction.Theorems.TransactionManager
import Duck.Tuple.Theorems.EmptyChar
import Duck.Tuple.Theorems.SchemaReader
import Duck.Tuple.Theorems.ValueLimits
