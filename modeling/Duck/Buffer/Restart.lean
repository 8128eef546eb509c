import Duck.Buffer.PoolManager
import Duck.Storage.DiskSession

namespace Duck.PoolManager

-- The destructors of the pool and of the disk manager, and their constructors on the file that is left. A write that
-- fails in a destructor ends the program.
def reopened (m : PoolManager) (poolCapacity : ℕ) : Except String PoolManager :=
  match m.flushAll with
  | (.error e, _) => .error e
  | (.ok (), m)   => (DiskSession.reopened m.disk).map (.create · poolCapacity)

end Duck.PoolManager
