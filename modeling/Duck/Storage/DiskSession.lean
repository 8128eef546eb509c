import Duck.Lib.Runs
import Duck.Storage.DiskManager

namespace Duck

-- A disk manager with the ids that it has handed out and not taken back yet.
structure DiskSession where
  disk  : DiskManager
  owned : List PageID

namespace DiskSession

inductive Event where
  | allocate   (pageId : PageID)
  | deallocate (pageId : PageID)
  | write      (pageId : PageID) (data : PageData)
  | flush
  | reopen

-- The destructor, and the constructor on the file that it leaves.
def reopened (d : DiskManager) : Except String DiskManager :=
  DiskManager.openFile d.flushAll.file

inductive Step (s : DiskSession) : Event → DiskSession → Prop
  | allocate   :
    Step s (.allocate s.disk.allocatePage.1) ⟨s.disk.allocatePage.2, s.disk.allocatePage.1 :: s.owned⟩
  | deallocate :
    (p ∈ s.owned) → (p ≠ kDiskMetadataPageID) → (s.disk.deallocatePage p = .ok d) →
    Step s (.deallocate p) ⟨d, s.owned.filter (· ≠ p)⟩
  | write      :
    (s.disk.writePage p data = .ok d) → Step s (.write p data) { s with disk := d }
  | flush      :
    Step s .flush { s with disk := s.disk.flushAll }
  | reopen     :
    (reopened s.disk = .ok d) → Step s .reopen { s with disk := d }

-- The session on a new file.
def Fresh (s : DiskSession) : Prop :=
  DiskManager.openFile .empty = .ok s.disk ∧ s.owned = []

end DiskSession
end Duck
