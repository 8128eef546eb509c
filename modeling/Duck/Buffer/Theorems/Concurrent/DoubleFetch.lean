import Duck.Buffer.Theorems.Concurrent.Invariant

open Runs

namespace Duck.Concurrent

-- Page 3 puts page 1 out of the pool of two frames. Two clients then miss page 1, and each of them
-- takes a frame for it.
theorem not_one_frame_per_page : ¬OneFramePerPage Step := by
  intro h
  have r : Reachable (· = start (.fresh .empty) 2) Step _ := .start rfl
  have r := (r.next .allocatePage).next <| newSwap_only (p := 1) (f := 0) rfl rfl
  have r := r.next <| unpin_first false rfl
  have r := (r.next .allocatePage).next <| newSwap_only (p := 2) (f := 1) rfl rfl
  have r := r.next <| unpin_first false rfl
  have r := (r.next .allocatePage).next <| newSwap_only (p := 3) (f := 0) rfl rfl
  have r := r.next <| unpin_first false rfl
  have r := r.next <| .miss (p := 1) (by decide) rfl
  have r := r.next <| .miss (p := 1) (by decide) rfl
  have r := r.next <| fetchSwap_first (p := 1) (f := 1) rfl (by decide) rfl
  have r := r.next <| fetchSwap_first (p := 1) (f := 0) rfl (by decide) rfl
  have hu := (h _ 2 _ DiskManager.fresh_wellFormed (by decide) r).1.unique 0 1 (by decide) rfl
  exact absurd hu (by decide)

end Duck.Concurrent
