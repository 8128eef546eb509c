import Duck.Buffer.Theorems.PoolManager.Refinement

open Runs

namespace Duck

namespace PageMap

variable {m m' : PageMap}

theorem fetches (h : Steps Step m (List.replicate n (.fetchPage p data)) m') : m' = m := by
  induction n generalizing m
  case zero      =>
    cases h
    rfl
  case succ n hi =>
    cases h
    case step e h =>
      cases e
      all_goals exact hi h

end PageMap

namespace Session

variable {s : Session}

-- A client that fetches one page over and over moves its pin count alone.
theorem fetches (hp : p ∈ s.owned) (hw : s.pool.WellFormed) (ht : s.pool.pageTable p = some f)
    (hd : (s.pool.frames f).data = data) (hc : s.pool.disk.capacity < invalidPageID) (n : ℕ) :
    ∃ t, Steps RoomyStep s (List.replicate n (.fetchPage p (some data))) t ∧ t.pool.WellFormed ∧
      ∃ r, t.pool = { s.pool with
        frames   := Function.update s.pool.frames f { s.pool.frames f with
          pinCount := (s.pool.frames f).pinCount + .ofNat n }
        replacer := r } := by
  induction n generalizing s
  case zero      =>
    refine ⟨s, .refl, hw, s.pool.replacer, ?_⟩
    simp
  case succ n hi =>
    have hx : s.pool.fetchPage p = (.ok (some f), s.pool.pinned p f) := by
      rw [PoolManager.fetchPage, PoolManager.findCachedPage_hit ht]
    have hs : (s.pool.pinned p f).frames f = (s.pool.frames f).incPinCount :=
      PoolManager.setFrame_frames_same
    have e := Step.fetchPage hp hx
    rw [hs, Page.incPinCount, hd] at e
    obtain ⟨t, h, hw, r, hr⟩ := hi (s := ⟨s.pool.pinned p f, s.owned, ⟨p, f, false⟩ :: s.pins⟩) hp
      (hw.pinned ht) ht (by rw [hs, ←hd]; rfl) hc
    refine ⟨t, .step ⟨e, hc⟩ h, hw, r, hr.trans ?_⟩
    have hn : (s.pool.frames f).pinCount + 1 + .ofNat n = (s.pool.frames f).pinCount + .ofNat (n + 1) := by
      rw [UInt32.ofNat_add, UInt32.add_assoc, UInt32.add_comm 1]
      rfl
    simp only [PoolManager.pinned, PoolManager.setFrame, Function.update_self, Page.incPinCount,
      Function.update_idem, hn]

end Session

namespace PoolManager

variable {m : PoolManager}

-- A full pool whose only page is unpinned takes the frame of the page.
theorem WellFormed.findNextFrame_evicts (hw : m.WellFormed) (hf : m.freeFrames = []) (hs : m.poolSize = 1)
    (hc : m.poolCapacity = 1) (ht : m.pageTable p = some 0) (hz : (m.frames 0).pinCount = 0) :
    m.findNextFrame = (0, m) := by
  have hl : m.replacer.findLru m.frames m.pageTable ≠ invalidPageID := by
    intro hi
    refine BufferReplacer.findLru_invalid hi (fun h => ?_) (hw.tracks.mpr ⟨0, ht⟩) ht hz
    have ⟨_, h⟩ := hw.tracks.mp h
    exact ne_invalid (hw.table_valid h)
  have ⟨_, f, ht, _⟩ := BufferReplacer.findLru_spec rfl hl
  have h0 : f = 0 := Nat.lt_one_iff.mp <| hs ▸ hw.table_lt ht
  simp only [PoolManager.findNextFrame, hf, List.getLast?_nil, hs, hc, lt_irrefl, if_false, ne_eq, hl,
    not_false_eq_true, if_true, ht, Option.getD_some, h0]

-- A new page then drops a clean page from the pool, and the file stays as it is.
theorem WellFormed.newPage_evicts (hw : m.WellFormed) (hf : m.freeFrames = []) (hs : m.poolSize = 1)
    (hc : m.poolCapacity = 1) (ht : m.pageTable p = some 0) (hz : (m.frames 0).pinCount = 0)
    (hd : (m.frames 0).isDirty = false) (hl : m.disk.freeList = []) (hr : m.disk.capacity < invalidPageID)
    (hp : p ≠ m.disk.capacity) :
    ∃ m', m.newPage = (.ok (some 0), m') ∧ m'.frames 0 = ⟨m.disk.capacity, .zero, 1, false⟩ ∧
      m'.pageTable p = none ∧ m'.disk = { m.disk with capacity := m.disk.capacity + 1 } := by
  have hv := hw.table_page ht
  have hi : p ≠ invalidPageID := ne_invalid (hw.table_valid ht)
  have hw := hw.setDisk (d := { m.disk with capacity := m.disk.capacity + 1 }) <|
    (DiskManager.toNat_succ hr).symm ▸ Nat.le_succ _
  have hn := hw.findNextFrame_evicts hf hs hc ht hz
  have ha : m.disk.allocatePage = (m.disk.capacity, { m.disk with capacity := m.disk.capacity + 1 }) := by
    rw [DiskManager.allocatePage, List.getLast?_eq_none_iff.mpr hl]
  simp only [PoolManager.newPage, ha, PoolManager.swapPage, PoolManager.swapFrame, hn, hd, hv, ne_eq, hi,
    not_false_eq_true, if_true]
  refine ⟨_, rfl, setFrame_frames_same, ?_, rfl⟩
  exact (Function.update_of_ne hp ..).trans <| Function.update_self ..

end PoolManager

namespace Session

open PoolManager

theorem write_only {m : PoolManager} : Step ⟨m, ps, [⟨p, f, true⟩]⟩ (.write p data)
    ⟨m.setFrame f { m.frames f with data := data }, ps, [⟨p, f, true⟩]⟩ :=
  .write (show _ = [] ++ (⟨p, f, true⟩ : Pin) :: [] from rfl)

-- A pool of one frame, once its first page has been written to.
theorem written_run (data : PageData) : ∃ s,
    Steps RoomyStep (start (.fresh .empty) 1) [.newPage (some (1, .zero)), .write 1 data] s ∧
      s.pool.WellFormed ∧ 1 ∈ s.owned ∧ s.pool.pageTable 1 = some 0 ∧
      s.pool.frames 0 = ⟨1, data, 1, false⟩ ∧ s.pool.freeFrames = [] ∧ s.pool.poolSize = 1 ∧
      s.pool.poolCapacity = 1 ∧ s.pool.disk = { DiskManager.fresh .empty with capacity := 2 } := by
  obtain ⟨m, h, hf, ht, hm⟩ : ∃ m, (PoolManager.create (.fresh .empty) 1).newPage = (.ok (some 0), m) ∧
      m.frames 0 = ⟨1, .zero, 1, false⟩ ∧ m.pageTable 1 = some 0 ∧ m.freeFrames = [] ∧ m.poolSize = 1 ∧
      m.poolCapacity = 1 ∧ m.disk = { DiskManager.fresh .empty with capacity := 2 } :=
    ⟨_, rfl, rfl, rfl, rfl, rfl, rfl, rfl⟩
  have hr : m.disk.capacity < invalidPageID := by
    rw [hm.2.2.2]
    decide
  have hs : Models (start (.fresh .empty) 1) .empty :=
    .start DiskManager.fresh_wellFormed DiskManager.fresh_failing (by decide)
  have ⟨p, _, _, hw⟩ := hs.newPage h
  have e : Step (start (.fresh .empty) 1) _ _ := .newPage h
  rw [hf] at e
  have hf' : (m.setFrame 0 { m.frames 0 with data := data }).frames 0 = { m.frames 0 with data := data } :=
    PoolManager.setFrame_frames_same
  refine ⟨⟨m.setFrame 0 { m.frames 0 with data := data }, [1], [⟨1, 0, true⟩]⟩,
    .step ⟨e, hr⟩ <| .single ⟨write_only, hr⟩, ?_, List.mem_cons_self, ht, ?_, hm⟩
  · exact (hw hr).accounts.pool.setFrame ht (by rw [hf])
  · rw [hf', hf]

-- With 2 ^ 32 pins on a page its pin count is zero, and what its client wrote goes with the frame.
theorem not_refines_pageMap : ¬RefinesPageMap RoomyStep := by
  intro h
  let data : PageData := .ofMemory fun _ => 1
  have ⟨s₁, h₁, hw, hp, ht, hf, hff, hs, hc, hd⟩ := written_run data
  have ⟨s₂, h₂, hw₂, r, hr⟩ := fetches hp hw ht (congrArg Page.data hf) (by rw [hd]; decide) 4294967295
  have hf₂ : s₂.pool.frames 0 = ⟨1, data, 0, false⟩ := by
    rw [hr]
    simp only [Function.update_self, hf]
    rfl
  obtain ⟨m, hn, hfm, htm, hdm⟩ := hw₂.newPage_evicts (by rw [hr, hff]) (by rw [hr, hs]) (by rw [hr, hc])
    (by rw [hr, ht]) (by rw [hf₂]) (by rw [hf₂]) (by rw [hr, hd]; rfl) (by rw [hr, hd]; decide)
    (by rw [hr, hd]; decide)
  have e := Step.newPage hn
  have hr₂ : s₂.pool.disk.capacity = 2 := by rw [hr, hd]
  rw [hfm, hr₂] at e
  have hm : m.disk.capacity < invalidPageID := by
    rw [hdm, hr₂]
    exact (by decide : (2 + 1 : PageID) < invalidPageID)
  have hrun := (h₁.trans h₂).trans <| .single ⟨e, hm⟩
  have ⟨⟨map, hmap, _, hb⟩, _⟩ :=
    h _ 1 _ _ DiskManager.fresh_wellFormed DiskManager.fresh_failing (by decide) le_rfl hrun
  have ⟨map₂, hmap, hlast⟩ := hmap.of_append
  have ⟨map₁, hfirst, hmap⟩ := hmap.of_append
  obtain rfl := PageMap.fetches hmap
  have h1 : map 1 = some data := by
    cases hlast
    case step e hlast =>
      cases hlast
      cases e
      cases hfirst
      case step e hfirst =>
        cases hfirst
        case step e hfirst =>
          cases hfirst
          cases e
          rfl
  have hf : m.disk.file = (DiskManager.fresh .empty).file := by rw [hdm, hr, hd]
  have hb := hb 1 data h1
  rw [PoolManager.bytesOf_stored htm, DiskManager.stored_of_file hf,
    DiskManager.stored_fresh (by decide)] at hb
  have hb := congrArg (PageData.bytes · 0) hb
  exact absurd hb (by decide)

end Session
end Duck
