import Duck.Buffer.Replacer

namespace Duck.BufferReplacer

-- The index and the list agree.
structure WellFormed (r : BufferReplacer) : Prop where
  pos     : ∀ {p node}, r.positions p = some node ↔ (node, p) ∈ r.mruPages
  node_lt : ∀ {p node}, (node, p) ∈ r.mruPages → node < r.nextNode
  inj     : ∀ {p q node}, (node, p) ∈ r.mruPages → (node, q) ∈ r.mruPages → p = q

variable {r : BufferReplacer} {p q : PageID}

-- The replacer keeps track of the page.
def Tracks (r : BufferReplacer) (pageId : PageID) : Prop :=
  ∃ node, (node, pageId) ∈ r.mruPages

theorem empty_wellFormed : empty.WellFormed where
  pos     := by simp [empty]
  node_lt := nofun
  inj     := nofun

theorem empty_tracks : ¬empty.Tracks p :=
  nofun

theorem WellFormed.mem_remove (hw : r.WellFormed) :
    (node, q) ∈ (r.remove p).mruPages ↔ (node, q) ∈ r.mruPages ∧ q ≠ p := by
  simp only [remove]
  split
  case h_1 n h =>
    have hm := hw.pos.mp h
    simp only [List.mem_filter, decide_not, Bool.not_eq_true', decide_eq_false_iff_not]
    refine and_congr_right fun hq => not_congr ⟨fun he => ?_, fun he => ?_⟩
    · exact hw.inj (he ▸ hq) hm
    · subst he
      exact Option.some.inj <| (hw.pos.mpr hq).symm.trans h
  case h_2 h =>
    refine (and_iff_left_of_imp fun hq he => ?_).symm
    exact nomatch (hw.pos.mpr (he ▸ hq)).symm.trans h

theorem remove_nextNode : (r.remove p).nextNode = r.nextNode := by
  simp only [remove]
  split <;> rfl

theorem remove_positions : (r.remove p).positions = Function.update r.positions p none := by
  simp only [remove]
  split
  case h_1 => rfl
  case h_2 h => rw [←h, Function.update_eq_self]

theorem WellFormed.remove (hw : r.WellFormed) : (r.remove p).WellFormed where
  pos {q node} := by
    rw [hw.mem_remove, remove_positions]
    by_cases h : q = p
    case pos => simp [h]
    case neg => simp [h, hw.pos]
  node_lt h := by
    rw [remove_nextNode]
    exact hw.node_lt (hw.mem_remove.mp h).1
  inj h h'  := hw.inj (hw.mem_remove.mp h).1 (hw.mem_remove.mp h').1

theorem WellFormed.tracks_remove (hw : r.WellFormed) : (r.remove p).Tracks q ↔ r.Tracks q ∧ q ≠ p := by
  simp only [Tracks, hw.mem_remove, exists_and_right]

theorem mem_record : (node, q) ∈ (r.record p).mruPages ↔
    (node, q) ∈ (r.remove p).mruPages ∨ node = r.nextNode ∧ q = p := by
  simp [record, remove_nextNode]

theorem WellFormed.record (hw : r.WellFormed) : (r.record p).WellFormed where
  pos {q node} := by
    rw [mem_record, hw.mem_remove]
    simp only [BufferReplacer.record, remove_nextNode, remove_positions]
    by_cases h : q = p
    case pos => simp [h, eq_comm]
    case neg => simp [h, hw.pos]
  node_lt h := by
    simp only [BufferReplacer.record, remove_nextNode]
    obtain h | ⟨rfl, rfl⟩ := mem_record.mp h
    · exact Nat.lt_succ_of_lt <| hw.node_lt (hw.mem_remove.mp h).1
    · exact Nat.lt_succ_self _
  inj h h' := by
    obtain h | ⟨hn, rfl⟩ := mem_record.mp h <;> obtain h' | ⟨hn', rfl⟩ := mem_record.mp h'
    · exact hw.inj (hw.mem_remove.mp h).1 (hw.mem_remove.mp h').1
    · exact absurd (hw.node_lt (hw.mem_remove.mp h).1) (hn' ▸ Nat.lt_irrefl _)
    · exact absurd (hw.node_lt (hw.mem_remove.mp h').1) (hn ▸ Nat.lt_irrefl _)
    · rfl

theorem WellFormed.tracks_record (hw : r.WellFormed) : (r.record p).Tracks q ↔ r.Tracks q ∨ q = p := by
  simp only [Tracks, mem_record, hw.mem_remove]
  constructor
  · rintro ⟨node, ⟨h, _⟩ | ⟨_, h⟩⟩
    · exact .inl ⟨node, h⟩
    · exact .inr h
  · rintro (⟨node, h⟩ | rfl)
    · by_cases he : q = p
      · exact ⟨r.nextNode, .inr ⟨rfl, he⟩⟩
      · exact ⟨node, .inl ⟨h, he⟩⟩
    · exact ⟨r.nextNode, .inr ⟨rfl, rfl⟩⟩

section findLru

variable {frames : FrameID → Page} {pageTable : PageID → Option FrameID}

-- What `find_lru` names is a page in an unpinned frame.
theorem findLru_spec (h : r.findLru frames pageTable = p) (hp : p ≠ invalidPageID) :
    r.Tracks p ∧ ∃ frameId, pageTable p = some frameId ∧ (frames frameId).pinCount = 0 := by
  simp only [findLru] at h
  generalize hf : (r.mruPages.find? _) = found at h
  cases found
  case none => exact absurd h.symm hp
  case some x =>
    obtain rfl : x.2 = p := h
    have hm := List.mem_of_find?_eq_some hf
    have hu := List.find?_some hf
    simp only [Option.any_eq_true, decide_eq_true_eq] at hu
    exact ⟨⟨x.1, hm⟩, hu⟩

theorem findLru_invalid (h : r.findLru frames pageTable = invalidPageID)
    (hv : ∀ {p}, r.Tracks p → p ≠ invalidPageID) (ht : r.Tracks p) (hf : pageTable p = some frameId) :
    (frames frameId).pinCount ≠ 0 := by
  intro hz
  simp only [findLru] at h
  generalize hx : (r.mruPages.find? _) = found at h
  have ⟨node, hm⟩ := ht
  cases found
  case none =>
    have := List.find?_eq_none.mp hx _ hm
    simp [hf, hz] at this
  case some x => exact hv ⟨x.1, List.mem_of_find?_eq_some hx⟩ h

end findLru

end Duck.BufferReplacer
