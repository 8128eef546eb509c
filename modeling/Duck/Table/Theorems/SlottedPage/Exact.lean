import Duck.Table.Theorems.SlottedPage.Reachable
import Duck.Table.Theorems.SlottedPage.Room

namespace Duck.SlottedPage

def liveSlots (p : SlottedPage) : List ℕ :=
  (List.range p.slotCount).filter p.Live

-- The bytes of the live tuples.
def liveLength (p : SlottedPage) : ℕ :=
  (p.liveSlots.map p.slotLength).sum

-- The live tuples follow one another in the order of their slots, from that of slot 0 up to the end of the page.
structure Stacked (p : SlottedPage) : Prop where
  first : p.liveSlots.head? = some 0
  next  : p.liveSlots.IsChain fun i j => p.slotOffset i + p.slotLength i = p.slotOffset j
  last  : ∀ i ∈ p.liveSlots.getLast?, p.slotOffset i + p.slotLength i = kPageSize

-- The layouts of which `is_compacted` says what a compaction would do to the free space.
inductive Agrees (p : SlottedPage) : Prop
  | blank (slots : p.slotCount = 0)
  | tight (stacked : p.Stacked) (free : p.freeSpaceOffset = p.slotOffset 0)
  | holes (slots : p.slotCount ≠ 0) (stacked : ¬p.Stacked) (gain : p.freeSpaceOffset + p.liveLength < kPageSize)

-- The tuples that a compaction leaves stacked: one alone in slot 0, or none that has a byte.
inductive Lone (p : SlottedPage) : Prop
  | blank (slots : p.slotCount = 0)
  | only  (first : p.Live 0) (only : ∀ i, p.Live i → i = 0)
  | empty (first : p.Live 0) (empty : ∀ i, p.Live i → p.slotLength i = 0)

-- A compaction makes all the room there is, leaves nothing to a second one, and an insertion after it succeeds
-- exactly where there is the room.
structure CompactsExactly (p : SlottedPage) : Prop where
  space  : p.compact.freeSpaceBytes = 8184 - 4 * (p.slotCount : ℤ) - p.liveLength
  again  : ∀ a, p.compact.compact.data a = p.compact.data a
  insert : ∀ {bytes pref}, bytes.length ≤ 65535 → ((p.compact.insertTuple bytes pref).1.isSome ↔
    (bytes.length + if ∃ i < p.slotCount, ¬p.Live i then 0 else 4 : ℤ) ≤ p.compact.freeSpaceBytes)

variable {p q : SlottedPage} {i j n : ℕ} {bytes : List UInt8} {pref : Option ℕ}

theorem mem_liveSlots : i ∈ p.liveSlots ↔ p.Live i := by
  simp only [liveSlots, List.mem_filter, List.mem_range, decide_eq_true_eq]
  exact ⟨And.right, fun h => ⟨h.lt, h⟩⟩

theorem liveLength_eq : p.liveLength = p.view.used := by
  have hs {n} : (((List.range n).filter p.Live).map p.slotLength).sum = ∑ i ∈ Finset.range n, p.view.bytesAt i := by
    induction n
    case zero => rfl
    case succ n ih =>
      rw [Finset.sum_range_succ, ←ih, List.range_succ, List.filter_append, List.map_append, List.sum_append]
      by_cases hl : p.Live n
      case pos => simp [hl, bytesAt_of_live]
      case neg => simp [hl, bytesAt_of_not_live]
  exact hs

section exact

theorem compact_freeSpaceBytes_eq (hw : p.WellFormed) :
    p.compact.freeSpaceBytes = 8184 - 4 * (p.slotCount : ℤ) - p.liveLength := by
  have ho := kPageSize_eq ▸ hw.occupied_le
  rw [compact_freeSpaceBytes hw, liveLength_eq, kPageSize_eq]
  simp only [PageView.occupied, view_slotCount] at *
  omega

-- A compacted page is compacted into the same tuples at the same places.
theorem compactSlots_compact (hw : p.WellFormed) (h : n ≤ p.slotCount) :
    p.compact.compactSlots n = p.compactSlots n := by
  induction n
  case zero => rfl
  case succ i ih =>
    have ih := ih (by omega)
    have hi : i < p.slotCount := h
    by_cases hl : p.Live i
    case neg =>
      have hd : p.slotOffset i = invalidSlotOffset := by
        by_contra ho
        exact hl ⟨hi, ho⟩
      have hd' : p.compact.slotOffset i = invalidSlotOffset := by
        by_contra ho
        exact hl <| (compact_live_iff hw).mp ⟨compact_slotCount hw ▸ hi, ho⟩
      simp only [compactSlots, hd, hd', ih, if_true]
    case pos =>
      obtain ⟨ho, hlen⟩ := compact_slot_live hw hl
      have hs := compact_slice hw hl
      have hne := ((compact_live_iff hw).mpr hl).off
      simp only [compactSlots, if_neg hne, if_neg hl.off, ih, hlen]
      rw [ho, hs]

theorem compact_idempotent (hw : p.WellFormed) : p.compact.compact = p.compact := by
  have hc := compact_slotCount hw
  have hfill : p.compact.data.fill 0 kPageSize 0 = p.data.fill 0 kPageSize 0 := by
    funext a
    by_cases ha : a < kPageSize
    case pos => simp [Memory.fill, ha]
    case neg => simp [Memory.fill, ha, (compact_becomes hw).tail a (Nat.not_lt.mp ha)]
  rw [compact, hc, compactSlots_compact hw le_rfl, hfill, compact_nextPage hw]
  rfl

theorem slotCost_eq : p.slotCost pref = if ∃ i < p.slotCount, ¬p.Live i then 0 else 4 := by
  cases hr : p.reusedSlot pref
  case none =>
    have hd : ¬∃ i < p.slotCount, ¬p.Live i := by
      rintro ⟨i, hi, hd⟩
      exact hd (reusedSlot_none hr hi)
    simp only [slotCost, hr, if_true, if_neg hd]
  case some i =>
    obtain ⟨hi, ho⟩ := reusedSlot_some hr
    have hd : ∃ i < p.slotCount, ¬p.Live i := ⟨i, hi, not_live_of_invalid ho⟩
    simp only [slotCost, hr, reduceCtorEq, if_false, if_pos hd]

theorem WellFormed.room_iff (hw : p.WellFormed) : p.Room bytes pref ↔
    (bytes.length + if ∃ i < p.slotCount, ¬p.Live i then 0 else 4 : ℤ) ≤ p.freeSpaceBytes := by
  have hs := hw.slots_fit
  rw [Room, slotCost_eq, hw.freeSpaceBytes_eq]
  split <;> omega

theorem WellFormed.compact_insert (hw : p.WellFormed) (hl : bytes.length ≤ 65535) :
    (p.compact.insertTuple bytes pref).1.isSome ↔
      (bytes.length + if ∃ i < p.slotCount, ¬p.Live i then 0 else 4 : ℤ) ≤ p.compact.freeSpaceBytes := by
  have hc := (compact_becomes hw).wf
  rw [hc.insertTuple_isSome (Nat.lt_succ_of_le hl), hc.room_iff]
  simp only [compact_slotCount hw, compact_live_iff hw]

theorem Reachable.compactsExactly (hr : Reachable p) : p.CompactsExactly where
  space     := compact_freeSpaceBytes_eq hr.wellFormed
  again a   := by rw [compact_idempotent hr.wellFormed]
  insert hl := hr.wellFormed.compact_insert hl

theorem Reachable.compactsExactly_inserted :
    ((SlottedPage.mk fun _ => 7).init.insertTuple [1, 2, 3] none).2.CompactsExactly :=
  Reachable.compactsExactly <| (Reachable.init (.mk fun _ => 7)).step <| @Step.insert _ [1, 2, 3] none (by decide)

end exact

section isCompacted

-- What `is_compacted` finds on the live slots.
def Follows (p : SlottedPage) : ℕ → List ℕ → Prop
  | next, []      => next = kPageSize
  | next, i :: is => p.slotOffset i = next ∧ Follows p (p.slotOffset i + p.slotLength i) is

theorem WellFormed.go_iff (hw : p.WellFormed) {is : List ℕ} {next : ℕ} (hi : ∀ i ∈ is, i < p.slotCount)
    (hn : next < 65536) : isCompacted.go p is next ↔ p.Follows next (is.filter p.Live) := by
  induction is generalizing next
  case nil => simp [isCompacted.go, Follows]
  case cons i is ih =>
    have ih {next} (hn : next < 65536) : isCompacted.go p is next ↔ _ :=
      ih (fun i h => hi i (List.mem_cons_of_mem _ h)) hn
    by_cases hl : p.Live i
    case neg =>
      have hd : p.slotOffset i = invalidSlotOffset := by
        by_contra ho
        exact hl ⟨hi i List.mem_cons_self, ho⟩
      rw [isCompacted.go, if_pos hd, List.filter_cons_of_neg (by simpa using hl)]
      exact ih hn
    case pos =>
      have hle := kPageSize_eq ▸ hw.live_le hl
      rw [isCompacted.go, if_neg hl.off, List.filter_cons_of_pos (by simpa using hl), Follows]
      by_cases ho : next = p.slotOffset i
      case neg => simp [ho, Ne.symm ho]
      case pos =>
        subst ho
        rw [if_neg (not_not.mpr rfl), Nat.mod_eq_of_lt (by omega)]
        simp only [true_and]
        exact ih (by omega)

theorem follows_iff {next : ℕ} {is : List ℕ} : p.Follows next is ↔
    (∀ i ∈ is.head?, p.slotOffset i = next) ∧ (is = [] → next = kPageSize) ∧
      is.IsChain (fun i j => p.slotOffset i + p.slotLength i = p.slotOffset j) ∧
      ∀ i ∈ is.getLast?, p.slotOffset i + p.slotLength i = kPageSize := by
  induction is generalizing next
  case nil => simp [Follows]
  case cons i is ih =>
    rw [Follows, ih]
    cases is
    case nil         => simp
    case cons j rest =>
      simp only [List.head?_cons, Option.mem_def, Option.some.injEq, forall_eq', reduceCtorEq, false_implies, true_and,
        List.isChain_cons_cons, List.getLast?_cons_cons]
      constructor
      · rintro ⟨hi, hj, hchain, hlast⟩
        exact ⟨hi, ⟨hj.symm, hchain⟩, hlast⟩
      · rintro ⟨hi, ⟨hj, hchain⟩, hlast⟩
        exact ⟨hi, hj.symm, hchain, hlast⟩

theorem Follows.sum {next : ℕ} {is : List ℕ} (h : p.Follows next is) : next + (is.map p.slotLength).sum = kPageSize := by
  induction is generalizing next
  case nil => exact h
  case cons i is ih =>
    obtain ⟨rfl, h⟩ := h
    rw [List.map_cons, List.sum_cons, ←Nat.add_assoc]
    exact ih h

theorem liveSlots_head : p.liveSlots.head? = some 0 ↔ p.Live 0 := by
  constructor
  · exact fun h => mem_liveSlots.mp (List.mem_of_head? h)
  · intro h
    obtain ⟨n, hn⟩ := Nat.exists_eq_succ_of_ne_zero (Nat.ne_of_gt h.lt)
    rw [liveSlots, hn, List.range_succ_eq_map, List.filter_cons_of_pos (by simpa using h)]
    rfl

theorem follows_liveSlots (hc : p.slotCount ≠ 0) : p.Follows (p.slotOffset 0) p.liveSlots ↔ p.Stacked := by
  rw [follows_iff]
  constructor
  · rintro ⟨hhead, hempty, hchain, hlast⟩
    have hlive : p.Live 0 := by
      refine ⟨Nat.pos_of_ne_zero hc, ?_⟩
      cases hs : p.liveSlots.head?
      case none =>
        rw [hempty (List.head?_eq_none_iff.mp hs), kPageSize_eq]
        decide
      case some i =>
        rw [←hhead i hs]
        exact (mem_liveSlots.mp (List.mem_of_head? hs)).off
    exact ⟨liveSlots_head.mpr hlive, hchain, hlast⟩
  · intro h
    refine ⟨fun i hi => ?_, fun hn => ?_, h.next, h.last⟩
    · rw [h.first, Option.mem_some] at hi
      rw [hi]
    · have hf := h.first
      rw [hn] at hf
      cases hf

theorem WellFormed.isCompacted_iff (hw : p.WellFormed) : p.isCompacted ↔ p.slotCount = 0 ∨ p.Stacked := by
  have hgo : isCompacted.go p (List.range p.slotCount) (p.slotOffset 0) ↔ _ :=
    hw.go_iff (fun i => List.mem_range.mp) (p.slotOffset_lt 0)
  simp only [isCompacted, Bool.or_eq_true, decide_eq_true_eq]
  exact or_congr_right' fun hc => hgo.trans <| follows_liveSlots hc

theorem Stacked.live (h : p.Stacked) : p.Live 0 :=
  liveSlots_head.mp h.first

-- Stacked tuples leave no byte between them.
theorem Stacked.sum (h : p.Stacked) : p.slotOffset 0 + p.liveLength = kPageSize :=
  ((follows_liveSlots (Nat.ne_of_gt h.live.lt)).mpr h).sum

theorem WellFormed.compact_gains (hw : p.WellFormed) :
    p.compact.freeSpaceBytes ≤ p.freeSpaceBytes ↔ kPageSize ≤ p.freeSpaceOffset + p.liveLength := by
  have hs := hw.slots_fit
  have hf := hw.free_le
  rw [compact_freeSpaceBytes_eq hw, hw.freeSpaceBytes_eq]
  simp only [kPageSize_eq] at *
  omega

theorem WellFormed.agrees_iff (hw : p.WellFormed) (hb : p.slotCount = 0 → p.freeSpaceOffset = kPageSize) :
    (p.isCompacted ↔ p.compact.freeSpaceBytes ≤ p.freeSpaceBytes) ↔ p.Agrees := by
  rw [hw.isCompacted_iff, hw.compact_gains]
  by_cases hc : p.slotCount = 0
  case pos =>
    have hf := hb hc
    exact ⟨fun _ => .blank hc, fun _ => ⟨fun _ => by omega, fun _ => .inl hc⟩⟩
  case neg =>
    by_cases hs : p.Stacked
    case pos =>
      have hsum := hs.sum
      have hge := hw.live_ge hs.live
      constructor
      · intro h
        have hle := h.mp (.inr hs)
        exact .tight hs (by omega)
      · rintro (h | ⟨-, hf⟩ | ⟨-, h, -⟩)
        · exact absurd h hc
        · exact ⟨fun _ => by omega, fun _ => .inr hs⟩
        · exact absurd hs h
    case neg =>
      have hn : ¬(p.slotCount = 0 ∨ p.Stacked) := not_or.mpr ⟨hc, hs⟩
      constructor
      · intro h
        exact .holes hc hs (Nat.not_le.mp fun hle => hn (h.mpr hle))
      · rintro (h | ⟨h, -⟩ | ⟨-, -, hg⟩)
        · exact absurd h hc
        · exact absurd h hs
        · exact ⟨fun h => absurd h hn, fun hle => absurd hg (Nat.not_lt.mpr hle)⟩

end isCompacted

section lone

theorem compact_liveSlots (hw : p.WellFormed) : p.compact.liveSlots = p.liveSlots := by
  rw [liveSlots, liveSlots, compact_slotCount hw]
  exact List.filter_congr fun i _ => decide_eq_decide.mpr (compact_live_iff hw)

theorem compact_liveLength (hw : p.WellFormed) : p.compact.liveLength = p.liveLength := by
  rw [liveLength_eq, liveLength_eq, (compact_becomes hw).view]

-- The tuples are put one below the other, in the order of their slots.
theorem compact_offset_le (hw : p.WellFormed) (hi : p.Live i) (hj : p.Live j) (h : i < j) :
    p.compact.slotOffset j + p.slotLength j ≤ p.compact.slotOffset i := by
  have hle := hw.liveBytes_le_of_live hj
  have hs := liveBytes_of_live hj
  have hm := liveBytes_lt (p := p) h
  rw [(compact_slot_live hw hi).1, (compact_slot_live hw hj).1, compactOffset, compactOffset, kPageSize_eq]
  omega

theorem Lone.stacked (hw : p.WellFormed) (h : p.Lone) : p.slotCount = 0 ∨ p.compact.Stacked := by
  have hlen {i} (hi : p.Live i) := (compact_slot_live hw hi).2
  have hfirst (hl : p.Live 0) : p.compact.slotOffset 0 + p.slotLength 0 = kPageSize := by
    have hle := hw.liveBytes_le_of_live hl
    have hs := liveBytes_of_live hl
    have hz : p.liveBytes 0 = 0 := rfl
    rw [(compact_slot_live hw hl).1, compactOffset, kPageSize_eq]
    omega
  cases h
  case blank h => exact .inl h
  case only hl h =>
    have hlist : p.liveSlots = [0] := by
      obtain ⟨is, hs⟩ := List.head?_eq_some_iff.mp (liveSlots_head.mpr hl)
      have hn : p.liveSlots.Nodup := List.nodup_range.filter _
      rw [hs] at hn
      obtain rfl : is = [] := List.eq_nil_iff_forall_not_mem.mpr fun i hi => by
        have hi' : i = 0 := h i (mem_liveSlots.mp (hs ▸ List.mem_cons_of_mem _ hi))
        exact (List.nodup_cons.mp hn).1 (hi' ▸ hi)
      exact hs
    refine .inr ⟨?_, ?_, ?_⟩
    · rw [compact_liveSlots hw, hlist]
      rfl
    · rw [compact_liveSlots hw, hlist]
      exact .singleton 0
    · rw [compact_liveSlots hw, hlist]
      intro i hi
      obtain rfl : 0 = i := by simpa using hi
      rw [hlen hl]
      exact hfirst hl
  case empty hl h =>
    have hoff {i} (hi : p.Live i) : p.compact.slotOffset i = kPageSize := by
      have hz : p.liveBytes (i + 1) = 0 := by
        refine Finset.sum_eq_zero fun j _ => ?_
        by_cases hj : p.Live j
        case pos => rw [bytesAt_of_live hj, h j hj]
        case neg => exact bytesAt_of_not_live hj
      rw [(compact_slot_live hw hi).1, compactOffset, hz, Nat.sub_zero]
    refine .inr ⟨?_, ?_, ?_⟩
    · rw [compact_liveSlots hw]
      exact liveSlots_head.mpr hl
    · rw [compact_liveSlots hw]
      refine List.Pairwise.isChain <| List.pairwise_of_forall_mem_list fun i hi j hj => ?_
      have hi := mem_liveSlots.mp hi
      rw [hlen hi, h i hi, hoff hi, hoff (mem_liveSlots.mp hj), Nat.add_zero]
    · rw [compact_liveSlots hw]
      intro i hi
      have hi := mem_liveSlots.mp (List.mem_of_getLast? hi)
      rw [hlen hi, h i hi, hoff hi, Nat.add_zero]

theorem Stacked.lone (hw : p.WellFormed) (h : p.compact.Stacked) : p.Lone := by
  have hl : p.Live 0 := (compact_live_iff hw).mp h.live
  by_cases ho : ∀ i, p.Live i → i = 0
  case pos => exact .only hl ho
  case neg =>
    obtain ⟨is, hs⟩ := List.head?_eq_some_iff.mp (compact_liveSlots hw ▸ h.first)
    -- The second live tuple is below the first one, and yet follows it.
    cases is
    case nil =>
      refine absurd (fun i hi => ?_) ho
      simpa [hs] using mem_liveSlots.mpr hi
    case cons j is =>
      have hj : p.Live j := mem_liveSlots.mp (by simp [hs])
      have hn : p.liveSlots.Nodup := List.nodup_range.filter _
      have hj0 : 0 < j := by
        refine Nat.pos_of_ne_zero fun hz => ?_
        rw [hs, hz] at hn
        simp at hn
      have hnext := h.next
      rw [compact_liveSlots hw, hs, List.isChain_cons_cons] at hnext
      have hle := compact_offset_le hw hl hj hj0
      have hzero : p.slotLength 0 = 0 := by
        rw [(compact_slot_live hw hl).2] at hnext
        omega
      have hoff : p.compact.slotOffset 0 = kPageSize := by
        have hs := liveBytes_of_live hl
        have hz : p.liveBytes 0 = 0 := rfl
        rw [(compact_slot_live hw hl).1, compactOffset, hs, hz, hzero]
        rfl
      have hsum := h.sum
      rw [hoff, compact_liveLength hw, liveLength_eq] at hsum
      refine .empty hl fun i hi => ?_
      have hm := Finset.single_le_sum (f := p.view.bytesAt) (fun _ _ => Nat.zero_le _) (Finset.mem_range.mpr hi.lt)
      rw [bytesAt_of_live hi] at hm
      change _ ≤ p.view.used at hm
      omega

theorem WellFormed.compact_isCompacted_iff (hw : p.WellFormed) : p.compact.isCompacted ↔ p.Lone := by
  rw [(compact_becomes hw).wf.isCompacted_iff, compact_slotCount hw]
  constructor
  · rintro (h | h)
    · exact .blank h
    · exact h.lone hw
  · exact fun h => h.stacked hw

end lone

section reachable

theorem Becomes.slotted {v : PageView} {bytes : List UInt8} (h : Becomes p q (v.bind i bytes)) : q.slotCount ≠ 0 := by
  have hc : q.slotCount = max v.slotCount (i + 1) := congrArg PageView.slotCount h.view
  omega

-- A page without slots has all of its space free.
theorem Step.blank (h : Step p q) (hw : p.WellFormed) (hb : p.slotCount = 0 → p.freeSpaceOffset = kPageSize) :
    q.slotCount = 0 → q.freeSpaceOffset = kPageSize := by
  cases h
  case init => exact fun _ => init_freeSpaceOffset
  case link =>
    intro hc
    rw [setNextPage_freeSpaceOffset]
    exact hb (by rwa [setNextPage_slotCount] at hc)
  case insert bytes pref hl =>
    rcases hi : p.insertTuple bytes pref with ⟨_ | rid, r⟩
    · exact insertTuple_none hi ▸ hb
    · obtain ⟨-, -, hr⟩ := hw.insertTuple_some (Nat.lt_succ_of_le hl) hi
      exact fun hc => absurd hc hr.slotted
  case delete j =>
    rw [deleteTuple_eq]
    split
    case isTrue hd  =>
      intro hc
      rw [setSlotOffset_slotCount] at hc
      exact absurd hd.lt (by omega)
    case isFalse hd => exact hb
  case update rid bytes hl =>
    rcases hu : p.tryUpdateInPlace rid bytes with ⟨_ | _, r⟩
    · exact tryUpdateInPlace_false hu ▸ hb
    · exact fun hc => absurd hc (hw.tryUpdateInPlace_true (Nat.lt_succ_of_le hl) hu).slotted
  case compact =>
    intro hc
    rw [compact_slotCount hw] at hc
    have hu : p.view.used = 0 := by simp [PageView.used, hc]
    rw [compact_freeSpaceOffset hw, hu, Nat.sub_zero]
  case restore hl hr =>
    obtain ⟨-, -, hb⟩ := WellFormed.restoreTuple_some hw (Nat.lt_succ_of_le hl) hr
    exact fun hc => absurd hc hb.slotted

theorem Reachable.blank (hr : Reachable p) : p.slotCount = 0 → p.freeSpaceOffset = kPageSize := by
  induction hr
  case init        => exact fun _ => init_freeSpaceOffset
  case step hr h ih => exact h.blank hr.wellFormed ih

end reachable

theorem Reachable.isCompacted_agrees_iff (hr : Reachable p) :
    ((p.isCompacted ↔ p.compact.freeSpaceBytes ≤ p.freeSpaceBytes) ↔ p.Agrees) ∧ (p.compact.isCompacted ↔ p.Lone) :=
  ⟨hr.wellFormed.agrees_iff hr.blank, hr.wellFormed.compact_isCompacted_iff⟩

-- A page with two tuples of one byte each.
def paired : SlottedPage :=
  (((SlottedPage.mk fun _ => 7).init.insertTuple [1] none).2.insertTuple [2] none).2

theorem paired_reachable : Reachable paired :=
  ((Reachable.init (.mk fun _ => 7)).step (@Step.insert _ [1] none (by decide))).step (@Step.insert _ [2] none (by decide))

theorem Reachable.isCompacted_agrees_iff_paired :
    ((paired.isCompacted ↔ paired.compact.freeSpaceBytes ≤ paired.freeSpaceBytes) ↔ paired.Agrees) ∧
      (paired.compact.isCompacted ↔ paired.Lone) :=
  Reachable.isCompacted_agrees_iff paired_reachable

-- A compaction puts the second tuple below the first one, where `is_compacted` looks for it above.
theorem not_isCompacted_agrees :
    ¬∀ p, Reachable p → (p.isCompacted ↔ p.compact.freeSpaceBytes ≤ p.freeSpaceBytes) ∧ p.compact.isCompacted := by
  intro h
  have ⟨_, hc⟩ := h paired paired_reachable
  have hl : paired.Live 1 := by decide
  have hn : paired.slotLength 1 ≠ 0 := by decide
  cases paired_reachable.wellFormed.compact_isCompacted_iff.mp hc
  case blank h   => exact absurd h (by decide)
  case only h    => exact absurd (h 1 hl) (by decide)
  case empty h   => exact hn (h 1 hl)

end Duck.SlottedPage
