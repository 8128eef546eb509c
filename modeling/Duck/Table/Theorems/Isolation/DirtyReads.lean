import Duck.Table.Theorems.Isolation.Calls

namespace Duck

namespace TableThread

open Thread LockManager LockingThread

variable {s s' : LockManager × Stored} {pool : HeapPool} {chains : TableHeap → List PageID} {maps maps' : TableMaps}
  {tx : TransactionID} {rid : RID} {h : TableHeap} {m : HeapMap} {bytes : List UInt8} {rows : Rows} {t : Pager}

-- For every tuple of the heaps it is known who wrote it.
def Rows.Knows (rows : Rows) (heaps : List TableHeap) (maps : TableMaps) : Prop :=
  ∀ h ∈ heaps, ∀ {rid bytes}, maps h rid = some bytes → (rows.heap rid).map (·.bytes) = some bytes

def Stored.Holds (s : Stored) : Prop :=
  ∃ chains maps, s.pool.Holds chains maps ∧ s.rows.Knows s.pool.heaps maps

-- What the lock manager and the transactions know of the heaps.
def known (s : LockManager × Stored) : LockManager × Rows :=
  (s.1, s.2.rows)

theorem set_eq_some {h' : TableHeap} {rid' : RID} {tuple : Option (List UInt8)} (hb : maps.set h rid tuple h' rid' = some bytes) :
    (h' = h ∧ rid' = rid) ∧ tuple = some bytes ∨ ¬(h' = h ∧ rid' = rid) ∧ maps h' rid' = some bytes := by
  by_cases hr : h' = h ∧ rid' = rid
  case pos =>
    obtain ⟨rfl, rfl⟩ := hr
    exact .inl ⟨⟨rfl, rfl⟩, TableMaps.set_self.symm.trans hb⟩
  case neg =>
    refine .inr ⟨hr, ?_⟩
    by_cases he : h' = h
    case pos =>
      subst he
      rwa [TableMaps.set_of_ne fun hr' => hr ⟨rfl, hr'⟩] at hb
    case neg => simpa [TableMaps.set, he] using hb

theorem of_set_none {h' : TableHeap} {rid' : RID} (hb : maps.set h rid none h' rid' = some bytes) : maps h' rid' = some bytes :=
  (set_eq_some hb).elim (fun hx => by cases hx.2) And.right

-- No other heap has a tuple on the page.
theorem Rows.Knows.put (hs : pool.Holds chains maps') (hk : rows.Knows pool.heaps maps) (hh : h ∈ pool.heaps)
    (hm : maps' = maps.set h rid (some bytes)) : (rows.put rid (some ⟨bytes, tx⟩)).Knows pool.heaps maps' := by
  intro h' hh' rid' bytes' hb
  have hp : rid.pageId ∈ chains h := hs.mem_of_bound hh (by rw [hm, TableMaps.set_self])
  obtain ⟨⟨-, rfl⟩, hw⟩ | ⟨hn, hb'⟩ := set_eq_some (hm ▸ hb)
  · simpa [Rows.put] using hw
  · have hr : rid' ≠ rid := by
      rintro rfl
      exact hn ⟨hs.eq_of_bound hh hh' hp hb, rfl⟩
    simpa [Rows.put, hr] using hk h' hh' hb'

-- Where a call leaves no other tuples than there were.
theorem Rows.Knows.clear (hk : rows.Knows pool.heaps maps) (hs : { pool with pager := t.forgiven }.Holds chains maps')
    (hsub : ∀ h ∈ pool.heaps, ∀ {rid bytes}, maps' h rid = some bytes → maps h rid = some bytes) :
    (rows.clear rid t).Knows pool.heaps maps' := by
  intro h hh rid' bytes hb
  have hw := hk h hh (hsub h hh hb)
  rw [Rows.clear]
  split
  case isTrue     => exact hw
  case isFalse hn =>
    have hr : rid' ≠ rid := by
      rintro rfl
      exact hn ((hs.live_iff hh).mpr hb).slot
    simpa [Rows.put, hr] using hw

-- A slot that is dead for its heap is dead.
theorem clear_eq_put (hs : { pool with pager := t.forgiven }.Holds chains maps') (hh : h ∈ pool.heaps) (hp : rid.pageId ∈ chains h)
    (hm : maps' h rid = none) : rows.clear rid t = rows.put rid none := by
  rw [Rows.clear, if_neg]
  intro hx
  have hl := (hs.live_iff hh).mp ⟨(hs.has_iff hh).mpr hp, hx, rfl⟩
  cases hm.symm.trans hl

theorem clear_cases (rows : Rows) (rid : RID) (t : Pager) : rows.clear rid t = rows ∨ rows.clear rid t = rows.put rid none := by
  rw [Rows.clear]
  split
  case isTrue  => exact .inl rfl
  case isFalse => exact .inr rfl

theorem Rows.Knows.putNone (hk : rows.Knows pool.heaps maps) (hs : pool.Holds chains maps) (hh : h ∈ pool.heaps)
    (hp : rid.pageId ∈ chains h) : (rows.put rid none).Knows pool.heaps (maps.set h rid none) := by
  intro h' hh' rid' bytes' hb
  have hr : rid' ≠ rid := by
    rintro rfl
    obtain rfl := hs.eq_of_bound hh hh' hp (of_set_none hb)
    rw [TableMaps.set_self] at hb
    cases hb
  simpa [Rows.put, hr] using hk h' hh' (of_set_none hb)

theorem join_eq_some {result : Except String (Option α)} {a : α} : result.toOption.join = some a ↔ result = .ok (some a) := by
  rcases result with _ | _ | _ <;> simp [Except.toOption]

section outcomes

variable {m' : HeapMap} {granted : Bool} {result : Except String (Option RID)}

theorem insert_outcome (ho : m.Outcome granted (.insert bytes) (HeapResult.rid <$> result) m') :
    (∃ rid, result = .ok (some rid) ∧ bytes.length < 65536 ∧ m' = Function.update m rid (some bytes)) ∨
      result.toOption.join = none ∧ m' = m := by
  generalize hr : HeapResult.rid <$> result = r at ho
  cases ho
  case inserted rid hl _ =>
    obtain ⟨_, rfl, h⟩ := Except.map_eq_ok.mp hr
    exact .inl ⟨rid, congrArg Except.ok (HeapResult.rid.inj h), by omega, rfl⟩
  case noInsert hn       =>
    refine .inr ⟨Option.eq_none_iff_forall_ne_some.mpr fun rid hj => hn rid ?_, rfl⟩
    rw [←hr, join_eq_some.mp hj]
    rfl

theorem update_outcome (ho : m.Outcome granted (.update rid bytes) (HeapResult.rid <$> result) m') :
    (∃ rid', result = .ok (some rid') ∧ m' = Function.update (Function.update m rid none) rid' (some bytes)) ∨
      result.toOption.join = none ∧ (m' = m ∨ m' = Function.update m rid none) := by
  generalize hr : HeapResult.rid <$> result = r at ho
  cases ho
  case updated rid' _ _ =>
    obtain ⟨_, rfl, h⟩ := Except.map_eq_ok.mp hr
    exact .inl ⟨rid', congrArg Except.ok (HeapResult.rid.inj h), rfl⟩
  case dead | untouched =>
    obtain ⟨_, rfl, h⟩ := Except.map_eq_ok.mp hr
    cases h
    exact .inr ⟨rfl, .inl rfl⟩
  case lost hn          =>
    refine .inr ⟨Option.eq_none_iff_forall_ne_some.mpr fun rid hj => hn rid ?_, .inr rfl⟩
    rw [←hr, join_eq_some.mp hj]
    rfl

theorem delete_outcome {result : Except String Bool}
    (ho : m.Outcome granted (.delete rid) (HeapResult.deleted <$> result) m') :
    m' = Function.update m rid none ∨ granted = false ∧ result = .ok false ∧ m' = m := by
  generalize hr : HeapResult.deleted <$> result = r at ho
  cases ho
  case deleted  => exact .inl rfl
  case noDelete =>
    obtain ⟨_, rfl, h⟩ := Except.map_eq_ok.mp hr
    cases h
    exact .inr ⟨rfl, rfl, rfl⟩

theorem get_outcome {result : Except String (Option (List UInt8))}
    (ho : m.Outcome granted (.get rid) (HeapResult.tuple <$> result) m') :
    m' = m ∧ ∀ {bytes}, result.toOption.join = some bytes → m rid = some bytes := by
  generalize hr : HeapResult.tuple <$> result = r at ho
  cases ho
  all_goals
    obtain ⟨_, rfl, h⟩ := Except.map_eq_ok.mp hr
    cases h
    refine ⟨rfl, fun {bytes} hb => ?_⟩
  case got   => exact (Option.filter_eq_some_iff.mp hb).1
  case noGet => cases hb

end outcomes

section effect

variable {s : Stored} {heap : TableHeap} {locks : LockManager}

theorem insertTuple_spec {result : Except String (Option RID)} (hs : s.Holds) (ha : s.pool.Admits heap (.insert bytes))
    (hx : heap.insertTuple bytes s.pool.pager = some (result, t))
    (hc : ∀ rid ∈ result.toOption.join, Unclaimed locks tx rid) :
    Spec tx (locks, s.rows) (.insertTuple heap bytes) result.toOption.join
        (locks, s.rows.insert tx bytes result.toOption.join) ∧
      (s.set t (s.rows.insert tx bytes result.toOption.join)).Holds := by
  obtain ⟨chains, maps, hs, hk⟩ := hs
  obtain ⟨m, ho, -, chains', -, ht⟩ := (hs.insertTuple ha).of_eq (Program.map_of_eq HeapResult.rid hx)
  obtain ⟨rid, rfl, hl, rfl⟩ | ⟨hj, rfl⟩ := insert_outcome ho
  · exact ⟨.insertTuple hl <| hc rid rfl, chains', _, ht, hk.put ht ha.1 rfl⟩
  · rw [hj]
    rw [Function.update_eq_self] at ht
    exact ⟨.insertFails, chains', maps, ht, hk⟩

theorem getTuple_spec {result : Except String (Option (List UInt8))} (hs : s.Holds) (ha : s.pool.Admits heap (.get rid))
    (hx : heap.getTuple rid s.pool.pager = some (result, t)) :
    (∀ {bytes}, result.toOption.join = some bytes → (s.rows.heap rid).map (·.bytes) = some bytes) ∧ (s.set t s.rows).Holds := by
  obtain ⟨chains, maps, hs, hk⟩ := hs
  obtain ⟨m, ho, -, chains', -, ht⟩ := (hs.getTuple ha).of_eq (Program.map_of_eq HeapResult.tuple hx)
  obtain ⟨rfl, hb⟩ := get_outcome ho
  rw [Function.update_eq_self] at ht
  exact ⟨fun h => hk heap ha.1 (hb h), chains', maps, ht, hk⟩

theorem updateTuple_spec {result : Except String (Option RID)} (hs : s.Holds) (ha : s.pool.Admits heap (.update rid bytes))
    (hx : heap.updateTuple rid bytes s.pool.pager = some (result, t))
    (hc : ∀ rid' ∈ result.toOption.join, rid' = rid ∨ Unclaimed locks tx rid') :
    Spec tx (locks, s.rows) (.updateTuple heap rid bytes) result.toOption.join
        (locks, s.rows.update tx rid bytes t result.toOption.join) ∧
      (s.set t (s.rows.update tx rid bytes t result.toOption.join)).Holds := by
  obtain ⟨chains, maps, hs, hk⟩ := hs
  obtain ⟨m, ho, -, chains', -, ht⟩ := (hs.updateTuple ha).of_eq (Program.map_of_eq HeapResult.rid hx)
  have hp := (hs.has_iff ha.1).mp ha.2.2.1
  obtain ⟨rid', rfl, rfl⟩ | ⟨hj, hm⟩ := update_outcome ho
  · have hm : Function.update maps heap (Function.update (Function.update (maps heap) rid none) rid' (some bytes)) =
        (maps.set heap rid none).set heap rid' (some bytes) := TableMaps.set_update.symm
    exact ⟨.updateTuple ha.2.2.2 <| hc rid' rfl, chains', _, ht, (hk.putNone hs ha.1 hp).put ht ha.1 hm⟩
  · rw [hj]
    have hsub : ∀ h ∈ s.pool.heaps, ∀ {rid bytes}, Function.update maps heap m h rid = some bytes → maps h rid = some bytes := by
      intro h _ rid' bytes hb
      obtain rfl | rfl := hm
      · rwa [Function.update_eq_self] at hb
      · exact of_set_none hb
    refine ⟨?_, chains', _, ht, hk.clear ht hsub⟩
    obtain he | he := clear_cases s.rows rid t
    · rw [Rows.update, he]
      exact .updateFails
    · rw [Rows.update, he]
      exact .updateLoses

-- A page that is not refused loses the tuple.
theorem deleteTuple_spec {result : Except String Bool} (hs : s.Holds) (ha : s.pool.Admits heap (.delete rid))
    (hx : heap.deleteTuple rid s.pool.pager = some (result, t)) :
    (s.rows.clear rid t = s.rows.put rid none ∨
      t.denied = true ∧ result = .ok false ∧ s.rows.clear rid t = s.rows) ∧ (s.set t (s.rows.clear rid t)).Holds := by
  obtain ⟨chains, maps, hs, hk⟩ := hs
  obtain ⟨m, ho, -, chains', hsub, ht⟩ := (hs.deleteTuple ha).of_eq (Program.map_of_eq HeapResult.deleted hx)
  have hp := hsub heap ha.1 <| (hs.has_iff ha.1).mp ha.2
  obtain rfl | ⟨hd, rfl, rfl⟩ := delete_outcome ho
  · refine ⟨.inl <| clear_eq_put ht ha.1 hp TableMaps.set_self, chains', _, ht, hk.clear ht fun _ _ => of_set_none⟩
  · rw [Function.update_eq_self] at ht
    refine ⟨?_, chains', maps, ht, hk.clear ht fun _ _ _ _ => id⟩
    obtain he | he := clear_cases s.rows rid t
    · exact .inr ⟨by simpa using hd, rfl, he⟩
    · exact .inl he

theorem restoreTuple_spec {w : Written} (hs : s.Holds) (ha : s.pool.Admits heap (.get rid)) (hl : w.bytes.length < 65536)
    (hx : heap.restoreTuple rid w.bytes s.pool.pager = some (.ok (), t))
    (hd : t.denied = false → s.pool.pager.isDirty rid.pageId = true) :
    (s.set t (if t.denied then s.rows else s.rows.put rid (some w))).Holds := by
  obtain ⟨chains, maps, hs, hk⟩ := hs
  obtain ⟨chains', -, ht⟩ := hs.restoreTuple ha.1 ha.2 hl hx hd
  refine ⟨chains', _, ht, ?_⟩
  split
  case isTrue  => exact hk
  case isFalse hn =>
    rw [if_neg hn] at ht
    exact hk.put ht ha.1 rfl

theorem read_cases {read : Option (List UInt8)}
    (hb : ∀ {bytes}, read = some bytes → (rows.heap rid).map (·.bytes) = some bytes) :
    (rows.read rid read).map (·.bytes) = read ∧ (rows.read rid read = none ∨ rows.read rid read = rows.heap rid) := by
  rcases read with _ | bytes
  · exact ⟨rfl, .inl rfl⟩
  · obtain ⟨w, hw, rfl⟩ := Option.map_eq_some_iff.mp (hb rfl)
    have hr : rows.read rid (some w.bytes) = some w := by rw [Rows.read, hw]; rfl
    exact ⟨by rw [hr]; rfl, .inr <| hr.trans hw.symm⟩

-- What is done carefully is what the calls are meant to do.
theorem Effect.spec {s s' : LockManager × Stored} {a : Action Written} {r : a.Result} (hs : s.2.Holds)
    (hp : Pre tx (known s) (.inr a)) (e : Effect tx s a r s') (hc : Careful tx s (.inr a) r) :
    Spec tx (known s) a r (known s') ∧ s'.2.Holds := by
  cases e
  case insertTuple ha hx        => exact insertTuple_spec hs ha hx hc
  case getTuple ha hx           =>
    obtain ⟨hb, ht⟩ := getTuple_spec hs ha hx
    refine ⟨?_, ht⟩
    obtain ⟨-, he | he⟩ := read_cases hb
    · rw [he]
      exact .getFails
    · rw [he]
      exact .getTuple
  case updateTuple ha ha' hx    => exact updateTuple_spec hs ⟨ha.1, ha.2, ha'.2, hc.1⟩ hx hc.2
  case deleteTuple ha hx        =>
    obtain ⟨he, ht⟩ := deleteTuple_spec hs ha hx
    refine ⟨?_, ht⟩
    obtain he | ⟨hd, rfl, he⟩ := he
    · simp only [known, Stored.set, he]
      exact .deleteTuple
    · simp only [known, Stored.set, he]
      refine .deleteFails ?_
      obtain hl | hg := hc
      · exact hl
      · cases hd.symm.trans (hg hx)
  case undoDelete ha hx         =>
    obtain ⟨he, ht⟩ := deleteTuple_spec hs ha hx
    refine ⟨?_, ht⟩
    obtain he | ⟨hd, -, -⟩ := he
    · simp only [known, Stored.set, he]
      exact .undoDelete
    · cases hd.symm.trans (hc hx)
  case undoRestore t w ha hx    =>
    refine ⟨?_, restoreTuple_spec hs ha hp.2.length hx fun hd => hc fun hx' => ?_⟩
    · by_cases hd : t.denied = true
      case pos =>
        simp only [known, Stored.set, hd, if_true]
        exact .undoFails
      case neg =>
        simp only [known, Stored.set, hd, Bool.false_eq_true, if_false]
        exact .undoRestore
    · cases hx.symm.trans hx'
      exact hd
  case pushUndo                 => exact ⟨.pushUndo, hs⟩
  case undoLog                  => exact ⟨.undoLog, hs⟩
  case setState                 => exact ⟨.setState, hs⟩
  case unlockAll                => exact ⟨.unlockAll, hs⟩
  case erase                    => exact ⟨.erase, hs⟩

end effect

-- The transactions without the heaps.
def Isolation.known (s : Isolation) : Orderly.System :=
  ⟨TableThread.known s.shared, s.threads⟩

structure Isolation.Holds (s : Isolation) : Prop where
  stored : s.shared.2.Holds
  agrees : Orderly.Agrees s.known

theorem Isolation.Initial.holds {s : Isolation} (h : s.Initial) : s.Holds := by
  obtain ⟨chains, maps, hs⟩ := HeapPool.Reachable.holds h.pool
  have hlive {heap} (hh : heap ∈ s.shared.2.pool.heaps) {rid bytes} (hb : maps heap rid = some bytes) :
      (s.shared.2.rows.heap rid).map (·.bytes) = some bytes :=
    (h.heap rid bytes).mpr ⟨heap, hh, (hs.live_iff hh).mpr hb⟩
  refine ⟨⟨chains, maps, hs, fun heap hh {rid bytes} hb => hlive hh hb⟩, ?_, fun tx => ?_⟩
  · constructor
    case locks    =>
      have hl : s.known.shared.1 = _ := h.locks
      exact hl ▸ unlocked_invariant
    case contents => exact fun hw => .inl <| h.writers _ _ hw
    case lengths  =>
      intro rid w hw
      obtain ⟨heap, hh, hl⟩ := (h.heap rid w.bytes).mp (congrArg (Option.map _) hw)
      exact hs.length_lt hh <| (hs.live_iff hh).mp hl
    case restores =>
      intro tx pre _ _ _ post hl
      have hl := (h.undoLog tx).symm.trans hl
      simp at hl
    case deletes  =>
      rintro tx _ ⟨_, hd⟩
      have hd : _ ∈ s.shared.2.rows.undoLog tx := hd
      simp [h.undoLog tx] at hd
    case released =>
      intro tx hg
      have hl : s.known.shared.1 = _ := h.locks
      rw [hl] at hg
      by_contra hr
      have hr : ¬s.shared.2.rows.released tx = none := hr
      simp [hr] at hg
  · have ht : s.known.threads tx = .ret (s.shared.2.rows.released tx).isSome := h.threads tx
    have hl : s.known.shared.1 = _ := h.locks
    refine ⟨Idle tx (s.shared.2.rows.released tx).isSome, ⟨by rw [hl]; rfl, fun he => ?_, fun ha {rid w} hw hx _ => ?_⟩, ?_⟩
    · exact Option.isSome_eq_false_iff.mp he |> Option.isNone_iff_eq_none.mp
    · have hc := h.writers _ _ hw
      rw [hx] at hc
      cases hc.symm.trans ha
    · rw [ht]
      exact .ret fun _ _ => id

-- A careful step keeps to what the calls are meant to do.
theorem Isolation.Holds.step {s s' : Isolation} (h : s.Holds) (e : s.CarefulStep l s') : s'.Holds := by
  cases e
  case call t b x ht hx      => exact ⟨h.stored, h.agrees.step (.call ht hx)⟩
  case act t a next r u ht he =>
    obtain ⟨he, hc⟩ := he
    cases a
    case inl a =>
      obtain ⟨m, hm, rfl⟩ := locking_inl he
      have ha : Asks t s.shared.1 s.shared.2.rows (.inl a) := by
        cases a
        case request => exact hc
        case await   => trivial
      exact ⟨h.stored, h.agrees.step (.act ht ⟨.lock hm, ha⟩)⟩
    case inr a =>
      obtain ⟨hspec, hs⟩ := (locking_inr he).spec h.stored (h.agrees.pre ht) hc
      exact ⟨hs, h.agrees.step (.act ht ⟨.own hspec, trivial⟩)⟩

theorem Isolation.holds {s : Isolation} (h : Runs.Reachable Isolation.Initial Isolation.CarefulStep s) : s.Holds :=
  h.invariant (fun h => h.holds) fun e h => h.step e

-- What a transaction reads are the bytes of the page. They are its own, or of a transaction that has committed.
theorem Isolation.reads_clean {s s' : Isolation} {heap : TableHeap} {r : Option Written}
    (h : Runs.Reachable Isolation.Initial Isolation.CarefulStep s) (e : s.Step (tx, some ⟨.inr (.getTuple heap rid), r⟩) s') :
    (∃ result t, heap.getTuple rid s.shared.2.pool.pager = some (result, t) ∧ r.map (·.bytes) = result.toOption.join) ∧
      ∀ w ∈ r, s.Clean tx w := by
  have hh := Isolation.holds h
  obtain ⟨⟨next, ht⟩, he⟩ := e.act_inv
  have hl : s.shared.1.Locked tx rid := hh.agrees.pre ht
  generalize s'.shared = u at he
  cases locking_inr he
  case getTuple ha hx =>
    obtain ⟨hb, -⟩ := getTuple_spec hh.stored ha hx
    obtain ⟨hm, hr⟩ := read_cases hb
    refine ⟨⟨_, _, hx, hm⟩, fun w hw => hh.agrees.inv.clean hl ?_⟩
    obtain hr | hr := hr
    · cases hr.symm.trans hw
    · exact hr.symm.trans hw

section runs

variable {s : Isolation} (hr : Runs.Reachable Isolation.Initial Isolation.CarefulStep s) (tx : TransactionID)

include hr

theorem reachable_call {ended : Bool} {x : TableThread Written Bool} (hc : Calls ended x) (ht : s.threads tx = .ret ended) :
    Runs.Reachable Isolation.Initial Isolation.CarefulStep { s with threads := Function.update s.threads tx x } :=
  hr.next <| .call ht hc

theorem reachable_own (a : Action Written) (r : a.Result) {u : LockManager × Stored}
    {next : a.Result → TableThread Written Bool} (he : Effect tx s.shared a r u) (hc : Careful tx s.shared (.inr a) r)
    (ht : s.threads tx = .act (.inr a) next) :
    Runs.Reachable Isolation.Initial Isolation.CarefulStep ⟨u, Function.update s.threads tx (next r)⟩ :=
  hr.next <| .act ht ⟨.own he, hc⟩

theorem reachable_lock (a : LockSection) (r : a.Result) {m : LockManager} {next : a.Result → TableThread Written Bool}
    (he : s.shared.1.Section tx a r m) (hc : Careful tx s.shared (.inl a) r) (ht : s.threads tx = .act (.inl a) next) :
    Runs.Reachable Isolation.Initial Isolation.CarefulStep ⟨(m, s.shared.2), Function.update s.threads tx (next r)⟩ :=
  hr.next <| .act ht ⟨.lock he, hc⟩

theorem reachable_step : s.Reachable := by
  refine hr.mono fun e => ?_
  cases e
  case call ht hx => exact .call ht hx
  case act ht he  => exact .act ht he.1

end runs

theorem Isolation.Reachable.lock {s : Isolation} (hr : s.Reachable) (tx : TransactionID) (a : LockSection) (r : a.Result)
    {m : LockManager} {next : a.Result → TableThread Written Bool} (he : s.shared.1.Section tx a r m)
    (ht : s.threads tx = .act (.inl a) next) :
    Isolation.Reachable ⟨(m, s.shared.2), Function.update s.threads tx (next r)⟩ :=
  hr.next <| .act ht <| .lock he

-- A new heap, and transactions that have not begun.
def unwritten : Isolation :=
  ⟨(.init, ⟨.fresh, ⟨fun _ => none, fun _ => [], fun _ => none⟩⟩), fun _ => .ret false⟩

theorem unwritten_initial : unwritten.Initial where
  pool        := by
    obtain ⟨_, h₀, h₁, -⟩ := HeapPool.fresh_step
    exact (Runs.Reachable.start h₀).next h₁
  locks       := rfl
  heap _ _    := by
    obtain ⟨_, _, _, _, hs⟩ := HeapPool.fresh_step
    refine ⟨fun h => (by cases h), fun ⟨heap, hh, hl⟩ => ?_⟩
    cases (hs.live_iff hh).mp hl
  writers _ _ := nofun
  undoLog _   := rfl
  threads _   := rfl

theorem Effect.inserted {s : LockManager × Stored} (ha : s.2.pool.Admits h (.insert bytes))
    (hx : h.insertTuple bytes s.2.pool.pager = some (.ok (some rid), t)) :
    Effect tx s (.insertTuple h bytes) (some rid) (s.1, s.2.set t (s.2.rows.put rid (some ⟨bytes, tx⟩))) := by
  change Effect tx s (.insertTuple h bytes) (Except.toOption (.ok (some rid) : Except String (Option RID))).join _
  exact .insertTuple ha hx

theorem Effect.read {s : LockManager × Stored} (ha : s.2.pool.Admits h (.get rid))
    (hx : h.getTuple rid s.2.pool.pager = some (.ok (some bytes), t)) :
    Effect tx s (.getTuple h rid) (s.2.rows.read rid (some bytes)) (s.1, s.2.set t s.2.rows) := by
  change Effect tx s (.getTuple h rid)
    (s.2.rows.read rid (Except.toOption (.ok (some bytes) : Except String (Option (List UInt8)))).join) _
  exact .getTuple ha hx

theorem filled_get : TableHeap.getTuple ⟨1⟩ ⟨1, 0⟩ HeapPool.filled.forgiven =
    some (.ok (some [1]), TableHeap.after (TableHeap.getTuple ⟨1⟩ ⟨1, 0⟩) HeapPool.filled.forgiven) :=
  rfl

theorem filled_admits : HeapPool.Admits { HeapPool.fresh with pager := HeapPool.filled.forgiven } ⟨1⟩ (.get ⟨1, 0⟩) :=
  ⟨List.mem_cons_self, .first⟩

-- Nobody has a claim in the beginning.
theorem unclaimed_init {rid : RID} : Unclaimed .init tx rid := by
  rintro tx' - (h | ⟨_, h⟩)
  · exact h.elim (fun h => by cases h) fun h => by cases h
  · cases h

-- A row of another transaction that is read before its lock is asked for.
theorem dirty_read : ∃ (s s' : Isolation) (heap : TableHeap) (w : Written), s.Reachable ∧
    s.Step (1, some ⟨.inr (.getTuple heap ⟨1, 0⟩), some w⟩) s' ∧ ¬s.Clean 1 w := by
  -- transaction 0 inserts a row
  have h₁ := reachable_call (.start unwritten_initial) 0
    (.insertTuple : Calls false (do discard <| insertTuple ⟨1⟩ [1]; return false)) rfl
  have h₂ := reachable_own h₁ 0 (.insertTuple ⟨1⟩ [1]) (some ⟨1, 0⟩)
    (.inserted HeapPool.fresh_admits HeapPool.fresh_insertTuple) (fun _ _ => unclaimed_init) rfl
  -- transaction 1 reads it
  have h₃ := reachable_step <| reachable_call h₂ 1
    (.getTuple : Calls false (do discard <| getTuple ⟨1⟩ ⟨1, 0⟩; return false)) rfl
  have h₄ := h₃.lock 1 (.request .shared ⟨1, 0⟩) (some true) .request rfl
  refine ⟨_, _, ⟨1⟩, ⟨[1], 0⟩, h₄, .act rfl <| .own <| .read filled_admits filled_get, ?_⟩
  rintro (h | h)
  · cases h
  · cases h

theorem not_noDirtyReads : ¬NoDirtyReads := by
  intro h
  obtain ⟨s, s', heap, w, hr, e, hw⟩ := dirty_read
  exact hw (h hr e)

-- Transaction 0 inserts a row and commits. Then transaction 1 reads it.
theorem committed_read : ∃ s s' : Isolation, Runs.Reachable Isolation.Initial Isolation.CarefulStep s ∧
    s.Step (1, some ⟨.inr (.getTuple ⟨1⟩ ⟨1, 0⟩), some ⟨[1], 0⟩⟩) s' := by
  have h₁ := reachable_call (.start unwritten_initial) 0
    (.insertTuple : Calls false (do discard <| insertTuple ⟨1⟩ [1]; return false)) rfl
  have h₂ := reachable_own h₁ 0 (.insertTuple ⟨1⟩ [1]) (some ⟨1, 0⟩)
    (.inserted HeapPool.fresh_admits HeapPool.fresh_insertTuple) (fun _ _ => unclaimed_init) rfl
  have h₃ := reachable_lock h₂ 0 (.request .exclusive ⟨1, 0⟩) (some true) .request (fun hw => (by cases hw; exact .inl rfl)) rfl
  have h₄ := reachable_own h₃ 0 (.pushUndo [.delete ⟨1⟩ ⟨1, 0⟩]) () .pushUndo trivial rfl
  have h₅ := reachable_call h₄ 0 (.commit : Calls false (do commit; return true)) rfl
  have h₆ := reachable_own h₅ 0 (.setState .shrinking) () .setState trivial rfl
  have h₇ := reachable_own h₆ 0 (.unlockAll true) () .unlockAll trivial rfl
  have h₈ := reachable_own h₇ 0 (.setState .committed) () .setState trivial rfl
  have h₉ := reachable_own h₈ 0 .erase () .erase trivial rfl
  have hx := reachable_call h₉ 1 (.getTuple : Calls false (do discard <| getTuple ⟨1⟩ ⟨1, 0⟩; return false)) rfl
  have hr := reachable_lock hx 1 (.request .shared ⟨1, 0⟩) (some true) .request
    (fun hw => (by cases hw; exact .inr (.inl rfl))) rfl
  exact ⟨_, _, hr, .act rfl <| .own <| .read filled_admits filled_get⟩

theorem Isolation.reads_clean_committed : ∃ s s' : Isolation,
    s.Step (1, some ⟨.inr (.getTuple ⟨1⟩ ⟨1, 0⟩), some ⟨[1], 0⟩⟩) s' ∧ s.shared.2.rows.released 0 = some true := by
  obtain ⟨s, s', hr, e⟩ := committed_read
  obtain hc | hc := (Isolation.reads_clean hr e).2 _ rfl
  · cases hc
  · exact ⟨s, s', e, hc⟩

end TableThread
end Duck
