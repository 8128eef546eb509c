import Duck.Execution.Operator
import Duck.Execution.Theorems.NestedLoopJoin
import Duck.Table.Theorems.Scan
import Duck.Transaction.Theorems.LockManager.Locked

namespace Duck

open Program Cursor

variable {tx : Option TransactionID} {views : Views} {others : Database → Database} {s t : Database}
variable {own pins rest : List Pin} {pin : Pin} {spare : ℕ} {items : List NestedLoopJoin.Item}

-- A fetch has failed, or the transaction is not growing.
def Database.lost (tx : Option TransactionID) (s : Database) : Bool :=
  s.database.denied || tx.any fun tx => s.state tx ≠ .growing

-- The tables are what they are, and `pins` are among the pins of the pool. There is room for `spare` more.
structure World (tx : Option TransactionID) (views : Views) (spare : ℕ) (pins : List Pin) (s : Database) : Prop where
  shows   : ∃ frame, s.database.Shows (pins ++ frame) views ∧ (pins ++ frame).length + spare < 4294967296
  growing : ∀ tx' ∈ tx, s.state tx' = .growing

-- What the other transactions do while this one waits leaves the tables and this transaction alone.
structure Undisturbed (others : Database → Database) (tx : Option TransactionID) (views : Views) : Prop where
  waiting : ∀ tx' ∈ tx, ∀ s, (others s).locks.waiting tx' = s.locks.waiting tx'
  world   : ∀ {spare pins s}, World tx views spare pins s → World tx views spare pins (others s)

namespace World

theorem perm (hw : World tx views spare pins s) (hp : own.Perm pins) : World tx views spare own s := by
  obtain ⟨⟨frame, hs, hl⟩, hg⟩ := hw
  have hp := hp.append_right frame
  exact ⟨⟨frame, hs.perm hp, hp.length_eq ▸ hl⟩, hg⟩

theorem locks {locks : LockManager} (hw : World tx views spare pins s)
    (hl : ∀ tx' ∈ tx, (locks.txs tx').state = (s.locks.txs tx').state) :
    World tx views spare pins { s with locks := locks } :=
  ⟨hw.shows, fun tx' h => (hl tx' h).trans <| hw.growing tx' h⟩

theorem room (hs : (pins ++ frame).length + spare < 4294967296) (hn : 0 < spare) (q : PageID) :
    pinsOn (pins ++ frame) q + 1 < 4294967296 := by
  have := pinsOn_le (pins ++ frame) q
  omega

-- The locks are the same, and the pins are others.
theorem change {frame : List Pin} (hg : ∀ tx' ∈ tx, s.state tx' = .growing) (hl : t.locks = s.locks)
    (hs : t.database.Shows (own ++ frame) views) (hn : (own ++ frame).length + spare < 4294967296) :
    World tx views spare own t :=
  ⟨⟨frame, hs, hn⟩, fun tx' h => (congrArg (fun l => (l.txs tx').state) hl).trans <| hg tx' h⟩

end World

namespace Database

theorem lost_of_denied (h : s.database.denied = true) : s.lost tx = true := by
  rw [lost, h, Bool.true_or]

theorem lost_congr (hl : t.locks = s.locks) (hd : t.database.denied = s.database.denied) : t.lost tx = s.lost tx := by
  simp only [lost, hd, TransactionManager.state, hl]

theorem lost_of_state {tx : TransactionID} (h : s.state tx ≠ .growing) : s.lost (some tx) = true := by
  simp [lost, h]

-- The lock is granted, unless the call comes out of time.
theorem lockShared_ends (hu : Undisturbed others tx views) (hw : World tx views spare pins s) :
    (lockShared others tx rid).Ends s fun result t => (result = .ok false ∧ t.lost tx = true) ∨
      (result = .ok true ∧ World tx views spare pins t) := by
  cases tx
  case none    => exact .pure <| .inr ⟨rfl, hw⟩
  case some tx =>
    have hg := hw.growing tx rfl
    by_cases hl : rid ∈ (s.locks.txs tx).sharedLocks ∨ rid ∈ (s.locks.txs tx).exclusiveLocks
    case pos =>
      have h : s.locks.lockShared tx rid = (some true, s.locks) := (if_neg <| not_not.mpr hg).trans <| if_pos hl
      refine .call ?_
      simp only [h]
      exact .inr ⟨trivial, hw⟩
    case neg =>
      have he : World (some tx) views spare pins { s with locks := s.locks.enqueue tx rid .shared } :=
        hw.locks fun _ _ => rfl
      have hq : (s.locks.enqueue tx rid .shared).waiting tx = _ := LockManager.enqueue_waiting
      have h : s.locks.lockShared tx rid = (s.locks.enqueue tx rid .shared).wake tx :=
        (if_neg <| not_not.mpr hg).trans <| if_neg hl
      refine .call ?_
      simp only [h]
      obtain h | h := LockManager.wake_granted hq
      · simp only [h]
        exact .inr ⟨trivial, he.locks fun _ h => Option.some.inj h ▸ LockManager.grant_state⟩
      · simp only [h]
        have ho := hu.world he
        have hq := (hu.waiting tx rfl { s with locks := s.locks.enqueue tx rid .shared }).trans hq
        obtain h | h := LockManager.timeOut_granted hq
        · simp only [h]
          exact .inr ⟨rfl, ho.locks fun _ h => Option.some.inj h ▸ LockManager.grant_state⟩
        · simp only [h]
          exact .inl ⟨rfl, lost_of_state <| LockManager.giveUp_state.trans_ne nofun⟩

end Database

-- A tuple of the table as a scan gives it.
def Table.record (table : Table) (bytes : List UInt8) : Except String Record :=
  (fun tuple => ⟨tuple.values⟩) <$> (Tuple.deserialize bytes table.schema).mapError fun
    | .outside => readOutside
    | .error e => e

namespace SequentialScanOperator

open Database

variable {table : Table} {scan : Table.Scan} {items : List NestedLoopJoin.Item}

structure Holds (of : Table) (by' : Option TransactionID) (views : Views) (scan : Table.Scan) (own : List Pin)
    (items : List NestedLoopJoin.Item) : Prop where
  table  : scan.table = of
  tx     : scan.tx = by'
  placed : ∃ pin tuples, own = [pin] ∧ scan.heapScan.Placed pin views tuples ∧
    tuples.map (fun row => of.record row.2) = items

theorem onDatabase_ends {x : DatabaseM α} {P : Except String α → Database → Prop} (h : x.Ends s P) :
    (onDatabase x).Ends (s, scan) fun result t => P result t.1 ∧ t.2 = scan :=
  .on <| h.mono fun h => ⟨h, rfl⟩

-- The heap does not touch the locks.
theorem onHeap_ends {x : PagerM α} {P : Except String α → Pager → Prop} (h : x.Ends s.database P) :
    (onHeap x).Ends s fun result t => P result t.database ∧ t.locks = s.locks :=
  .on <| h.mono fun h => ⟨h, rfl⟩

theorem decode_ends : (table.decode bytes).Ends s fun result t =>
    (fun tuple => ⟨tuple.values⟩) <$> result = table.record bytes ∧ t = s :=
  .ofExcept ⟨rfl, rfl⟩

theorem nextTuple_ends (hu : Undisturbed others tx views) (hh : Holds table tx views scan own items)
    (hw : World tx views (spare + 1) (own ++ rest) s) :
    (nextTuple others).Ends (s, scan) fun result t => t.1.lost tx = true ∨
      (Option.map (fun row => ⟨row.2.values⟩) <$> result = item items ∧
        Owned (World tx views (spare + 1)) (Holds table tx views) rest items.tail t) := by
  obtain ⟨htable, htx, pin, tuples, rfl, hp, rfl⟩ := hh
  subst htx
  change Ends (onDatabase (lockShared others scan.tx scan.heapScan.nextRid) >>= _) _ _
  refine (onDatabase_ends <| lockShared_ends hu hw).bind ?_ ?_
  case refine_2 =>
    rintro e t ⟨⟨he, -⟩ | ⟨he, -⟩, -⟩ <;> cases he
  rintro _ ⟨t, scan'⟩ ⟨⟨he, hl⟩ | ⟨he, hw⟩, (rfl : scan' = scan)⟩ <;> cases he
  · exact .pure <| .inl hl
  obtain ⟨⟨frame, hs, hlen⟩, hg⟩ : World scan'.tx views (spare + 1) (pin :: rest) t := hw
  obtain ⟨ps, hr⟩ := hp.reading hs
  have hroom (q : PageID) (_ : q ∈ ps) : pinsOn (rest ++ frame) q + 1 < 4294967296 :=
    World.room (by simpa [Nat.add_comm, Nat.add_left_comm] using hlen) (show 0 < spare + 2 by omega) q
  refine (onDatabase_ends <| onHeap_ends <| hr.next_ends hroom).bind ?_ ?_
  case refine_2 =>
    rintro e ⟨u, scan⟩ ⟨⟨⟨hd, -⟩ | ⟨_, _, he, -⟩, -⟩, -⟩
    · exact .inl <| lost_of_denied hd
    · cases he
  rintro ⟨row, heapScan⟩ ⟨u, scan⟩ ⟨⟨⟨hd, hn⟩ | ⟨_, ps', he, hr, -⟩, hut⟩, (rfl : scan = scan')⟩
  · obtain rfl := hn _ rfl
    exact .update_bind <| .pure <| .inl <| lost_of_denied hd
  obtain ⟨rfl, rfl⟩ := Prod.mk.inj <| Except.ok.inj he
  obtain ⟨pin', hp', hs'⟩ := hr.placed
  have hw' : World scan.tx views (spare + 1) (pin' :: rest) u := .change hg hut hs' hlen
  have ho : Owned (World scan.tx views (spare + 1)) (Holds scan.table scan.tx views) rest
      (tuples.tail.map fun row => scan.table.record row.2) (u, { scan with heapScan := heapScan }) :=
    ⟨[pin'], ⟨rfl, rfl, pin', _, rfl, hp', rfl⟩, hw'⟩
  subst htable
  refine .update_bind ?_
  obtain _ | ⟨⟨rid, bytes⟩, tuples⟩ := tuples
  · exact .pure <| .inr ⟨rfl, ho⟩
  · change Ends (onDatabase (scan.table.decode bytes) >>= _) _ _
    refine (onDatabase_ends decode_ends).bind ?_ ?_
    · rintro tuple v ⟨⟨hd, hv₁⟩, hv₂⟩
      obtain rfl : v = (u, { scan with heapScan := heapScan }) := Prod.ext hv₁ hv₂
      exact .pure <| .inr ⟨by rw [List.map_cons, ←hd]; rfl, ho⟩
    · rintro e v ⟨⟨hd, hv₁⟩, hv₂⟩
      obtain rfl : v = (u, { scan with heapScan := heapScan }) := Prod.ext hv₁ hv₂
      exact .inr ⟨by rw [List.map_cons, ←hd]; rfl, ho⟩

theorem next_ends (hu : Undisturbed others tx views) (hh : Holds table tx views scan own items)
    (hw : World tx views (spare + 1) (own ++ rest) s) :
    (next others).Ends (s, scan) fun result t => t.1.lost tx = true ∨
      (result = item items ∧ Owned (World tx views (spare + 1)) (Holds table tx views) rest items.tail t) := by
  refine (nextTuple_ends hu hh hw).bind ?_ ?_
  · rintro (_ | ⟨_, tuple⟩) t ht
    · exact .pure ht
    · exact .pure ht
  · exact fun ht => ht

-- The table is a chain of pages.
def Chained (views : Views) (heap : TableHeap) (ps : List PageID) : Prop :=
  Linked views heap.firstPageId ps ∧ heap.firstPageId ≠ invalidPageID

theorem create_ends (hc : Chained views table.heap ps) (hw : World tx views (spare + 1) rest s) :
    (create table tx).Ends s fun result t => t.lost tx = true ∨ ∃ scan own, result = .ok scan ∧
      Holds table tx views scan own ((rows views ps 0).map fun row => table.record row.2) ∧
      World tx views spare (own ++ rest) t := by
  obtain ⟨⟨frame, hs, hlen⟩, hg⟩ := hw
  have hroom (q : PageID) (_ : q ∈ ps) := World.room hlen spare.succ_pos q
  have hscan : (table.scan tx).Ends s.database fun result t => t.Unless <| ∃ scan, result = .ok ⟨scan, table, tx⟩ ∧
      scan.Reads t (rest ++ frame) views ps (rows views ps 0) := by
    refine (TableHeap.Scan.scan_reads hs hc.1 hc.2 hroom).bind ?_ ?_
    · rintro scan t (hd | ⟨_, he, hr⟩)
      · exact .pure <| .inl hd
      · obtain rfl := Except.ok.inj he
        exact .pure <| .inr ⟨scan, rfl, hr⟩
    · rintro e t (hd | ⟨_, he, _⟩)
      · exact .inl hd
      · cases he
  refine (onHeap_ends hscan).mono ?_
  rintro result t ⟨hd | ⟨scan, rfl, hr⟩, ht⟩
  · exact .inl <| lost_of_denied hd
  · obtain ⟨pin, hp, hs⟩ := hr.placed
    refine .inr ⟨_, [pin], rfl, ⟨rfl, rfl, pin, _, rfl, hp, rfl⟩, .change hg ht hs ?_⟩
    simpa [Nat.add_assoc, Nat.add_comm, Nat.add_left_comm] using hlen

-- What is lost stays so.
theorem create_lost {tx' : Option TransactionID} (hl : s.lost tx = true) :
    (create table tx').Ends s fun _ t => t.lost tx = true := by
  have hf : (Pager.fetchPage table.heap.firstPageId).Ends s.database fun _ t => s.database.denied = true → t.denied = true := by
    refine .call fun hd => ?_
    split
    · exact hd
    · rfl
  have hs : table.heap.scan.Ends s.database fun _ t => s.database.denied = true → t.denied = true :=
    hf.bind (fun h => .pure h) id
  have ht : (table.scan tx').Ends s.database fun _ t => s.database.denied = true → t.denied = true :=
    hs.bind (fun h => .pure h) id
  refine (onHeap_ends ht).mono ?_
  rintro _ t ⟨hd, hlocks⟩
  simp only [lost, Bool.or_eq_true, TransactionManager.state, hlocks] at hl ⊢
  exact hl.imp_left hd

theorem reset_ends (hc : Chained views table.heap ps) (hh : Holds table tx views scan own items)
    (hw : World tx views (spare + 1) (own ++ rest) s) :
    (reset table tx).Ends (s, scan) fun result t => t.1.lost tx = true ∨
      (result = .ok () ∧ Owned (World tx views (spare + 1)) (Holds table tx views) rest
        ((rows views ps 0).map fun row => table.record row.2) t) := by
  obtain ⟨-, -, pin, tuples, rfl, hp, -⟩ := hh
  refine (onDatabase_ends <| create_ends hc hw).bind ?_ ?_
  · rintro scan' ⟨t, scan''⟩ ⟨hl, (rfl : scan'' = scan)⟩
    refine .read_bind <| .update_bind <| (onDatabase_ends <| onHeap_ends hp.close_ends).mono ?_
    rintro result ⟨u, scan⟩ ⟨⟨⟨rfl, hd, hs⟩, hu⟩, (rfl : scan = scan')⟩
    obtain hl | ⟨_, own', he, hh, ⟨frame, hs', hlen⟩, hg⟩ := hl
    · exact .inl <| (lost_congr hu hd).trans hl
    · obtain rfl := Except.ok.inj he
      have hp : (pin :: (own' ++ rest ++ frame)).Perm (own' ++ ([pin] ++ rest) ++ frame) := by
        simpa using List.perm_middle.symm
      refine .inr ⟨rfl, own', hh, .change hg hu (hs (hs'.perm hp)) ?_⟩
      · simpa [Nat.add_assoc, Nat.add_comm, Nat.add_left_comm] using hlen
  · rintro e t ⟨hl | ⟨_, _, he, _⟩, -⟩
    · exact .inl hl
    · cases he

-- The cursor that gives up once the call has lost something.
def watched (others : Database → Database) (table : Table) (tx : Option TransactionID) :
    Cursor (Database × Table.Scan) String Record :=
  (cursor others table tx).givingUp (lost tx ∘ Prod.fst) "lost"

theorem streams (hu : Undisturbed others tx views) (hc : Chained views table.heap ps) :
    Streams (lost tx ∘ Prod.fst) (watched others table tx) (cursor others table tx)
      ((rows views ps 0).map fun row => table.record row.2)
      (Owned (World tx views (spare + 1)) (Holds table tx views) rest) where
  reset := by
    rintro items ⟨s, scan⟩ ⟨own, hh, hw⟩
    exact .givingUp <| reset_ends hc hh hw
  next  := by
    rintro items ⟨s, scan⟩ ⟨own, hh, hw⟩
    exact .givingUp <| next_ends hu hh hw

end SequentialScanOperator
end Duck
