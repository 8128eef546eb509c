import Duck.Query.QueryEngine
import Duck.Query.Theorems.Answers

namespace Duck

open Binder NestedLoopJoin

variable {getTable : Name → Except String (Option Table)} {query : SelectQuery} {q : BoundQuery} {ref : TableRef}
variable {views : Views} {contents : Table → List Record} {tables : List Table} {plan : LogicalPlanNode}
variable {tx : Option TransactionID} {others : Database → Database} {items : Table → List Item}

-- The tables are chains of pages with these tuples.
def Contains (views : Views) (items : Table → List Item) (tables : List Table) : Prop :=
  ∀ table ∈ tables, ∃ ps, SequentialScanOperator.Chained views table.heap ps ∧
    (rows views ps 0).map (fun row => table.record row.2) = items table

-- All the tuples can be read.
abbrev readable (contents : Table → List Record) (table : Table) : List Item :=
  (contents table).map .ok

namespace Contains

theorem filled (h : Contains views (readable contents) tables) : Filled contents tables := by
  intro table ht r hr
  obtain ⟨ps, -, hrows⟩ := h table ht
  have hm : Except.ok r ∈ (rows views ps 0).map fun row => table.record row.2 :=
    hrows ▸ List.mem_map.mpr ⟨r, hr, rfl⟩
  obtain ⟨row, -, hrow⟩ := List.mem_map.mp hm
  obtain ⟨tuple, htuple, rfl⟩ := Except.map_eq_ok.mp hrow
  have hd : Tuple.deserialize row.2 table.schema = .ok tuple := by
    cases hd : Tuple.deserialize row.2 table.schema
    case error e  =>
      rw [hd] at htuple
      cases htuple
    case ok tuple' =>
      rw [hd] at htuple
      cases htuple
      rfl
  exact (Tuple.deserialize_fits hd).length_eq

theorem joined (h : Contains views items q.tables) (hn : n ≤ q.joins.length) (hj : q.joined n = .ok plan) :
    (Optimizer.optimize plan).Stores views items ∧ (Optimizer.optimize plan).scans = n + 1 := by
  induction n generalizing plan
  case zero      =>
    cases hj
    exact ⟨h _ List.mem_cons_self, rfl⟩
  case succ n ih =>
    have hjoin := List.getElem?_eq_getElem hn
    rw [BoundQuery.joined_succ hjoin] at hj
    obtain ⟨before, hb, hj⟩ := Except.bind_eq_ok.mp hj
    obtain ⟨schema, -, hj⟩ := Except.bind_eq_ok.mp hj
    cases hj
    obtain ⟨hs, hc⟩ := ih (Nat.le_of_lt hn) hb
    have ht := h _ <| List.mem_of_getElem? <| BoundQuery.tables_getElem? hjoin
    exact ⟨⟨hs, ht⟩, congrArg (· + 1) hc⟩

theorem optimized (h : Contains views items q.tables) (hp : q.plan = .ok plan) :
    (Optimizer.optimize plan).Stores views items ∧ (Optimizer.optimize plan).scans = q.tables.length := by
  obtain ⟨joined, hj, projected, hprojected, rfl⟩ := plan_eq_ok.mp hp
  have hj : q.joined q.joins.length = .ok joined := by
    rw [BoundQuery.joined, List.take_length]
    exact hj
  have hjoined := h.joined (Nat.le_refl _) hj
  rw [←q.tables_length] at hjoined
  have hfiltered : (Optimizer.optimize (q.predicate.elim joined (.filter joined))).Stores views items ∧
      (Optimizer.optimize (q.predicate.elim joined (.filter joined))).scans = q.tables.length := by
    cases q.predicate <;> exact hjoined
  have hlimited : (Optimizer.optimize projected).Stores views items ∧ (Optimizer.optimize projected).scans = q.tables.length := by
    cases hc : q.columns
    case none    =>
      rw [hc] at hprojected
      cases hprojected
      exact hfiltered
    case some is =>
      rw [hc] at hprojected
      obtain ⟨schema, -, he⟩ := Except.bind_eq_ok.mp hprojected
      cases he
      exact hfiltered
  cases q.limit <;> exact hlimited

end Contains

theorem Binder.Resolves.tables_eq (h : Resolves getTable query q)
    (ht : List.Forall₂ (fun ref table => getTable ref.name = .ok (some table)) query.tableRefs tables) : tables = q.tables := by
  obtain ⟨ref, hq, htable⟩ := h.table
  have hjoins : List.Forall₂ (fun ref table => getTable ref.name = .ok (some table)) query.tableRefs q.tables := by
    rw [SelectQuery.tableRefs, hq, BoundQuery.tables]
    exact .cons htable <| List.forall₂_map_left_iff.mpr <| List.forall₂_map_right_iff.mpr h.joins
  have hunique : Relator.RightUnique fun (ref : TableRef) table => getTable ref.name = .ok (some table) :=
    fun _ _ _ h h' => Option.some.inj <| Except.ok.inj <| h.symm.trans h'
  exact List.right_unique_forall₂' hunique ht hjoins

namespace QueryEngine

variable {s : Database}

theorem execute_gives (hu : Undisturbed others tx views) (hp : bind getTable query = .ok plan)
    (hs : (Optimizer.optimize plan).Stores views items) (hw : World tx views ((Optimizer.optimize plan).scans + 1) [] s) :
    (execute getTable query tx).Ends s fun result t => t.lost tx = true ∨
      ∃ p, result = .ok p ∧ Executor.Gives others tx ((Optimizer.optimize plan).items items) p t := by
  refine Program.Ends.bind (.ofExcept (Q := fun result t => result = .ok plan ∧ t = s) ⟨hp, rfl⟩) ?_ ?_
  · rintro _ _ ⟨he, rfl⟩
    cases he
    exact Executor.build_gives hu hs hw
  · rintro _ _ ⟨he, -⟩
    cases he

-- What a query gives of tables with any tuples, as long as the program does not end. An exception is what one call
-- gives, and the next calls go on behind it.
theorem execute_items (hu : Undisturbed others tx views) (hp : bind getTable query = .ok plan)
    (ht : List.Forall₂ (fun ref table => getTable ref.name = .ok (some table)) query.tableRefs tables)
    (hc : Contains views items tables) (hw : World tx views (tables.length + 1) [] s) :
    (execute getTable query tx).Ends s fun result t => t.lost tx = true ∨
      ∃ p, result = .ok p ∧ Executor.GivesUntilAborted others tx ((Optimizer.optimize plan).items items) p t := by
  obtain ⟨q, hr, hq⟩ := bind_eq_ok.mp hp
  obtain rfl := hr.tables_eq ht
  obtain ⟨hstores, hscans⟩ := hc.optimized hq
  refine (execute_gives hu hp hstores (hscans.symm ▸ hw)).mono fun h => h.imp_right ?_
  rintro ⟨p, he, hg⟩
  exact ⟨p, he, hg.untilAborted⟩

-- What a query gives once its names are resolved.
theorem resolved_gives (hu : Undisturbed others tx views) (hr : Resolves getTable query q) (hp : q.plan = .ok plan)
    (hc : Contains views (readable contents) q.tables) (hd : query.Defined (query.scope q.tables) (q.tables.map contents)) :
    ∃ all, query.Answers (query.scope q.tables) (q.tables.map contents) all ∧
      ∀ limit s, World tx views (q.tables.length + 1) [] s →
        (execute getTable { query with limit := limit } tx).Ends s fun result t => t.lost tx = true ∨
          ∃ p, result = .ok p ∧ Executor.Gives others tx ((limit.elim all all.take).map .ok) p t := by
  obtain ⟨ref, hq, -⟩ := hr.table
  obtain ⟨joined, hj, projected, hprojected, -⟩ := plan_eq_ok.mp hp
  have hplan (limit : Option ℕ) : { q with limit := limit }.plan = .ok (limit.elim projected (.limit projected)) :=
    plan_eq_ok.mpr ⟨joined, hj, projected, hprojected, rfl⟩
  have hunlimited : { q with limit := none }.plan = .ok projected := hplan none
  obtain ⟨hanswers, hdefined⟩ := hr.answers hq hc.filled hd hunlimited
  refine ⟨_, hanswers, fun limit s hw => ?_⟩
  have hbind : bind getTable { query with limit := limit } = .ok (limit.elim projected (.limit projected)) :=
    bind_eq_ok.mpr ⟨{ q with limit := limit }, ⟨hr.table, hr.joins, hr.ons, hr.where_, hr.columns, rfl⟩, hplan limit⟩
  obtain ⟨hstores, hscans⟩ := Contains.optimized (q := { q with limit := limit }) hc (hplan limit)
  have hitems : (Optimizer.optimize (limit.elim projected (.limit projected))).items (readable contents) =
      (limit.elim ((Optimizer.optimize projected).rows contents) ((Optimizer.optimize projected).rows contents).take).map .ok := by
    have hitems := PhysicalPlanNode.items_eq hdefined
    cases limit
    case none   => exact hitems
    case some n => exact (congrArg (List.take n) hitems).trans List.map_take.symm
  rw [←hitems]
  refine execute_gives hu hbind hstores ?_
  rw [hscans]
  exact hw

-- A query on tables that can be read gives all that it means, in one order whatever its LIMIT is.
theorem execute_answers (hu : Undisturbed others tx views) (hp : bind getTable query = .ok plan)
    (ht : List.Forall₂ (fun ref table => getTable ref.name = .ok (some table)) query.tableRefs tables)
    (hc : Contains views (readable contents) tables) (hd : query.Defined (query.scope tables) (tables.map contents)) :
    ∃ all, query.Answers (query.scope tables) (tables.map contents) all ∧
      ∀ limit s, World tx views (tables.length + 1) [] s →
        (execute getTable { query with limit := limit } tx).Ends s fun result t => t.lost tx = true ∨
          ∃ p, result = .ok p ∧ Executor.Gives others tx ((limit.elim all all.take).map .ok) p t := by
  obtain ⟨q, hr, hp⟩ := bind_eq_ok.mp hp
  obtain rfl := hr.tables_eq ht
  exact resolved_gives hu hr hp hc hd

-- A table with one record, before a transaction that has begun.
theorem someTable_contains : ∃ views s, World (some 0) views 3 [] s ∧
    Contains views (readable fun _ => [⟨[.int32 1]⟩]) [someTable, someTable] := by
  have e : TableHeap.insertTuple ⟨1⟩ [0, 1, 0, 0, 0] TableHeap.fresh =
      some (.ok (some ⟨1, 0⟩), TableHeap.after (TableHeap.turn [0, 1, 0, 0, 0]) TableHeap.fresh) :=
    TableHeap.insertFrom_here (f := 0) rfl rfl
  obtain ⟨views, s, hw, hc, hrows⟩ := Executor.stocked (by decide) e rfl
  refine ⟨views, s, hw, fun table hm => ?_⟩
  obtain rfl : table = someTable := by simpa using hm
  refine ⟨[1], hc, ?_⟩
  rw [hrows]
  rfl

-- Every name is that of the table.
def someCatalog (_ : Name) : Except String (Option Table) :=
  .ok (some someTable)

theorem selfJoin_tables : List.Forall₂ (fun ref table => someCatalog ref.name = .ok (some table)) selfJoin.tableRefs
    [someTable, someTable] := by
  have hrefs : selfJoin.tableRefs = [⟨[116], none⟩, ⟨[116], some [117]⟩] := rfl
  rw [hrefs]
  exact .cons rfl (.cons rfl .nil)

-- A query that joins the table with itself.
theorem execute_items_selfJoin : ∃ plan views s, bind someCatalog selfJoin = .ok plan ∧ World (some 0) views 3 [] s ∧
    (execute someCatalog selfJoin (some 0)).Ends s fun result t => t.lost (some 0) = true ∨
      ∃ p, result = .ok p ∧
        Executor.GivesUntilAborted id (some 0) ((Optimizer.optimize plan).items (readable fun _ => [⟨[.int32 1]⟩])) p t := by
  obtain ⟨views, s, hw, hc⟩ := someTable_contains
  exact ⟨_, views, s, rfl, hw, execute_items ⟨fun _ _ _ => rfl, id⟩ rfl selfJoin_tables hc hw⟩

theorem execute_answers_selfJoin : ∃ views s all, World (some 0) views 3 [] s ∧
    selfJoin.Answers (selfJoin.scope [someTable, someTable]) [[⟨[.int32 1]⟩], [⟨[.int32 1]⟩]] all ∧
      ∀ limit s, World (some 0) views 3 [] s →
      (execute someCatalog { selfJoin with limit := limit } (some 0)).Ends s fun result t => t.lost (some 0) = true ∨
        ∃ p, result = .ok p ∧ Executor.Gives id (some 0) ((limit.elim all all.take).map .ok) p t := by
  obtain ⟨views, s, hw, hc⟩ := someTable_contains
  have hd : selfJoin.Defined (selfJoin.scope [someTable, someTable]) [[⟨[.int32 1]⟩], [⟨[.int32 1]⟩]] := by
    refine ⟨fun k clause hk records hr _ => ?_, .inl rfl⟩
    cases k
    case succ => cases hk
    case zero =>
      obtain rfl := Option.some.inj hk
      obtain rfl : records = [⟨[.int32 1]⟩, ⟨[.int32 1]⟩] := List.mem_singleton.mp hr
      have hb : Bound (selfJoin.scope [someTable, someTable])
          (.comparison (.column ⟨some [116], [97]⟩) .equal (.column ⟨some [117], [97]⟩))
          (.comparison (.column 0) .equal (.column 1)) := bindExpression_context.mp rfl
      exact ⟨.bool true, (SelectQuery.evaluates_iff hb (.cons rfl (.cons rfl .nil))).mpr rfl, rfl⟩
  obtain ⟨all, ha, he⟩ := execute_answers ⟨fun _ _ _ => rfl, id⟩ rfl selfJoin_tables hc hd
  exact ⟨views, s, all, hw, ha, he⟩

end QueryEngine

end Duck
