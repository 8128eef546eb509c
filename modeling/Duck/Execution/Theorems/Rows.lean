import Duck.Execution.Theorems.Executor
import Mathlib.Data.List.Perm.Basic

namespace Duck

open Program Cursor NestedLoopJoin

variable {tx : Option TransactionID} {views : Views} {others : Database → Database} {s t : Database}
variable {plan : PhysicalPlanNode} {predicate : Predicate}

namespace PhysicalPlanNode

-- What the plan gives, exceptions among it, from what its tables give.
def items (tables : Table → List Item) : PhysicalPlanNode → List Item
  | sequentialScan table                => tables table
  | nestedLoopJoin left right predicate _ => leftItems predicate.predicate (right.items tables) (left.items tables)
  | filter child predicate              => (child.items tables).filterMap (FilterOperator.pass predicate.predicate)
  | projection child columns _          => (child.items tables).map (· >>= ProjectionOperator.project columns)
  | limit child count                   => (child.items tables).take count

-- The tuples of the tables, as they are read from their chains of pages.
def Stores (views : Views) (tables : Table → List Item) : PhysicalPlanNode → Prop
  | sequentialScan table         => ∃ ps, SequentialScanOperator.Chained views table.heap ps ∧
    (Duck.rows views ps 0).map (fun row => table.record row.2) = tables table
  | nestedLoopJoin left right .. => left.Stores views tables ∧ right.Stores views tables
  | filter child _               => child.Stores views tables
  | projection child ..          => child.Stores views tables
  | limit child _                => child.Stores views tables

-- What the plan gives where nothing throws.
def rows (tables : Table → List Record) : PhysicalPlanNode → List Record
  | sequentialScan table                => tables table
  | nestedLoopJoin left right predicate _ => joined predicate.predicate (left.rows tables) (right.rows tables)
  | filter child predicate              => (child.rows tables).filter (predicate.predicate.accepts · = .ok true)
  | projection child columns _          => (child.rows tables).filterMap (ProjectionOperator.project columns · |>.toOption)
  | limit child count                   => (child.rows tables).take count

-- Nothing that the plan asks of a record throws.
def Defined (tables : Table → List Record) : PhysicalPlanNode → Prop
  | sequentialScan _                    => True
  | nestedLoopJoin left right predicate _ => left.Defined tables ∧ right.Defined tables ∧
    ∀ l ∈ left.rows tables, ∀ r ∈ right.rows tables, ∃ b, predicate.predicate.accepts (l + r) = .ok b
  | filter child predicate              => child.Defined tables ∧
    ∀ r ∈ child.rows tables, ∃ b, predicate.predicate.accepts r = .ok b
  | projection child columns _          => child.Defined tables ∧
    ∀ r ∈ child.rows tables, ∃ record, ProjectionOperator.project columns r = .ok record
  | limit child _                       => child.Defined tables

variable {tables : Table → List Record}

theorem filterMap_pass {rs : List Record} (h : ∀ r ∈ rs, ∃ b, predicate.accepts r = .ok b) :
    (rs.map Except.ok).filterMap (FilterOperator.pass predicate) =
      (rs.filter (predicate.accepts · = .ok true)).map Except.ok := by
  induction rs
  case nil          => rfl
  case cons r rs ih =>
    have ih := ih fun r hr => h r <| List.mem_cons_of_mem _ hr
    obtain ⟨b, hb⟩ := h r List.mem_cons_self
    rw [List.map_cons, List.filter_cons]
    cases b
    case false =>
      rw [List.filterMap_cons_none (by rw [FilterOperator.pass, hb]), ih, hb, if_neg (by decide)]
    case true  =>
      rw [List.filterMap_cons_some (b := .ok r) (by rw [FilterOperator.pass, hb]), ih, hb, if_pos (by decide), List.map_cons]

theorem map_project {rs : List Record} {columns : List ℕ}
    (h : ∀ r ∈ rs, ∃ record, ProjectionOperator.project columns r = .ok record) :
    ((rs.map Except.ok).map (· >>= ProjectionOperator.project columns) : List Item) =
      (rs.filterMap (ProjectionOperator.project columns · |>.toOption)).map Except.ok := by
  induction rs
  case nil          => rfl
  case cons r rs ih =>
    have ih := ih fun r hr => h r <| List.mem_cons_of_mem _ hr
    obtain ⟨record, hb⟩ := h r List.mem_cons_self
    rw [List.map_cons, List.map_cons, ih, List.filterMap_cons_some (b := record) (by rw [hb]; rfl), List.map_cons,
      Except.ok_bind, hb]

theorem items_eq (hd : plan.Defined tables) : plan.items (fun table => (tables table).map .ok) = (plan.rows tables).map .ok := by
  induction plan
  case sequentialScan                                          => rfl
  case nestedLoopJoin left right predicate schema ihl ihr      =>
    obtain ⟨hl, hr, ha⟩ := hd
    rw [items, rows, ihl hl, ihr hr, leftItems_eq _ _ ha]
  case filter child predicate ih                               =>
    obtain ⟨hc, ha⟩ := hd
    rw [items, rows, ih hc, filterMap_pass ha]
  case projection child columns schema ih                      =>
    obtain ⟨hc, ha⟩ := hd
    rw [items, rows, ih hc, map_project ha]
  case limit child count ih                                    => rw [items, rows, ih hd, List.map_take]

end PhysicalPlanNode

namespace Executor

theorem runs_items {tables : Table → List Item} (hu : Undisturbed others tx views) (hp : plan.Stores views tables) :
    ∃ holds, (operator tx plan).Runs others tx views plan.scans (plan.items tables) holds := by
  induction plan
  case sequentialScan table                               =>
    obtain ⟨ps, hc, ht⟩ := hp
    rw [PhysicalPlanNode.items, ←ht]
    exact ⟨_, SequentialScanOperator.streams hu hc, SequentialScanOperator.create_ends hc⟩
  case nestedLoopJoin left right predicate schema ihl ihr =>
    obtain ⟨_, hl⟩ := ihl hp.1
    obtain ⟨_, hr⟩ := ihr hp.2
    exact ⟨_, hl.nestedLoopJoin hr predicate schema⟩
  case filter child predicate ih                          =>
    obtain ⟨_, h⟩ := ih hp
    exact ⟨_, h.filter predicate⟩
  case projection child columns schema ih                 =>
    obtain ⟨_, h⟩ := ih hp
    exact ⟨_, h.projection columns schema⟩
  case limit child count ih                               =>
    obtain ⟨_, h⟩ := ih hp
    exact ⟨_, h.limit count⟩

-- Whatever is called, the tree gives these items one after the other, and all of them again after a reset.
def Gives (others : Database → Database) (tx : Option TransactionID) (items : List Item) (p : Σ op : Operator, op.State)
    (s : Database) : Prop :=
  ∀ calls, RunLoses others tx p.1 calls (s, p.2) ∨
    ∃ t, (p.1.cursor others).run calls (s, p.2) = some (answers items items calls, t)

-- What ends the program: an assertion that fails, or a read outside the bytes of a tuple.
def Aborts (e : String) : Prop :=
  e = Predicate.assertFailed ∨ e = Table.readOutside

-- The same for calls none of which ends the program.
def GivesUntilAborted (others : Database → Database) (tx : Option TransactionID) (items : List Item)
    (p : Σ op : Operator, op.State) (s : Database) : Prop :=
  ∀ calls, (∀ e, .error e ∈ answers items items calls → ¬Aborts e) → RunLoses others tx p.1 calls (s, p.2) ∨
    ∃ t, (p.1.cursor others).run calls (s, p.2) = some (answers items items calls, t)

theorem Gives.untilAborted {items : List Item} {p : Σ op : Operator, op.State} (h : Gives others tx items p s) :
    GivesUntilAborted others tx items p s :=
  fun calls _ => h calls

theorem build_gives {tables : Table → List Item} (hu : Undisturbed others tx views) (hp : plan.Stores views tables)
    (hw : World tx views (plan.scans + 1) [] s) : (build tx plan).Ends s fun result t => t.lost tx = true ∨
      ∃ p, result = .ok p ∧ Gives others tx (plan.items tables) p t := by
  obtain ⟨holds, hr⟩ := runs_items hu hp
  refine (build_ends hr hw).mono fun h => h.imp_right ?_
  rintro ⟨st, rfl, ho⟩
  exact ⟨_, rfl, fun calls => (hr.streams.run ho calls).imp_right fun ⟨u, hx, _⟩ => ⟨u, hx⟩⟩

end Executor

namespace NestedLoopJoin

theorem flatten_blocks (ls : List Record) : (blocks ls).flatten = ls := by
  by_cases hl : ls = []
  case pos => rw [hl, blocks, if_pos rfl, List.flatten_nil]
  case neg => rw [blocks_cons hl, List.flatten_cons, flatten_blocks (ls.drop kBlockSize), List.take_append_drop]
termination_by ls.length
decreasing_by exact drop_lt hl

-- What a left record gives with the right ones.
def partners (predicate : Predicate) (rs : List Record) (left : Record) : List Record :=
  (rs.filter fun right => predicate.accepts (left + right) = .ok true).map (left + ·)

theorem joinedBlock_perm (predicate : Predicate) (rs block : List Record) :
    (joinedBlock predicate rs block).Perm (block.flatMap (partners predicate rs)) := by
  induction block
  case nil             =>
    rw [joinedBlock, List.flatMap_nil]
    exact .of_eq <| List.flatMap_eq_nil_iff.mpr fun _ _ => rfl
  case cons l block ih =>
    have hl : partners predicate rs l =
        rs.flatMap fun right => if predicate.accepts (l + right) = .ok true then [l + right] else [] := by
      rw [partners]
      clear ih
      induction rs
      case nil          => rfl
      case cons r rs ih =>
        rw [List.filter_cons, List.flatMap_cons, ←ih]
        split <;> simp_all
    have hr (right : Record) : ((l :: block).filter fun left => predicate.accepts (left + right) = .ok true).map (· + right) =
        (if predicate.accepts (l + right) = .ok true then [l + right] else []) ++
          (block.filter fun left => predicate.accepts (left + right) = .ok true).map (· + right) := by
      rw [List.filter_cons]
      split <;> simp_all
    rw [joinedBlock, List.flatMap_congr fun right _ => hr right, List.flatMap_cons, hl]
    exact (List.flatMap_append_perm ..).symm.trans <| ih.append_left _

-- The blocks change the order of the records only.
theorem joined_perm (predicate : Predicate) (ls rs : List Record) :
    (joined predicate ls rs).Perm (ls.flatMap (partners predicate rs)) := by
  nth_rewrite 2 [←flatten_blocks ls]
  rw [joined, List.flatten_eq_flatMap, List.flatMap_assoc]
  exact List.Perm.flatMap_left _ fun block _ => joinedBlock_perm predicate rs block

end NestedLoopJoin
end Duck
