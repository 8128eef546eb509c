import Duck.Execution.Theorems.TypeSafety
import Duck.Query.Theorems.Resolution

namespace Duck

open Program Cursor

variable {tx : Option TransactionID} {others : Database → Database} {plan joined : LogicalPlanNode}

theorem Optimizer.optimize_outputSchema (plan : LogicalPlanNode) : (optimize plan).outputSchema = plan.outputSchema := by
  induction plan
  case filter ih => exact ih
  case limit ih  => exact ih
  all_goals rfl

theorem Executor.operator_outputSchema (plan : PhysicalPlanNode) : (operator tx plan).outputSchema = plan.outputSchema := by
  induction plan
  case filter ih => exact ih
  case limit ih  => exact ih
  all_goals rfl

-- The tree of operators of a logical plan.
def LogicalPlanNode.tree (tx : Option TransactionID) (plan : LogicalPlanNode) : Operator :=
  Executor.operator tx (Optimizer.optimize plan)

theorem LogicalPlanNode.tree_outputSchema (tx : Option TransactionID) (plan : LogicalPlanNode) :
    (plan.tree tx).outputSchema = plan.outputSchema := by
  rw [tree, Executor.operator_outputSchema, Optimizer.optimize_outputSchema]

namespace Binder

variable {scope : Scope} {ref : ColumnRef} {clauses : List JoinClause} {joins : List (Table × Expression)}
variable {getTable : Name → Except String (Option Table)}

section indices

theorem Bound.within (h : Bound scope e e') : e'.Within (width scope) := by
  induction h
  case column h                 => exact h.lt
  case constant                 => trivial
  case comparison ihl ihr       => exact ⟨ihl, ihr⟩
  case binary ihl ihr           => exact ⟨ihl, ihr⟩
  case unary ih                 => exact ih

theorem ofJoin_wellTyped {table : Table} {on : Expression} (hp : (plan.tree tx).WellTyped)
    (h : LogicalPlanNode.ofJoin plan (.scan table) on = .ok joined)
    (ho : on.Within (plan.outputSchema.columnCount + table.schema.columnCount)) : (joined.tree tx).WellTyped := by
  have hc := columnCount_ofJoin h
  obtain ⟨schema, hs, h⟩ := Except.bind_eq_ok.mp h
  rw [Schema.append, Schema.ofColumns] at hs
  split_ifs at hs
  cases hs
  cases h
  refine ⟨hp, trivial, ?_, ?_⟩
  · have ht := LogicalPlanNode.tree_outputSchema tx plan
    rw [LogicalPlanNode.tree] at ht
    rw [ht]
    rfl
  · exact hc.symm ▸ ho

theorem foldlM_wellTyped (hj : JoinsTo getTable scope clauses joins) (hp : (plan.tree tx).WellTyped)
    (hw : plan.outputSchema.columnCount = width scope)
    (h : joins.foldlM (fun plan join => LogicalPlanNode.ofJoin plan (.scan join.1) join.2) plan = .ok joined) :
    (joined.tree tx).WellTyped := by
  induction hj generalizing plan
  case nil =>
    cases h
    exact hp
  case cons scope clauses joins clause join ht ho hj ih =>
    obtain ⟨next, hn, h⟩ := Except.bind_eq_ok.mp h
    have hwidth : width (scope ++ [entry clause.table join.1]) = plan.outputSchema.columnCount + join.1.schema.columnCount := by
      rw [hw, width, start_concat]
      rfl
    exact ih (ofJoin_wellTyped hp hn (hwidth ▸ ho.within)) ((columnCount_ofJoin hn).trans hwidth.symm) h

theorem mapM_column {s : Schema} {is : List ℕ} (h : is.mapM s.column = .ok cs) :
    List.Forall₂ (fun i c => s.columns[i]? = some c) is cs := by
  induction is generalizing cs
  case nil =>
    cases h
    exact .nil
  case cons i is ih =>
    rw [List.mapM_cons] at h
    obtain ⟨c, hc, h⟩ := Except.bind_eq_ok.mp h
    obtain ⟨cs, hcs, h⟩ := Except.bind_eq_ok.mp h
    cases h
    refine .cons ?_ (ih hcs)
    rw [Schema.column] at hc
    split at hc
    · cases hc
      assumption
    · cases hc

theorem ofProjection_wellTyped {projected : LogicalPlanNode} (hp : (plan.tree tx).WellTyped)
    (h : LogicalPlanNode.ofProjection plan is = .ok projected) : (projected.tree tx).WellTyped := by
  obtain ⟨schema, hs, h⟩ := Except.bind_eq_ok.mp h
  obtain ⟨cs, hc, hs⟩ := Except.bind_eq_ok.mp hs
  rw [Schema.ofColumns] at hs
  split_ifs at hs
  cases hs
  cases h
  have hc := mapM_column hc
  rw [←LogicalPlanNode.tree_outputSchema tx] at hc
  exact ⟨hp, hc⟩

theorem filter_wellTyped {predicate : Option Expression} (hp : (plan.tree tx).WellTyped)
    (h : ∀ e ∈ predicate, e.Within plan.outputSchema.columnCount) :
    ((predicate.elim plan (.filter plan)).tree tx).WellTyped := by
  cases predicate
  case none   => exact hp
  case some e =>
    have he := h e rfl
    rw [←LogicalPlanNode.tree_outputSchema tx] at he
    exact ⟨hp, he⟩

-- The plan of a query whose names are resolved.
theorem Resolves.wellTyped {query : SelectQuery} {q : BoundQuery} (h : Resolves getTable query q) (hp : q.plan = .ok plan) :
    (plan.tree tx).WellTyped := by
  obtain ⟨ref, hq, -⟩ := h.table
  obtain ⟨-, hj, hw, -, -⟩ := (resolves_iff hq).mp h
  obtain ⟨joined, hjoined, projected, hproj, rfl⟩ := plan_eq_ok.mp hp
  have hscan : ((LogicalPlanNode.scan q.table).tree tx).WellTyped := trivial
  have hstart : (LogicalPlanNode.scan q.table).outputSchema.columnCount = width [entry ref q.table] := by
    simp [width_eq, entry, LogicalPlanNode.outputSchema]
  have hwt := foldlM_wellTyped hj hscan hstart hjoined
  have hcount := foldlM_columnCount hj hstart hjoined
  have hfiltered : ((q.predicate.elim joined (.filter joined)).tree tx).WellTyped := by
    refine filter_wellTyped hwt fun e he => ?_
    obtain ⟨-, hn⟩ | ⟨e', he', hb⟩ := hw
    · rw [hn] at he
      cases he
    · obtain rfl : e' = e := Option.some.inj (he'.symm.trans he)
      exact hcount ▸ hb.within
  have hprojected : (projected.tree tx).WellTyped := by
    rcases hc : q.columns with _ | is
    · rw [hc] at hproj
      cases hproj
      exact hfiltered
    · rw [hc] at hproj
      exact ofProjection_wellTyped hfiltered hproj
  cases q.limit
  case none => exact hprojected
  case some => exact hprojected

end indices

-- The schemas of the three trees agree, every index is in range, and all that calls of the operators give are
-- records of the schema, and exceptions that do not come from reading a record.
structure TypeSound (others : Database → Database) (tx : Option TransactionID) (plan : LogicalPlanNode) : Prop where
  physical : (Optimizer.optimize plan).outputSchema = plan.outputSchema
  operator : (Executor.operator tx (Optimizer.optimize plan)).outputSchema = plan.outputSchema
  indices  : (Executor.operator tx (Optimizer.optimize plan)).WellTyped
  records  : ∀ {s op st t calls results u}, (Executor.build tx (Optimizer.optimize plan)) s = some (.ok ⟨op, st⟩, t) →
    (op.cursor others).run calls (t, st) = some (results, u) →
      ∀ result ∈ results, Good (Record.Fits plan.outputSchema) (Operator.Throws others) result

theorem build_eq {s t : Database} {op : Operator} {st : op.State} (h : (Executor.build tx physical) s = some (.ok ⟨op, st⟩, t)) :
    ∃ st' : (Executor.operator tx physical).State, (⟨op, st⟩ : Σ op : Operator, op.State) = ⟨_, st'⟩ ∧
      (Executor.operator tx physical).Holds st' := by
  obtain ⟨st', u, hc, h⟩ := Program.bind_ok h
  have hh := Operator.create_leaves _ _ _ hc
  cases h
  exact ⟨st', rfl, hh⟩

theorem type_sound (getTable : Name → Except String (Option Table)) (query : SelectQuery) (plan : LogicalPlanNode)
    (others : Database → Database) (tx : Option TransactionID) (h : bind getTable query = .ok plan) :
    TypeSound others tx plan := by
  obtain ⟨q, hr, hp⟩ := bind_eq_ok.mp h
  have hw : (Executor.operator tx (Optimizer.optimize plan)).WellTyped := hr.wellTyped hp
  refine ⟨Optimizer.optimize_outputSchema plan, plan.tree_outputSchema tx, hw, ?_⟩
  intro s op st t calls results u hb hrun
  obtain ⟨st', he, hh⟩ := build_eq hb
  cases he
  have hg := ((Operator.gives hw).run hh hrun).2
  rwa [Executor.operator_outputSchema, Optimizer.optimize_outputSchema] at hg

def someTable : Table where
  heap   := ⟨1⟩
  schema := ⟨[⟨[97], .int32, 0⟩]⟩

-- A table joined with itself on its only column, which is projected from the second of the two.
def selfJoin : SelectQuery where
  columns   := some [⟨some [117], [97]⟩]
  table     := some ⟨[116], none⟩
  predicate := .null
  limit     := some 1
  joins     := [⟨⟨[116], some [117]⟩, .comparison (.column ⟨some [116], [97]⟩) .equal (.column ⟨some [117], [97]⟩)⟩]

theorem type_sound_selfJoin :
    ∃ plan, bind (fun _ => .ok (some someTable)) selfJoin = .ok plan ∧ TypeSound id none plan :=
  ⟨_, rfl, type_sound (fun _ => .ok (some someTable)) selfJoin _ id none rfl⟩

end Binder
end Duck
