import Duck.Query.Theorems.Binder
import Mathlib.Data.List.Forall2

namespace Duck.Binder

variable {getTable : Name → Except String (Option Table)} {plan : LogicalPlanNode}

section unique

variable {scope : Scope} {clauses : List JoinClause} {joins joins' : List (Table × Expression)} {q q' : BoundQuery}

theorem Refers.unique (h : Refers scope ref i) (h' : Refers scope ref j) : i = j :=
  Except.ok.inj <| (resolveColumn_context.mpr h).symm.trans <| resolveColumn_context.mpr h'

theorem Bound.unique (h : Bound scope e e') (h' : Bound scope e e'') : e' = e'' :=
  Except.ok.inj <| (bindExpression_context.mpr h).symm.trans <| bindExpression_context.mpr h'

theorem JoinsTo.unique (h : JoinsTo getTable scope clauses joins) (h' : JoinsTo getTable scope clauses joins') :
    joins = joins' := by
  induction h generalizing joins'
  case nil                                         =>
    cases h'
    rfl
  case cons scope clauses joins clause join ht ho hj ih =>
    cases h'
    case cons joins' join' ht' ho' hj' =>
      have htable : join.1 = join'.1 := Option.some.inj <| Except.ok.inj <| ht.symm.trans ht'
      rw [←htable] at ho' hj'
      rw [ih hj', Prod.ext htable (ho.unique ho')]

theorem Resolves.unique {query : SelectQuery} (h : Resolves getTable query q) (h' : Resolves getTable query q') :
    q = q' := by
  obtain ⟨ref, hq, -⟩ := h.table
  obtain ⟨ht, hj, hw, hc, hl⟩ := (resolves_iff hq).mp h
  obtain ⟨ht', hj', hw', hc', hl'⟩ := (resolves_iff hq).mp h'
  have htable : q.table = q'.table := Option.some.inj <| Except.ok.inj <| ht.symm.trans ht'
  rw [←htable] at hj'
  have hjoins := hj.unique hj'
  have hscope : q'.scope ref query.joins = q.scope ref query.joins := by
    rw [BoundQuery.scope, BoundQuery.scope, htable, hjoins]
  rw [hscope] at hw' hc'
  have hpredicate : q.predicate = q'.predicate := by
    obtain ⟨hn, hp⟩ | ⟨e, hp, he⟩ := hw <;> obtain ⟨hn', hp'⟩ | ⟨e', hp', he'⟩ := hw'
    · rw [hp, hp']
    · rw [hn] at he'
      cases he'
    · rw [hn'] at he
      cases he
    · rw [hp, hp', he.unique he']
  have hcolumns : q.columns = q'.columns := by
    obtain ⟨hn, hp⟩ | ⟨refs, is, hr, hp, -, hi⟩ := hc <;> obtain ⟨hn', hp'⟩ | ⟨refs', is', hr', hp', -, hi'⟩ := hc'
    · rw [hp, hp']
    · rw [hn] at hr'
      cases hr'
    · rw [hn'] at hr
      cases hr
    · obtain rfl : refs = refs' := Option.some.inj <| hr.symm.trans hr'
      rw [hp, hp', Except.ok.inj <| (mapM_resolveColumn.mpr hi).symm.trans <| mapM_resolveColumn.mpr hi']
  cases q
  cases q'
  simp_all

end unique

section plans

variable {scope : Scope} {ref : ColumnRef} {clauses : List JoinClause} {joins : List (Table × Expression)} {q : BoundQuery}

def width (scope : Scope) : ℕ :=
  start scope scope.length

theorem width_eq (scope : Scope) : width scope = (scope.map (·.2.columnCount)).sum := by
  rw [width, start, List.take_length]

-- The columns of a table of the scope lie within those of the whole scope.
theorem Refers.lt (h : Refers scope ref i) : i < width scope := by
  cases h
  case mk k name schema p ht _ hp =>
    obtain ⟨hk, he⟩ := List.getElem?_eq_some_iff.mp ht
    have hp : p < schema.columnCount := by
      obtain ⟨c, hc, -⟩ := Option.map_eq_some_iff.mp hp.found
      exact (List.getElem?_eq_some_iff.mp hc).1
    have hs : width scope = start scope k + (schema.columnCount + ((scope.drop (k + 1)).map (·.2.columnCount)).sum) := by
      rw [width_eq, start]
      nth_rewrite 1 [←List.take_append_drop k scope]
      rw [List.drop_eq_getElem_cons hk, he, List.map_append, List.sum_append, List.map_cons, List.sum_cons]
    omega

theorem foldlM_columnCount (hj : JoinsTo getTable scope clauses joins) (hp : plan.outputSchema.columnCount = width scope)
    (h : joins.foldlM (fun plan join => LogicalPlanNode.ofJoin plan (.scan join.1) join.2) plan = .ok joined) :
    joined.outputSchema.columnCount = width (scope ++ joinScope clauses joins) := by
  induction hj generalizing plan
  case nil =>
    cases h
    simpa [joinScope] using hp
  case cons scope clauses joins clause join ht ho hj ih =>
    obtain ⟨next, hn, h⟩ := Except.bind_eq_ok.mp h
    rw [joinScope_cons]
    refine ih ?_ h
    rw [columnCount_ofJoin hn, hp, width, width, start_concat]
    rfl

-- A join has columns when its left side has.
theorem foldlM_ofJoin (h : plan.outputSchema.columns ≠ []) :
    ∃ joined, joins.foldlM (fun plan join => LogicalPlanNode.ofJoin plan (.scan join.1) join.2) plan = .ok joined ∧
      joined.outputSchema.columns ≠ [] := by
  induction joins generalizing plan
  case nil               => exact ⟨plan, rfl, h⟩
  case cons join rest ih =>
    have hne : plan.outputSchema.columns ++ (LogicalPlanNode.scan join.1).outputSchema.columns ≠ [] := by simp [h]
    let next : LogicalPlanNode := .join plan (.scan join.1) join.2
      ⟨plan.outputSchema.columns ++ (LogicalPlanNode.scan join.1).outputSchema.columns⟩
    have hn : LogicalPlanNode.ofJoin plan (.scan join.1) join.2 = .ok next := by
      rw [LogicalPlanNode.ofJoin, Schema.append, Schema.ofColumns, if_neg (mt List.length_eq_zero_iff.mp hne)]
      rfl
    have hnext : next.outputSchema.columns ≠ [] := hne
    obtain ⟨joined, hj, hc⟩ := ih hnext
    exact ⟨joined, Except.bind_eq_ok.mpr ⟨_, hn, hj⟩, hc⟩

theorem ofProjection_eq_ok {is : List ℕ} (h : ∀ i ∈ is, i < plan.outputSchema.columnCount) (hne : is ≠ []) :
    ∃ projected, LogicalPlanNode.ofProjection plan is = .ok projected := by
  have hc : ∃ cs, is.mapM plan.outputSchema.column = .ok cs ∧ cs.length = is.length := by
    clear hne
    induction is
    case nil          => exact ⟨[], rfl, rfl⟩
    case cons i is ih =>
      have ⟨hi, his⟩ := List.forall_mem_cons.mp h
      obtain ⟨cs, hcs, hl⟩ := ih his
      refine ⟨plan.outputSchema.columns[i] :: cs, ?_, congrArg (· + 1) hl⟩
      rw [List.mapM_cons, hcs, Schema.column, List.getElem?_eq_getElem hi]
      rfl
  obtain ⟨cs, hc, hl⟩ := hc
  have hn : cs.length ≠ 0 := fun h => hne (List.length_eq_zero_iff.mp (hl.symm.trans h))
  refine ⟨.projection plan is ⟨cs⟩, ?_⟩
  rw [LogicalPlanNode.ofProjection, Schema.projected, hc, Except.ok_bind, Schema.ofColumns, if_neg hn]
  rfl

-- Only a query without any column to select from has no plan.
theorem Resolves.planned {query : SelectQuery} (h : Resolves getTable query q) (hc : q.table.schema.columns ≠ []) :
    ∃ plan, q.plan = .ok plan := by
  obtain ⟨ref, hq, -⟩ := h.table
  obtain ⟨-, hj, -, hcols, -⟩ := (resolves_iff hq).mp h
  have hstart : (LogicalPlanNode.scan q.table).outputSchema.columnCount = width [entry ref q.table] := by
    simp [width_eq, entry, LogicalPlanNode.outputSchema]
  obtain ⟨joined, hjoined, -⟩ := @foldlM_ofJoin (.scan q.table) q.joins hc
  have hwidth := foldlM_columnCount hj hstart hjoined
  have hfiltered : (q.predicate.elim joined (.filter joined)).outputSchema = joined.outputSchema := by
    cases q.predicate <;> rfl
  have hprojected : ∃ projected, q.columns.elim (.ok (q.predicate.elim joined (.filter joined)))
      (LogicalPlanNode.ofProjection (q.predicate.elim joined (.filter joined))) = .ok projected := by
    obtain ⟨-, hn⟩ | ⟨refs, is, -, hs, hne, hi⟩ := hcols
    · rw [hn]
      exact ⟨_, rfl⟩
    · rw [hs]
      refine ofProjection_eq_ok (fun i hi' => ?_) fun hnil => hne (by cases hnil; cases hi; rfl)
      rw [hfiltered, hwidth]
      obtain ⟨n, hn, rfl⟩ := List.getElem_of_mem hi'
      exact (hi.get (hi.length_eq ▸ hn) hn).lt
  obtain ⟨projected, hp⟩ := hprojected
  exact ⟨_, plan_eq_ok.mpr ⟨joined, hjoined, projected, hp, rfl⟩⟩

end plans

-- A query is bound exactly when all its names are resolved, which they are in one way at most. Everything else
-- throws.
structure Resolution (getTable : Name → Except String (Option Table)) (query : SelectQuery) : Prop where
  bound  : ∀ {plan}, bind getTable query = .ok plan ↔ ∃ q, Resolves getTable query q ∧ q.plan = .ok plan
  unique : ∀ {q q'}, Resolves getTable query q → Resolves getTable query q' → q = q'
  plan   : ∀ {q}, Resolves getTable query q → q.table.schema.columns ≠ [] → ∃ plan, bind getTable query = .ok plan

theorem resolution (getTable : Name → Except String (Option Table)) (query : SelectQuery) : Resolution getTable query where
  bound         := bind_eq_ok
  unique h h'   := h.unique h'
  plan h hc     := by
    obtain ⟨plan, hp⟩ := h.planned hc
    exact ⟨plan, bind_eq_ok.mpr ⟨_, h, hp⟩⟩

end Duck.Binder
