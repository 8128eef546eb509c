import Duck.Lib.Except
import Duck.Query.Binder

namespace Duck

-- The first position of a name in a schema.
structure Schema.FirstAt (s : Schema) (name : Name) (p : ℕ) : Prop where
  found : (s.columns[p]?).map Column.name = some name
  first : ∀ q < p, (s.columns[q]?).map Column.name ≠ some name

theorem Schema.columnIndex_eq_some {s : Schema} : s.columnIndex name = some p ↔ s.FirstAt name p := by
  rw [columnIndex, List.findIdx?_eq_some_iff_getElem]
  constructor
  · intro ⟨hp, hn, hf⟩
    refine ⟨by simpa [hp] using hn, fun q hq => ?_⟩
    simpa [Nat.lt_trans hq hp] using hf q hq
  · intro ⟨hn, hf⟩
    obtain ⟨c, hc, hn⟩ := Option.map_eq_some_iff.mp hn
    obtain ⟨hp, hc⟩ := List.getElem?_eq_some_iff.mp hc
    refine ⟨hp, by simpa [hc] using hn, fun q hq => ?_⟩
    simpa [Nat.lt_trans hq hp] using hf q hq

namespace Binder

-- The names that the tables go by, in the order of their joins, with their schemas.
abbrev Scope := List (Name × Schema)

-- Where the columns of the `k`-th table start when the schemas stand one behind the other.
def start (scope : Scope) (k : ℕ) : ℕ :=
  ((scope.take k).map (·.2.columnCount)).sum

-- Exactly one table carries the qualifier, or there is only one table and no qualifier.
inductive Selects (scope : Scope) (ref : ColumnRef) (k : ℕ) : Prop
  | qualified (h : ref.qualifier = some q) (only : ∀ j, (scope[j]?).map Prod.fst = some q ↔ j = k)
  | single (h : ref.qualifier = none) (only : scope.length = 1) (first : k = 0)

inductive Refers (scope : Scope) (ref : ColumnRef) : ℕ → Prop
  | mk (table : scope[k]? = some (name, schema)) (selects : Selects scope ref k) (column : schema.FirstAt ref.name p) :
    Refers scope ref (start scope k + p)

-- An expression and what it is bound to.
inductive Bound (scope : Scope) : UnboundExpression → Expression → Prop
  | column (h : Refers scope ref i) : Bound scope (.column ref) (.column i)
  | constant : Bound scope (.constant value) (.constant value)
  | comparison (left : Bound scope l l') (right : Bound scope r r') :
    Bound scope (.comparison l op r) (.comparison l' op r')
  | binary (left : Bound scope l l') (right : Bound scope r r') : Bound scope (.binary l op r) (.binary l' op r')
  | unary (expression : Bound scope e e') : Bound scope (.unary e op) (.unary e' op)

-- The name that a table goes by, and its schema.
def entry (ref : TableRef) (table : Table) : Name × Schema :=
  (ref.alias_.getD ref.name, table.schema)

def joinScope (clauses : List JoinClause) (joins : List (Table × Expression)) : Scope :=
  List.zipWith (fun clause join => entry clause.table join.1) clauses joins

-- A query whose tables are found and whose columns are numbers.
structure BoundQuery where
  table     : Table
  joins     : List (Table × Expression)
  predicate : Option Expression
  columns   : Option (List ℕ)
  limit     : Option ℕ

namespace BoundQuery

-- The nodes that stand for it, whose constructors refuse a schema without columns.
def plan (q : BoundQuery) : Except String LogicalPlanNode := do
  let plan ← q.joins.foldlM (fun plan join => LogicalPlanNode.ofJoin plan (.scan join.1) join.2) (.scan q.table)
  let plan := q.predicate.elim plan (.filter plan)
  let plan ← q.columns.elim (.ok plan) (LogicalPlanNode.ofProjection plan)
  return q.limit.elim plan (.limit plan)

def scope (q : BoundQuery) (ref : TableRef) (clauses : List JoinClause) : Scope :=
  entry ref q.table :: joinScope clauses q.joins

end BoundQuery

variable {getTable : Name → Except String (Option Table)}

-- The tables of a query are those of its names. Its first ON sees two of them, and each ON sees one
-- more than the last.
structure Resolves (getTable : Name → Except String (Option Table)) (query : SelectQuery) (q : BoundQuery) : Prop where
  table   : ∃ ref, query.table = some ref ∧ getTable ref.name = .ok (some q.table)
  joins   : List.Forall₂ (fun clause join => getTable clause.table.name = .ok (some join.1)) query.joins q.joins
  ons     : ∀ {ref k clause join}, query.table = some ref → query.joins[k]? = some clause → q.joins[k]? = some join →
    Bound ((q.scope ref query.joins).take (k + 2)) clause.on join.2
  where_  : ∀ {ref}, query.table = some ref →
    query.predicate = .null ∧ q.predicate = none ∨
      ∃ e, q.predicate = some e ∧ Bound (q.scope ref query.joins) query.predicate e
  columns : ∀ {ref}, query.table = some ref →
    query.columns = none ∧ q.columns = none ∨
      ∃ refs is, query.columns = some refs ∧ q.columns = some is ∧ refs ≠ [] ∧
        List.Forall₂ (Refers (q.scope ref query.joins)) refs is
  limit   : q.limit = query.limit

section resolveColumn

variable {column : ColumnRef} {context : BindingContext}

def Names (column : ColumnRef) (name : Name) : Bool :=
  column.qualifier.all (· = name)

theorem matchBinding_skip {b : TableBinding} (h : Names column b.name = false) :
    matchBinding column r b = .ok r := by
  have ha : column.qualifier.any (· ≠ b.name) = true := by
    cases hq : column.qualifier <;> simp_all [Names]
  obtain ⟨found, count⟩ := r
  rw [matchBinding, if_pos ha]
  rfl

theorem matchBinding_names {b : TableBinding} (h : Names column b.name = true) :
    matchBinding column (found, count) b = .ok r ↔
      count = 0 ∧ ∃ p, b.schema.columnIndex column.name = some p ∧ r = (b.offset + p, 1) := by
  have ha : ¬column.qualifier.any (· ≠ b.name) = true := by
    cases hq : column.qualifier <;> simp_all [Names]
  rw [matchBinding, if_neg ha]
  cases b.schema.columnIndex column.name
  case none   => simp
  case some p =>
    by_cases hc : 0 < count
    case pos =>
      simp only [if_pos hc]
      simp
      omega
    case neg =>
      obtain rfl : count = 0 := by omega
      simp [eq_comm]

def hits (column : ColumnRef) (context : BindingContext) : List TableBinding :=
  context.filter fun b => Names column b.name

theorem foldlM_matchBinding :
    context.foldlM (matchBinding column) r = (hits column context).foldlM (matchBinding column) r := by
  induction context generalizing r
  case nil          => rfl
  case cons b bs hi =>
    cases h : Names column b.name
    case false =>
      rw [hits, List.filter_cons_of_neg (by simp [h]), List.foldlM_cons, matchBinding_skip h, Except.ok_bind, hi, hits]
    case true  =>
      rw [hits, List.filter_cons_of_pos (by simp [h]), List.foldlM_cons, List.foldlM_cons]
      congr 1
      exact funext fun _ => hi

-- A second match is an error, whether it has the column or not.
theorem foldlM_hits {b : TableBinding} {bs : List TableBinding} (h : hits column context = b :: bs) :
    (b :: bs).foldlM (matchBinding column) (0, 0) = .ok r ↔
      bs = [] ∧ ∃ p, b.schema.columnIndex column.name = some p ∧ r = (b.offset + p, 1) := by
  have hall : ∀ b' ∈ b :: bs, Names column b'.name = true := by
    intro b' hb
    rw [←h, hits, List.mem_filter] at hb
    exact hb.2
  have ⟨hb, hbs⟩ := List.forall_mem_cons.mp hall
  rw [List.foldlM_cons, Except.bind_eq_ok]
  constructor
  · intro ⟨⟨found, count⟩, hf, hr⟩
    have ⟨_, p, hp, he⟩ := (matchBinding_names hb).mp hf
    cases bs
    case nil        => exact ⟨rfl, p, hp, (Except.ok.inj hr).symm.trans he⟩
    case cons b' bs =>
      have ⟨_, hf', _⟩ := Except.bind_eq_ok.mp hr
      have := (matchBinding_names (List.forall_mem_cons.mp hbs).1).mp hf'
      simp_all
  · intro ⟨hn, p, hp, hr⟩
    subst hn hr
    exact ⟨_, (matchBinding_names hb).mpr ⟨rfl, p, hp, rfl⟩, rfl⟩

theorem resolveColumn_eq_ok :
    resolveColumn column context = .ok i ↔
      ¬(column.qualifier = none ∧ 1 < context.length) ∧
        ∃ b p, hits column context = [b] ∧ b.schema.columnIndex column.name = some p ∧ i = b.offset + p := by
  simp only [resolveColumn, Option.isNone_iff_eq_none]
  split_ifs with hq
  case pos => exact ⟨fun h => Except.error_ne_ok h |>.elim, fun h => absurd hq h.1⟩
  case neg =>
    rw [foldlM_matchBinding]
    cases hb : hits column context
    case nil       => cases column.qualifier <;> simp
    case cons b bs =>
      simp only [Except.bind_eq_ok, foldlM_hits hb]
      constructor
      · intro ⟨_, ⟨hn, p, hp, hr⟩, hi⟩
        subst hn hr
        exact ⟨hq, b, p, rfl, hp, (Except.ok.inj hi).symm⟩
      · intro ⟨_, b', p, hn, hp, hi⟩
        obtain ⟨rfl, rfl⟩ := List.cons.inj hn
        exact ⟨_, ⟨rfl, p, hp, rfl⟩, congrArg Except.ok hi.symm⟩

end resolveColumn

section context

variable {scope : Scope} {ref : ColumnRef}

-- The bindings of the tables of a scope.
def context (scope : Scope) : BindingContext :=
  scope.mapIdx fun k table => ⟨table.1, table.2, start scope k⟩

theorem context_getElem? {k : ℕ} :
    (context scope)[k]? = (scope[k]?).map fun table => ⟨table.1, table.2, start scope k⟩ :=
  List.getElem?_mapIdx

theorem context_length : (context scope).length = scope.length :=
  List.length_mapIdx

theorem start_append (h : k ≤ scope.length) : start (scope ++ scope') k = start scope k := by
  rw [start, List.take_append_of_le_length h, start]

theorem context_concat {table : Name × Schema} :
    context (scope ++ [table]) = context scope ++ [⟨table.1, table.2, start scope scope.length⟩] := by
  rw [context, List.mapIdx_concat, start_append (Nat.le_refl _), context]
  congr 1
  refine List.mapIdx_eq_mapIdx_iff.mpr fun k hk => ?_
  rw [start_append (Nat.le_of_lt hk)]

theorem filter_eq_singleton {P : α → Bool} {l : List α} :
    l.filter P = [b] ↔ ∃ k : ℕ, l[k]? = some b ∧ ∀ j : ℕ, (l[j]?).any P = true ↔ j = k := by
  induction l
  case nil          => simp
  case cons a l hi =>
    cases ha : P a
    case false =>
      rw [List.filter_cons_of_neg (by simp [ha]), hi]
      constructor
      · intro ⟨k, hk, hj⟩
        refine ⟨k + 1, hk, fun j => ?_⟩
        cases j <;> simp [ha, hj]
      · intro ⟨k, hk, hj⟩
        cases k
        case zero   => simpa [ha] using (hj 0).mpr rfl
        case succ k => exact ⟨k, hk, fun j => by simpa using hj (j + 1)⟩
    case true  =>
      rw [List.filter_cons_of_pos ha, List.cons.injEq, List.filter_eq_nil_iff]
      constructor
      · intro ⟨hb, hl⟩
        refine ⟨0, congrArg some hb, fun j => ?_⟩
        cases j
        case zero   => simp [ha]
        case succ j =>
          simp only [List.getElem?_cons_succ, Nat.add_eq_zero_iff, one_ne_zero, and_false, iff_false]
          intro h
          obtain ⟨x, hx, hp⟩ := (Option.any_eq_true ..).mp h
          exact hl x (List.mem_of_getElem? hx) hp
      · intro ⟨k, hk, hj⟩
        obtain rfl : 0 = k := (hj 0).mp (by simp [ha])
        refine ⟨Option.some.inj hk, fun x hx hp => ?_⟩
        obtain ⟨j, hj'⟩ := List.getElem?_of_mem hx
        exact absurd ((hj (j + 1)).mp (by simp [hj', hp])) (by omega)

theorem names_context {j : ℕ} :
    ((context scope)[j]?).any (fun b => Names ref b.name) = (scope[j]?).any fun table => Names ref table.1 := by
  rw [context_getElem?, Option.any_map]

theorem selects_iff {k : ℕ} (hk : k < scope.length) :
    Selects scope ref k ↔ ¬(ref.qualifier = none ∧ 1 < scope.length) ∧
      ∀ j : ℕ, (scope[j]?).any (fun table => Names ref table.1) = true ↔ j = k := by
  cases hq : ref.qualifier
  case none   =>
    have hn : ∀ j : ℕ, (scope[j]?).any (fun table => Names ref table.1) = true ↔ j < scope.length := by
      intro j
      simp [Names, hq]
    simp only [hn, true_and]
    constructor
    · intro h
      cases h
      case qualified h _      => simp [hq] at h
      case single _ hl hk => exact ⟨by omega, fun j => by omega⟩
    · intro ⟨hl, hj⟩
      exact .single hq (by omega) (by omega)
  case some q =>
    have hn : ∀ j : ℕ, (scope[j]?).any (fun table => Names ref table.1) = true ↔ (scope[j]?).map Prod.fst = some q := by
      intro j
      cases scope[j]?
      case none   => simp
      case some t => simp [Names, hq, eq_comm]
    simp only [hn, reduceCtorEq, false_and, not_false_eq_true, true_and]
    constructor
    · intro h
      cases h
      case qualified h hj  => exact (Option.some.inj (hq.symm.trans h)) ▸ hj
      case single h _ _ => simp [hq] at h
    · exact .qualified hq

theorem resolveColumn_context : resolveColumn ref (context scope) = .ok i ↔ Refers scope ref i := by
  rw [resolveColumn_eq_ok, context_length, hits]
  simp only [filter_eq_singleton, names_context]
  simp only [context_getElem?]
  constructor
  · intro ⟨hq, b, p, ⟨k, hk, hj⟩, hp, hi⟩
    obtain ⟨⟨name, schema⟩, ht, rfl⟩ := Option.map_eq_some_iff.mp hk
    have hlt := (List.getElem?_eq_some_iff.mp ht).1
    exact hi ▸ .mk ht ((selects_iff hlt).mpr ⟨hq, hj⟩) (Schema.columnIndex_eq_some.mp hp)
  · intro h
    cases h
    case mk k name schema p ht hs hp =>
      have hlt := (List.getElem?_eq_some_iff.mp ht).1
      have ⟨hq, hj⟩ := (selects_iff hlt).mp hs
      exact ⟨hq, _, p, ⟨k, by rw [ht]; rfl, hj⟩, Schema.columnIndex_eq_some.mpr hp, rfl⟩

theorem bindExpression_context {e : UnboundExpression} {e' : Expression} :
    bindExpression (context scope) e = .ok e' ↔ Bound scope e e' := by
  induction e generalizing e'
  case null                    => exact ⟨nofun, nofun⟩
  case column ref              =>
    simp only [bindExpression, Except.bind_eq_ok, resolveColumn_context]
    constructor
    · rintro ⟨i, hi, h⟩
      cases h
      exact .column hi
    · rintro ⟨hi⟩
      exact ⟨_, hi, rfl⟩
  case constant v              =>
    constructor
    · rintro ⟨⟩
      exact .constant
    · rintro ⟨⟩
      rfl
  case comparison l op r hl hr =>
    simp only [bindExpression, Except.bind_eq_ok, hl, hr]
    constructor
    · rintro ⟨l', hl, r', hr, h⟩
      cases h
      exact .comparison hl hr
    · rintro ⟨⟩
      exact ⟨_, ‹_›, _, ‹_›, rfl⟩
  case binary l op r hl hr     =>
    simp only [bindExpression, Except.bind_eq_ok, hl, hr]
    constructor
    · rintro ⟨l', hl, r', hr, h⟩
      cases h
      exact .binary hl hr
    · rintro ⟨⟩
      exact ⟨_, ‹_›, _, ‹_›, rfl⟩
  case unary e op he           =>
    simp only [bindExpression, Except.bind_eq_ok, he]
    constructor
    · rintro ⟨e', he, h⟩
      cases h
      exact .unary he
    · rintro ⟨⟩
      exact ⟨_, ‹_›, rfl⟩

end context

section joins

inductive JoinsTo (getTable : Name → Except String (Option Table)) :
    Scope → List JoinClause → List (Table × Expression) → Prop
  | nil : JoinsTo getTable scope [] []
  | cons {clause : JoinClause} {join : Table × Expression} (table : getTable clause.table.name = .ok (some join.1))
    (on : Bound (scope ++ [entry clause.table join.1]) clause.on join.2)
    (rest : JoinsTo getTable (scope ++ [entry clause.table join.1]) clauses joins) :
    JoinsTo getTable scope (clause :: clauses) (join :: joins)

variable {scope : Scope} {clauses : List JoinClause} {joins : List (Table × Expression)} {plan : LogicalPlanNode}

theorem joinScope_cons {clause : JoinClause} {join : Table × Expression} :
    scope ++ joinScope (clause :: clauses) (join :: joins) =
      scope ++ [entry clause.table join.1] ++ joinScope clauses joins := by
  simp [joinScope]

theorem joinsTo_iff :
    JoinsTo getTable scope clauses joins ↔
      List.Forall₂ (fun clause join => getTable clause.table.name = .ok (some join.1)) clauses joins ∧
        ∀ {k clause join}, clauses[k]? = some clause → joins[k]? = some join →
          Bound ((scope ++ joinScope clauses joins).take (scope.length + k + 1)) clause.on join.2 := by
  induction clauses generalizing scope joins
  case nil               =>
    constructor
    · rintro ⟨⟩
      exact ⟨.nil, fun h => nomatch h⟩
    · rintro ⟨⟨⟩, _⟩
      exact .nil
  case cons clause cs hi =>
    have hlen : ∀ k, scope.length + 1 + k + 1 = scope.length + (k + 1) + 1 := fun k => by omega
    constructor
    · intro h
      cases h
      case cons join joins ht ho hr =>
        have ⟨htables, hons⟩ := hi.mp hr
        refine ⟨.cons ht htables, fun {k _ _} hc hj => ?_⟩
        rw [joinScope_cons]
        cases k
        case zero   =>
          obtain rfl := Option.some.inj hc
          obtain rfl := Option.some.inj hj
          rwa [List.take_left' (by simp)]
        case succ k =>
          have := hons hc hj
          rwa [List.length_append, List.length_singleton, hlen] at this
    · rintro ⟨ht, ho⟩
      cases ht
      case cons join joins ht hts =>
        rw [joinScope_cons] at ho
        refine .cons ht ?_ (hi.mpr ⟨hts, fun {k _ _} hc hj => ?_⟩)
        · have := ho (k := 0) rfl rfl
          rwa [List.take_left' (by simp)] at this
        · have := ho (k := k + 1) hc hj
          rwa [List.length_append, List.length_singleton, hlen]

theorem columnCount_ofJoin {left right : LogicalPlanNode} (h : LogicalPlanNode.ofJoin left right e = .ok plan) :
    plan.outputSchema.columnCount = left.outputSchema.columnCount + right.outputSchema.columnCount := by
  have ⟨schema, hs, h⟩ := Except.bind_eq_ok.mp h
  rw [Schema.append, Schema.ofColumns] at hs
  split_ifs at hs
  cases hs
  cases h
  exact List.length_append

theorem start_concat {table : Name × Schema} :
    start (scope ++ [table]) (scope ++ [table]).length = start scope scope.length + table.2.columnCount := by
  rw [start, start, List.take_length, List.take_length, List.map_append, List.sum_append]
  simp

-- The width of the plan so far is where the columns of the next table start.
theorem foldlM_bindJoin (h : plan.outputSchema.columnCount = start scope scope.length) :
    clauses.foldlM (bindJoin getTable) (context scope, plan) = .ok r ↔
      ∃ joins, JoinsTo getTable scope clauses joins ∧ r.1 = context (scope ++ joinScope clauses joins) ∧
        joins.foldlM (fun plan join => LogicalPlanNode.ofJoin plan (.scan join.1) join.2) plan = .ok r.2 := by
  induction clauses generalizing scope plan
  case nil               =>
    constructor
    · rintro ⟨⟩
      exact ⟨[], .nil, by simp [joinScope], rfl⟩
    · rintro ⟨_, ⟨⟩, hc, hp⟩
      cases hp
      simp only [joinScope, List.zipWith_nil_left, List.append_nil] at hc
      rw [List.foldlM_nil, ←hc]
      rfl
  case cons clause cs hi =>
    have hnext : ∀ table : Table,
        context scope ++ [binding clause.table table.schema plan.outputSchema.columnCount] =
          context (scope ++ [entry clause.table table]) := by
      intro table
      rw [context_concat, h]
      rfl
    have hwidth : ∀ {table on next}, LogicalPlanNode.ofJoin plan (.scan table) on = .ok next →
        next.outputSchema.columnCount = start (scope ++ [entry clause.table table])
          (scope ++ [entry clause.table table]).length := by
      intro table on next hn
      rw [columnCount_ofJoin hn, start_concat, h]
      rfl
    rw [List.foldlM_cons, Except.bind_eq_ok]
    constructor
    · rintro ⟨r', hr', hr⟩
      obtain ⟨table, ht, hr'⟩ := Except.bind_eq_ok.mp hr'
      cases table
      case none       => cases hr'
      case some table =>
        obtain ⟨on, ho, hr'⟩ := Except.bind_eq_ok.mp hr'
        obtain ⟨next, hn, hr'⟩ := Except.bind_eq_ok.mp hr'
        cases hr'
        rw [hnext] at ho hr
        obtain ⟨joins, hj, hc, hp⟩ := (hi (hwidth hn)).mp hr
        refine ⟨(table, on) :: joins, .cons ht (bindExpression_context.mp ho) hj, ?_, ?_⟩
        · rw [hc, joinScope_cons]
        · exact Except.bind_eq_ok.mpr ⟨_, hn, hp⟩
    · rintro ⟨_, hj, hc, hp⟩
      cases hj
      case cons joins join ht ho hj =>
        obtain ⟨next, hn, hp⟩ := Except.bind_eq_ok.mp hp
        refine ⟨(context (scope ++ [entry clause.table join.1]), next), ?_, (hi (hwidth hn)).mpr ⟨joins, hj, ?_, hp⟩⟩
        · refine Except.bind_eq_ok.mpr ⟨_, ht, ?_⟩
          have hb := bindExpression_context.mpr ho
          rw [←hnext] at hb ⊢
          exact Except.bind_eq_ok.mpr ⟨_, hb, Except.bind_eq_ok.mpr ⟨_, hn, rfl⟩⟩
        · rw [hc, joinScope_cons]

end joins

section bind

variable {scope : Scope} {plan plan' : LogicalPlanNode}

theorem bindFilter_eq_ok {e : UnboundExpression} :
    bindFilter (context scope) e plan = .ok plan' ↔
      ∃ predicate : Option Expression,
        (e = .null ∧ predicate = none ∨ ∃ e', predicate = some e' ∧ Bound scope e e') ∧
          plan' = predicate.elim plan (.filter plan) := by
  by_cases hn : e = .null
  case pos =>
    subst hn
    constructor
    · rintro ⟨⟩
      exact ⟨none, .inl ⟨rfl, rfl⟩, rfl⟩
    · rintro ⟨_, ⟨_, rfl⟩ | ⟨_, _, ⟨⟩⟩, rfl⟩
      rfl
  case neg =>
    have he : bindFilter (context scope) e plan = (.filter plan ·) <$> bindExpression (context scope) e := by
      cases e <;> first | rfl | exact absurd rfl hn
    rw [he, Except.map_eq_ok]
    constructor
    · rintro ⟨e', he', rfl⟩
      exact ⟨some e', .inr ⟨e', rfl, bindExpression_context.mp he'⟩, rfl⟩
    · rintro ⟨_, ⟨h, _⟩ | ⟨e', rfl, he'⟩, rfl⟩
      · exact absurd h hn
      · exact ⟨e', bindExpression_context.mpr he', rfl⟩

theorem mapM_resolveColumn {refs : List ColumnRef} {is : List ℕ} :
    refs.mapM (resolveColumn · (context scope)) = .ok is ↔ List.Forall₂ (Refers scope) refs is := by
  induction refs generalizing is
  case nil              =>
    constructor
    · rintro ⟨⟩
      exact .nil
    · rintro ⟨⟩
      rfl
  case cons ref refs hi =>
    rw [List.mapM_cons, Except.bind_eq_ok]
    constructor
    · rintro ⟨i, hi', h⟩
      obtain ⟨js, hj, h⟩ := Except.bind_eq_ok.mp h
      cases h
      exact .cons (resolveColumn_context.mp hi') (hi.mp hj)
    · rintro (_ | ⟨hi', hj⟩)
      exact ⟨_, resolveColumn_context.mpr hi', Except.bind_eq_ok.mpr ⟨_, hi.mpr hj, rfl⟩⟩

theorem bindProjection_eq_ok {columns : Option (List ColumnRef)} :
    bindProjection (context scope) columns plan = .ok plan' ↔
      ∃ idxs : Option (List ℕ),
        (columns = none ∧ idxs = none ∨
          ∃ refs is, columns = some refs ∧ idxs = some is ∧ refs ≠ [] ∧ List.Forall₂ (Refers scope) refs is) ∧
          idxs.elim (.ok plan) (LogicalPlanNode.ofProjection plan) = .ok plan' := by
  cases columns
  case none      =>
    constructor
    · intro h
      exact ⟨none, .inl ⟨rfl, rfl⟩, h⟩
    · rintro ⟨_, ⟨_, rfl⟩ | ⟨_, _, h, _⟩, hp⟩
      · exact hp
      · cases h
  case some refs =>
    simp only [bindProjection]
    split_ifs with he
    case pos =>
      obtain rfl := List.isEmpty_iff.mp he
      refine ⟨False.elim, ?_⟩
      rintro ⟨_, ⟨h, _⟩ | ⟨_, _, h, _, hn, _⟩, _⟩
      · cases h
      · exact absurd (Option.some.inj h).symm hn
    case neg =>
      simp only [Except.bind_eq_ok, mapM_resolveColumn]
      constructor
      · rintro ⟨is, hi, hp⟩
        exact ⟨some is, .inr ⟨refs, is, rfl, rfl, fun h => he (List.isEmpty_iff.mpr h), hi⟩, hp⟩
      · rintro ⟨_, ⟨h, _⟩ | ⟨_, is, h, rfl, _, hi⟩, hp⟩
        · cases h
        · obtain rfl := Option.some.inj h
          exact ⟨is, hi, hp⟩

theorem plan_eq_ok {q : BoundQuery} :
    q.plan = .ok plan ↔
      ∃ joined, q.joins.foldlM (fun plan join => LogicalPlanNode.ofJoin plan (.scan join.1) join.2) (.scan q.table) = .ok joined ∧
        ∃ projected, q.columns.elim (.ok (q.predicate.elim joined (.filter joined)))
            (LogicalPlanNode.ofProjection (q.predicate.elim joined (.filter joined))) = .ok projected ∧
          q.limit.elim projected (.limit projected) = plan := by
  simp only [BoundQuery.plan, Except.bind_eq_ok, Except.pure_eq_ok, Except.ok.injEq]

theorem bindLimit_eq (limit : Option ℕ) (plan : LogicalPlanNode) : bindLimit limit plan = limit.elim plan (.limit plan) := by
  cases limit <;> rfl

theorem context_singleton (ref : TableRef) (table : Table) : context [entry ref table] = [binding ref table.schema 0] :=
  rfl

theorem resolves_iff {query : SelectQuery} {q : BoundQuery} (h : query.table = some ref) :
    Resolves getTable query q ↔
      getTable ref.name = .ok (some q.table) ∧ JoinsTo getTable [entry ref q.table] query.joins q.joins ∧
        (query.predicate = .null ∧ q.predicate = none ∨
          ∃ e, q.predicate = some e ∧ Bound (q.scope ref query.joins) query.predicate e) ∧
        (query.columns = none ∧ q.columns = none ∨
          ∃ refs is, query.columns = some refs ∧ q.columns = some is ∧ refs ≠ [] ∧
            List.Forall₂ (Refers (q.scope ref query.joins)) refs is) ∧
        q.limit = query.limit := by
  have hlen : ∀ k, [entry ref q.table].length + k + 1 = k + 2 := fun k => by
    rw [List.length_singleton]
    omega
  have hscope : [entry ref q.table] ++ joinScope query.joins q.joins = q.scope ref query.joins := rfl
  rw [joinsTo_iff, hscope]
  simp only [hlen]
  constructor
  · intro hr
    obtain ⟨ref', hr', ht⟩ := hr.table
    obtain rfl := Option.some.inj (h.symm.trans hr')
    exact ⟨ht, ⟨hr.joins, hr.ons h⟩, hr.where_ h, hr.columns h, hr.limit⟩
  · rintro ⟨ht, ⟨hj, ho⟩, hw, hc, hl⟩
    refine ⟨⟨ref, h, ht⟩, hj, ?_, ?_, ?_, hl⟩
    · intro ref' k clause join h'
      obtain rfl := Option.some.inj (h.symm.trans h')
      exact ho
    · intro ref' h'
      obtain rfl := Option.some.inj (h.symm.trans h')
      exact hw
    · intro ref' h'
      obtain rfl := Option.some.inj (h.symm.trans h')
      exact hc

theorem bind_eq_ok {query : SelectQuery} :
    bind getTable query = .ok plan ↔ ∃ q, Resolves getTable query q ∧ q.plan = .ok plan := by
  cases hq : query.table
  case none     =>
    constructor
    · intro h
      simp only [bind, hq] at h
      cases h
    · rintro ⟨q, hr, _⟩
      obtain ⟨ref, h, _⟩ := hr.table
      rw [hq] at h
      cases h
  case some ref =>
    have hwidth : ∀ table : Table, (LogicalPlanNode.scan table).outputSchema.columnCount =
        start [entry ref table] [entry ref table].length := by
      intro table
      simp [start, entry, LogicalPlanNode.outputSchema]
    simp only [bind, hq]
    rw [Except.bind_eq_ok]
    constructor
    · rintro ⟨table, ht, h⟩
      cases table
      case none       => cases h
      case some table =>
        obtain ⟨⟨ctx, joined⟩, hj, hrest⟩ := Except.bind_eq_ok.mp h
        obtain ⟨filtered, hf, hrest⟩ := Except.bind_eq_ok.mp hrest
        obtain ⟨projected, hp, hend⟩ := Except.bind_eq_ok.mp hrest
        rw [←context_singleton] at hj
        obtain ⟨joins, hjoins, hc, hplan⟩ := (foldlM_bindJoin (hwidth table)).mp hj
        simp only at hc hplan
        rw [hc] at hf hp
        obtain ⟨predicate, hpred, rfl⟩ := bindFilter_eq_ok.mp hf
        obtain ⟨columns, hcols, hp⟩ := bindProjection_eq_ok.mp hp
        refine ⟨⟨table, joins, predicate, columns, query.limit⟩, (resolves_iff hq).mpr ⟨ht, hjoins, hpred, hcols, rfl⟩, ?_⟩
        rw [bindLimit_eq] at hend
        exact plan_eq_ok.mpr ⟨joined, hplan, projected, hp, Except.ok.inj hend⟩
    · rintro ⟨q, hr, h⟩
      obtain ⟨ht, hjoins, hpred, hcols, hl⟩ := (resolves_iff hq).mp hr
      obtain ⟨joined, hplan, projected, hp, rfl⟩ := plan_eq_ok.mp h
      refine ⟨some q.table, ht, ?_⟩
      refine Except.bind_eq_ok.mpr ⟨(context ([entry ref q.table] ++ joinScope query.joins q.joins), joined), ?_, ?_⟩
      · rw [←context_singleton]
        exact (foldlM_bindJoin (hwidth q.table)).mpr ⟨q.joins, hjoins, rfl, hplan⟩
      · refine Except.bind_eq_ok.mpr ⟨_, bindFilter_eq_ok.mpr ⟨q.predicate, hpred, rfl⟩, ?_⟩
        refine Except.bind_eq_ok.mpr ⟨_, bindProjection_eq_ok.mpr ⟨q.columns, hcols, hp⟩, ?_⟩
        rw [bindLimit_eq, hl]
        rfl

end bind

end Binder
end Duck
