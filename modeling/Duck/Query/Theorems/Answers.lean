import Duck.Execution.Theorems.Rows
import Duck.Query.Answers
import Duck.Query.QueryEngine
import Duck.Query.Theorems.TypeSafety

namespace Duck

open Binder

section combinations

variable {lists : List (List α)} {as : List α} {c : List α}

theorem combinations_concat :
    combinations (lists ++ [as]) = (combinations lists).flatMap fun c => as.map fun a => c ++ [a] := by
  rw [combinations, List.foldl_append]
  rfl

theorem forall₂_of_mem_combinations (h : c ∈ combinations lists) : List.Forall₂ (· ∈ ·) c lists := by
  induction lists using List.reverseRecOn generalizing c
  case nil                    =>
    obtain rfl := List.mem_singleton.mp h
    exact .nil
  case append_singleton lists as ih =>
    rw [combinations_concat] at h
    obtain ⟨c, hc, h⟩ := List.mem_flatMap.mp h
    obtain ⟨a, ha, rfl⟩ := List.mem_map.mp h
    exact List.rel_append (ih hc) (.cons ha .nil)

theorem length_of_mem_combinations (h : c ∈ combinations lists) : c.length = lists.length :=
  (forall₂_of_mem_combinations h).length_eq

-- What is a map after a change of order was one before it.
theorem exists_map_of_perm {l : List β} {m : List α} {f : α → β} (h : l.Perm (m.map f)) :
    ∃ m' : List α, l = m'.map f ∧ m'.Perm m := by
  have he := congrFun (congrFun (List.eq_map_comp_perm f) l) m
  exact he.mpr h

end combinations

theorem Schema.FirstAt.lt {schema : Schema} (h : schema.FirstAt name p) : p < schema.columnCount := by
  obtain ⟨c, hc, -⟩ := Option.map_eq_some_iff.mp h.found
  exact (List.getElem?_eq_some_iff.mp hc).1

namespace Record

variable {scope : Scope} {records : List Record} {r : Record}

theorem concat_append (r : Record) : concat (records ++ [r]) = concat records + r := by
  rw [concat, List.flatMap_append, List.flatMap_singleton]
  rfl

-- The records have as many values as the tables have columns.
def Fill (scope : Scope) (records : List Record) : Prop :=
  List.Forall₂ (fun entry r => r.values.length = entry.2.columnCount) scope records

theorem Fill.length (h : Fill scope records) : (concat records).values.length = width scope := by
  rw [width_eq, concat, List.length_flatMap]
  induction h
  case nil               => rfl
  case cons he _ ih      => rw [List.map_cons, List.map_cons, List.sum_cons, List.sum_cons, he, ih]

theorem Fill.take (h : Fill scope records) (n : ℕ) : Fill (scope.take n) (records.take n) :=
  List.forall₂_take n h

-- The values of a table stand where its columns do.
theorem Fill.get (h : Fill scope records) {k : ℕ} {entry : Name × Schema} (hk : scope[k]? = some entry)
    (hr : records[k]? = some r) {p : ℕ} (hp : p < entry.2.columnCount) :
    (concat records).values[start scope k + p]? = r.values[p]? := by
  have hlt := (List.getElem?_eq_some_iff.mp hr).1
  have hlen : start scope k = (concat (records.take k)).values.length := by
    rw [(h.take k).length, width, start, start, List.take_length]
  have hsplit : (concat records).values = (concat (records.take k)).values ++ (r.values ++ (concat (records.drop (k + 1))).values) := by
    have hr := (List.getElem?_eq_some_iff.mp hr).2
    rw [concat, concat, concat]
    nth_rewrite 1 [←List.take_append_drop k records]
    rw [List.drop_eq_getElem_cons hlt, hr, List.flatMap_append, List.flatMap_cons]
  have hpr : p < r.values.length := by
    have hlt' := (List.getElem?_eq_some_iff.mp hk).1
    have hf := List.Forall₂.get h hlt' hlt
    rw [List.get_eq_getElem, List.get_eq_getElem, (List.getElem?_eq_some_iff.mp hk).2, (List.getElem?_eq_some_iff.mp hr).2] at hf
    omega
  rw [hsplit, hlen, List.getElem?_append_right (Nat.le_add_right ..), Nat.add_sub_cancel_left, List.getElem?_append_left hpr]

end Record

namespace SelectQuery

variable {scope : Scope} {records : List Record} {e : UnboundExpression} {e' : Expression} {v : Value}

theorem evaluates_column (hf : Record.Fill scope records) (hr : Refers scope ref i) :
    Evaluates scope records (.column ref) v ↔ (Record.concat records).get i = .ok v := by
  have hget {w : Value} : (Record.concat records).get i = .ok w ↔ (Record.concat records).values[i]? = some w := by
    rw [Record.get]
    split
    case h_1 u hu => rw [hu, Except.ok.injEq, Option.some.injEq]
    case h_2 hu   => simp [hu]
  rw [hget]
  constructor
  case mp  =>
    rintro ⟨hs, ht, hp, hr', hv⟩
    have hlt := (Schema.FirstAt.lt hp)
    rw [hr.unique (.mk ht hs hp), hf.get ht hr' hlt, hv]
  case mpr =>
    intro hv
    cases hr
    case mk k name schema p ht hs hp =>
      have hlt := (Schema.FirstAt.lt hp)
      have hk := (List.getElem?_eq_some_iff.mp ht).1
      have hk : k < records.length := hf.length_eq ▸ hk
      have hr' : records[k]? = some records[k] := List.getElem?_eq_getElem hk
      rw [hf.get ht hr' hlt] at hv
      exact .column hs ht hp hr' hv

theorem evaluates_iff (hb : Bound scope e e') (hf : Record.Fill scope records) :
    Evaluates scope records e v ↔ e'.evaluate (Record.concat records) = .ok v := by
  induction hb generalizing v
  case column h                   => exact evaluates_column hf h
  case constant                   =>
    constructor
    · rintro ⟨⟩
      rfl
    · rintro ⟨rfl⟩
      exact .constant
  case comparison l l' r r' op _ _ ihl ihr =>
    constructor
    · rintro (_ | _ | ⟨hl, hr, hc⟩)
      simp only [Expression.evaluate, ihl.mp hl, ihr.mp hr, hc, Except.ok_bind]
      split <;> rfl
    · intro h
      obtain ⟨a, ha, h⟩ := Except.bind_eq_ok.mp h
      obtain ⟨b, hb, h⟩ := Except.bind_eq_ok.mp h
      obtain ⟨order, hc, h⟩ := Except.bind_eq_ok.mp h
      have he : Evaluates scope records (.comparison l op r) _ := .comparison (ihl.mpr ha) (ihr.mpr hb) hc
      split at h
      case isTrue ho  =>
        rw [if_pos ho] at he
        cases h
        exact he
      case isFalse ho =>
        rw [if_neg ho] at he
        cases h
        exact he
  case binary ihl ihr             =>
    constructor
    · rintro (_ | _ | _ | ⟨hl, hr, ha⟩)
      simp only [Expression.evaluate, ihl.mp hl, ihr.mp hr, ha, Except.ok_bind]
    · intro h
      obtain ⟨a, ha, h⟩ := Except.bind_eq_ok.mp h
      obtain ⟨b, hb, h⟩ := Except.bind_eq_ok.mp h
      exact .binary (ihl.mpr ha) (ihr.mpr hb) h
  case unary ih                   =>
    constructor
    · rintro (_ | _ | _ | _ | ⟨ha, hv⟩)
      simp only [Expression.evaluate, ih.mp ha, hv, Except.ok_bind]
    · intro h
      obtain ⟨a, ha, h⟩ := Except.bind_eq_ok.mp h
      exact .unary (ih.mpr ha) h

-- A condition that is known to be a BOOL, or unknown, is tested by the operators.
theorem condition (hb : Bound scope e e') (hf : Record.Fill scope records)
    (hd : ∃ v, Evaluates scope records e v ∧ v.type = .bool) :
    (∃ b, e'.predicate.accepts (.concat records) = .ok b) ∧
      (e'.predicate.accepts (.concat records) = .ok true ↔ IsTrue scope records e) := by
  obtain ⟨v, hv, ht⟩ := hd
  have hv := (evaluates_iff hb hf).mp hv
  refine ⟨NestedLoopJoin.accepts_of_bool hv ht, ?_⟩
  rw [IsTrue, evaluates_iff hb hf, hv, Predicate.accepts, Expression.predicate, hv, Except.ok_bind, Except.ok.injEq,
    if_neg (not_not.mpr ht)]
  cases v
  case null   => simp [Value.isNull]
  case bool b => simp [Value.isNull, Value.asBool]
  all_goals cases ht

section plans

variable {query : SelectQuery} {contents : Table → List Record} {tables : List (List Record)} {plan next : LogicalPlanNode}
variable {joins : List (Table × Expression)} {n : ℕ}

open Classical in
-- The plan gives the records that are kept, before the columns are chosen.
structure Kept (query : SelectQuery) (scope : Scope) (contents : Table → List Record) (tables : List (List Record))
    (plan : LogicalPlanNode) : Prop where
  rows    : ∃ kept : List (List Record), (Optimizer.optimize plan).rows contents = kept.map Record.concat ∧
    kept.Perm ((combinations tables).filter (query.Keeps scope))
  defined : (Optimizer.optimize plan).Defined contents

open Classical in
-- The plan of the first joins gives the records that satisfy them.
structure Stage (query : SelectQuery) (scope : Scope) (contents : Table → List Record) (tables : List (List Record)) (n : ℕ)
    (plan : LogicalPlanNode) : Prop where
  rows    : ∃ kept : List (List Record), (Optimizer.optimize plan).rows contents = kept.map Record.concat ∧
    kept.Perm ((combinations (tables.take (n + 1))).filter (query.Joins scope n))
  defined : (Optimizer.optimize plan).Defined contents

theorem Stage.scan {table : Table} : Stage query scope contents (contents table :: tables) 0 (.scan table) where
  rows    := by
    classical
    refine ⟨(contents table).map ([·]), ?_, .of_eq ?_⟩
    · rw [List.map_map]
      refine (List.map_id _).symm.trans <| List.map_congr_left fun r _ => ?_
      simp only [Function.comp_apply, Record.concat, List.flatMap_singleton, id]
    · have hj (records : List Record) : query.Joins scope 0 records := fun _ hk => absurd hk (Nat.not_lt_zero _)
      rw [List.filter_eq_self.mpr fun records _ => decide_eq_true (hj records)]
      simp [combinations]
  defined := trivial

theorem joins_append {r : Record} (hl : records.length = n + 1) :
    query.Joins scope (n + 1) (records ++ [r]) ↔ query.Joins scope n records ∧
      ∀ clause, query.joins[n]? = some clause → IsTrue (scope.take (n + 2)) (records ++ [r]) clause.on := by
  have htake {k} (hk : k < n) : (records ++ [r]).take (k + 2) = records.take (k + 2) :=
    List.take_append_of_le_length (by omega)
  have hall : (records ++ [r]).take (n + 2) = records ++ [r] := List.take_of_length_le (by simp [hl])
  constructor
  · intro h
    refine ⟨fun k hk clause hc => htake hk ▸ h k (by omega) clause hc, fun clause hc => ?_⟩
    have ht := h n (by omega) clause hc
    rwa [hall] at ht
  · rintro ⟨h, hn⟩ k hk clause hc
    obtain hk | rfl := Nat.lt_succ_iff_lt_or_eq.mp hk
    · rw [htake hk]
      exact h k hk clause hc
    · rw [hall]
      exact hn clause hc

theorem Stage.join {clause : JoinClause} {table : Table} {on : Expression} (hd : query.Defined scope tables)
    (hf : ∀ records ∈ combinations (tables.take (n + 2)), Record.Fill (scope.take (n + 2)) records)
    (hc : query.joins[n]? = some clause) (ht : tables[n + 1]? = some (contents table))
    (hb : Bound (scope.take (n + 2)) clause.on on) (hs : Stage query scope contents tables n plan)
    (hj : LogicalPlanNode.ofJoin plan (.scan table) on = .ok next) : Stage query scope contents tables (n + 1) next := by
  classical
  obtain ⟨⟨kept, hrows, hkept⟩, hdef⟩ := hs
  obtain ⟨schema, -, hnext⟩ := Except.bind_eq_ok.mp hj
  obtain rfl := Except.ok.inj hnext
  obtain ⟨hlt, hget⟩ := List.getElem?_eq_some_iff.mp ht
  have htake : tables.take (n + 2) = tables.take (n + 1) ++ [contents table] := by
    rw [List.take_succ_eq_append_getElem hlt, hget]
  have hlen {c : List Record} (h : c ∈ combinations (tables.take (n + 1))) : c.length = n + 1 := by
    rw [length_of_mem_combinations h, List.length_take]
    omega
  have hmem {c : List Record} {r : Record} (h : c ∈ combinations (tables.take (n + 1))) (hr : r ∈ contents table) :
      c ++ [r] ∈ combinations (tables.take (n + 2)) := by
    rw [htake, combinations_concat]
    exact List.mem_flatMap.mpr ⟨c, h, List.mem_map.mpr ⟨r, hr, rfl⟩⟩
  -- What the join asks of two records is the ON of the query.
  have hon {c : List Record} {r : Record} (h : c ∈ combinations (tables.take (n + 1))) (hj : query.Joins scope n c)
      (hr : r ∈ contents table) : (∃ b, on.predicate.accepts (.concat c + r) = .ok b) ∧
        (on.predicate.accepts (.concat c + r) = .ok true ↔ query.Joins scope (n + 1) (c ++ [r])) := by
    have hj' : query.Joins scope n (c ++ [r]) := by
      intro k hk clause hc
      have hl := hlen h
      rw [List.take_append_of_le_length (by omega)]
      exact hj k hk clause hc
    have hcond := condition hb (hf _ (hmem h hr)) (hd.on n clause hc _ (hmem h hr) hj')
    rw [Record.concat_append] at hcond
    refine ⟨hcond.1, hcond.2.trans ?_⟩
    rw [joins_append (hlen h)]
    refine ⟨fun ht => ⟨hj, fun clause' hc' => ?_⟩, fun ht => ht.2 clause hc⟩
    obtain rfl := Option.some.inj <| hc.symm.trans hc'
    exact ht
  have hin {c : List Record} (h : c ∈ kept) : c ∈ combinations (tables.take (n + 1)) ∧ query.Joins scope n c := by
    have h := List.mem_filter.mp <| hkept.mem_iff.mp h
    exact ⟨h.1, of_decide_eq_true h.2⟩
  constructor
  case defined =>
    refine ⟨hdef, trivial, ?_⟩
    intro l hl r hr
    rw [hrows] at hl
    obtain ⟨c, hc, rfl⟩ := List.mem_map.mp hl
    exact (hon (hin hc).1 (hin hc).2 hr).1
  case rows    =>
    have hperm := NestedLoopJoin.joined_perm on.predicate ((Optimizer.optimize plan).rows contents) (contents table)
    have hpartners : ((Optimizer.optimize plan).rows contents).flatMap (NestedLoopJoin.partners on.predicate (contents table)) =
        (kept.flatMap fun c => ((contents table).filter fun r => decide (query.Joins scope (n + 1) (c ++ [r]))).map
          fun r => c ++ [r]).map Record.concat := by
      rw [hrows, List.flatMap_map, List.map_flatMap]
      refine List.flatMap_congr fun c hc => ?_
      have hfilter : ((contents table).filter fun r => decide (on.predicate.accepts (.concat c + r) = .ok true)) =
          (contents table).filter fun r => decide (query.Joins scope (n + 1) (c ++ [r])) :=
        List.filter_congr fun r hr => decide_eq_decide.mpr (hon (hin hc).1 (hin hc).2 hr).2
      rw [NestedLoopJoin.partners, hfilter, List.map_map]
      exact List.map_congr_left fun r _ => (Record.concat_append r).symm
    rw [hpartners] at hperm
    obtain ⟨kept', hrows', hkept'⟩ := exists_map_of_perm hperm
    refine ⟨kept', hrows', hkept'.trans <| (hkept.flatMap_right _).trans <| .of_eq ?_⟩
    -- The records that do not satisfy the joins so far satisfy no more of them.
    rw [htake, combinations_concat, List.filter_flatMap]
    generalize hall : combinations (tables.take (n + 1)) = all at hlen
    clear hall hkept hin hon hmem
    induction all
    case nil             => rfl
    case cons c all ih   =>
      have ih := ih fun h => hlen (List.mem_cons_of_mem _ h)
      rw [List.flatMap_cons, List.filter_cons, ←ih, List.filter_map]
      by_cases hj : query.Joins scope n c
      case pos =>
        rw [if_pos (decide_eq_true hj), List.flatMap_cons]
        rfl
      case neg =>
        rw [if_neg (by simpa using hj)]
        refine (List.nil_append _).symm.trans <| congrArg (· ++ _) ?_
        refine (List.map_eq_nil_iff.mpr <| List.filter_eq_nil_iff.mpr fun r _ h => hj ?_).symm
        exact ((joins_append (hlen List.mem_cons_self)).mp (of_decide_eq_true h)).1

theorem Stage.kept {predicate : Option Expression} (hs : Stage query scope contents tables query.joins.length plan)
    (hl : tables.length = query.joins.length + 1) (hd : query.Defined scope tables)
    (hf : ∀ records ∈ combinations tables, Record.Fill scope records)
    (hp : query.predicate = .null ∧ predicate = none ∨ ∃ e, predicate = some e ∧ Bound scope query.predicate e) :
    Kept query scope contents tables (predicate.elim plan (.filter plan)) := by
  classical
  obtain ⟨⟨kept, hrows, hkept⟩, hdef⟩ := hs
  rw [←hl, List.take_length] at hkept
  obtain ⟨hn, rfl⟩ | ⟨e, rfl, hb⟩ := hp
  case inl =>
    refine ⟨⟨kept, hrows, hkept.trans <| .of_eq <| List.filter_congr fun records _ => decide_eq_decide.mpr ?_⟩, hdef⟩
    exact ⟨fun h => ⟨h, .inl hn⟩, Keeps.joins⟩
  case inr =>
    have hn : query.predicate ≠ .null := by
      intro hn
      rw [hn] at hb
      cases hb
    have hin {c : List Record} (h : c ∈ kept) : c ∈ combinations tables ∧ query.Joins scope query.joins.length c := by
      have h := List.mem_filter.mp <| hkept.mem_iff.mp h
      exact ⟨h.1, of_decide_eq_true h.2⟩
    have hwhere {c : List Record} (h : c ∈ kept) := condition hb (hf c (hin h).1)
      (hd.where_.resolve_left hn c (hin h).1 (hin h).2)
    constructor
    case defined =>
      refine ⟨hdef, fun r hr => ?_⟩
      rw [hrows] at hr
      obtain ⟨c, hc, rfl⟩ := List.mem_map.mp hr
      exact (hwhere hc).1
    case rows    =>
      refine ⟨kept.filter fun c => IsTrue scope c query.predicate, ?_, (hkept.filter _).trans <| .of_eq ?_⟩
      · rw [Option.elim_some, Optimizer.optimize, PhysicalPlanNode.rows, hrows, List.filter_map]
        exact congrArg _ <| List.filter_congr fun c hc => decide_eq_decide.mpr (hwhere hc).2
      · rw [List.filter_filter]
        refine List.filter_congr fun c _ => ?_
        rw [←Bool.decide_and]
        refine decide_eq_decide.mpr ⟨fun h => ⟨h.2, .inr h.1⟩, fun h => ⟨h.where_.resolve_left hn, h.joins⟩⟩

theorem project_gives {refs : List ColumnRef} {is : List ℕ} (hc : query.columns = some refs) (hi : List.Forall₂ (Refers scope) refs is)
    (hf : Record.Fill scope records) :
    ∃ r, ProjectionOperator.project is (.concat records) = .ok r ∧ query.Gives scope records r := by
  obtain ⟨vs, hvs, hg⟩ : ∃ vs, is.mapM (Record.concat records).get = .ok vs ∧
      List.Forall₂ (fun ref v => Evaluates scope records (.column ref) v) refs vs := by
    clear hc
    induction hi
    case nil                => exact ⟨[], rfl, .nil⟩
    case cons ref i _ is hi _ ih =>
      obtain ⟨vs, hvs, hg⟩ := ih
      have hlt : i < (Record.concat records).values.length := hf.length ▸ hi.lt
      have hv : (Record.concat records).get i = .ok (Record.concat records).values[i] := by
        rw [Record.get, List.getElem?_eq_getElem hlt]
      refine ⟨_ :: vs, ?_, .cons ((evaluates_column hf hi).mpr hv) hg⟩
      rw [List.mapM_cons, hv, hvs]
      rfl
  exact ⟨⟨vs⟩, by rw [ProjectionOperator.project, hvs]; rfl, .some hc hg⟩

theorem Kept.projected {columns : Option (List ℕ)} {projected : LogicalPlanNode} (hk : Kept query scope contents tables plan)
    (hf : ∀ records ∈ combinations tables, Record.Fill scope records)
    (hc : query.columns = none ∧ columns = none ∨ ∃ refs is, query.columns = some refs ∧ columns = some is ∧ refs ≠ [] ∧
      List.Forall₂ (Refers scope) refs is)
    (hp : columns.elim (.ok plan) (LogicalPlanNode.ofProjection plan) = .ok projected) :
    query.Answers scope tables ((Optimizer.optimize projected).rows contents) ∧
      (Optimizer.optimize projected).Defined contents := by
  classical
  obtain ⟨⟨kept, hrows, hkept⟩, hdef⟩ := hk
  obtain ⟨hn, rfl⟩ | ⟨refs, is, hs, rfl, -, hi⟩ := hc
  case inl =>
    cases hp
    refine ⟨⟨kept, hkept, ?_⟩, hdef⟩
    rw [hrows]
    exact List.forall₂_map_right_iff.mpr <| List.forall₂_same.mpr fun _ _ => .all hn
  case inr =>
    obtain ⟨schema, -, he⟩ := Except.bind_eq_ok.mp hp
    cases he
    have hgives {c : List Record} (h : c ∈ kept) :=
      project_gives hs hi (hf c (List.mem_filter.mp <| hkept.mem_iff.mp h).1)
    constructor
    case left  =>
      refine ⟨kept, hkept, ?_⟩
      rw [Optimizer.optimize, PhysicalPlanNode.rows, hrows]
      clear hkept hrows
      induction kept
      case nil             => exact .nil
      case cons c kept ih  =>
        obtain ⟨r, hr, hg⟩ := hgives List.mem_cons_self
        rw [List.map_cons, List.filterMap_cons_some (b := r) (by rw [hr]; rfl)]
        exact .cons hg <| ih fun h => hgives (List.mem_cons_of_mem _ h)
    case right =>
      refine ⟨hdef, fun r hr => ?_⟩
      rw [hrows] at hr
      obtain ⟨c, hc, rfl⟩ := List.mem_map.mp hr
      obtain ⟨r, hr, -⟩ := hgives hc
      exact ⟨r, hr⟩

end plans

end SelectQuery

namespace Record

variable {scope : Scope} {tables : List Table} {contents : Table → List Record}

theorem fill_of_mem_combinations {lists : List (List Record)} {records : List Record}
    (h : List.Forall₂ (fun entry rs => ∀ r ∈ rs, r.values.length = entry.2.columnCount) scope lists)
    (hm : records ∈ combinations lists) : Fill scope records := by
  replace hm := forall₂_of_mem_combinations hm
  induction h generalizing records
  case nil               =>
    cases hm
    exact .nil
  case cons he _ ih      =>
    cases hm
    case cons hr hm => exact .cons (he _ hr) (ih hm)

end Record

namespace Binder

variable {getTable : Name → Except String (Option Table)} {query : SelectQuery} {q : BoundQuery} {ref : TableRef}

namespace BoundQuery

def tables (q : BoundQuery) : List Table :=
  q.table :: q.joins.map Prod.fst

theorem tables_length (q : BoundQuery) : q.tables.length = q.joins.length + 1 := by
  rw [tables, List.length_cons, List.length_map]

theorem tables_getElem? {k : ℕ} {join : Table × Expression} (h : q.joins[k]? = some join) : q.tables[k + 1]? = some join.1 := by
  rw [tables, List.getElem?_cons_succ, List.getElem?_map, h]
  rfl

theorem scope_eq (h : query.table = some ref) : query.scope q.tables = q.scope ref query.joins := by
  rw [SelectQuery.scope, SelectQuery.tableRefs, h, tables, BoundQuery.scope, joinScope]
  simp only [Option.toList, List.singleton_append, List.zipWith_cons_cons]
  congr 1
  rw [List.zipWith_map]

-- The joins up to one of them, in a plan.
def joined (q : BoundQuery) (n : ℕ) : Except String LogicalPlanNode :=
  (q.joins.take n).foldlM (fun plan join => LogicalPlanNode.ofJoin plan (.scan join.1) join.2) (.scan q.table)

theorem joined_succ {join : Table × Expression} (h : q.joins[n]? = some join) :
    q.joined (n + 1) = q.joined n >>= (LogicalPlanNode.ofJoin · (.scan join.1) join.2) := by
  obtain ⟨hlt, rfl⟩ := List.getElem?_eq_some_iff.mp h
  rw [joined, List.take_succ_eq_append_getElem hlt, List.foldlM_append, joined]
  congr 1
  funext plan
  rw [List.foldlM_cons]
  simp only [List.foldlM_nil, bind_pure]

end BoundQuery

open SelectQuery

variable {contents : Table → List Record} {plan joined : LogicalPlanNode}

-- Each table holds records of its schema.
def Filled (contents : Table → List Record) (tables : List Table) : Prop :=
  ∀ table ∈ tables, ∀ r ∈ contents table, r.values.length = table.schema.columnCount

namespace Resolves

theorem joins_length (h : Resolves getTable query q) : query.joins.length = q.joins.length :=
  h.joins.length_eq

theorem scope_length (h : Resolves getTable query q) (hq : query.table = some ref) :
    (query.scope q.tables).length = q.tables.length := by
  rw [SelectQuery.scope, List.length_zipWith, tableRefs, hq, q.tables_length, List.length_append, List.length_map, h.joins_length]
  simp only [Option.toList, List.length_singleton]
  omega

theorem fill (h : Resolves getTable query q) (hq : query.table = some ref) (hf : Filled contents q.tables) (n : ℕ) :
    ∀ records ∈ combinations ((q.tables.map contents).take n), Record.Fill ((query.scope q.tables).take n) records := by
  intro records hm
  refine Record.fill_of_mem_combinations (List.forall₂_take n ?_) hm
  refine List.forall₂_iff_get.mpr ⟨by rw [h.scope_length hq, List.length_map], fun i h₁ h₂ => ?_⟩
  simp only [SelectQuery.scope, List.get_eq_getElem, List.getElem_zipWith, List.getElem_map, entry]
  exact hf _ (List.getElem_mem _)

theorem stage (h : Resolves getTable query q) (hq : query.table = some ref) (hf : Filled contents q.tables)
    (hd : query.Defined (query.scope q.tables) (q.tables.map contents)) (hn : n ≤ q.joins.length) (hj : q.joined n = .ok plan) :
    Stage query (query.scope q.tables) contents (q.tables.map contents) n plan := by
  induction n generalizing plan
  case zero      =>
    cases hj
    exact .scan
  case succ n ih =>
    have hlt : n < q.joins.length := hn
    have hjoin := List.getElem?_eq_getElem hlt
    have hclause := List.getElem?_eq_getElem (h.joins_length ▸ hlt)
    rw [BoundQuery.joined_succ hjoin] at hj
    obtain ⟨before, hb, hj⟩ := Except.bind_eq_ok.mp hj
    have hon := h.ons hq hclause hjoin
    rw [←BoundQuery.scope_eq hq] at hon
    refine Stage.join hd (h.fill hq hf _) hclause ?_ hon (ih (Nat.le_of_lt hlt) hb) hj
    rw [List.getElem?_map, BoundQuery.tables_getElem? hjoin]
    rfl

-- The plan of a resolved query, up to its LIMIT, gives all its answers.
theorem answers (h : Resolves getTable query q) (hq : query.table = some ref) (hf : Filled contents q.tables)
    (hd : query.Defined (query.scope q.tables) (q.tables.map contents)) (hp : { q with limit := none }.plan = .ok plan) :
    query.Answers (query.scope q.tables) (q.tables.map contents) ((Optimizer.optimize plan).rows contents) ∧
      (Optimizer.optimize plan).Defined contents := by
  obtain ⟨joined, hj, projected, hprojected, rfl⟩ := plan_eq_ok.mp hp
  obtain ⟨-, -, hw, hcols, -⟩ := (resolves_iff hq).mp h
  rw [←BoundQuery.scope_eq hq] at hw hcols
  have hl : (q.tables.map contents).length = query.joins.length + 1 := by
    rw [List.length_map, q.tables_length, h.joins_length]
  have hfill : ∀ records ∈ combinations (q.tables.map contents), Record.Fill (query.scope q.tables) records := by
    have hfill := h.fill hq hf (q.tables.map contents).length
    rwa [List.take_length, List.length_map, ←h.scope_length hq, List.take_length] at hfill
  have hj : q.joined query.joins.length = .ok joined := by
    rw [BoundQuery.joined, h.joins_length, List.take_length]
    exact hj
  exact ((h.stage hq hf hd (Nat.le_of_eq h.joins_length) hj).kept hl hd hfill hw).projected hfill hcols hprojected

end Resolves

end Binder
end Duck
