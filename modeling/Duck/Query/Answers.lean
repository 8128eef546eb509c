import Duck.Query.Theorems.Binder

namespace Duck

-- The choices of one element from each list.
def combinations (lists : List (List α)) : List (List α) :=
  lists.foldl (fun chosen as => chosen.flatMap fun c => as.map fun a => c ++ [a]) [[]]

namespace Record

def concat (records : List Record) : Record :=
  ⟨records.flatMap Record.values⟩

end Record

-- What a query means, by the names in it.
namespace SelectQuery

open Binder

-- The tables of the query in the order of its FROM and its joins.
def tableRefs (query : SelectQuery) : List TableRef :=
  query.table.toList ++ query.joins.map JoinClause.table

def scope (query : SelectQuery) (tables : List Table) : Scope :=
  List.zipWith entry query.tableRefs tables

-- The value of an expression for one record of each table of the scope. A column belongs to the table that it
-- names.
inductive Evaluates (scope : Scope) (records : List Record) : UnboundExpression → Value → Prop
  | column (selects : Selects scope ref k) (table : scope[k]? = some (name, schema))
    (position : schema.FirstAt ref.name p) (record : records[k]? = some r) (value : r.values[p]? = some v) :
    Evaluates scope records (.column ref) v
  | constant : Evaluates scope records (.constant v) v
  | comparison (left : Evaluates scope records l a) (right : Evaluates scope records r b) (compare : a.compare b = .ok order) :
    Evaluates scope records (.comparison l op r) (if order = .unknown then .null .bool else .bool (op.apply order))
  | binary (left : Evaluates scope records l a) (right : Evaluates scope records r b) (apply : op.apply a b = .ok v) :
    Evaluates scope records (.binary l op r) v
  | unary (expression : Evaluates scope records e a) (apply : op.apply a = .ok v) : Evaluates scope records (.unary e op) v

abbrev IsTrue (scope : Scope) (records : List Record) (e : UnboundExpression) : Prop :=
  Evaluates scope records e (.bool true)

-- The first joins are satisfied. Each ON is about the tables up to its own.
def Joins (query : SelectQuery) (scope : Scope) (n : ℕ) (records : List Record) : Prop :=
  ∀ k < n, ∀ clause, query.joins[k]? = some clause → IsTrue (scope.take (k + 2)) (records.take (k + 2)) clause.on

-- The records are taken, one of each table.
structure Keeps (query : SelectQuery) (scope : Scope) (records : List Record) : Prop where
  joins  : query.Joins scope query.joins.length records
  where_ : query.predicate = .null ∨ IsTrue scope records query.predicate

-- What the records give.
inductive Gives (query : SelectQuery) (scope : Scope) (records : List Record) : Record → Prop
  | all  (columns : query.columns = none) : Gives query scope records (.concat records)
  | some (columns : query.columns = some columnRefs)
    (values : List.Forall₂ (fun ref v => Evaluates scope records (.column ref) v) columnRefs vs) :
    Gives query scope records ⟨vs⟩

open Classical in
-- All that a query gives without its LIMIT, in some order.
def Answers (query : SelectQuery) (scope : Scope) (tables : List (List Record)) (answers : List Record) : Prop :=
  ∃ kept, kept.Perm ((combinations tables).filter (query.Keeps scope)) ∧ List.Forall₂ (query.Gives scope) kept answers

-- No condition of the query throws, or is neither a BOOL nor unknown, where it is asked.
structure Defined (query : SelectQuery) (scope : Scope) (tables : List (List Record)) : Prop where
  on     : ∀ k clause, query.joins[k]? = some clause → ∀ records ∈ combinations (tables.take (k + 2)),
    query.Joins scope k records → ∃ v, Evaluates (scope.take (k + 2)) records clause.on v ∧ v.type = .bool
  where_ : query.predicate = .null ∨ ∀ records ∈ combinations tables, query.Joins scope query.joins.length records →
    ∃ v, Evaluates scope records query.predicate v ∧ v.type = .bool

end SelectQuery
end Duck
