import Duck.Expression.Theorems.Comparison
import Duck.Lib.Kleene

namespace Duck
namespace Value

variable {u v : Value}

def truth : Value → Kleene
  | bool b => .ofBool b
  | _      => .unknown

def ofTruth : Kleene → Value
  | .true    => bool true
  | .false   => bool false
  | .unknown => null .bool

@[simp]
theorem truth_ofTruth (t : Kleene) : (ofTruth t).truth = t := by
  cases t <;> rfl

@[simp]
theorem ofTruth_type (t : Kleene) : (ofTruth t).type = .bool := by
  cases t <;> rfl

theorem ofTruth_inj {s t : Kleene} : ofTruth s = ofTruth t ↔ s = t := by
  cases s <;> cases t <;> simp [ofTruth]

theorem ofTruth_ofBool (b : Bool) : ofTruth (.ofBool b) = bool b := by
  cases b <;> rfl

theorem ofTruth_truth (h : v.type = .bool) : ofTruth v.truth = v := by
  cases v
  case null t => exact congrArg null h.symm
  case bool b => exact ofTruth_ofBool b
  all_goals cases h

-- Whatever two values are, to compare them does not throw.
theorem compare_ok (u v : Value) : ∃ cmp, u.compare v = .ok cmp := by
  cases u <;> cases v <;> first | exact ⟨_, compare_integer rfl rfl⟩ | exact ⟨_, rfl⟩

-- How two values compare, where that is known.
def verdict (u v : Value) : Option Ordering :=
  match u.compare v with
  | .ok .less    => some .lt
  | .ok .eq      => some .eq
  | .ok .greater => some .gt
  | _            => none

theorem verdict_eq_none_iff : verdict u v = none ↔ u.compare v = .ok .unknown := by
  obtain ⟨cmp, h⟩ := compare_ok u v
  rw [verdict, h]
  cases cmp <;> simp

end Value

def ComparisonOperator.agrees (o : Ordering) : ComparisonOperator → Bool
  | equal     => o = .eq
  | notEq     => o ≠ .eq
  | greater   => o = .gt
  | less      => o = .lt
  | greaterEq => o ≠ .lt
  | lessEq    => o ≠ .gt

def ComparisonOperator.negate : ComparisonOperator → ComparisonOperator
  | equal     => notEq
  | notEq     => equal
  | greater   => lessEq
  | less      => greaterEq
  | greaterEq => less
  | lessEq    => greater

theorem ComparisonOperator.agrees_negate (o : Ordering) (op : ComparisonOperator) :
    op.negate.agrees o = !op.agrees o := by
  cases op <;> cases o <;> rfl

namespace Expression

variable {record : Record}

-- What an expression stands for in three-valued logic.
def meaning (record : Record) : Expression → Value
  | column index             => record.values[index]?.getD (.null .bool)
  | constant value           => value
  | comparison left op right =>
    match (left.meaning record).verdict (right.meaning record) with
    | some o => .ofTruth <| .ofBool <| op.agrees o
    | none   => .ofTruth .unknown
  | binary left .and right   => .ofTruth <| (left.meaning record).truth.and (right.meaning record).truth
  | binary left .or right    => .ofTruth <| (left.meaning record).truth.or (right.meaning record).truth
  | unary expr .not          => .ofTruth <| (expr.meaning record).truth.not

def kleene (record : Record) (expr : Expression) : Kleene :=
  (expr.meaning record).truth

-- What may be negated, or joined by a connective.
def Logical (record : Record) : Expression → Prop
  | column index   => ∃ value, record.values[index]? = some value ∧ value.type = .bool
  | constant value => value.type = .bool
  | _              => True

def WellFormed (record : Record) : Expression → Prop
  | column index          => index < record.size
  | constant _            => True
  | comparison left _ right => left.WellFormed record ∧ right.WellFormed record
  | binary left _ right   =>
    left.WellFormed record ∧ right.WellFormed record ∧ left.Logical record ∧ right.Logical record
  | unary expr _          => expr.WellFormed record ∧ expr.Logical record

-- An operand of a connective is never anything but a truth value, even where it is null.
theorem Logical.meaning_eq {expr : Expression} (h : expr.Logical record) :
    expr.meaning record = .ofTruth (expr.kleene record) := by
  rw [kleene]
  cases expr
  case column index       =>
    obtain ⟨value, hv, ht⟩ := h
    rw [meaning, hv, Option.getD_some, Value.ofTruth_truth ht]
  case constant value     => exact (Value.ofTruth_truth h).symm
  case comparison l op r  =>
    rw [meaning]
    split <;> rw [Value.truth_ofTruth]
  case binary l op r      => cases op <;> rw [meaning, Value.truth_ofTruth]
  case unary expr op      => cases op; rw [meaning, Value.truth_ofTruth]

theorem comparison_eq (u v : Value) (op : ComparisonOperator) :
    (do
      let cmp ← u.compare v
      if cmp = .unknown then
        return .null .bool
      else
        return .bool (op.apply cmp) : Except String Value) =
    .ok (match u.verdict v with
      | some o => .ofTruth <| .ofBool <| op.agrees o
      | none   => .ofTruth .unknown) := by
  obtain ⟨cmp, h⟩ := Value.compare_ok u v
  rw [Value.verdict, h]
  cases cmp <;> cases op <;> rfl

theorem and_apply (s t : Kleene) :
    BinaryOperator.and.apply (.ofTruth s) (.ofTruth t) = .ok (.ofTruth (s.and t)) := by
  cases s <;> cases t <;> rfl

theorem or_apply (s t : Kleene) :
    BinaryOperator.or.apply (.ofTruth s) (.ofTruth t) = .ok (.ofTruth (s.or t)) := by
  cases s <;> cases t <;> rfl

theorem not_apply (t : Kleene) : UnaryOperator.not.apply (.ofTruth t) = .ok (.ofTruth t.not) := by
  cases t <;> rfl

theorem WellFormed.evaluate_eq {expr : Expression} (h : expr.WellFormed record) :
    expr.evaluate record = .ok (expr.meaning record) := by
  induction expr
  case column index               =>
    have hg : record.values[index]? = some record.values[index] := List.getElem?_eq_getElem h
    rw [evaluate, meaning, Record.get, hg, Option.getD_some]
  case constant value             => rfl
  case comparison l op r hl hr    =>
    rw [evaluate, hl h.left, hr h.right]
    exact comparison_eq _ _ op
  case binary l op r hl hr        =>
    obtain ⟨hwl, hwr, hbl, hbr⟩ := h
    rw [evaluate, hl hwl, hr hwr, Except.ok_bind, Except.ok_bind, hbl.meaning_eq, hbr.meaning_eq]
    cases op
    case and => rw [and_apply]; rfl
    case or  => rw [or_apply]; rfl
  case unary expr op he           =>
    obtain ⟨hw, hb⟩ := h
    rw [evaluate, he hw, Except.ok_bind, hb.meaning_eq]
    cases op
    rw [not_apply]
    rfl

theorem kleene_comparison {left right : Expression} {op : ComparisonOperator} :
    (comparison left op right).kleene record =
      match (left.meaning record).verdict (right.meaning record) with
      | some o => .ofBool (op.agrees o)
      | none   => .unknown := by
  rw [kleene, meaning]
  split <;> rw [Value.truth_ofTruth]

theorem kleene_negate {left right : Expression} {op : ComparisonOperator} :
    (comparison left op.negate right).kleene record = ((comparison left op right).kleene record).not := by
  rw [kleene_comparison, kleene_comparison]
  split
  · rw [ComparisonOperator.agrees_negate, Kleene.not_ofBool]
  · rfl

theorem kleene_not {expr : Expression} : (unary expr .not).kleene record = (expr.kleene record).not :=
  Value.truth_ofTruth _

theorem kleene_and {left right : Expression} :
    (binary left .and right).kleene record = (left.kleene record).and (right.kleene record) :=
  Value.truth_ofTruth _

theorem kleene_or {left right : Expression} :
    (binary left .or right).kleene record = (left.kleene record).or (right.kleene record) :=
  Value.truth_ofTruth _

theorem WellFormed.evaluate_kleene {expr : Expression} (h : expr.WellFormed record) (hb : expr.Logical record) :
    expr.evaluate record = .ok (.ofTruth (expr.kleene record)) :=
  hb.meaning_eq ▸ h.evaluate_eq

theorem WellFormed.not {expr : Expression} (h : expr.WellFormed record) (hb : expr.Logical record) :
    (unary expr .not).WellFormed record :=
  ⟨h, hb⟩

theorem WellFormed.not_binary {left right : Expression} {op op' : BinaryOperator}
    (h : (binary left op right).WellFormed record) :
    (binary (unary left .not) op' (unary right .not)).WellFormed record :=
  have ⟨hl, hr, hbl, hbr⟩ := h
  ⟨hl.not hbl, hr.not hbr, trivial, trivial⟩

-- What is evaluated by the rules of three-valued logic.
structure ThreeValued (record : Record) : Prop where
  total          : ∀ {a : Expression}, a.WellFormed record → ∃ value, a.evaluate record = .ok value
  truth          : ∀ {a : Expression}, a.WellFormed record → a.Logical record →
    a.evaluate record = .ok (.ofTruth (a.kleene record))
  unknown        : ∀ {a b : Expression} {u v op}, a.evaluate record = .ok u → b.evaluate record = .ok v →
    ((comparison a op b).evaluate record = .ok (.ofTruth .unknown) ↔ u.compare v = .ok .unknown)
  known          : ∀ {a b : Expression} {u v op o}, a.evaluate record = .ok u → b.evaluate record = .ok v →
    u.compare v = .ok (.ofOrdering o) → (comparison a op b).evaluate record = .ok (.ofTruth (.ofBool (op.agrees o)))
  not_and        : ∀ {a b : Expression}, (binary a .and b).WellFormed record →
    (unary (binary a .and b) .not).evaluate record = (binary (unary a .not) .or (unary b .not)).evaluate record
  not_or         : ∀ {a b : Expression}, (binary a .or b).WellFormed record →
    (unary (binary a .or b) .not).evaluate record = (binary (unary a .not) .and (unary b .not)).evaluate record
  not_not        : ∀ {a : Expression}, (unary a .not).WellFormed record →
    (unary (unary a .not) .not).evaluate record = a.evaluate record
  not_comparison : ∀ {a b : Expression} {op}, (comparison a op b).WellFormed record →
    (unary (comparison a op b) .not).evaluate record = (comparison a op.negate b).evaluate record

theorem three_valued (record : Record) : ThreeValued record where
  total h                  := ⟨_, h.evaluate_eq⟩
  truth h hb               := h.evaluate_kleene hb
  unknown {a b u v op} ha hb := by
    rw [evaluate, ha, hb, Except.ok_bind, Except.ok_bind, comparison_eq, ←Value.verdict_eq_none_iff]
    cases u.verdict v
    case none   => exact iff_of_true rfl rfl
    case some o => simp [Value.ofTruth_inj, Kleene.ofBool_ne_unknown]
  known {a b u v op o} ha hb h := by
    rw [evaluate, ha, hb, Except.ok_bind, Except.ok_bind, comparison_eq, Value.verdict, h]
    cases o <;> rfl
  not_and {a b} h          := by
    rw [WellFormed.evaluate_kleene (h.not trivial) trivial, kleene_not, kleene_and, Kleene.not_and]
    rw [h.not_binary.evaluate_kleene trivial, kleene_or, kleene_not, kleene_not]
  not_or {a b} h           := by
    rw [WellFormed.evaluate_kleene (h.not trivial) trivial, kleene_not, kleene_or, Kleene.not_or]
    rw [h.not_binary.evaluate_kleene trivial, kleene_and, kleene_not, kleene_not]
  not_not {a} h            := by
    rw [WellFormed.evaluate_kleene (h.not trivial) trivial, kleene_not, kleene_not, Kleene.not_not]
    rw [h.left.evaluate_kleene h.right]
  not_comparison {a b op} h := by
    have h' : (comparison a op.negate b).WellFormed record := h
    rw [WellFormed.evaluate_kleene (h.not trivial) trivial, kleene_not, ←kleene_negate, h'.evaluate_kleene trivial]

-- A constant that is not a truth value is what it is.
theorem not_always_bool :
    ¬∀ (record : Record) (a : Expression), a.WellFormed record →
      ∃ t, a.evaluate record = .ok (.ofTruth t) := by
  intro h
  obtain ⟨t, ht⟩ := h ⟨[]⟩ (.constant (.int32 5)) trivial
  cases t <;> cases ht

end Expression
end Duck
