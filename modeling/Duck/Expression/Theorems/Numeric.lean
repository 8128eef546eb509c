import Duck.Expression.Theorems.Comparison
import Mathlib.Order.Compare

namespace Duck

-- What the operator asks of two numbers.
def ComparisonOperator.holds {α : Type} [LinearOrder α] (a b : α) : ComparisonOperator → Bool
  | equal     => a = b
  | notEq     => a ≠ b
  | greater   => b < a
  | less      => a < b
  | greaterEq => b ≤ a
  | lessEq    => a ≤ b

theorem ComparisonOperator.apply_compareGeneric {α : Type} [LinearOrder α] (a b : α) (op : ComparisonOperator) :
    op.apply (compareGeneric a b) = op.holds a b := by
  obtain h | h | h := lt_trichotomy a b
  · rw [compareGeneric_of_lt h]
    cases op <;> simp [apply, holds, h, h.le, h.ne, h.asymm]
  · rw [compareGeneric_of_eq h]
    cases op <;> simp [apply, holds, h]
  · rw [compareGeneric_of_gt h]
    cases op <;> simp [apply, holds, h, h.le, h.ne', h.asymm]

theorem compareGeneric_ne_unknown {α : Type} [LT α] [DecidableLT α] (a b : α) : compareGeneric a b ≠ .unknown := by
  unfold compareGeneric
  split_ifs <;> exact nofun

theorem compareFloating_finite (a b : ℚ) : compareFloating (.finite a) (.finite b) = compareGeneric a b :=
  rfl

namespace Value

variable {u v x : Value}

-- The number that a FLOAT or a DOUBLE stands for, unless it is a NaN or infinite.
def rational : Value → Option ℚ
  | double bits =>
    match Floating.ofBits 11 52 bits.toNat with
    | .finite q => some q
    | _         => none
  | float bits  =>
    match Floating.ofBits 8 23 bits.toNat with
    | .finite q => some q
    | _         => none
  | _           => none

theorem floatingOperand_of_rational (h : x.rational = some q) : x.floatingOperand = .ok (.finite q) := by
  cases x
  case double bits =>
    cases hb : Floating.ofBits 11 52 bits.toNat <;> simp only [rational, hb, reduceCtorEq, Option.some_inj] at h
    rw [←h, ←hb]
    rfl
  case float bits  =>
    cases hb : Floating.ofBits 8 23 bits.toNat <;> simp only [rational, hb, reduceCtorEq, Option.some_inj] at h
    rw [←h, ←hb]
    rfl
  all_goals cases h

theorem isFloating_of_rational (h : x.rational = some q) : x.isFloating = true := by
  cases x <;> first | rfl | cases h

theorem isNull_of_rational (h : x.rational = some q) : x.isNull = false := by
  cases x <;> first | rfl | cases h

theorem toInt_emod (x : Int64) : x.toInt % 2 ^ 64 = x.toUInt64.toNat := by
  have hx : x.toInt = (x.toUInt64.toNat : ℤ).bmod (2 ^ 64) := BitVec.toInt_eq_toNat_bmod x.toBitVec
  have hlt := x.toUInt64.toNat_lt
  have hmod := Int.bmod_emod (x := x.toUInt64.toNat) (m := 2 ^ 64)
  rw [←hx] at hmod
  push_cast at hmod
  omega

-- A negative integer is taken for the one that has the same bits without a sign.
theorem integralOperand_of_integer (h : v.integer = some n) :
    v.integralOperand = .ok (.finite (Floating.roundNat 53 (n % 2 ^ 64).toNat)) := by
  by_cases ht : v.type = .uint64
  · obtain ⟨x, rfl, rfl⟩ := integer_uint64 h ht
    have hlt := x.toNat_lt
    rw [show (x.toNat : ℤ) % 2 ^ 64 = x.toNat by omega]
    rfl
  · obtain ⟨x, hx, rfl⟩ := asIntegral_of_integer h ht
    rw [toInt_emod, integralOperand, if_neg ht, hx]
    rfl

section operands

variable (hx : x.rational = some q) (hv : v.integer = some n)
include hx hv

theorem isNumeric_of_operands : x.isNumeric = true ∧ v.isNumeric = true := by
  rw [isNumeric, isNumeric, isFloating_of_rational hx, isIntegral_of_integer hv, Bool.or_true, Bool.true_or]
  exact ⟨rfl, rfl⟩

theorem compare_rational_integer :
    x.compare v = .ok (compareGeneric q (Floating.roundNat 53 (n % 2 ^ 64).toNat)) := by
  simp only [compare, isNull_of_rational hx, isNull_of_integer hv, isFloating_of_rational hx,
    isFloating_of_integer hv, isNumeric_of_operands hx hv, Bool.or_self, Bool.and_false, Bool.and_self,
    Bool.false_eq_true, if_false, if_true, floatingOperand_of_rational hx, integralOperand_of_integer hv,
    Except.ok_bind, compareFloating_finite]
  rfl

theorem compare_integer_rational :
    v.compare x = .ok (compareGeneric (Floating.roundNat 53 (n % 2 ^ 64).toNat : ℚ) q) := by
  simp only [compare, isNull_of_rational hx, isNull_of_integer hv, isFloating_of_rational hx,
    isFloating_of_integer hv, isNumeric_of_operands hx hv, Bool.or_self, Bool.false_and, Bool.and_self,
    Bool.false_eq_true, if_false, if_true, floatingOperand_of_rational hx, integralOperand_of_integer hv,
    Except.ok_bind, compareFloating_finite]
  rfl

end operands

-- The values are compared as the numbers `a` and `b`, and what is filtered by them too.
structure ComparedAs (u v : Value) (a b : ℚ) : Prop where
  verdict : u.compare v = .ok (.ofOrdering (Ord.compare a b))
  filter  : ∀ record left right op, left.evaluate record = .ok u → right.evaluate record = .ok v →
    (Expression.comparison left op right).predicate.accepts record = .ok (op.holds a b)

theorem ComparedAs.of_compare (h : u.compare v = .ok (compareGeneric a b)) : ComparedAs u v a b where
  verdict := compareGeneric_eq a b ▸ h
  filter record left right op hl hr := by
    simp only [Predicate.accepts, Expression.predicate, Expression.evaluate, hl, hr, h, Except.ok_bind,
      if_neg (compareGeneric_ne_unknown a b), ComparisonOperator.apply_compareGeneric]
    rfl

theorem comparedAs_iff (h : u.compare v = .ok c) : ComparedAs u v a b ↔ c = compareGeneric a b := by
  refine ⟨fun hc => ?_, fun hc => .of_compare <| hc ▸ h⟩
  rw [←Except.ok.injEq (ε := String), ←h, hc.verdict, compareGeneric_eq]

-- Two numbers are told from a third alike when it is on the same side of both.
theorem compareGeneric_congr {a b c : ℚ} (hb : b < c) :
    compareGeneric a c = compareGeneric a b ∧ compareGeneric c a = compareGeneric b a ↔ a < b ∨ c < a := by
  obtain h | rfl | h := lt_trichotomy a b
  · have h' := h.trans hb
    simp [compareGeneric_of_lt h, compareGeneric_of_lt h', compareGeneric_of_gt h, compareGeneric_of_gt h', h]
  · simp [compareGeneric_of_eq, compareGeneric_of_lt hb, hb.le]
  · obtain h' | rfl | h' := lt_trichotomy a c
    · simp [compareGeneric_of_gt h, compareGeneric_of_lt h', h.le, h'.le]
    · simp [compareGeneric_of_gt h, compareGeneric_of_eq, h.le]
    · simp [compareGeneric_of_gt h, compareGeneric_of_gt h', compareGeneric_of_lt h, compareGeneric_of_lt h', h']

-- To what a negative integer is taken, the comparison is right with only what is on the same side of both.
theorem compared_iff (hx : x.rational = some q) (hv : v.integer = some n) (hn : |n| ≤ 2 ^ 53) :
    (ComparedAs x v q n ∧ ComparedAs v x n q) ↔
      0 ≤ n ∨ q < n ∨ (Floating.roundNat 53 (2 ^ 64 + n).toNat : ℚ) < q := by
  rw [comparedAs_iff <| compare_rational_integer hx hv, comparedAs_iff <| compare_integer_rational hx hv]
  rw [abs_le] at hn
  by_cases h0 : 0 ≤ n
  · have hr : (Floating.roundNat 53 (n % 2 ^ 64).toNat : ℤ) = n := by
      rw [Floating.roundNat_of_le (by decide)] <;> omega
    rw [←Int.cast_natCast, hr]
    exact iff_of_true ⟨rfl, rfl⟩ (.inl h0)
  · have hmod : n % 2 ^ 64 = 2 ^ 64 + n := by omega
    have hlt : (n : ℚ) < 0 := by exact_mod_cast not_le.mp h0
    rw [or_iff_right h0, hmod]
    exact compareGeneric_congr <| hlt.trans_le <| Nat.cast_nonneg _

theorem rational_zero : (double 0).rational = some 0 := by
  decide +kernel

theorem compared_iff_minus_one :
    (ComparedAs (.double 0) (.int32 (-1)) 0 (-1 : ℤ) ∧ ComparedAs (.int32 (-1)) (.double 0) (-1 : ℤ) 0) ↔
      (0 : ℤ) ≤ -1 ∨ (0 : ℚ) < (-1 : ℤ) ∨ (Floating.roundNat 53 (2 ^ 64 + -1 : ℤ).toNat : ℚ) < 0 :=
  compared_iff rational_zero rfl (by decide)

-- 0.0 is less than -1.
theorem not_compared :
    ¬∀ (x v : Value) (q : ℚ) (n : ℤ), x.rational = some q → v.integer = some n → |n| ≤ 2 ^ 53 →
      ComparedAs x v q n ∧ ComparedAs v x n q := by
  intro h
  have hv : (int32 (-1)).integer = some (-1) := rfl
  have hc := (h (.double 0) (.int32 (-1)) 0 (-1) rational_zero hv (by decide)).left
  have hr : (0 : ℚ) < (Floating.roundNat 53 ((-1 : ℤ) % 2 ^ 64).toNat : ℚ) := Nat.cast_pos.mpr <| by decide
  have hn : ((-1 : ℤ) : ℚ) < 0 := by decide +kernel
  rw [comparedAs_iff <| compare_rational_integer rational_zero hv] at hc
  rw [compareGeneric_of_lt hr, compareGeneric_of_gt hn] at hc
  cases hc

end Value
end Duck
