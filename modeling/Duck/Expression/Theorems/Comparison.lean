import Duck.Expression.Expression
import Duck.Lib.Except
import Mathlib.Data.List.Lex

namespace Duck

def CompareResult.ofOrdering : Ordering → CompareResult
  | .lt => .less
  | .eq => .eq
  | .gt => .greater

section generic

variable {α β : Type} [LT α] [DecidableLT α] [LinearOrder β]

-- What is ordered as the numbers, or as what else, that it is taken to.
theorem compareGeneric_map (f : α → β) (hf : ∀ a b, a < b ↔ f a < f b) (a b : α) :
    compareGeneric a b = compareGeneric (f a) (f b) := by
  simp only [compareGeneric, hf]

variable {a b : β}

theorem compareGeneric_of_lt (h : a < b) : compareGeneric a b = .less :=
  if_pos h

theorem compareGeneric_of_eq (h : a = b) : compareGeneric a b = .eq := by
  rw [compareGeneric, if_neg h.not_lt, if_neg h.not_gt]

theorem compareGeneric_of_gt (h : b < a) : compareGeneric a b = .greater := by
  rw [compareGeneric, if_neg h.asymm, if_pos h]

theorem compareGeneric_eq (a b : β) : compareGeneric a b = .ofOrdering (compare a b) := by
  obtain h | h | h := lt_trichotomy a b
  · rw [compareGeneric_of_lt h, compare_lt_iff_lt.mpr h, CompareResult.ofOrdering]
  · rw [compareGeneric_of_eq h, compare_eq_iff_eq.mpr h, CompareResult.ofOrdering]
  · rw [compareGeneric_of_gt h, compare_gt_iff_gt.mpr h, CompareResult.ofOrdering]

end generic

theorem bytes_lt_iff (as bs : List UInt8) : as < bs ↔ as.map UInt8.toNat < bs.map UInt8.toNat := by
  induction as generalizing bs
  case nil          => cases bs <;> simp
  case cons a as ih =>
    cases bs
    case nil  => simp
    case cons => simp [List.cons_lt_cons_iff, ih, UInt8.lt_iff_toNat_lt, UInt8.toNat_inj]

namespace Value

-- The integer that a value of an integral type stands for.
def integer : Value → Option ℤ
  | int64 v  => some v.toInt
  | uint64 v => some v.toNat
  | int32 v  => some v.toInt
  | uint32 v => some v.toNat
  | _        => none

variable {u v w : Value}

theorem int64Max_lt_iff {x : UInt64} : int64Max < x ↔ 9223372036854775807 < x.toNat :=
  UInt64.lt_iff_toNat_lt

theorem toInt_toInt64 {x : UInt64} (h : ¬int64Max < x) : x.toInt64.toInt = x.toNat := by
  refine BitVec.toInt_eq_toNat_of_lt ?_
  rw [int64Max_lt_iff] at h
  have hx : x.toInt64.toBitVec.toNat = x.toNat := rfl
  omega

-- What is not of type UINT64 is extended to 64 bits.
theorem asIntegral_of_integer (h : v.integer = some n) (ht : v.type ≠ .uint64) :
    ∃ x, v.asIntegral = .ok x ∧ x.toInt = n := by
  cases v
  case int64 v  => exact ⟨v, rfl, Option.some.inj h⟩
  case int32 v  => exact ⟨v.toInt64, rfl, (v.toInt_toInt64).trans <| Option.some.inj h⟩
  case uint32 v =>
    refine ⟨v.toUInt64.toInt64, rfl, ?_⟩
    rw [toInt_toInt64, UInt32.toNat_toUInt64]
    · exact Option.some.inj h
    · have hv := v.toNat_lt
      rw [int64Max_lt_iff, UInt32.toNat_toUInt64]
      omega
  case uint64   => exact absurd rfl ht
  all_goals cases h

theorem integer_uint64 (h : v.integer = some n) (ht : v.type = .uint64) : ∃ x, v = uint64 x ∧ n = x.toNat := by
  cases v
  case uint64 x => exact ⟨x, rfl, (Option.some.inj h).symm⟩
  case null     => cases h
  all_goals cases ht

theorem isNull_of_integer (h : v.integer = some n) : v.isNull = false := by
  cases v <;> first | rfl | cases h

theorem isIntegral_of_integer (h : v.integer = some n) : v.isIntegral = true := by
  cases v <;> first | rfl | cases h

theorem isFloating_of_integer (h : v.integer = some n) : v.isFloating = false := by
  cases v <;> first | rfl | cases h

theorem compareGeneric_int64 (x y : Int64) : compareGeneric x y = compareGeneric x.toInt y.toInt :=
  compareGeneric_map Int64.toInt (fun _ _ => Int64.lt_iff_toInt_lt) x y

theorem compareGeneric_uint64 (x y : UInt64) : compareGeneric x y = compareGeneric (x.toNat : ℤ) (y.toNat : ℤ) :=
  compareGeneric_map (fun x => (x.toNat : ℤ)) (fun _ _ => UInt64.lt_iff_toNat_lt.trans Nat.cast_lt.symm) x y

-- Integers of any two integral types are compared as they are.
theorem compare_integer (hu : u.integer = some m) (hv : v.integer = some n) :
    u.compare v = .ok (compareGeneric m n) := by
  simp only [compare, isNull_of_integer hu, isNull_of_integer hv, isFloating_of_integer hu, isFloating_of_integer hv,
    isIntegral_of_integer hu, isIntegral_of_integer hv, Bool.or_self, Bool.and_self, Bool.false_and, Bool.and_false,
    Bool.false_eq_true, if_false, if_true]
  by_cases htu : u.type = .uint64 <;> by_cases htv : v.type = .uint64
  · obtain ⟨x, rfl, rfl⟩ := integer_uint64 hu htu
    obtain ⟨y, rfl, rfl⟩ := integer_uint64 hv htv
    exact congrArg Except.ok <| compareGeneric_uint64 x y
  · obtain ⟨x, rfl, rfl⟩ := integer_uint64 hu htu
    obtain ⟨y, hy, rfl⟩ := asIntegral_of_integer hv htv
    simp only [htu, htv, hy, asUInt64]
    by_cases hx : int64Max < x
    · have hlt : y.toInt < x.toNat := by
        have := y.toInt_lt
        have := int64Max_lt_iff.mp hx
        omega
      simp [hx, compareGeneric_of_gt hlt]
    · simpa [hx, ←toInt_toInt64 hx] using compareGeneric_int64 x.toInt64 y
  · obtain ⟨x, hx, rfl⟩ := asIntegral_of_integer hu htu
    obtain ⟨y, rfl, rfl⟩ := integer_uint64 hv htv
    simp only [htu, htv, hx, asUInt64]
    by_cases hy : int64Max < y
    · have hlt : x.toInt < y.toNat := by
        have := x.toInt_lt
        have := int64Max_lt_iff.mp hy
        omega
      simp [hy, compareGeneric_of_lt hlt]
    · simpa [hy, ←toInt_toInt64 hy] using compareGeneric_int64 x y.toInt64
  · obtain ⟨x, hx, rfl⟩ := asIntegral_of_integer hu htu
    obtain ⟨y, hy, rfl⟩ := asIntegral_of_integer hv htv
    simpa [htu, htv, hx, hy] using compareGeneric_int64 x y

def Le (u v : Value) : Prop :=
  u.compare v = .ok .less ∨ u.compare v = .ok .eq

-- The values of `P` are totally ordered by `compare`, which tells all of them apart but those that are the `same`.
structure TotalOrder (P : Value → Prop) (same : Value → Value → Prop) : Prop where
  trichotomous : ∀ {u v}, P u → P v →
    u.compare v = .ok .less ∧ v.compare u = .ok .greater ∧ ¬same u v ∨
    u.compare v = .ok .eq ∧ v.compare u = .ok .eq ∧ same u v ∨
    u.compare v = .ok .greater ∧ v.compare u = .ok .less ∧ ¬same u v
  antisymm     : ∀ {u v}, P u → P v → Le u v → Le v u → same u v
  trans        : ∀ {u v w}, P u → P v → P w → Le u v → Le v w → Le u w

section key

variable {β : Type} [LinearOrder β] {P : Value → Prop} {same : Value → Value → Prop} {key : Value → β → Prop}

theorem le_iff {a b : β} (h : u.compare v = .ok (compareGeneric a b)) : Le u v ↔ a ≤ b := by
  rw [Le, h]
  obtain hab | hab | hab := lt_trichotomy a b
  · simp [compareGeneric_of_lt hab, hab.le]
  · simp [compareGeneric_of_eq hab, hab.le]
  · simp [compareGeneric_of_gt hab, hab]

-- Values that are compared by their keys in a linear order are ordered as these.
theorem TotalOrder.of_key (key : Value → β → Prop)
    (hk : ∀ {v}, P v → ∃ a, key v a)
    (hc : ∀ {u v a b}, key u a → key v b → u.compare v = .ok (compareGeneric a b))
    (hs : ∀ {u v a b}, key u a → key v b → (same u v ↔ a = b)) : TotalOrder P same where
  trichotomous {u v} hu hv := by
    obtain ⟨a, ha⟩ := hk hu
    obtain ⟨b, hb⟩ := hk hv
    rw [hc ha hb, hc hb ha, hs ha hb]
    obtain h | h | h := lt_trichotomy a b
    · exact .inl ⟨congrArg _ <| compareGeneric_of_lt h, congrArg _ <| compareGeneric_of_gt h, h.ne⟩
    · exact .inr <| .inl ⟨congrArg _ <| compareGeneric_of_eq h, congrArg _ <| compareGeneric_of_eq h.symm, h⟩
    · exact .inr <| .inr ⟨congrArg _ <| compareGeneric_of_gt h, congrArg _ <| compareGeneric_of_lt h, h.ne'⟩
  antisymm {u v} hu hv huv hvu := by
    obtain ⟨a, ha⟩ := hk hu
    obtain ⟨b, hb⟩ := hk hv
    rw [le_iff (hc ha hb)] at huv
    rw [le_iff (hc hb ha)] at hvu
    exact (hs ha hb).mpr <| huv.antisymm hvu
  trans {u v w} hu hv hw huv hvw := by
    obtain ⟨a, ha⟩ := hk hu
    obtain ⟨b, hb⟩ := hk hv
    obtain ⟨c, hc'⟩ := hk hw
    rw [le_iff (hc ha hb)] at huv
    rw [le_iff (hc hb hc')] at hvw
    exact (le_iff (hc ha hc')).mpr <| huv.trans hvw

end key

def Integral (v : Value) : Prop :=
  v.isIntegral = true ∧ v.isNull = false

def OfType (t : ValueType) (v : Value) : Prop :=
  v.type = t ∧ v.isNull = false

theorem Integral.integer (h : v.Integral) : ∃ n, v.integer = some n := by
  cases v
  case null            => cases h.right
  case int64           => exact ⟨_, rfl⟩
  case uint64          => exact ⟨_, rfl⟩
  case int32           => exact ⟨_, rfl⟩
  case uint32          => exact ⟨_, rfl⟩
  all_goals cases h.left

theorem OfType.bool (h : v.OfType .bool) : ∃ b, v = .bool b := by
  cases v
  case null => cases h.right
  case bool => exact ⟨_, rfl⟩
  all_goals cases h.left

theorem OfType.string (h : v.OfType .string) : ∃ bs, v = .string bs := by
  cases v
  case null   => cases h.right
  case string => exact ⟨_, rfl⟩
  all_goals cases h.left

theorem OfType.bytes (h : v.OfType .bytes) : ∃ bs, v = .bytes bs := by
  cases v
  case null  => cases h.right
  case bytes => exact ⟨_, rfl⟩
  all_goals cases h.left

theorem map_toNat_inj {as bs : List UInt8} : as.map UInt8.toNat = bs.map UInt8.toNat ↔ as = bs :=
  List.map_inj_right fun _ _ => UInt8.toNat_inj.mp

theorem totalOrder_integral : TotalOrder Integral (fun u v => u.integer = v.integer) := by
  refine .of_key (fun v n => v.integer = some n) Integral.integer compare_integer ?_
  intro u v m n hu hv
  rw [hu, hv, Option.some_inj]

theorem totalOrder_bool : TotalOrder (OfType .bool) Eq := by
  refine .of_key (fun v b => v = bool b) OfType.bool ?compare ?same
  case compare =>
    rintro _ _ a b rfl rfl
    rfl
  case same    =>
    rintro _ _ a b rfl rfl
    exact bool.injEq a b ▸ .rfl

-- Strings and byte vectors are compared as the lists of the numbers that their bytes are.

theorem totalOrder_string : TotalOrder (OfType .string) Eq := by
  refine .of_key (fun v ns => ∃ bs, v = string bs ∧ bs.map UInt8.toNat = ns) ?key ?compare ?same
  case key     =>
    intro v h
    obtain ⟨bs, rfl⟩ := h.string
    exact ⟨_, bs, rfl, rfl⟩
  case compare =>
    rintro _ _ _ _ ⟨as, rfl, rfl⟩ ⟨bs, rfl, rfl⟩
    exact congrArg Except.ok <| compareGeneric_map _ bytes_lt_iff as bs
  case same    =>
    rintro _ _ _ _ ⟨as, rfl, rfl⟩ ⟨bs, rfl, rfl⟩
    rw [string.injEq, map_toNat_inj]

theorem totalOrder_bytes : TotalOrder (OfType .bytes) Eq := by
  refine .of_key (fun v ns => ∃ bs, v = bytes bs ∧ bs.map UInt8.toNat = ns) ?key ?compare ?same
  case key     =>
    intro v h
    obtain ⟨bs, rfl⟩ := h.bytes
    exact ⟨_, bs, rfl, rfl⟩
  case compare =>
    rintro _ _ _ _ ⟨as, rfl, rfl⟩ ⟨bs, rfl, rfl⟩
    exact congrArg Except.ok <| compareGeneric_map _ bytes_lt_iff as bs
  case same    =>
    rintro _ _ _ _ ⟨as, rfl, rfl⟩ ⟨bs, rfl, rfl⟩
    rw [bytes.injEq, map_toNat_inj]

theorem compare_exact_and_total :
    (∀ (u v : Value) (m n : ℤ), u.integer = some m → v.integer = some n →
      u.compare v = .ok (.ofOrdering (Ord.compare m n))) ∧
    TotalOrder Integral (fun u v => u.integer = v.integer) ∧ TotalOrder (OfType .bool) Eq ∧
    TotalOrder (OfType .string) Eq ∧ TotalOrder (OfType .bytes) Eq := by
  refine ⟨?_, totalOrder_integral, totalOrder_bool, totalOrder_string, totalOrder_bytes⟩
  intro u v m n hu hv
  rw [compare_integer hu hv, compareGeneric_eq]

end Value
end Duck
