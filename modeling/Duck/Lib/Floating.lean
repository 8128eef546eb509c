import Mathlib.Data.Rat.Cast.Order
import Mathlib.Data.Nat.Size
import Mathlib.Algebra.Order.Field.Power
import Mathlib.Tactic.Linarith

-- What the bits of a binary floating-point format stand for.
inductive Floating
  | nan
  | infinite (negative : Bool)
  | finite (value : ℚ)
  deriving DecidableEq

namespace Floating

-- The number of a format with `w` bits of exponent and `m` bits of fraction.
def ofBits (w m bits : ℕ) : Floating :=
  let fraction := bits % 2 ^ m
  let exponent := bits / 2 ^ m % 2 ^ w
  let negative := bits / 2 ^ (m + w) % 2 = 1
  let sign : ℚ := if negative then -1 else 1
  let bias     := 2 ^ (w - 1) - 1
  if exponent = 2 ^ w - 1 then
    if fraction = 0 then infinite negative else nan
  else if exponent = 0 then
    finite <| sign * fraction * 2 ^ (1 - bias - m : ℤ)
  else
    finite <| sign * (2 ^ m + fraction) * 2 ^ (exponent - bias - m : ℤ)

def isNan : Floating → Bool
  | nan => true
  | _   => false

-- The order of the numbers. Nothing is less than a NaN, nor is a NaN less than anything.
protected def lt : Floating → Floating → Prop
  | nan,            _              => False
  | _,              nan            => False
  | infinite neg,   infinite neg'  => neg = true ∧ neg' = false
  | infinite neg,   finite _       => neg = true
  | finite _,       infinite neg   => neg = false
  | finite x,       finite y       => x < y

instance : LT Floating :=
  ⟨Floating.lt⟩

instance : DecidableLT Floating
  | nan,          nan | nan, infinite _ | nan, finite _ | infinite _, nan | finite _, nan => isFalse nofun
  | infinite neg, infinite neg' => inferInstanceAs (Decidable (neg = true ∧ neg' = false))
  | infinite neg, finite _      => inferInstanceAs (Decidable (neg = true))
  | finite _,     infinite neg  => inferInstanceAs (Decidable (neg = false))
  | finite x,     finite y      => inferInstanceAs (Decidable (x < y))

@[simp]
theorem finite_lt_finite {x y : ℚ} : finite x < finite y ↔ x < y :=
  .rfl

-- A natural number rounded to `p` significant bits, to the nearest, and a tie to the even one.
def roundNat (p n : ℕ) : ℕ :=
  let e := n.size - p
  let q := n / 2 ^ e
  let r := n % 2 ^ e
  if 2 * r < 2 ^ e ∨ 2 * r = 2 ^ e ∧ q % 2 = 0 then q * 2 ^ e else (q + 1) * 2 ^ e

theorem roundNat_of_dvd {p n : ℕ} (h : 2 ^ (n.size - p) ∣ n) : roundNat p n = n := by
  have hr : n % 2 ^ (n.size - p) = 0 := Nat.mod_eq_zero_of_dvd h
  simp only [roundNat, hr, Nat.mul_zero]
  rw [if_pos <| .inl <| Nat.two_pow_pos _, Nat.div_mul_cancel h]

-- What has no more than `p` bits is not rounded, nor is the next power of two.
theorem roundNat_of_le {p n : ℕ} (hp : 0 < p) (h : n ≤ 2 ^ p) : roundNat p n = n := by
  refine roundNat_of_dvd ?_
  obtain h | rfl := h.lt_or_eq
  · rw [Nat.sub_eq_zero_of_le <| Nat.size_le.mpr h, pow_zero]
    exact one_dvd n
  · rw [Nat.size_pow]
    exact pow_dvd_pow 2 <| by omega

end Floating
