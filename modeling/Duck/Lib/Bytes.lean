import Mathlib.Algebra.Group.Nat.Hom
import Mathlib.Tactic.Common

namespace Bytes

-- Little endian, truncated to exactly `width` bytes.
def le : (width n : ℕ) → List UInt8
  | 0,         _ => []
  | width + 1, n => .ofNat n :: le width (n / 256)

def readLE : List UInt8 → ℕ
  | []      => 0
  | b :: bs => b.toNat + 256 * readLE bs

@[simp]
theorem le_length : (le width n).length = width := by
  induction width generalizing n <;> simp [le, *]

theorem readLE_lt (bs : List UInt8) : readLE bs < 256 ^ bs.length := by
  induction bs <;> simp only [readLE, List.length_nil, List.length_cons, Nat.pow_zero, Nat.pow_succ]
  case nil          => exact Nat.one_pos
  case cons b bs hi =>
    have := b.toNat_lt
    omega

theorem readLE_le_mod (width n : ℕ) : readLE (le width n) = n % 256 ^ width := by
  induction width generalizing n
  case zero         => simp [le, readLE, Nat.mod_one]
  case succ width hi =>
    have hp : 256 ^ (width + 1) = 256 * 256 ^ width := Nat.pow_succ'
    simp only [le, readLE, hi, UInt8.toNat_ofNat', hp, Nat.mod_mul]

theorem readLE_le (h : n < 256 ^ width) : readLE (le width n) = n := by
  rw [readLE_le_mod, Nat.mod_eq_of_lt h]

theorem le_readLE (bs : List UInt8) : le bs.length (readLE bs) = bs := by
  induction bs
  case nil          => rfl
  case cons b bs hi =>
    have hb := b.toNat_lt
    have hd : (b.toNat + 256 * readLE bs) / 256 = readLE bs := by omega
    have hm : UInt8.ofNat (b.toNat + 256 * readLE bs) = b := by
      apply UInt8.toNat_inj.mp
      simp only [UInt8.toNat_ofNat']
      omega
    simp only [List.length_cons, readLE, le, hd, hm, hi]

end Bytes
