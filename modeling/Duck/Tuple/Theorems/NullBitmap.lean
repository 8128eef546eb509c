import Duck.Tuple.Tuple

namespace Duck.NullBitmap

-- The bit of a column, where the bitmap has one.
def bit (bitmap : List UInt8) (column : ℕ) : Bool :=
  (bitmap[column / 8]?.map (isNull · column)).getD false

theorem isNull_or {byte : UInt8} :
    isNull (byte ||| (1 <<< UInt8.ofNat (i % 8))) j = (isNull byte j || (i % 8 = j % 8)) := by
  have hi : i % 8 < 8 := Nat.mod_lt _ (by decide)
  have hj : j % 8 < 8 := Nat.mod_lt _ (by decide)
  have hs : (UInt8.ofNat (i % 8)).toNat % 8 = i % 8 := by
    rw [UInt8.toNat_ofNat']
    omega
  simp only [isNull, UInt8.toNat_or, UInt8.toNat_shiftLeft, hs, Nat.testBit_or, UInt8.toNat_one,
    Nat.testBit_mod_two_pow, hj, decide_true, Bool.true_and, Nat.one_shiftLeft, Nat.testBit_two_pow]

@[simp]
theorem setNull_length : (setNull bitmap i).length = bitmap.length := by
  simp [setNull]

theorem bit_setNull (h : i / 8 < bitmap.length) :
    bit (setNull bitmap i) j = (bit bitmap j || i = j) := by
  simp only [bit, setNull, List.getElem?_modify]
  by_cases hd : i / 8 = j / 8
  case neg =>
    have hn : i ≠ j := fun he => hd (he ▸ rfl)
    simp [hd, hn]
  case pos =>
    have hm : (i % 8 = j % 8) ↔ (i = j) := by omega
    rw [List.getElem?_eq_getElem (hd ▸ h)]
    simp [hd, isNull_or, hm]

theorem bit_replicate : bit (List.replicate n 0) i = false := by
  simp only [bit, List.getElem?_replicate]
  split <;> simp [isNull]

end Duck.NullBitmap

namespace Duck.Tuple

open NullBitmap

variable {values : List Value}

-- The loop that sets the bits of the null values among the first `n`.
theorem setNulls (hn : n ≤ values.length) :
    let bitmap := (List.range n).foldl (fun bitmap i =>
        if (values[i]?.map Value.isNull).getD false then setNull bitmap i else bitmap)
      (List.replicate (NullBitmap.size values.length) 0)
    bitmap.length = NullBitmap.size values.length ∧
      ∀ i, bit bitmap i = (decide (i < n) && (values[i]?.map Value.isNull).getD false) := by
  induction n
  case zero => simp [bit_replicate]
  case succ n hi =>
    have ⟨hl, hb⟩ := hi (by omega)
    have hd : n / 8 < NullBitmap.size values.length := by
      simp only [NullBitmap.size]
      omega
    simp only [List.range_succ, List.foldl_append, List.foldl_cons, List.foldl_nil]
    split
    case isTrue hv =>
      refine ⟨setNull_length.trans hl, fun i => ?_⟩
      rw [bit_setNull (hd.trans_eq hl.symm), hb]
      by_cases he : n = i
      case pos => simp [←he, hv]
      case neg => simp [he, show i < n + 1 ↔ i < n by omega]
    case isFalse hv =>
      refine ⟨hl, fun i => ?_⟩
      rw [hb]
      by_cases he : i = n
      case pos => simp [he, hv]
      case neg => simp [show i < n + 1 ↔ i < n by omega]

theorem nullBitmap_length : (nullBitmap values).length = NullBitmap.size values.length :=
  (setNulls le_rfl).1

theorem bit_nullBitmap (h : values[i]? = some v) : bit (nullBitmap values) i = v.isNull := by
  have ⟨hi, hv⟩ := List.getElem?_eq_some_iff.mp h
  refine ((setNulls le_rfl).2 i).trans ?_
  simp [hi, hv]

end Duck.Tuple
