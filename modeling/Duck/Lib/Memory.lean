import Duck.Lib.Bytes
import Mathlib.Tactic.Ring

open Bytes

-- Flat memory seen from a base address. The index is the distance from that address.
abbrev Memory := ℕ → UInt8

namespace Memory

variable {m m' : Memory} {src : List UInt8}

def slice (m : Memory) (off len : ℕ) : List UInt8 :=
  (List.range len).map (m <| off + ·)

def copy (m : Memory) (dst : ℕ) (src : List UInt8) : Memory :=
  fun i => if dst ≤ i ∧ i < dst + src.length then src.getD (i - dst) 0 else m i

def fill (m : Memory) (dst len : ℕ) (b : UInt8) : Memory :=
  fun i => if dst ≤ i ∧ i < dst + len then b else m i

def read (m : Memory) (addr width : ℕ) : ℕ :=
  readLE (m.slice addr width)

def write (m : Memory) (addr width v : ℕ) : Memory :=
  m.copy addr (le width v)

@[simp]
theorem slice_length : (m.slice off len).length = len := by
  simp [slice]

@[simp]
theorem slice_zero : m.slice off 0 = [] :=
  rfl

theorem slice_getElem? (h : i < len) : (m.slice off len)[i]? = some (m (off + i)) := by
  simp [slice, h]

theorem slice_congr (h : ∀ i, off ≤ i → i < off + len → m i = m' i) :
    m.slice off len = m'.slice off len := by
  simp only [slice, List.map_inj_left, List.mem_range]
  intro i hi
  exact h _ (by omega) (by omega)

theorem copy_of_lt (h : i < dst) : m.copy dst src i = m i := by
  simp only [copy, ite_eq_right_iff]
  omega

theorem copy_of_ge (h : dst + src.length ≤ i) : m.copy dst src i = m i := by
  simp only [copy, ite_eq_right_iff]
  omega

theorem copy_of_mem (h : i < src.length) : m.copy dst src (dst + i) = src[i] := by
  simp [copy, h]

@[simp]
theorem copy_nil : m.copy dst [] = m := by
  funext i
  simp only [copy, List.length_nil, ite_eq_right_iff]
  omega

theorem copy_append (m : Memory) (dst : ℕ) (a b : List UInt8) :
    m.copy dst (a ++ b) = (m.copy dst a).copy (dst + a.length) b := by
  funext i
  simp only [copy, List.length_append, List.getD_eq_getElem?_getD,
    List.getElem?_append]
  grind

theorem copy_slice (h₁ : dst ≤ i) (h₂ : i < dst + len) : m.copy dst (m'.slice dst len) i = m' i := by
  obtain ⟨k, rfl⟩ := Nat.exists_eq_add_of_le h₁
  rw [copy_of_mem (by simpa using h₂)]
  simp [slice]

theorem fill_of_ge (h : dst + len ≤ i) : m.fill dst len b i = m i := by
  simp only [fill, ite_eq_right_iff]
  omega

theorem slice_copy_self (m : Memory) (dst : ℕ) (src : List UInt8) :
    (m.copy dst src).slice dst src.length = src := by
  apply List.ext_getElem (by simp)
  intro i hi hi'
  simp [slice, copy_of_mem hi']

theorem slice_copy_middle (m : Memory) (dst : ℕ) (a b c : List UInt8) :
    (m.copy dst (a ++ b ++ c)).slice (dst + a.length) b.length = b := by
  rw [copy_append, copy_append]
  refine (slice_congr ?_).trans <| slice_copy_self (m.copy dst a) (dst + a.length) b
  intro i _ _
  exact copy_of_lt (by simp only [List.length_append]; omega)

theorem slice_copy_disjoint (h : off + len ≤ dst ∨ dst + src.length ≤ off) :
    (m.copy dst src).slice off len = m.slice off len := by
  apply slice_congr
  intro i hl hu
  cases h
  case inl h => exact copy_of_lt (by omega)
  case inr h => exact copy_of_ge (by omega)

theorem read_lt (m : Memory) (addr width : ℕ) : m.read addr width < 256 ^ width := by
  have := readLE_lt (m.slice addr width)
  rwa [slice_length] at this

theorem read_congr (h : ∀ i, addr ≤ i → i < addr + width → m i = m' i) :
    m.read addr width = m'.read addr width := by
  rw [read, slice_congr h, read]

theorem read_copy_disjoint (h : addr + width ≤ dst ∨ dst + src.length ≤ addr) :
    (m.copy dst src).read addr width = m.read addr width := by
  rw [read, slice_copy_disjoint h, read]

theorem read_write_mod (m : Memory) (addr width v : ℕ) :
    (m.write addr width v).read addr width = v % 256 ^ width := by
  have := slice_copy_self m addr (le width v)
  rw [le_length] at this
  rw [read, write, this, readLE_le_mod]

theorem read_write_self (h : v < 256 ^ width) : (m.write addr width v).read addr width = v := by
  rw [read_write_mod, Nat.mod_eq_of_lt h]

theorem read_write_disjoint (h : a + n ≤ addr ∨ addr + width ≤ a) :
    (m.write addr width v).read a n = m.read a n :=
  read_copy_disjoint (by simpa using h)

theorem slice_write_disjoint (h : off + len ≤ addr ∨ addr + width ≤ off) :
    (m.write addr width v).slice off len = m.slice off len :=
  slice_copy_disjoint (by simpa using h)

theorem write_of_ge (h : addr + width ≤ i) : m.write addr width v i = m i :=
  copy_of_ge (by simpa using h)

end Memory
