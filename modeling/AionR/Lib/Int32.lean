import Mathlib

/-!
# `i32` arithmetic that does not wrap

A Rust `i32` is an `Int32` here, and its `+=` and `-=` wrap modulo `2³²` as a release build does
(a debug build panics instead). A counter that starts at zero and moves by one at a time stays
what it counts as long as fewer than `2³¹` steps are taken. The lemmas below say when the machine
value is the integer one: a natural number below `2³¹` keeps its order and its value, and a sum of
two values whose sizes add up to less than `2³¹` does not wrap. `natAbs_toInt_add_le` bounds the
size after one step of any sign, wrap or no wrap, which is what a bound carried along a run needs.
-/

namespace Int32

/-- An integer of size below `2³¹` is its own `Int32`. -/
theorem toInt_ofInt_of_natAbs_lt {n : ℤ} (h : n.natAbs < 2 ^ 31) : (ofInt n).toInt = n := by
  rw [toInt_ofInt]
  apply Int.bmod_eq_of_le <;> simp only [size] <;> omega

/-- Two values whose sizes add up to less than `2³¹` add without wrapping. -/
theorem toInt_add_of_natAbs_lt {x y : Int32} (h : x.toInt.natAbs + y.toInt.natAbs < 2 ^ 31) :
    (x + y).toInt = x.toInt + y.toInt := by
  rw [toInt_add]
  apply Int.bmod_eq_of_le <;> omega

/-- One step of size at most one grows the size by at most one, also where it wraps: past either
end of the range the value lands at the other end. -/
theorem natAbs_toInt_add_le (x : Int32) (d : ℤ) (hd : d.natAbs ≤ 1) :
    (x + ofInt d).toInt.natAbs ≤ x.toInt.natAbs + 1 := by
  have hlo := le_toInt x
  have hhi := toInt_maxValue ▸ toInt_le x
  rw [toInt_add, toInt_ofInt_of_natAbs_lt (by omega)]
  unfold Int.bmod
  dsimp only
  split <;> omega

theorem natAbs_toInt_add_one_le (x : Int32) : (x + 1).toInt.natAbs ≤ x.toInt.natAbs + 1 := by
  have h1 : (1 : Int32) = ofInt 1 := by decide
  rw [h1]
  exact natAbs_toInt_add_le x 1 (by decide)

theorem natAbs_toInt_sub_one_le (x : Int32) : (x - 1).toInt.natAbs ≤ x.toInt.natAbs + 1 := by
  have h1 : (-1 : Int32) = ofInt (-1) := by decide
  rw [Int32.sub_eq_add_neg, h1]
  exact natAbs_toInt_add_le x (-1) (by decide)

theorem ne_minValue_of_natAbs_lt {x : Int32} (h : x.toInt.natAbs < 2 ^ 31) : x ≠ minValue := by
  rintro rfl
  rw [toInt_minValue] at h
  omega

/-- Only `i32::MIN` wraps when one is taken off. -/
theorem toInt_sub_one_of_ne_minValue {x : Int32} (hx : x ≠ minValue) :
    (x - 1).toInt = x.toInt - 1 := by
  have hne : x.toInt ≠ -2 ^ 31 := fun h ↦ hx (toInt_inj.mp (h.trans toInt_minValue.symm))
  have hlo := le_toInt x
  have hhi := toInt_maxValue ▸ toInt_le x
  rw [toInt_sub, toInt_one]
  apply Int.bmod_eq_of_le <;> omega

/-! ## Counts below `2³¹` -/

theorem ofNat_add_one (n : ℕ) : ofNat n + 1 = ofNat (n + 1) := (ofNat_add n 1).symm

theorem ofNat_sub_one {n : ℕ} (h : 0 < n) : ofNat n - 1 = ofNat (n - 1) := by
  conv_lhs => rw [show n = n - 1 + 1 by omega, ← ofNat_add_one]
  exact Int32.add_sub_cancel _ _

theorem ofNat_pos_iff {n : ℕ} (h : n < 2 ^ 31) : 0 < ofNat n ↔ 0 < n := by
  rw [lt_iff_toInt_lt, toInt_zero, toInt_ofNat_of_lt h]
  omega

theorem ofNat_eq_one_iff {n : ℕ} (h : n < 2 ^ 31) : ofNat n = 1 ↔ n = 1 := by
  rw [← toInt_inj, toInt_one, toInt_ofNat_of_lt h]
  omega

end Int32
