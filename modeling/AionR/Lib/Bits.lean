import Mathlib.Data.Nat.Bitwise
import Mathlib.Tactic.IntervalCases
import AionR.Lib.BigEndian

/-!
# Bit fields of numbers and 32-bit words

Reading a field of `d` bits at offset `c` out of a number, and the three 32-bit word operations a
bit-packing decoder is made of: shifting a byte into an accumulator, masking a byte out of it, and
assembling a word from four big-endian bytes. Nothing here is specific to one program.
-/

namespace AionR

/-! ## Fields of natural numbers -/

/-- Cutting a number to `A` bits does not change a field that lies below bit `A`. -/
theorem mod_two_pow_div_two_pow_mod {x A c d : ℕ} (h : c + d ≤ A) :
    x % 2 ^ A / 2 ^ c % 2 ^ d = x / 2 ^ c % 2 ^ d := by
  apply Nat.eq_of_testBit_eq
  intro i
  simp only [Nat.testBit_mod_two_pow, Nat.testBit_div_two_pow]
  by_cases hi : i < d
  · simp [hi, show i + c < A by omega]
  · simp [hi]

/-- The top `d` bits of a number cut to `c + d` bits. -/
theorem mod_two_pow_div_two_pow (x c d : ℕ) : x % 2 ^ (c + d) / 2 ^ c = x / 2 ^ c % 2 ^ d := by
  apply Nat.eq_of_testBit_eq
  intro i
  simp only [Nat.testBit_mod_two_pow, Nat.testBit_div_two_pow]
  by_cases hi : i < d
  · simp [hi, show i + c < c + d by omega]
  · simp [hi, show ¬i + c < c + d by omega]

/-! ## 32-bit words -/

/-- Shifting a byte into the low end of a 32-bit accumulator. -/
theorem ofNat_shiftLeft_eight_or (x : ℕ) (b : UInt8) :
    (UInt32.ofNat x <<< 8) ||| (b.toUInt32 &&& 0xff) = UInt32.ofNat (x * 256 + b.toNat) := by
  apply UInt32.toNat_inj.mp
  have hb := b.toNat_lt
  have hand : (b.toUInt32 &&& 0xff).toNat = b.toNat := by
    rw [UInt32.toNat_and]
    simp only [UInt8.toNat_toUInt32]
    rw [show (0xff : UInt32).toNat = 2 ^ 8 - 1 from rfl, Nat.and_two_pow_sub_one_eq_mod,
      Nat.mod_eq_of_lt (by omega)]
  rw [UInt32.toNat_or, hand, UInt32.toNat_shiftLeft, UInt32.toNat_ofNat', UInt32.toNat_ofNat',
    show (8 : UInt32).toNat % 32 = 8 from rfl, Nat.shiftLeft_eq]
  -- the shifted accumulator has eight zero bits at the bottom, so `|||` adds the byte
  have hshift : x % 2 ^ 32 * 2 ^ 8 % 2 ^ 32 = 2 ^ 8 * (x % 2 ^ 24) := by
    rw [Nat.mul_comm, show (2 : ℕ) ^ 32 = 2 ^ 8 * 2 ^ 24 by norm_num, Nat.mul_mod_mul_left,
      Nat.mod_mod_of_dvd _ (by norm_num)]
  rw [hshift, ← Nat.two_pow_add_eq_or_of_lt hb]
  omega

/-- Masking `k` bits at offset `s` out of a 32-bit word, as a byte. -/
theorem ofNat_shiftRight_and_toUInt8 (x s k : ℕ) {m : UInt32} (hm : m.toNat = 2 ^ k - 1)
    (hk0 : 0 < k) (hk : k ≤ 8) (hs : s + k ≤ 32) :
    ((UInt32.ofNat x >>> s.toUInt32) &&& m).toUInt8 = (x / 2 ^ s % 2 ^ k).toUInt8 := by
  apply UInt8.toNat_inj.mp
  have hs32 : s.toUInt32.toNat % 32 = s := by
    have hs' : s.toUInt32.toNat = s := by
      rw [Nat.toUInt32, UInt32.toNat_ofNat']
      exact Nat.mod_eq_of_lt (by omega)
    rw [hs']
    omega
  have hlt : x / 2 ^ s % 2 ^ k < 2 ^ 8 :=
    lt_of_lt_of_le (Nat.mod_lt _ (Nat.two_pow_pos k)) (Nat.pow_le_pow_right (by norm_num) hk)
  rw [UInt32.toNat_toUInt8, UInt32.toNat_and, UInt32.toNat_shiftRight, hs32, UInt32.toNat_ofNat', hm,
    Nat.shiftRight_eq_div_pow, Nat.and_two_pow_sub_one_eq_mod, mod_two_pow_div_two_pow_mod hs,
    Nat.toUInt8, UInt8.toNat_ofNat', Nat.mod_eq_of_lt hlt]

/-- Four bytes or-ed into a word at their big-endian places are their concatenation. -/
theorem word_toBitVec (b0 b1 b2 b3 : UInt8) :
    ((b0.toUInt32 <<< 24) ||| ((b1.toUInt32 <<< 16) &&& (0x00FF0000 : UInt32)) |||
      ((b2.toUInt32 <<< 8) &&& (0x0000FF00 : UInt32)) ||| (b3.toUInt32 &&& (0x000000FF : UInt32))).toBitVec =
      b0.toBitVec ++ b1.toBitVec ++ b2.toBitVec ++ b3.toBitVec := by
  apply BitVec.eq_of_getLsbD_eq
  intro i hi
  simp only [UInt32.toBitVec_or, UInt32.toBitVec_and, UInt32.toBitVec_shiftLeft,
    UInt8.toBitVec_toUInt32, BitVec.getLsbD_append]
  -- each of the 32 bits comes from exactly one byte
  interval_cases i <;> simp

theorem toNat_append_bytes (b0 b1 b2 b3 : UInt8) :
    (b0.toBitVec ++ b1.toBitVec ++ b2.toBitVec ++ b3.toBitVec).toNat = fromBigEndian [b0, b1, b2, b3] := by
  simp only [BitVec.toNat_append, UInt8.toNat_toBitVec]
  rw [← Nat.shiftLeft_add_eq_or_of_lt b1.toNat_lt, ← Nat.shiftLeft_add_eq_or_of_lt b2.toNat_lt,
    ← Nat.shiftLeft_add_eq_or_of_lt b3.toNat_lt]
  simp only [fromBigEndian_cons, fromBigEndian_nil, Nat.shiftLeft_eq, List.length_cons, List.length_nil]
  ring

/-- A word assembled from four big-endian bytes is the number they spell. -/
theorem word_eq_ofNat (b0 b1 b2 b3 : UInt8) :
    (b0.toUInt32 <<< 24) ||| ((b1.toUInt32 <<< 16) &&& (0x00FF0000 : UInt32)) |||
      ((b2.toUInt32 <<< 8) &&& (0x0000FF00 : UInt32)) ||| (b3.toUInt32 &&& (0x000000FF : UInt32)) =
      UInt32.ofNat (fromBigEndian [b0, b1, b2, b3]) := by
  apply UInt32.toBitVec_inj.mp
  rw [word_toBitVec, UInt32.toBitVec_ofNat', ← toNat_append_bytes, BitVec.ofNat_toNat,
    BitVec.setWidth_eq]

/-! ## Signed 32-bit words of small naturals -/

theorem int32_ofNat_lt_ofNat {a b : ℕ} (hab : a < b) (hb : b < 2 ^ 31) : Int32.ofNat a < Int32.ofNat b := by
  rw [Int32.lt_iff_toInt_lt, Int32.toInt_ofNat_of_lt (by omega), Int32.toInt_ofNat_of_lt hb]
  omega

theorem int32_ofNat_inj {a b : ℕ} (ha : a < 2 ^ 31) (hb : b < 2 ^ 31) (h : Int32.ofNat a = Int32.ofNat b) :
    a = b := by
  have h' := congrArg Int32.toInt h
  rw [Int32.toInt_ofNat_of_lt ha, Int32.toInt_ofNat_of_lt hb] at h'
  omega

/-- Signed division of a nonnegative word by two is division of the natural number. -/
theorem int32_ofNat_div_two {i : ℕ} (hi : i < 2 ^ 31) : Int32.ofNat i / 2 = Int32.ofNat (i / 2) := by
  apply Int32.toInt_inj.mp
  rw [Int32.toInt_div, Int32.toInt_ofNat_of_lt hi, show (2 : Int32).toInt = 2 by decide,
    Int32.toInt_ofNat_of_lt (by omega), Int.natCast_tdiv_eq_ediv,
    Int.bmod_eq_of_le (by omega) (by omega)]
  omega

theorem int32_ofNat_mod_two {i : ℕ} (hi : i < 2 ^ 31) : Int32.ofNat i % 2 = Int32.ofNat (i % 2) := by
  apply Int32.toInt_inj.mp
  rw [Int32.toInt_mod, Int32.toInt_ofNat_of_lt hi, Int32.toInt_ofNat_of_lt (by omega),
    Int.tmod_eq_emod_of_nonneg (by omega)]
  simp

/-! ## XOR of byte vectors -/

section Xor

variable {n : ℕ} (a : Vector UInt8 n)

@[simp] theorem zipWith_xor_replicate_zero : Vector.zipWith (· ^^^ ·) a (Vector.replicate n 0) = a := by
  apply Vector.ext
  intro i hi
  simp

@[simp] theorem zipWith_replicate_zero_xor : Vector.zipWith (· ^^^ ·) (Vector.replicate n 0) a = a := by
  apply Vector.ext
  intro i hi
  simp

@[simp] theorem zipWith_xor_self : Vector.zipWith (· ^^^ ·) a a = Vector.replicate n 0 := by
  apply Vector.ext
  intro i hi
  simp

end Xor

end AionR
