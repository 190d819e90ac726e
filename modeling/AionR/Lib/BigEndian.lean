import Mathlib.Data.List.Basic
import Mathlib.Data.List.Induction
import Mathlib.Algebra.Order.Group.Nat
import Mathlib.Tactic.Ring

/-!
# Big-endian byte strings

Numbers written as fixed-width big-endian byte strings, read back, and stripped of their leading
zero bytes. This is the number format of every RLP integer; nothing here is specific to one
program.

`toBigEndian w n` keeps the low `w` bytes of `n`; `fromBigEndian` reads any byte string; the
minimal form of `n` is its width-`w` string without leading zeros. The lemmas are the round trips
between the three and the facts about leading bytes that canonicity checks read. Read bit by bit,
a run of a string's bits is a field of the number it spells (`bigEndianBits_eq`).
-/

namespace AionR

/-- A byte string. -/
abbrev Bytes := List UInt8

/-- The number a big-endian byte string spells. -/
def fromBigEndian (bs : Bytes) : ℕ := bs.foldl (fun acc b ↦ acc * 256 + b.toNat) 0

/-- The low `w` bytes of `n`, most significant first. -/
def toBigEndian : ℕ → ℕ → Bytes
  | 0, _ => []
  | w + 1, n => toBigEndian w (n / 256) ++ [(n % 256).toUInt8]

/-- A byte string without its leading zero bytes. -/
def stripLeadingZeros (bs : Bytes) : Bytes := bs.dropWhile (· == 0)

/-- The minimal big-endian form of `n` in a `w`-byte word: no leading zero, empty for `0`. -/
def minimalBigEndian (w n : ℕ) : Bytes := stripLeadingZeros (toBigEndian w n)

-- Several proofs below unfold these at once: their equation lemmas are generated here, once.
section
attribute [local simp] toBigEndian minimalBigEndian stripLeadingZeros
end

/-! ## Reading -/

theorem fromBigEndian_foldl (bs : Bytes) (a : ℕ) :
    bs.foldl (fun acc b ↦ acc * 256 + b.toNat) a = a * 256 ^ bs.length + fromBigEndian bs := by
  induction bs generalizing a with
  | nil => simp [fromBigEndian]
  | cons b bs ih =>
    have hcons : fromBigEndian (b :: bs) = (0 * 256 + b.toNat) * 256 ^ bs.length + fromBigEndian bs :=
      ih _
    rw [List.foldl_cons, ih, hcons, List.length_cons, pow_succ]
    ring

@[simp] theorem fromBigEndian_nil : fromBigEndian [] = 0 := rfl

theorem fromBigEndian_cons (b : UInt8) (bs : Bytes) :
    fromBigEndian (b :: bs) = b.toNat * 256 ^ bs.length + fromBigEndian bs := by
  rw [fromBigEndian, List.foldl_cons, fromBigEndian_foldl]
  simp

theorem fromBigEndian_append (bs cs : Bytes) :
    fromBigEndian (bs ++ cs) = fromBigEndian bs * 256 ^ cs.length + fromBigEndian cs := by
  rw [fromBigEndian, List.foldl_append, fromBigEndian_foldl]
  rfl

@[simp] theorem fromBigEndian_singleton (b : UInt8) : fromBigEndian [b] = b.toNat := by
  simp [fromBigEndian_cons]

theorem fromBigEndian_lt (bs : Bytes) : fromBigEndian bs < 256 ^ bs.length := by
  induction bs with
  | nil => simp
  | cons b bs ih =>
    rw [fromBigEndian_cons, List.length_cons, pow_succ']
    have hb : b.toNat ≤ 255 := by have := b.toNat_lt; omega
    calc b.toNat * 256 ^ bs.length + fromBigEndian bs
        < b.toNat * 256 ^ bs.length + 256 ^ bs.length := by omega
      _ = (b.toNat + 1) * 256 ^ bs.length := by ring
      _ ≤ 256 * 256 ^ bs.length := Nat.mul_le_mul_right _ (by omega)

/-- Leading zero bytes do not change the number. -/
theorem fromBigEndian_stripLeadingZeros (bs : Bytes) :
    fromBigEndian (stripLeadingZeros bs) = fromBigEndian bs := by
  induction bs with
  | nil => rfl
  | cons b bs ih =>
    by_cases hb : b = 0
    · subst hb
      simp [stripLeadingZeros, fromBigEndian_cons] at ih ⊢
      exact ih
    · simp [stripLeadingZeros, hb]

/-! ## Writing -/

@[simp] theorem length_toBigEndian (w n : ℕ) : (toBigEndian w n).length = w := by
  induction w generalizing n with
  | zero => rfl
  | succ w ih => simp [toBigEndian, ih]

theorem toNat_toUInt8_mod (n : ℕ) : (n % 256).toUInt8.toNat = n % 256 := by
  simp [Nat.toUInt8]

theorem fromBigEndian_toBigEndian (w n : ℕ) : fromBigEndian (toBigEndian w n) = n % 256 ^ w := by
  induction w generalizing n with
  | zero => simp [toBigEndian, Nat.mod_one]
  | succ w ih =>
    rw [toBigEndian, fromBigEndian_append, ih, fromBigEndian_singleton, toNat_toUInt8_mod,
      List.length_singleton, pow_one, pow_succ', Nat.mod_mul]
    ring

theorem fromBigEndian_toBigEndian_of_lt {w n : ℕ} (h : n < 256 ^ w) :
    fromBigEndian (toBigEndian w n) = n := by
  rw [fromBigEndian_toBigEndian, Nat.mod_eq_of_lt h]

/-- Writing back what was read, at the width it was read from. -/
theorem toBigEndian_fromBigEndian (bs : Bytes) : toBigEndian bs.length (fromBigEndian bs) = bs := by
  induction bs using List.reverseRecOn with
  | nil => rfl
  | append_singleton bs b ih =>
    have hdiv : fromBigEndian (bs ++ [b]) / 256 = fromBigEndian bs := by
      rw [fromBigEndian_append, fromBigEndian_singleton, List.length_singleton, pow_one]
      have := b.toNat_lt
      omega
    have hmod : fromBigEndian (bs ++ [b]) % 256 = b.toNat := by
      rw [fromBigEndian_append, fromBigEndian_singleton, List.length_singleton, pow_one]
      have := b.toNat_lt
      omega
    rw [List.length_append, List.length_singleton, toBigEndian, hdiv, ih, hmod]
    simp

theorem toBigEndian_four (n : ℕ) : toBigEndian 4 n =
    [(n / 2 ^ 24 % 256).toUInt8, (n / 2 ^ 16 % 256).toUInt8, (n / 2 ^ 8 % 256).toUInt8,
      (n % 256).toUInt8] := by
  simp [toBigEndian, Nat.div_div_eq_div_mul]

theorem fromBigEndian_minimalBigEndian (w n : ℕ) :
    fromBigEndian (minimalBigEndian w n) = n % 256 ^ w := by
  rw [minimalBigEndian, fromBigEndian_stripLeadingZeros, fromBigEndian_toBigEndian]

/-! ## Leading bytes -/

theorem head_stripLeadingZeros_ne_zero {bs : Bytes} {b : UInt8} {rest : Bytes}
    (h : stripLeadingZeros bs = b :: rest) : b ≠ 0 := by
  have hne : bs.dropWhile (· == 0) ≠ [] := by simp [stripLeadingZeros] at h; simp [h]
  have := List.head_dropWhile_not (· == 0) hne
  simp only [stripLeadingZeros] at h
  simp only [h, List.head_cons, beq_eq_false_iff_ne] at this
  exact this

theorem length_stripLeadingZeros_le (bs : Bytes) : (stripLeadingZeros bs).length ≤ bs.length :=
  (List.dropWhile_suffix _).length_le

theorem toBigEndian_add (k m n : ℕ) :
    toBigEndian (k + m) n = toBigEndian k (n / 256 ^ m) ++ toBigEndian m n := by
  induction m generalizing n with
  | zero => simp [toBigEndian]
  | succ m ih =>
    rw [← Nat.add_assoc, toBigEndian, ih, toBigEndian, List.append_assoc, Nat.div_div_eq_div_mul,
      pow_succ', Nat.mul_comm]

@[simp] theorem toBigEndian_zero (w : ℕ) : toBigEndian w 0 = List.replicate w 0 := by
  induction w with
  | zero => rfl
  | succ w ih => simp [toBigEndian, ih, List.replicate_succ']

theorem stripLeadingZeros_replicate_append (k : ℕ) (bs : Bytes) :
    stripLeadingZeros (List.replicate k 0 ++ bs) = stripLeadingZeros bs := by
  induction k with
  | zero => rfl
  | succ k ih =>
    rw [List.replicate_succ, List.cons_append, ← ih]
    simp [stripLeadingZeros]

theorem stripLeadingZeros_of_head {bs : Bytes} (hlead : bs.head? ≠ some 0) :
    stripLeadingZeros bs = bs := by
  cases bs with
  | nil => rfl
  | cons b bs =>
    have hb : b ≠ 0 := fun h ↦ hlead (by simp [h])
    simp [stripLeadingZeros, hb]

/-- Only the low `w` bytes are written. -/
theorem toBigEndian_mod (w n : ℕ) : toBigEndian w (n % 256 ^ w) = toBigEndian w n := by
  induction w generalizing n with
  | zero => rfl
  | succ w ih =>
    have hdiv : n % 256 ^ (w + 1) / 256 = n / 256 % 256 ^ w := by
      rw [pow_succ', Nat.mod_mul_right_div_self]
    have hmod : n % 256 ^ (w + 1) % 256 = n % 256 :=
      Nat.mod_mod_of_dvd n (dvd_pow_self 256 (Nat.succ_ne_zero w))
    rw [toBigEndian, toBigEndian, hdiv, ih, hmod]

/-- A string without leading zeros is the minimal form of its number at any wider width. -/
theorem minimalBigEndian_fromBigEndian {bs : Bytes} {w : ℕ} (hw : bs.length ≤ w)
    (hlead : bs.head? ≠ some 0) : minimalBigEndian w (fromBigEndian bs) = bs := by
  obtain ⟨k, rfl⟩ := Nat.exists_eq_add_of_le' hw
  have hsmall : fromBigEndian bs / 256 ^ bs.length = 0 :=
    Nat.div_eq_of_lt (fromBigEndian_lt bs)
  rw [minimalBigEndian, toBigEndian_add, hsmall, toBigEndian_fromBigEndian, toBigEndian_zero,
    stripLeadingZeros_replicate_append, stripLeadingZeros_of_head hlead]

@[simp] theorem minimalBigEndian_zero (w : ℕ) : minimalBigEndian w 0 = [] := by
  rw [minimalBigEndian, toBigEndian_zero, ← List.append_nil (List.replicate w 0),
    stripLeadingZeros_replicate_append]
  rfl

/-- A nonzero number below `256` is one byte wide at every positive width. -/
theorem minimalBigEndian_of_lt_256 {w n : ℕ} (hw : 0 < w) (hpos : 0 < n) (hn : n < 256) :
    minimalBigEndian w n = [n.toUInt8] := by
  have hb : (n.toUInt8).toNat = n := by simp [Nat.toUInt8, Nat.mod_eq_of_lt hn]
  have hlead : [n.toUInt8].head? ≠ some 0 := by
    intro h
    have : (n.toUInt8).toNat = 0 := by simp at h; simp [h]
    omega
  calc minimalBigEndian w n = minimalBigEndian w (fromBigEndian [n.toUInt8]) := by
        rw [fromBigEndian_singleton, hb]
    _ = [n.toUInt8] := minimalBigEndian_fromBigEndian (by simp; omega) hlead

theorem length_minimalBigEndian_le_width (w n : ℕ) : (minimalBigEndian w n).length ≤ w := by
  simpa [minimalBigEndian] using length_stripLeadingZeros_le (toBigEndian w n)

/-- A number below `256 ^ k` has a minimal form of at most `k` bytes, at any wider width. -/
theorem length_minimalBigEndian_le {k w n : ℕ} (hk : k ≤ w) (hn : n < 256 ^ k) :
    (minimalBigEndian w n).length ≤ k := by
  obtain ⟨j, rfl⟩ := Nat.exists_eq_add_of_le' hk
  rw [minimalBigEndian, toBigEndian_add, Nat.div_eq_of_lt hn, toBigEndian_zero,
    stripLeadingZeros_replicate_append]
  simpa using length_stripLeadingZeros_le (toBigEndian k n)

/-! ## Bits

A byte string is also a big-endian bit string, bit `0` being the most significant bit of its first
byte. A run of its bits spells a number, the field that bit-packed formats store. -/

/-- Bit `b` of a byte string read as a big-endian bit string: bit `0` is the most significant bit
of the first byte. -/
def bigEndianBit (bs : Bytes) (b : ℕ) : Bool := (bs.getD (b / 8) 0).toNat.testBit (7 - b % 8)

/-- The number spelled by bits `start`, …, `start + width - 1` of a byte string read as a
big-endian bit string, the first of them most significant. -/
def bigEndianBits (bs : Bytes) (start width : ℕ) : ℕ :=
  (List.range' start width).foldl (fun acc b ↦ 2 * acc + (bigEndianBit bs b).toNat) 0

/-- A byte string read around its `j`-th byte. -/
theorem fromBigEndian_eq_of_getElem {bs : Bytes} {j : ℕ} (hj : j < bs.length) :
    fromBigEndian bs = 2 ^ (8 * (bs.length - j - 1)) *
      (2 ^ 8 * fromBigEndian (bs.take j) + bs[j].toNat) + fromBigEndian (bs.drop (j + 1)) := by
  conv_lhs => rw [← List.take_append_drop j bs, List.drop_eq_getElem_cons hj]
  rw [fromBigEndian_append, fromBigEndian_cons, List.length_cons, List.length_drop,
    show bs.length - j = bs.length - (j + 1) + 1 by omega, pow_succ, pow_mul,
    show bs.length - (j + 1) = bs.length - j - 1 by omega]
  norm_num
  ring

theorem bigEndianBit_eq {bs : Bytes} {b : ℕ} (hb : b < 8 * bs.length) :
    bigEndianBit bs b = (fromBigEndian bs).testBit (8 * bs.length - 1 - b) := by
  have hj : b / 8 < bs.length := by omega
  have hpos : 8 * bs.length - 1 - b = 8 * (bs.length - b / 8 - 1) + (7 - b % 8) := by omega
  -- the bytes after the `b / 8`-th lie below its bits
  have hlow : fromBigEndian (bs.drop (b / 8 + 1)) < 2 ^ (8 * (bs.length - b / 8 - 1)) := by
    have h := fromBigEndian_lt (bs.drop (b / 8 + 1))
    rwa [List.length_drop, show (256 : ℕ) = 2 ^ 8 from rfl, ← pow_mul,
      show bs.length - (b / 8 + 1) = bs.length - b / 8 - 1 by omega] at h
  rw [fromBigEndian_eq_of_getElem hj, hpos, Nat.testBit_two_pow_mul_add _ hlow, if_neg (by omega),
    Nat.add_sub_cancel_left, Nat.testBit_two_pow_mul_add _ (UInt8.toNat_lt _), if_pos (by omega),
    bigEndianBit, List.getD_eq_getElem?_getD, List.getElem?_eq_getElem hj, Option.getD_some]

theorem bigEndianBits_succ (bs : Bytes) (start w : ℕ) :
    bigEndianBits bs start (w + 1) =
      2 * bigEndianBits bs start w + (bigEndianBit bs (start + w)).toNat := by
  rw [bigEndianBits, List.range'_1_concat, List.foldl_append]
  rfl

theorem bigEndianBits_lt (bs : Bytes) (start width : ℕ) : bigEndianBits bs start width < 2 ^ width := by
  induction width with
  | zero => simp [bigEndianBits]
  | succ w ih =>
    rw [bigEndianBits_succ, pow_succ]
    have hbit : (bigEndianBit bs (start + w)).toNat ≤ 1 := Bool.toNat_le _
    omega

/-- The bits `start`, …, `start + width - 1` of a byte string are the number it spells, shifted
down past the bits after them and cut to `width` bits. -/
theorem bigEndianBits_eq {bs : Bytes} {start width : ℕ} (h : start + width ≤ 8 * bs.length) :
    bigEndianBits bs start width =
      fromBigEndian bs / 2 ^ (8 * bs.length - (start + width)) % 2 ^ width := by
  induction width with
  | zero => simp [bigEndianBits, Nat.mod_one]
  | succ w ih =>
    set k := 8 * bs.length - (start + (w + 1))
    have hk : 8 * bs.length - (start + w) = k + 1 := by omega
    have hbit : 8 * bs.length - 1 - (start + w) = k := by omega
    rw [bigEndianBits_succ, ih (by omega), bigEndianBit_eq (by omega), hbit,
      Nat.testBit_eq_decide_div_mod_eq, hk, pow_succ 2 k, ← Nat.div_div_eq_div_mul, pow_succ' 2 w,
      Nat.mod_mul]
    -- the new bit is the lowest of the wider field
    rcases Nat.mod_two_eq_zero_or_one (fromBigEndian bs / 2 ^ k) with h2 | h2
    · simp [h2]
    · simp [h2]
      omega

end AionR
