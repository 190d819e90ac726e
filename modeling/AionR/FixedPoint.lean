import Mathlib

/-!
# Seventy-bit fixed-point numbers and their logarithm

`FixedPoint` (`src/util/fixed_point/src/lib.rs`) is an unsigned fixed-point number with
`PRECISION = 70` fractional bits, kept as the `BigUint` numerator over `2^70`. Constants are read
from decimal numerals through `BigDecimal` and truncated toward zero. The parser of the
`bigdecimal` crate is a parameter, `BigDecimalParse`, of which the proofs use one fact: on a
decimal numeral it returns a decimal of the numeral's value. So every such parser reads the same
constants (`lnTable_eq_impl`, `ln2_eq_impl`), and `bigDecimal` is one. `LogApproximator::ln`
(`log_approximator.rs`) computes the natural logarithm of a `BigUint` by the shift-and-subtract
method:

* `y := LN2 * bits(input)` and `x := ` the top seventy bits of the input, a number in `[1/2, 1)`,
  so that `ln(input) = y + ln(x)`;
* for `k = 1, …, 30`, when `x * (1 + 2^-k)` stays below one, multiply it in and subtract the
  tabled `ln(1 + 2^-k)` from `y`;
* finally `ln(x) ≈ x - 1` gives `y + x - 1`.

Every subtraction goes through `subtract`, which fails on a negative result, and the logarithm
`expect`s it, so a failure panics with the message of its `expect`. A computation that may panic
returns `Except String`, the error being the panic's message.

## Main results

* `lnLoop_ok`: the loop never fails while `y` still holds `2^69` plus what the remaining
  factors can subtract; it only lowers `y`.
* `ln_ok`: for every input of at least two, `ln` returns, and its value is at most
  `bits(input) * LN2`. The bound `lnBudget_le_ln2` on the thirty tabled logarithms is what
  makes two bits enough; for the input one it is not (`DeltaCalc`).
-/

namespace AionR

/-- `PRECISION`. -/
def precision : ℕ := 70

/-- `FixedPoint`: the numerator over `2 ^ PRECISION`. -/
structure FixedPoint where
  val : ℕ
  deriving DecidableEq, Repr

/-- `FixedPointError`. -/
inductive FixedPointError where
  | negative
  deriving DecidableEq, Repr

/-- `BigDecimal`: the integer `intVal` scaled by `10 ^ -scale`. -/
structure BigDecimal where
  intVal : ℤ
  scale : ℕ
  deriving DecidableEq, Repr

/-- The number a string of decimal digits denotes; `none` on any other character. -/
def digitsValue (cs : List Char) : Option ℕ :=
  cs.foldl (fun acc c ↦ acc.bind fun n ↦
    if c.isDigit then some (10 * n + (c.toNat - '0'.toNat)) else none) (some 0)

/-- A decimal numeral, digits with at most one point between digits, as the number its digits
make and how many of them follow the point: its value is the one over ten to the other. -/
def decimalNumeral (s : String) : Option (ℕ × ℕ) :=
  match s.toList.span (· ≠ '.') with
  | (intPart, []) => if intPart = [] then none else (digitsValue intPart).map fun v ↦ (v, 0)
  | (intPart, _ :: fracPart) =>
    if intPart = [] ∨ fracPart = [] then none
    else (digitsValue (intPart ++ fracPart)).map fun v ↦ (v, fracPart.length)

/-- What the constants use of the `bigdecimal` crate: `BigDecimal::from_str_radix(s, 10)`. -/
class BigDecimalParse where
  /-- `BigDecimal::from_str_radix(s, 10)`. -/
  fromStrRadix : String → Option BigDecimal
  /-- A decimal numeral parses, to a decimal of its value. -/
  fromStrRadix_numeral : ∀ {s : String} {v scale : ℕ}, decimalNumeral s = some (v, scale) →
    ∃ d, fromStrRadix s = some d ∧ d.intVal * 10 ^ scale = v * 10 ^ d.scale

/-- A parser that keeps the digits of a numeral as they are, and the number of them after the
point as the scale. -/
@[reducible] def bigDecimal : BigDecimalParse where
  fromStrRadix s := (decimalNumeral s).map fun (v, scale) ↦ ⟨v, scale⟩
  fromStrRadix_numeral h := ⟨_, by rw [h]; rfl, rfl⟩

/-- `MAX_PRECISION`: one. -/
def maxPrecision : FixedPoint := ⟨1 <<< precision⟩

namespace FixedPoint

/-- `parse_from_big_decimal`: `num * 2^70`, truncated toward zero, unless it is negative. -/
def parseFromBigDecimal (num : BigDecimal) : Except FixedPointError FixedPoint :=
  let temp := (num.intVal * (maxPrecision.val : ℤ)).tdiv (10 ^ num.scale)
  if temp ≥ 0 then .ok ⟨temp.toNat⟩ else .error .negative

/-- A constant read by `BigDecimal::from_str_radix(s, 10).unwrap()` and
`parse_from_big_decimal(…).unwrap()`. The unwraps do not fire on the numerals of the source
(`ofNumeral_eq`); zero stands for the panic they would raise on another string. -/
def ofNumeral [BigDecimalParse] (s : String) : FixedPoint :=
  match BigDecimalParse.fromStrRadix s with
  | some num =>
    match parseFromBigDecimal num with
    | .ok x => x
    | .error _ => ⟨0⟩
  | none => ⟨0⟩

/-- `add`. -/
def add (a b : FixedPoint) : FixedPoint := ⟨a.val + b.val⟩

/-- `subtract`: the difference, or `Negative` below zero. -/
def subtract (a b : FixedPoint) : Except FixedPointError FixedPoint :=
  if a.val < b.val then .error .negative else .ok ⟨a.val - b.val⟩

/-- `multiply_uint`. -/
def multiplyUint (a : FixedPoint) (m : ℕ) : FixedPoint := ⟨a.val * m⟩

/-- `divide_by_power_of_two`: a right shift. -/
def divideByPowerOfTwo (a : FixedPoint) (shift : ℕ) : FixedPoint := ⟨a.val >>> shift⟩

/-- `to_big_uint`: rounded down to an integer. -/
def toBigUint (a : FixedPoint) : ℕ := a.val >>> precision

/-- `expect(msg)` on a subtraction. -/
def expect (r : Except FixedPointError FixedPoint) (msg : String) : Except String FixedPoint :=
  match r with
  | .ok x => .ok x
  | .error _ => .error msg

/-- `HARD_CODE_LNS`: `ln(1 + 2^-k)` for `k = 0, …, 30`, to twenty decimals (the first is `0`). -/
def hardCodeLns : List String :=
  ["0", "0.40546510810816438486", "0.22314355131420976486", "0.11778303565638345574",
    "0.06062462181643483994", "0.03077165866675368733", "0.01550418653596525448",
    "0.00778214044205494896", "0.00389864041565732289", "0.00195122013126174934",
    "0.00097608597305545892", "0.00048816207950135119", "0.00024411082752736271",
    "0.00012206286252567737", "0.00006103329368063853", "0.00003051711247318638",
    "0.00001525867264836240", "0.00000762936542756757", "0.00000381468998968589",
    "0.00000190734681382541", "0.00000095367386165919", "0.00000047683704451632",
    "0.00000023841855067986", "0.00000011920928244535", "0.00000005960464299903",
    "0.00000002980232194361", "0.00000001490116108283", "0.00000000745058056917",
    "0.00000000372529029152", "0.00000000186264514750", "0.00000000093132257418"]

/-- `LN_TABLE`. -/
def lnTable [BigDecimalParse] : List FixedPoint := hardCodeLns.map ofNumeral

/-- `LN2`, to eighteen decimals. -/
def ln2 [BigDecimalParse] : FixedPoint := ofNumeral "0.693147180559945309"

/-- `BigUint::bits`. -/
def bits (n : ℕ) : ℕ := if n = 0 then 0 else Nat.log2 n + 1

/-- The loop of `ln` over the shifts `leftShift`, from `x` and `y`, with the final
`y + x - 1`. -/
def lnLoop [BigDecimalParse] : FixedPoint → FixedPoint → List ℕ → Except String FixedPoint
  | x, y, [] => expect ((y.add x).subtract maxPrecision) "FixedPoint sub one failed"
  | x, y, leftShift :: shifts =>
    let xPrime := x.add (x.divideByPowerOfTwo leftShift)
    if xPrime.val < maxPrecision.val then
      match y.subtract (lnTable.getD leftShift ⟨0⟩) with
      | .ok y => lnLoop xPrime y shifts
      | .error _ => .error "FixedPoint sub ln failed"
    else if xPrime = maxPrecision then
      expect (y.subtract (lnTable.getD leftShift ⟨0⟩)) "FixedPoint sub ln failed"
    -- the factor is too big: try the next one
    else lnLoop x y shifts

/-- The input shifted so that it has `PRECISION` bits: "put input in the range [0.1, 1)". -/
def topBits (input bitLen : ℕ) : FixedPoint :=
  ⟨if precision ≥ bitLen then input <<< (precision - bitLen) else input >>> (bitLen - precision)⟩

/-- `LogApproximator::ln`. -/
def ln [BigDecimalParse] (input : ℕ) : Except String FixedPoint :=
  let bitLen := bits input
  let y := ln2.multiplyUint bitLen
  let x := topBits input bitLen
  if ¬x.val ≤ maxPrecision.val then .error "assertion failed: x <= *MAX_PRECISION"
  else if x = maxPrecision then .ok y
  else lnLoop x y (List.range' 1 (lnTable.length - 1))

@[simp] theorem maxPrecision_val : maxPrecision.val = 2 ^ 70 := rfl

/-! ## The constants

A parser the model admits reads each numeral of the source as its value, so the table and `LN2`
are the same whichever it is. -/

/-- A decimal `a / 10^s` of the value `v / 10^scale`, times `m` and truncated, is
`v * m / 10^scale`. -/
theorem tdiv_pow_ten_of_mul_eq {a : ℤ} {s v scale : ℕ} (m : ℕ)
    (h : a * 10 ^ scale = v * 10 ^ s) : (a * m).tdiv (10 ^ s) = ((v * m / 10 ^ scale : ℕ) : ℤ) := by
  have hpos : (0 : ℤ) < 10 ^ scale := by positivity
  have hnonneg : 0 ≤ a := by
    by_contra hneg
    have hlt : a * 10 ^ scale < 0 := Int.mul_neg_of_neg_of_pos (by omega) hpos
    have hge : (0 : ℤ) ≤ v * 10 ^ s := by positivity
    omega
  obtain ⟨n, rfl⟩ := Int.eq_ofNat_of_zero_le hnonneg
  have hnat : n * 10 ^ scale = v * 10 ^ s := by exact_mod_cast h
  -- both sides are the value times `m`, over `10 ^ s * 10 ^ scale`
  have hdiv : n * m / 10 ^ s = v * m / 10 ^ scale := by
    calc n * m / 10 ^ s = n * m * 10 ^ scale / (10 ^ s * 10 ^ scale) :=
          (Nat.mul_div_mul_right _ _ (by positivity)).symm
      _ = v * m * 10 ^ s / (10 ^ scale * 10 ^ s) := by
          rw [Nat.mul_right_comm, hnat, Nat.mul_right_comm, Nat.mul_comm (10 ^ s)]
      _ = v * m / 10 ^ scale := Nat.mul_div_mul_right _ _ (by positivity)
  rw [← hdiv]
  push_cast
  exact (Int.ofNat_tdiv _ _).symm

section Constants

variable [BigDecimalParse]

/-- A numeral is read as its value times `2^70`, truncated. -/
theorem ofNumeral_eq {s : String} {v scale : ℕ} (h : decimalNumeral s = some (v, scale)) :
    ofNumeral s = ⟨v * 2 ^ 70 / 10 ^ scale⟩ := by
  obtain ⟨d, hd, hval⟩ := BigDecimalParse.fromStrRadix_numeral h
  have htemp : (d.intVal * (maxPrecision.val : ℤ)).tdiv (10 ^ d.scale) =
      ((v * 2 ^ 70 / 10 ^ scale : ℕ) : ℤ) := by
    rw [maxPrecision_val]
    exact_mod_cast tdiv_pow_ten_of_mul_eq (2 ^ 70) hval
  rw [ofNumeral, hd]
  simp only [parseFromBigDecimal, htemp, Int.natCast_nonneg, if_true, Int.toNat_natCast]

/-- Two parsers the model admits read a numeral alike. -/
theorem ofNumeral_eq_impl {s : String} (h : (decimalNumeral s).isSome) :
    ofNumeral s = @ofNumeral bigDecimal s := by
  obtain ⟨⟨v, scale⟩, hs⟩ := Option.isSome_iff_exists.mp h
  rw [ofNumeral_eq hs, @ofNumeral_eq bigDecimal _ _ _ hs]

theorem lnTable_eq_impl : lnTable = @lnTable bigDecimal := by
  have hnumerals : ∀ s ∈ hardCodeLns, (decimalNumeral s).isSome := by decide
  exact List.map_congr_left fun s hs ↦ ofNumeral_eq_impl (hnumerals s hs)

-- the numerators `test_ln_tables` expects
example : lnTable.map FixedPoint.val = [0, 478688709125778178049, 263441406898681741314,
    139053664958586388484, 71572920525644939266, 36328762377545711618, 18304112710400286721,
    9187529797136163839, 4602702206915280897, 2303594137142748674, 1152358920889075706,
    576320060611281987, 288195197505197603, 144106392698596015, 72055395104146779,
    36028247274334636, 18014261071926600, 9007164895177383, 4503591037457749, 2251797666204331,
    1125899369972055, 562949819203622, 281474943156232, 140737479966715, 70368742080507,
    35184371564548, 17592185913349, 8796092989442, 4398046502908, 2199023253508,
    1099511627261] := by
  rw [lnTable_eq_impl]
  decide +kernel

theorem ln2_eq_impl : ln2 = @ln2 bigDecimal := ofNumeral_eq_impl (by decide)

theorem ln2_val : ln2.val = 818323753292969961733 := by
  rw [ln2_eq_impl]
  decide +kernel

/-- The logarithm reads the constants only, so it is the same under every parser. -/
theorem lnLoop_eq_impl :
    ∀ (shifts : List ℕ) (x y : FixedPoint), lnLoop x y shifts = @lnLoop bigDecimal x y shifts
  | [], _, _ => rfl
  | _ :: shifts, x, y => by
    simp only [lnLoop, lnTable_eq_impl, lnLoop_eq_impl shifts]

theorem ln_eq_impl (input : ℕ) : ln input = @ln bigDecimal input := by
  simp only [ln, ln2_eq_impl, lnTable_eq_impl, lnLoop_eq_impl]

end Constants

/-! ## The logarithm returns -/

-- Several proofs below unfold these at once: their equation lemmas are generated here, once.
section
attribute [local simp] bits
end

/-- `bits` brackets a positive number between two powers of two. -/
theorem pow_bits_le {n : ℕ} (hn : n ≠ 0) : 2 ^ (bits n - 1) ≤ n := by
  rw [bits, if_neg hn, Nat.add_sub_cancel]
  exact Nat.log2_self_le hn

theorem lt_pow_bits (n : ℕ) : n < 2 ^ bits n := by
  unfold bits
  split_ifs with hn
  · rw [hn]; exact Nat.one_pos
  · exact Nat.lt_log2_self

/-- The top seventy bits of a positive number are between one half and one. -/
theorem topBits_bounds {input : ℕ} (h : input ≠ 0) :
    2 ^ 69 ≤ (topBits input (bits input)).val ∧ (topBits input (bits input)).val < 2 ^ 70 := by
  have hlo := pow_bits_le h
  have hhi := lt_pow_bits input
  have hpos : 1 ≤ bits input := by rw [bits, if_neg h]; omega
  unfold topBits precision
  split_ifs with hb
  · rw [Nat.shiftLeft_eq]
    constructor
    · calc 2 ^ 69 = 2 ^ (bits input - 1) * 2 ^ (70 - bits input) := by
            rw [← Nat.pow_add]; congr 1; omega
        _ ≤ input * 2 ^ (70 - bits input) := Nat.mul_le_mul_right _ hlo
    · calc input * 2 ^ (70 - bits input) < 2 ^ bits input * 2 ^ (70 - bits input) :=
            Nat.mul_lt_mul_of_pos_right hhi (Nat.two_pow_pos _)
        _ = 2 ^ 70 := by rw [← Nat.pow_add]; congr 1; omega
  · rw [Nat.shiftRight_eq_div_pow]
    constructor
    · rw [Nat.le_div_iff_mul_le (Nat.two_pow_pos _), ← Nat.pow_add]
      calc 2 ^ (69 + (bits input - 70)) = 2 ^ (bits input - 1) := by congr 1; omega
        _ ≤ input := hlo
    · rw [Nat.div_lt_iff_lt_mul (Nat.two_pow_pos _), ← Nat.pow_add]
      calc input < 2 ^ bits input := hhi
        _ = 2 ^ (70 + (bits input - 70)) := by congr 1; omega

section Returns

variable [BigDecimalParse]

/-- The loop's invariant: while `y` holds `2^69` plus what the remaining factors can subtract and
`x` is in `[1/2, 1)`, no subtraction fails, and the result is at most `y`. -/
theorem lnLoop_ok :
    ∀ (shifts : List ℕ) {x y : FixedPoint}, 2 ^ 69 ≤ x.val → x.val < 2 ^ 70 →
    2 ^ 69 + (shifts.map fun k ↦ (lnTable.getD k ⟨0⟩).val).sum ≤ y.val →
    ∃ r, lnLoop x y shifts = .ok r ∧ r.val ≤ y.val
  | [], x, y, hx, hx', hy => by
    -- the last step, `y + x - 1`, stays at least `2^69 + 2^69 - 2^70`
    refine ⟨⟨y.val + x.val - 2 ^ 70⟩, ?_, by dsimp only; omega⟩
    rw [lnLoop, subtract, if_neg (by simp [add]; omega)]
    rfl
  | k :: shifts, x, y, hx, hx', hy => by
    rw [List.map_cons, List.sum_cons] at hy
    rw [lnLoop]
    split_ifs with hlt heq
    · -- the factor is taken and its logarithm subtracted
      rw [subtract, if_neg (by omega)]
      dsimp only
      obtain ⟨r, hr, hle⟩ := lnLoop_ok shifts (x := x.add (x.divideByPowerOfTwo k))
        (y := ⟨y.val - (lnTable.getD k ⟨0⟩).val⟩) (by simp only [add]; omega) hlt
        (by dsimp only; omega)
      exact ⟨r, hr, le_trans hle (Nat.sub_le _ _)⟩
    · -- the factor reaches one exactly: the loop ends
      refine ⟨⟨y.val - (lnTable.getD k ⟨0⟩).val⟩, ?_, Nat.sub_le _ _⟩
      rw [subtract, if_neg (by omega)]
      rfl
    · -- the factor is too big
      exact lnLoop_ok shifts hx hx' (by omega)

/-- `LN2` counts for at least `2^69` plus everything the thirty factors can subtract. -/
theorem lnBudget_le_ln2 :
    2 ^ 69 + ((List.range' 1 (lnTable.length - 1)).map fun k ↦ (lnTable.getD k ⟨0⟩).val).sum
      ≤ 2 * ln2.val := by
  rw [lnTable_eq_impl, ln2_eq_impl]
  decide +kernel

/-- From two on, the logarithm returns, at most `bits(input) * LN2`. -/
theorem ln_ok {input : ℕ} (h : 2 ≤ input) :
    ∃ r, ln input = .ok r ∧ r.val ≤ bits input * ln2.val := by
  have hne : input ≠ 0 := by omega
  have hbits : 2 ≤ bits input := by
    have := (Nat.le_log2 hne).mpr (show 2 ^ 1 ≤ input by omega)
    rw [bits, if_neg hne]
    omega
  obtain ⟨hx, hx'⟩ := topBits_bounds hne
  have hone : topBits input (bits input) ≠ maxPrecision := fun heq ↦
    Nat.ne_of_lt hx' (congrArg FixedPoint.val heq)
  unfold ln
  dsimp only
  rw [maxPrecision_val, if_neg (not_not.mpr (Nat.le_of_lt hx')), if_neg hone]
  have hy : 2 ^ 69 + ((List.range' 1 (lnTable.length - 1)).map
      fun k ↦ (lnTable.getD k ⟨0⟩).val).sum ≤ (ln2.multiplyUint (bits input)).val := by
    rw [multiplyUint]
    calc _ ≤ 2 * ln2.val := lnBudget_le_ln2
      _ ≤ ln2.val * bits input := by rw [Nat.mul_comm]; exact Nat.mul_le_mul_left _ hbits
  obtain ⟨r, hr, hle⟩ := lnLoop_ok _ hx hx' hy
  refine ⟨r, hr, ?_⟩
  rw [multiplyUint, Nat.mul_comm] at hle
  exact hle

end Returns

end FixedPoint

end AionR
