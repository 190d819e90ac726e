import AionR.FixedPoint
import AionR.Lib.BigEndian
import AionR.Lib.Except

/-!
# The delta of a staking block

`calculate_delta` (`src/util/delta-calc/src/lib.rs`) gives the time a staker waits before it may
seal a block:

`delta = difficulty * (ln(2^256) - ln(hash(seed))) / stake`,

with `LN_BOUNDARY = ln(2^256)` and both logarithms computed by `FixedPoint::ln`. The subtraction is
`expect`ed with "H256 should smaller than 2^256": the code takes the computed logarithm of a hash,
which is below `2^256`, to be below the computed `LN_BOUNDARY`. The hash function is a parameter,
and so is the decimal parser that reads the constants of the logarithm.

## Main results

* `calculateDelta_ok`: for every hash from `2` to below `2^255` and every positive stake,
  `calculate_delta` returns a delta of at least one.
-/

namespace AionR

open FixedPoint

variable [BigDecimalParse]

/-- `LN_BOUNDARY`: `ln(2^256)`. -/
def lnBoundary : Except String FixedPoint := ln (2 ^ 256)

/-- `calculate_delta` under the hash function `blake2b`. -/
def calculateDelta (blake2b : Bytes → Vector UInt8 32) (difficulty : ℕ) (seed : Bytes)
    (stake : ℕ) : Except String ℕ := do
  let hashOfSeed := blake2b seed
  let boundary ← lnBoundary
  let lnHash ← ln (fromBigEndian hashOfSeed.toList)
  let u ← expect (boundary.subtract lnHash) "H256 should smaller than 2^256"
  if stake = 0 then throw "attempt to divide by zero"
  let delta := (u.multiplyUint difficulty).toBigUint / stake
  -- `to_u64().unwrap_or(1000000000)`
  return max 1 (if delta < 2 ^ 64 then delta else 1000000000)

theorem lnBoundary_eq : lnBoundary = .ok ⟨209490880843000310192311⟩ := by
  rw [lnBoundary, ln_eq_impl]
  decide +kernel

/-- From two to below `2^255`, the logarithm is below `LN_BOUNDARY`: it is at most
`255 * LN2`, a whole `LN2` below. -/
theorem ln_le_lnBoundary {h : ℕ} (h2 : 2 ≤ h) (hlt : h < 2 ^ 255) :
    ∃ r, ln h = .ok r ∧ r.val ≤ 209490880843000310192311 := by
  obtain ⟨r, hr, hle⟩ := ln_ok h2
  have hbits : bits h ≤ 255 := by
    have hne : h ≠ 0 := by omega
    have := (Nat.log2_lt hne).mpr hlt
    rw [bits, if_neg hne]
    omega
  refine ⟨r, hr, ?_⟩
  calc r.val ≤ bits h * ln2.val := hle
    _ ≤ 255 * ln2.val := Nat.mul_le_mul_right _ hbits
    _ ≤ 209490880843000310192311 := by rw [ln2_val]; omega

/-- For every hash from two to below `2^255` and every positive stake, the delta is computed,
and it is at least one. -/
theorem calculateDelta_ok (blake2b : Bytes → Vector UInt8 32) (difficulty : ℕ) (seed : Bytes)
    {stake : ℕ} (hstake : 0 < stake) (h2 : 2 ≤ fromBigEndian (blake2b seed).toList)
    (hlt : fromBigEndian (blake2b seed).toList < 2 ^ 255) :
    ∃ delta, calculateDelta blake2b difficulty seed stake = .ok delta ∧ 1 ≤ delta := by
  obtain ⟨r, hr, hle⟩ := ln_le_lnBoundary h2 hlt
  have hsub :
      subtract ⟨209490880843000310192311⟩ r = .ok ⟨209490880843000310192311 - r.val⟩ := by
    rw [subtract, if_neg (Nat.not_lt.mpr hle)]
  simp only [calculateDelta, lnBoundary_eq, hr, except_ok_bind, hsub, expect,
    Nat.pos_iff_ne_zero.mp hstake, if_false, except_pure_eq]
  exact ⟨_, rfl, Nat.le_max_left _ _⟩

theorem calculateDelta_panics_at_extreme_hashes :
    (∀ difficulty seed stake, calculateDelta (fun _ ↦ Vector.replicate 32 0xff) difficulty seed
      stake = .error "H256 should smaller than 2^256") ∧
    ∀ difficulty seed stake, calculateDelta (fun _ ↦ (Vector.replicate 31 0).push 1) difficulty
      seed stake = .error "FixedPoint sub one failed" := by
  -- `ln(2^256 - 1)` comes out 11336 above `ln(2^256)`, and `ln(1)` fails its last subtraction
  have hmax : ln (fromBigEndian (Vector.replicate 32 (0xff : UInt8)).toList) =
      .ok ⟨209490880843000310203647⟩ := by
    rw [ln_eq_impl]
    decide +kernel
  have hone : ln (fromBigEndian ((Vector.replicate 31 (0 : UInt8)).push 1).toList) =
      .error "FixedPoint sub one failed" := by
    rw [ln_eq_impl]
    decide +kernel
  have hsub :
      subtract ⟨209490880843000310192311⟩ ⟨209490880843000310203647⟩ = .error .negative :=
    rfl
  refine ⟨fun difficulty seed stake ↦ ?_, fun difficulty seed stake ↦ ?_⟩
  · simp only [calculateDelta, lnBoundary_eq, hmax, except_ok_bind, hsub, expect,
      except_error_bind]
  · simp only [calculateDelta, lnBoundary_eq, hone, except_ok_bind, except_error_bind]

end AionR
