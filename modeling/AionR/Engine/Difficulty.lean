import AionR.FixedPoint
import AionR.Header
import AionR.Lib.Except
import AionR.Lib.U256

/-!
# The difficulty of the next block

`DifficultyCalc::calculate_difficulty` (`src/core/src/engine/unity_engine/mod.rs`) chooses
between two rules:

* before the Unity fork (`calculate_difficulty_v1`), the parent's difficulty moves by a step
  `diff_base = max(1, d / difficulty_bound_divisor)`: one step up for a block time up to the lower
  bound, none between the bounds, and down by up to 99 steps above the upper bound, clamped at
  `minimum_pow_difficulty`;
* after it (`calculate_difficulty_v2`), the difficulty of the grand parent, the last block of the
  same seal type, is multiplied by `1.05` when the seal parents came less than `BARRIER = 7`
  seconds apart, and by `0.952381` otherwise, in 70-bit fixed point, and clamped at the seal
  type's minimum.

## Model

`U256` arithmetic panics on overflow and on a zero divisor, and a `u64` subtraction below zero
panics (`Lib.U256`). The
product of the v2 rule returns to `U256` through `From<BigUint> for U256`, which keeps the low
thirty-two bytes: the value modulo `2^256`. The two rates are read from their numerals by the
decimal parser of `FixedPoint`, a parameter, and are the same under every parser it admits.

## Main results

* `v2Difficulty_ge`, `v2Difficulty_le`: the v2 product rises below the barrier while it stays
  below `2^256`, and falls from the barrier on; `calculateDifficultyV2_of_ok` clamps it.
* `v1Output_eq_ok`, `calculateDifficultyV1_eq_ok`: the four cases of the v1 rule, from which
  its bounds (`calculateDifficultyV1_bounds`) and its monotonicity in the block time
  (`calculateDifficultyV1_antitone`) follow.
* `calculateDifficulty_of_unity`, `calculateDifficulty_of_preUnity`: which rule
  `calculate_difficulty` applies.
-/

namespace AionR

/-- `From<BigUint> for U256`: the little-endian bytes resized to thirty-two. -/
def u256FromBigUint (v : ℕ) : ℕ := v % 2 ^ 256

/-- `BARRIER`. -/
def barrier : ℕ := 7

/-- `DIFF_INC_RATE`. -/
def diffIncRate [BigDecimalParse] : FixedPoint := FixedPoint.ofNumeral "1.05"

/-- `DIFF_DEC_RATE`. -/
def diffDecRate [BigDecimalParse] : FixedPoint := FixedPoint.ofNumeral "0.952381"

/-- `DifficultyCalc`. -/
structure DifficultyCalc where
  difficultyBoundDivisor : ℕ
  blockTimeLowerBound : ℕ
  blockTimeUpperBound : ℕ
  minimumPowDifficulty : ℕ
  minimumPosDifficulty : ℕ
  unityUpdate : Option ℕ
  unityHybridSeedUpdate : Option ℕ

namespace DifficultyCalc

variable (c : DifficultyCalc)

/-- `initial_pos_difficulty`: ten times the total stake at the parent, at least the minimum. -/
def initialPosDifficulty (totalStake : Option ℕ) : Except String ℕ :=
  match totalStake with
  | some stake => do
    let initial ← mulU256 stake 10
    return max c.minimumPosDifficulty initial
  | none => pure (max c.minimumPosDifficulty c.minimumPosDifficulty)

/-- The difficulty of the v1 rule before the clamp, from the parent's difficulty, the step and
the block time. -/
def v1Output (parentDifficulty diffBase delta : ℕ) : Except String ℕ :=
  if delta ≤ c.blockTimeLowerBound then addU256 parentDifficulty diffBase
  else if c.blockTimeLowerBound < delta ∧ delta < c.blockTimeUpperBound then pure parentDifficulty
  else do
    let boundQuotient := (delta - c.blockTimeUpperBound) / 10 + 1
    let multiplier := min boundQuotient 99
    let step ← mulU256 multiplier diffBase
    if parentDifficulty > step then pure (parentDifficulty - step)
    else pure c.minimumPowDifficulty

/-- `calculate_difficulty_v1`. -/
def calculateDifficultyV1 (parent grandParent : Header) : Except String ℕ := do
  let parentDifficulty := parent.difficulty
  let diffBase ← divU256 parentDifficulty c.difficultyBoundDivisor
  -- "if smaller than our bound divisor, always round up"
  let diffBase := if diffBase = 0 then 1 else diffBase
  let delta ← subU64 parent.timestamp.toNat grandParent.timestamp.toNat
  let outputDifficulty ← c.v1Output parentDifficulty diffBase delta
  return max outputDifficulty c.minimumPowDifficulty

/-- The product of the v2 rule, before the clamp. -/
def v2Difficulty [BigDecimalParse] (parentDifficulty deltaTime : ℕ) : Except String ℕ :=
  if deltaTime ≥ barrier then
    pure (u256FromBigUint (diffDecRate.multiplyUint parentDifficulty).toBigUint)
  else
    let temp := u256FromBigUint (diffIncRate.multiplyUint parentDifficulty).toBigUint
    if temp = parentDifficulty then addU256 temp 1 else pure temp

/-- The minimum of a seal type. -/
def minimumFor (sealType : Option SealType) : ℕ :=
  match sealType with
  | some .pos => c.minimumPosDifficulty
  | _ => c.minimumPowDifficulty

/-- `calculate_difficulty_v2`. -/
def calculateDifficultyV2 [BigDecimalParse] (grandParent greatGrandParent : Header) :
    Except String ℕ := do
  let parentDifficulty := grandParent.difficulty
  let deltaTime ← subU64 grandParent.timestamp.toNat greatGrandParent.timestamp.toNat
  if deltaTime = 0 then throw "assertion failed: delta_time > 0"
  let diff ← v2Difficulty parentDifficulty deltaTime
  return max (c.minimumFor grandParent.sealType) diff

/-- `calculate_difficulty`, with `totalStake` the client's `get_total_stake` at the parent. -/
def calculateDifficulty [BigDecimalParse] (parent : Header)
    (grandParent greatGrandParent : Option Header) (totalStake : Option ℕ) : Except String ℕ :=
  match c.unityUpdate with
  | some forkNumber =>
    if parent.number.toNat ≥ forkNumber then
      if parent.number.toNat = forkNumber then c.initialPosDifficulty totalStake
      else if c.unityHybridSeedUpdate = some parent.number.toNat then
        c.initialPosDifficulty totalStake
      else
        match grandParent with
        | none => .error "Must have grand parent because block number is greater than 1 from here"
        | some grandParent =>
          match greatGrandParent with
          | none => pure grandParent.difficulty
          | some greatGrandParent => c.calculateDifficultyV2 grandParent greatGrandParent
    else
      match grandParent with
      | none => pure parent.difficulty
      | some grandParent => c.calculateDifficultyV1 parent grandParent
  | none =>
    match grandParent with
    | none => pure parent.difficulty
    | some grandParent => c.calculateDifficultyV1 parent grandParent

/-! ## The direction of the two rules -/

section Rates

variable [BigDecimalParse]

theorem diffIncRate_val : diffIncRate.val = 1239621201753281868595 := by
  rw [diffIncRate, FixedPoint.ofNumeral_eq_impl (by decide)]
  decide +kernel

theorem diffDecRate_val : diffDecRate.val = 1124373028330468894566 := by
  rw [diffDecRate, FixedPoint.ofNumeral_eq_impl (by decide)]
  decide +kernel

/-- `× 1.05` never lowers a difficulty. -/
theorem le_incProduct (d : ℕ) : d ≤ (diffIncRate.multiplyUint d).toBigUint := by
  rw [FixedPoint.toBigUint, FixedPoint.multiplyUint, diffIncRate_val, Nat.shiftRight_eq_div_pow,
    precision, Nat.le_div_iff_mul_le (Nat.two_pow_pos _)]
  dsimp only
  omega

/-- `× 0.952381` never raises one. -/
theorem decProduct_le (d : ℕ) : (diffDecRate.multiplyUint d).toBigUint ≤ d := by
  rw [FixedPoint.toBigUint, FixedPoint.multiplyUint, diffDecRate_val, Nat.shiftRight_eq_div_pow,
    precision, Nat.div_le_iff_le_mul_add_pred (Nat.two_pow_pos _)]
  dsimp only
  omega

/-- `× 1.05` leaves only a small difficulty where it was, so the `+ 1` after it cannot overflow. -/
theorem lt_of_incProduct_eq {d : ℕ} (h : (diffIncRate.multiplyUint d).toBigUint = d) :
    d < 2 ^ 70 := by
  rw [FixedPoint.toBigUint, FixedPoint.multiplyUint, diffIncRate_val, Nat.shiftRight_eq_div_pow,
    precision] at h
  have := Nat.lt_mul_div_succ (1239621201753281868595 * d) (Nat.two_pow_pos 70)
  rw [h] at this
  omega


/-- Below the barrier, and while the product stays below `2^256`, the v2 product is at least the
difficulty. -/
theorem v2Difficulty_ge {d delta : ℕ} (hdelta : delta < barrier)
    (hwrap : (diffIncRate.multiplyUint d).toBigUint < 2 ^ 256) :
    ∃ diff, v2Difficulty d delta = .ok diff ∧ d ≤ diff := by
  rw [v2Difficulty, if_neg (Nat.not_le.mpr hdelta), u256FromBigUint, Nat.mod_eq_of_lt hwrap]
  dsimp only
  split_ifs with heq
  · -- the product is the difficulty itself: one is added, which cannot overflow
    have := lt_of_incProduct_eq heq
    exact ⟨_, by rw [addU256, if_pos (by omega)], by omega⟩
  · exact ⟨_, rfl, le_incProduct d⟩

/-- From the barrier on, the v2 product is at most the difficulty. -/
theorem v2Difficulty_le {d delta : ℕ} (hdelta : barrier ≤ delta) :
    ∃ diff, v2Difficulty d delta = .ok diff ∧ diff ≤ d := by
  rw [v2Difficulty, if_pos hdelta]
  exact ⟨_, rfl, le_trans (Nat.mod_le _ _) (decProduct_le d)⟩

/-- With increasing timestamps the v2 rule is its product, clamped at the seal type's
minimum. -/
theorem calculateDifficultyV2_of_ok {grandParent greatGrandParent : Header} {diff : ℕ}
    (hts : greatGrandParent.timestamp.toNat < grandParent.timestamp.toNat)
    (h : v2Difficulty grandParent.difficulty
      (grandParent.timestamp.toNat - greatGrandParent.timestamp.toNat) = .ok diff) :
    c.calculateDifficultyV2 grandParent greatGrandParent =
      .ok (max (c.minimumFor grandParent.sealType) diff) := by
  have hpos : grandParent.timestamp.toNat - greatGrandParent.timestamp.toNat ≠ 0 := by omega
  simp only [calculateDifficultyV2, subU64, if_pos (Nat.le_of_lt hts), except_ok_bind, hpos,
    if_false, h, except_pure_eq]


end Rates

/-- The four cases of the v1 rule before its clamp: one step up, no change, some steps down, or
the minimum. -/
theorem v1Output_eq_ok {d base delta out : ℕ} (h : c.v1Output d base delta = .ok out) :
    (delta ≤ c.blockTimeLowerBound ∧ out = d + base) ∨
    (c.blockTimeLowerBound < delta ∧ delta < c.blockTimeUpperBound ∧ out = d) ∨
    (c.blockTimeLowerBound < delta ∧ c.blockTimeUpperBound ≤ delta ∧
      (min ((delta - c.blockTimeUpperBound) / 10 + 1) 99 * base < d ∧
          out = d - min ((delta - c.blockTimeUpperBound) / 10 + 1) 99 * base ∨
        d ≤ min ((delta - c.blockTimeUpperBound) / 10 + 1) 99 * base ∧
          out = c.minimumPowDifficulty)) := by
  unfold v1Output at h
  split_ifs at h with hlow hmid
  · exact .inl ⟨hlow, (addU256_eq_ok h).2⟩
  · exact .inr (.inl ⟨hmid.1, hmid.2, (Except.ok.inj h).symm⟩)
  · obtain ⟨step, hstep, h⟩ := except_bind_eq_ok.mp h
    obtain ⟨-, rfl⟩ := mulU256_eq_ok hstep
    have hupper : c.blockTimeUpperBound ≤ delta := by omega
    refine .inr (.inr ⟨by omega, hupper, ?_⟩)
    split_ifs at h with hgt
    · exact .inl ⟨hgt, (Except.ok.inj h).symm⟩
    · exact .inr ⟨Nat.not_lt.mp hgt, (Except.ok.inj h).symm⟩

/-- The code's round-up of the step, one where the quotient is zero, is `max 1`. -/
theorem ite_zero_one_eq_max (q : ℕ) : (if q = 0 then 1 else q) = max 1 q := by
  split <;> omega

/-- A run of the v1 rule: the divisor is not zero, the timestamps do not decrease, and the result
is the output for the step `max(1, d / divisor)`, clamped. -/
theorem calculateDifficultyV1_eq_ok {parent grandParent : Header} {r : ℕ}
    (h : c.calculateDifficultyV1 parent grandParent = .ok r) :
    c.difficultyBoundDivisor ≠ 0 ∧ grandParent.timestamp.toNat ≤ parent.timestamp.toNat ∧
      ∃ out, c.v1Output parent.difficulty (max 1 (parent.difficulty / c.difficultyBoundDivisor))
        (parent.timestamp.toNat - grandParent.timestamp.toNat) = .ok out ∧
        r = max out c.minimumPowDifficulty := by
  obtain ⟨base, hbase, h⟩ := except_bind_eq_ok.mp h
  obtain ⟨hdiv, rfl⟩ := divU256_eq_ok hbase
  obtain ⟨delta, hdelta, h⟩ := except_bind_eq_ok.mp h
  obtain ⟨hts, rfl⟩ := subU64_eq_ok hdelta
  obtain ⟨out, hout, h⟩ := except_bind_eq_ok.mp h
  rw [ite_zero_one_eq_max] at hout
  exact ⟨hdiv, hts, out, hout, (Except.ok.inj h).symm⟩


/-- The v1 rule stays at or above the minimum, goes up by at most one step, and goes down by at
most 99 steps unless it is clamped. -/
theorem calculateDifficultyV1_bounds {parent grandParent : Header} {r : ℕ}
    (h : c.calculateDifficultyV1 parent grandParent = .ok r) :
    c.minimumPowDifficulty ≤ r ∧
      r ≤ max (parent.difficulty + max 1 (parent.difficulty / c.difficultyBoundDivisor))
        c.minimumPowDifficulty ∧
      (parent.difficulty ≤ r + 99 * max 1 (parent.difficulty / c.difficultyBoundDivisor) ∨
        r = c.minimumPowDifficulty) := by
  obtain ⟨-, -, out, hout, rfl⟩ := c.calculateDifficultyV1_eq_ok h
  generalize max 1 (parent.difficulty / c.difficultyBoundDivisor) = base at hout ⊢
  rcases c.v1Output_eq_ok hout with ⟨-, rfl⟩ | ⟨-, -, rfl⟩ | ⟨-, -, hdown⟩
  · omega
  · omega
  · -- some steps down, at most 99 of them
    have h99 := Nat.mul_le_mul_right base
      (min_le_right ((parent.timestamp.toNat - grandParent.timestamp.toNat -
        c.blockTimeUpperBound) / 10 + 1) 99)
    generalize min _ 99 * base = step at hdown h99
    omega

/-- The longer the block time, the lower the v1 rule's difficulty. -/
theorem calculateDifficultyV1_antitone {parent grandParent grandParent' : Header} {r r' : ℕ}
    (h : c.calculateDifficultyV1 parent grandParent = .ok r)
    (h' : c.calculateDifficultyV1 parent grandParent' = .ok r')
    (hts : grandParent'.timestamp.toNat ≤ grandParent.timestamp.toNat) : r' ≤ r := by
  obtain ⟨-, hts₁, out, hout, rfl⟩ := c.calculateDifficultyV1_eq_ok h
  obtain ⟨-, hts₂, out', hout', rfl⟩ := c.calculateDifficultyV1_eq_ok h'
  generalize max 1 (parent.difficulty / c.difficultyBoundDivisor) = base at hout hout'
  generalize hdelta : parent.timestamp.toNat - grandParent.timestamp.toNat = delta at hout
  generalize hdelta' : parent.timestamp.toNat - grandParent'.timestamp.toNat = delta' at hout'
  have hle : delta ≤ delta' := by omega
  -- the longer block time takes at least as many steps down
  have hsteps := Nat.mul_le_mul_right base (min_le_min_right 99
    (show (delta - c.blockTimeUpperBound) / 10 + 1 ≤ (delta' - c.blockTimeUpperBound) / 10 + 1
      by omega))
  have hcases := c.v1Output_eq_ok hout
  have hcases' := c.v1Output_eq_ok hout'
  generalize min ((delta - c.blockTimeUpperBound) / 10 + 1) 99 * base = step at hcases hsteps
  generalize min ((delta' - c.blockTimeUpperBound) / 10 + 1) 99 * base = step' at hcases' hsteps
  omega

/-- The v1 rule returns when the divisor is not zero, the timestamps do not decrease, and the
difficulty stays below `2^256` 99 steps up. -/
theorem calculateDifficultyV1_ok {parent grandParent : Header}
    (hdiv : c.difficultyBoundDivisor ≠ 0)
    (hts : grandParent.timestamp.toNat ≤ parent.timestamp.toNat)
    (hbound : parent.difficulty + 99 * max 1 (parent.difficulty / c.difficultyBoundDivisor) <
      2 ^ 256) :
    ∃ r, c.calculateDifficultyV1 parent grandParent = .ok r := by
  simp only [calculateDifficultyV1, divU256, if_neg hdiv, subU64, if_pos hts, except_ok_bind,
    except_pure_eq, ite_zero_one_eq_max]
  generalize max 1 (parent.difficulty / c.difficultyBoundDivisor) = base at hbound ⊢
  unfold v1Output
  split_ifs with hlow hmid
  · rw [addU256, if_pos (by omega)]
    exact ⟨_, rfl⟩
  · exact ⟨_, rfl⟩
  · have h99 := Nat.mul_le_mul_right base (min_le_right
      ((parent.timestamp.toNat - grandParent.timestamp.toNat - c.blockTimeUpperBound) / 10 + 1)
      99)
    dsimp only
    rw [mulU256, if_pos (by omega), except_ok_bind]
    split_ifs <;> exact ⟨_, rfl⟩

/-- The first staking block's difficulty is at least the staking minimum. -/
theorem initialPosDifficulty_ge {totalStake : Option ℕ} {r : ℕ}
    (h : c.initialPosDifficulty totalStake = .ok r) : c.minimumPosDifficulty ≤ r := by
  unfold initialPosDifficulty at h
  split at h
  · obtain ⟨initial, -, h⟩ := except_bind_eq_ok.mp h
    rw [← Except.ok.inj h]
    exact le_max_left _ _
  · rw [← Except.ok.inj h]
    exact le_max_left _ _

section Unity

variable [BigDecimalParse]

/-- From the fork on, past its first block and the seed update, with all three ancestors, the
difficulty is the v2 rule's. -/
theorem calculateDifficulty_of_unity {parent grandParent greatGrandParent : Header}
    {totalStake : Option ℕ} {forkNumber : ℕ} (hfork : c.unityUpdate = some forkNumber)
    (hafter : forkNumber < parent.number.toNat)
    (hseed : c.unityHybridSeedUpdate ≠ some parent.number.toNat) :
    c.calculateDifficulty parent (some grandParent) (some greatGrandParent) totalStake =
      c.calculateDifficultyV2 grandParent greatGrandParent := by
  simp only [calculateDifficulty, hfork, if_pos (Nat.le_of_lt hafter),
    if_neg (Nat.ne_of_gt hafter), if_neg hseed]

/-- Before the fork, with a grand parent, the difficulty is the v1 rule's. -/
theorem calculateDifficulty_of_preUnity {parent grandParent : Header}
    {greatGrandParent : Option Header} {totalStake : Option ℕ}
    (hbefore :
      ∀ forkNumber, c.unityUpdate = some forkNumber → parent.number.toNat < forkNumber) :
    c.calculateDifficulty parent (some grandParent) greatGrandParent totalStake =
      c.calculateDifficultyV1 parent grandParent := by
  unfold calculateDifficulty
  cases hfork : c.unityUpdate with
  | none => rfl
  | some forkNumber =>
    simp only [if_neg (Nat.not_le.mpr (hbefore forkNumber hfork))]

theorem calculateDifficulty_moves_the_right_way (c : DifficultyCalc) :
    (∀ grandParent greatGrandParent : Header,
      greatGrandParent.timestamp.toNat < grandParent.timestamp.toNat →
      grandParent.timestamp.toNat - greatGrandParent.timestamp.toNat < barrier →
      (diffIncRate.multiplyUint grandParent.difficulty).toBigUint < 2 ^ 256 →
      ∃ r, c.calculateDifficultyV2 grandParent greatGrandParent = .ok r ∧
        grandParent.difficulty ≤ r ∧ c.minimumFor grandParent.sealType ≤ r) ∧
    (∀ grandParent greatGrandParent : Header,
      greatGrandParent.timestamp.toNat < grandParent.timestamp.toNat →
      barrier ≤ grandParent.timestamp.toNat - greatGrandParent.timestamp.toNat →
      ∃ r, c.calculateDifficultyV2 grandParent greatGrandParent = .ok r ∧
        r ≤ max grandParent.difficulty (c.minimumFor grandParent.sealType) ∧
        c.minimumFor grandParent.sealType ≤ r) ∧
    (∀ (parent grandParent : Header) (r : ℕ), c.calculateDifficultyV1 parent grandParent = .ok r →
      c.minimumPowDifficulty ≤ r ∧
      r ≤ max (parent.difficulty + max 1 (parent.difficulty / c.difficultyBoundDivisor))
        c.minimumPowDifficulty ∧
      (parent.difficulty ≤ r + 99 * max 1 (parent.difficulty / c.difficultyBoundDivisor) ∨
        r = c.minimumPowDifficulty)) ∧
    (∀ (parent grandParent grandParent' : Header) (r r' : ℕ),
      c.calculateDifficultyV1 parent grandParent = .ok r →
      c.calculateDifficultyV1 parent grandParent' = .ok r' →
      grandParent'.timestamp.toNat ≤ grandParent.timestamp.toNat → r' ≤ r) ∧
    (∀ parent grandParent : Header, c.difficultyBoundDivisor ≠ 0 →
      grandParent.timestamp.toNat < parent.timestamp.toNat →
      parent.difficulty + 99 * max 1 (parent.difficulty / c.difficultyBoundDivisor) < 2 ^ 256 →
      ∃ r, c.calculateDifficultyV1 parent grandParent = .ok r) ∧
    (∀ (totalStake : Option ℕ) (r : ℕ), c.initialPosDifficulty totalStake = .ok r →
      c.minimumPosDifficulty ≤ r) := by
  refine ⟨fun grandParent greatGrandParent hts hdelta hwrap ↦ ?_,
    fun grandParent greatGrandParent hts hdelta ↦ ?_,
    fun parent grandParent r h ↦ c.calculateDifficultyV1_bounds h,
    fun parent grandParent grandParent' r r' h h' hts ↦ c.calculateDifficultyV1_antitone h h' hts,
    fun parent grandParent hdiv hts hbound ↦ c.calculateDifficultyV1_ok hdiv (Nat.le_of_lt hts)
      hbound,
    fun totalStake r h ↦ c.initialPosDifficulty_ge h⟩
  · -- below the barrier: the product rises, and the clamp only raises it further
    obtain ⟨diff, hdiff, hge⟩ := v2Difficulty_ge hdelta hwrap
    exact ⟨_, c.calculateDifficultyV2_of_ok hts hdiff, le_trans hge (le_max_right _ _),
      le_max_left _ _⟩
  · -- from the barrier on: the product falls
    obtain ⟨diff, hdiff, hle⟩ := v2Difficulty_le hdelta
    exact ⟨_, c.calculateDifficultyV2_of_ok hts hdiff,
      max_le (le_max_right _ _) (le_trans hle (le_max_left _ _)), le_max_left _ _⟩

end Unity

end DifficultyCalc

/-! ## Near `2^256`

The runs use the decimal parser `bigDecimal`. -/

attribute [local instance] bigDecimal

/-- The defaults of `UnityEngineParams`, with the Unity fork at block 1. -/
def unityDefaults : DifficultyCalc where
  difficultyBoundDivisor := 2048
  blockTimeLowerBound := 5
  blockTimeUpperBound := 15
  minimumPowDifficulty := 16
  minimumPosDifficulty := 10 ^ 22
  unityUpdate := some 1
  unityHybridSeedUpdate := none

/-- A staking header at `number` with `difficulty` and `timestamp`. -/
def headerWith (number : UInt64) (difficulty : ℕ) (timestamp : UInt64) : Header :=
  { Header.sample with number, difficulty, timestamp }

/-- `× 1.05` of `2^256 - 1` wraps to a twentieth of it, and `+ diff_base` on it overflows. -/
theorem calculateDifficulty_wraps_at_top :
    unityDefaults.calculateDifficulty (headerWith 5 1 1002)
        (some (headerWith 4 (2 ^ 256 - 1) 1001)) (some (headerWith 3 1 1000)) none =
      .ok 5789604461865809771158933307511312015276512391334504244422559339631706374142 ∧
    5789604461865809771158933307511312015276512391334504244422559339631706374142 < 2 ^ 256 - 1 ∧
    { unityDefaults with unityUpdate := none }.calculateDifficulty
        (headerWith 5 (2 ^ 256 - 1) 1001) (some (headerWith 4 1 1000)) none none =
      .error "arithmetic operation overflow" := by
  decide +kernel

theorem calculateDifficulty_moves_the_right_way_defaults :
    (∃ r, unityDefaults.calculateDifficultyV2 (headerWith 4 (10 ^ 23) 1003)
        (headerWith 3 1 1000) = .ok r ∧ 10 ^ 23 ≤ r ∧
      unityDefaults.minimumFor (headerWith 4 (10 ^ 23) 1003).sealType ≤ r) ∧
    ∃ r, unityDefaults.calculateDifficultyV1 (headerWith 4 (10 ^ 23) 1020)
      (headerWith 3 1 1000) = .ok r :=
  ⟨(DifficultyCalc.calculateDifficulty_moves_the_right_way unityDefaults).1 _ _ (by decide)
      (by decide) (by decide +kernel),
    (DifficultyCalc.calculateDifficulty_moves_the_right_way unityDefaults).2.2.2.2.1 _ _
      (by decide) (by decide) (by decide)⟩

end AionR
