import Mathlib

/-!
# Machine words that panic

`U256` arithmetic panics on overflow and on a zero divisor, and a `u64` subtraction below zero
panics in a debug build. A computation that may panic returns `Except String`, the error being
the panic's message. Each operation has the lemma that reads a successful result back.
-/

namespace AionR

/-- `U256` addition. -/
def addU256 (a b : ℕ) : Except String ℕ :=
  if a + b < 2 ^ 256 then .ok (a + b) else .error "arithmetic operation overflow"

/-- `U256` multiplication. -/
def mulU256 (a b : ℕ) : Except String ℕ :=
  if a * b < 2 ^ 256 then .ok (a * b) else .error "arithmetic operation overflow"

/-- `U256` division. -/
def divU256 (a b : ℕ) : Except String ℕ :=
  if b = 0 then .error "attempt to divide by zero" else .ok (a / b)

/-- `u64` subtraction in a debug build. -/
def subU64 (a b : ℕ) : Except String ℕ :=
  if b ≤ a then .ok (a - b) else .error "attempt to subtract with overflow"

theorem addU256_eq_ok {a b r : ℕ} (h : addU256 a b = .ok r) : a + b < 2 ^ 256 ∧ r = a + b := by
  unfold addU256 at h
  split at h
  · exact ⟨‹_›, (Except.ok.inj h).symm⟩
  · cases h

theorem mulU256_eq_ok {a b r : ℕ} (h : mulU256 a b = .ok r) : a * b < 2 ^ 256 ∧ r = a * b := by
  unfold mulU256 at h
  split at h
  · exact ⟨‹_›, (Except.ok.inj h).symm⟩
  · cases h

theorem divU256_eq_ok {a b r : ℕ} (h : divU256 a b = .ok r) : b ≠ 0 ∧ r = a / b := by
  unfold divU256 at h
  split at h
  · cases h
  · exact ⟨‹_›, (Except.ok.inj h).symm⟩

theorem subU64_eq_ok {a b r : ℕ} (h : subU64 a b = .ok r) : b ≤ a ∧ r = a - b := by
  unfold subU64 at h
  split at h
  · exact ⟨‹_›, (Except.ok.inj h).symm⟩
  · cases h

end AionR
