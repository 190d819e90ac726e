import Mathlib

/-!
# Computations that may panic

A Rust integer operator panics on overflow in a debug build, slicing panics when a bound lies
outside the slice, `copy_from_slice` panics on a length mismatch and `unwrap` on `None`.
`Checked α` is a computation that either returns an `α` or panics, and the operations below
return exactly when their Rust counterparts do not panic. A model written with them states
"this code never panics" as "this computation is `.ok`", and "no arithmetic overflows" is the
same statement, since an overflow is one of the panics.

Each operation comes with the lemma that it returns when its bound holds, for running a model
forward, and with the converse reading of a successful result, for reasoning back from one.
-/

namespace AionR

/-- Why a computation panicked. -/
inductive Panic where
  | overflow
  | indexOutOfBounds
  | lengthMismatch
  | unwrapNone
  deriving DecidableEq, Repr

/-- A computation that returns an `α` or panics. -/
abbrev Checked (α : Type) := Except Panic α

namespace Checked

variable {α : Type}

/-- Addition of `w`-bit unsigned words. -/
def add (w a b : ℕ) : Checked ℕ := if a + b < 2 ^ w then .ok (a + b) else .error .overflow

/-- Multiplication of `w`-bit unsigned words. -/
def mul (w a b : ℕ) : Checked ℕ := if a * b < 2 ^ w then .ok (a * b) else .error .overflow

/-- Subtraction of unsigned words, which underflows below zero. -/
def sub (a b : ℕ) : Checked ℕ := if b ≤ a then .ok (a - b) else .error .overflow

/-- The slice `xs[lo..hi]`. -/
def slice (xs : List α) (lo hi : ℕ) : Checked (List α) :=
  if lo ≤ hi ∧ hi ≤ xs.length then .ok ((xs.drop lo).take (hi - lo)) else .error .indexOutOfBounds

/-- `copy_from_slice` into a buffer of `len` elements: the source must have exactly that many. -/
def copyFromSlice (len : ℕ) (src : List α) : Checked (List α) :=
  if src.length = len then .ok src else .error .lengthMismatch

/-- Indexing `xs[i]`. -/
def index (xs : List α) (i : ℕ) : Checked α :=
  match xs[i]? with
  | some a => .ok a
  | none => .error .indexOutOfBounds

/-- A fixed-size array copied from a slice (`copy_from_slice` into `[T; n]`). -/
def toVector (n : ℕ) (src : List α) : Checked (Vector α n) :=
  if h : src.length = n then .ok ⟨src.toArray, by simpa using h⟩ else .error .lengthMismatch

/-- `unwrap`. -/
def unwrap : Option α → Checked α
  | some a => .ok a
  | none => .error .unwrapNone

variable {w a b c : ℕ}

theorem add_of_lt (h : a + b < 2 ^ w) : add w a b = .ok (a + b) := if_pos h

theorem mul_of_lt (h : a * b < 2 ^ w) : mul w a b = .ok (a * b) := if_pos h

theorem sub_of_le (h : b ≤ a) : sub a b = .ok (a - b) := if_pos h

theorem slice_of_le {xs : List α} {lo hi : ℕ} (h₁ : lo ≤ hi) (h₂ : hi ≤ xs.length) :
    slice xs lo hi = .ok ((xs.drop lo).take (hi - lo)) := if_pos ⟨h₁, h₂⟩

theorem copyFromSlice_of_length {src : List α} {len : ℕ} (h : src.length = len) :
    copyFromSlice len src = .ok src := if_pos h

@[simp] theorem unwrap_some (a : α) : unwrap (some a) = .ok a := rfl

theorem index_of_lt {xs : List α} {i : ℕ} (h : i < xs.length) : index xs i = .ok xs[i] := by
  rw [index, List.getElem?_eq_getElem h]

theorem toVector_of_length {src : List α} {n : ℕ} (h : src.length = n) :
    ∃ v : Vector α n, toVector n src = .ok v ∧ v.toList = src :=
  ⟨⟨src.toArray, by simpa using h⟩, dif_pos h, by simp⟩

/-- A vector copied from the slice it lists. -/
theorem toVector_of_toList {n : ℕ} {src : List α} {v : Vector α n} (h : v.toList = src) :
    toVector n src = .ok v := by
  have hlen : src.length = n := by rw [← h, Vector.length_toList]
  rw [toVector, dif_pos hlen]
  congr 1
  apply Vector.toList_inj.mp
  simp [h]

theorem add_eq_ok {w a b c : ℕ} (h : add w a b = .ok c) : a + b < 2 ^ w ∧ c = a + b := by
  unfold add at h
  split at h
  · exact ⟨‹_›, (Except.ok.inj h).symm⟩
  · cases h

theorem mul_eq_ok (h : mul w a b = .ok c) : a * b < 2 ^ w ∧ c = a * b := by
  unfold mul at h
  split at h
  · exact ⟨‹_›, (Except.ok.inj h).symm⟩
  · cases h

theorem sub_eq_ok (h : sub a b = .ok c) : b ≤ a ∧ c = a - b := by
  unfold sub at h
  split at h
  · exact ⟨‹_›, (Except.ok.inj h).symm⟩
  · cases h

theorem slice_eq_ok {xs ys : List α} {lo hi : ℕ} (h : slice xs lo hi = .ok ys) :
    lo ≤ hi ∧ hi ≤ xs.length ∧ ys = (xs.drop lo).take (hi - lo) := by
  unfold slice at h
  split at h
  · obtain ⟨h₁, h₂⟩ := ‹lo ≤ hi ∧ hi ≤ xs.length›
    exact ⟨h₁, h₂, (Except.ok.inj h).symm⟩
  · cases h

theorem copyFromSlice_eq_ok {src dst : List α} {len : ℕ} (h : copyFromSlice len src = .ok dst) :
    src.length = len ∧ dst = src := by
  unfold copyFromSlice at h
  split at h
  · exact ⟨‹_›, (Except.ok.inj h).symm⟩
  · cases h

/-- A slice within bounds has the length of its range. -/
theorem length_slice {xs ys : List α} {lo hi : ℕ} (h : slice xs lo hi = .ok ys) :
    ys.length = hi - lo := by
  obtain ⟨h₁, h₂, rfl⟩ := slice_eq_ok h
  rw [List.length_take, List.length_drop]
  omega

end Checked

end AionR
