import Mathlib.Data.Vector.Basic
import Mathlib.Data.BitVec

/-!
# Byte strings as sets of bits

A byte string of length `n` stands for the set of its one bits. The bytewise or, `union a b`, is
the union of two such sets, and `Covers a b` says that the set of `a` contains that of `b`: every
byte of `b` is left unchanged when masked by the same byte of `a`.

A bloom filter is such a string. A search asks whether a filter covers the bloom of what it looks
for, and a filter that summarises several others is their union. The facts here are those a
hierarchy of such summaries rests on: covering is a preorder, a union covers what either side
covers, and only the zero string is covered by zero.
-/

namespace AionR

namespace ByteSet

/-! ## Bytes -/

section Bytes

variable {a b c : UInt8}

theorem byte_covers_trans (hab : a &&& b = b) (hbc : b &&& c = c) : a &&& c = c := by
  rw [← hbc, ← UInt8.and_assoc, hab]

theorem byte_covers_or_left (h : a &&& c = c) : (a ||| b) &&& c = c := by
  apply UInt8.toBitVec_inj.mp
  have h' := congrArg UInt8.toBitVec h
  simp only [UInt8.toBitVec_and, UInt8.toBitVec_or] at h' ⊢
  rw [BitVec.and_or_distrib_right, h']
  grind

theorem byte_covers_or_right (h : b &&& c = c) : (a ||| b) &&& c = c := by
  rw [UInt8.or_comm]
  exact byte_covers_or_left h

theorem byte_covers_or (hb : a &&& b = b) (hc : a &&& c = c) : a &&& (b ||| c) = b ||| c := by
  apply UInt8.toBitVec_inj.mp
  have hb' := congrArg UInt8.toBitVec hb
  have hc' := congrArg UInt8.toBitVec hc
  simp only [UInt8.toBitVec_and, UInt8.toBitVec_or] at hb' hc' ⊢
  rw [BitVec.and_or_distrib_left, hb', hc']

/-- A byte whose bits are all in `a` adds nothing to it. -/
theorem byte_or_of_covers (h : a &&& b = b) : b ||| a = a := by
  apply UInt8.toBitVec_inj.mp
  have h' := congrArg UInt8.toBitVec h
  simp only [UInt8.toBitVec_and, UInt8.toBitVec_or] at h' ⊢
  rw [← h']
  grind

end Bytes

/-! ## Byte strings -/

variable {n : ℕ}

/-- The bytewise or: the union of the bits. -/
def union (a b : Vector UInt8 n) : Vector UInt8 n := Vector.zipWith (· ||| ·) a b

/-- Every bit of `b` is a bit of `a`. -/
def Covers (a b : Vector UInt8 n) : Prop := ∀ i (h : i < n), a[i] &&& b[i] = b[i]

instance (a b : Vector UInt8 n) : Decidable (Covers a b) :=
  inferInstanceAs (Decidable (∀ i (h : i < n), a[i] &&& b[i] = b[i]))

@[simp] theorem getElem_union (a b : Vector UInt8 n) (i : ℕ) (h : i < n) :
    (union a b)[i] = a[i] ||| b[i] := by
  simp [union]

theorem covers_refl (a : Vector UInt8 n) : Covers a a := fun _ _ ↦ UInt8.and_self

theorem Covers.trans {a b c : Vector UInt8 n} (hab : Covers a b) (hbc : Covers b c) : Covers a c :=
  fun i h ↦ byte_covers_trans (hab i h) (hbc i h)

theorem covers_union_left {a b c : Vector UInt8 n} (h : Covers a c) : Covers (union a b) c := by
  intro i hi
  rw [getElem_union]
  exact byte_covers_or_left (h i hi)

theorem covers_union_right {a b c : Vector UInt8 n} (h : Covers b c) : Covers (union a b) c := by
  intro i hi
  rw [getElem_union]
  exact byte_covers_or_right (h i hi)

/-- What covers both sides covers their union. -/
theorem covers_union {a b c : Vector UInt8 n} (hb : Covers a b) (hc : Covers a c) :
    Covers a (union b c) := by
  intro i hi
  rw [getElem_union]
  exact byte_covers_or (hb i hi) (hc i hi)

/-- A string whose bits are all in `b` adds nothing to it. -/
theorem union_of_covers {a b : Vector UInt8 n} (h : Covers b a) : union a b = b := by
  apply Vector.ext
  intro i hi
  rw [getElem_union]
  exact byte_or_of_covers (h i hi)

theorem union_self (a : Vector UInt8 n) : union a a = a := union_of_covers (covers_refl a)

theorem zero_union (b : Vector UInt8 n) : union (Vector.replicate n 0) b = b := by
  apply Vector.ext
  intro i hi
  simp

theorem covers_zero (a : Vector UInt8 n) : Covers a (Vector.replicate n 0) := by
  intro i hi
  simp

/-- Only the zero string is covered by zero. -/
theorem eq_zero_of_zero_covers {b : Vector UInt8 n} (h : Covers (Vector.replicate n 0) b) :
    b = Vector.replicate n 0 := by
  apply Vector.ext
  intro i hi
  have hi' := h i hi
  rw [Vector.getElem_replicate, UInt8.zero_and] at hi'
  rw [Vector.getElem_replicate, hi']

/-- A union over a list covers what its start covers. -/
theorem covers_foldl_union_of_init {c init : Vector UInt8 n} (h : Covers init c) :
    ∀ l : List (Vector UInt8 n), Covers (l.foldl union init) c := by
  intro l
  induction l generalizing init with
  | nil => exact h
  | cons x l ih => exact ih (covers_union_left h)

/-- A union over a list covers what any of its members covers. -/
theorem covers_foldl_union {c x : Vector UInt8 n} (init : Vector UInt8 n) :
    ∀ {l : List (Vector UInt8 n)}, x ∈ l → Covers x c → Covers (l.foldl union init) c := by
  intro l
  induction l generalizing init with
  | nil => intro hx; exact absurd hx List.not_mem_nil
  | cons y l ih =>
    intro hx hc
    rcases List.mem_cons.mp hx with rfl | hx
    · exact covers_foldl_union_of_init (covers_union_right hc) l
    · exact ih _ hx hc

end ByteSet

end AionR
