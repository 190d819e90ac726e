import Mathlib.Data.List.AList
import AionR.Lib.AList
import AionR.Lib.BigEndian
import AionR.Lib.Int32

/-!
# The reference-counted memory database

`MemoryDB` (`src/db/core/src/memorydb.rs`) maps a 32-byte key to a value and a signed reference
count. `emplace` and `insert` add a reference, `remove` takes one away (and records a negative
count for a key it does not hold), and `remove_and_purge` takes one away and drops the entry when
its last reference goes. A value is only replaced while its count is not positive: the first
value inserted under a key wins. `NULL_RLP` is never stored; its hash `BLAKE2B_NULL_RLP` reads as
always present.

## Representation

The journal database keeps one `MemoryDB` of the values inserted over its history period, with one
reference per insertion. `Represents m val cnt` says that `m` is that database for the counts
`cnt`: every key with a positive count holds `val k` under that count, and no other key is there.
The operations the journal uses move a represented database to a represented one
(`Represents.emplace`, `Represents.removeAndPurge`), and `size`, the total length of the stored
values, moves with them as the journal's `cumulative_size` does.

## Machine integers

The count is an `i32`, an `Int32` here, which wraps as a release build does (a debug build panics).
The guard `-0x80000000 ≤ rc ∧ rc ≤ 0` of `emplace` is then `¬0 < rc` (`emplace_guard_iff`). A
represented count is `Int32.ofNat` of a natural number, and what it answers (`contains`, the purge
of the last reference) is that number's answer while it is below `2³¹`: the lemmas that read a
count take that bound. `references` sums the counts' sizes; one call moves it by at most one, so a
run of fewer than `2³¹` calls never wraps a count.
-/

namespace AionR

/-- `NULL_RLP`, the RLP of the empty string. -/
def nullRlp : Bytes := [0x80]

/-- `BLAKE2B_NULL_RLP`, the blake2b hash of `NULL_RLP`. -/
def blake2bNullRlp : Vector UInt8 32 :=
  #v[0x45, 0xb0, 0xcf, 0xc2, 0x20, 0xce, 0xec, 0x5b, 0x7c, 0x1c, 0x62, 0xc4, 0xd4, 0x19, 0x3d, 0x38,
    0xe4, 0xeb, 0xa4, 0x8e, 0x88, 0x15, 0x72, 0x9c, 0xe7, 0x5f, 0x9c, 0x0a, 0xb0, 0xe4, 0xc1, 0xc0]

/-- `MemoryDB`: values with their reference counts. -/
structure MemoryDB where
  data : AList (fun _ : Vector UInt8 32 ↦ Bytes × Int32)

namespace MemoryDB

/-- `new`. -/
def new : MemoryDB := ⟨∅⟩

/-- `raw`: the stored value and count, which are useful only when the count is positive. -/
def raw (m : MemoryDB) (key : Vector UInt8 32) : Option (Bytes × Int32) :=
  if key = blake2bNullRlp then some (nullRlp, 1) else m.data.lookup key

/-- `remove_and_purge`: drop a reference, and the entry with its last one, returning the value
it held then. -/
def removeAndPurge (m : MemoryDB) (key : Vector UInt8 32) : MemoryDB × Option Bytes :=
  if key = blake2bNullRlp then (m, none)
  else
    match m.data.lookup key with
    | some (value, rc) =>
      if rc = 1 then (⟨m.data.erase key⟩, some value)
      else (⟨m.data.insert key (value, rc - 1)⟩, none)
    | none => (⟨m.data.insert key ([], -1)⟩, none)

/-- `HashStore::get`: a value with a positive count. -/
def get (m : MemoryDB) (key : Vector UInt8 32) : Option Bytes :=
  if key = blake2bNullRlp then some nullRlp
  else
    match m.data.lookup key with
    | some (d, rc) => if 0 < rc then some d else none
    | none => none

/-- `contains`. -/
def contains (m : MemoryDB) (key : Vector UInt8 32) : Bool :=
  if key = blake2bNullRlp then true
  else
    match m.data.lookup key with
    | some (_, x) => decide (0 < x)
    | none => false

/-- `emplace`: add a reference; the value replaces the stored one only while its count is not
positive. -/
def emplace (m : MemoryDB) (key : Vector UInt8 32) (value : Bytes) : MemoryDB :=
  if value = nullRlp then m
  else
    match m.data.lookup key with
    | some (oldValue, rc) =>
      ⟨m.data.insert key (if -0x80000000 ≤ rc ∧ rc ≤ 0 then value else oldValue, rc + 1)⟩
    | none => ⟨m.data.insert key (value, 1)⟩

/-- `insert`: `emplace` under the value's hash, which it returns. The source repeats the body of
`emplace` here. -/
def insert (blake2b : Bytes → Vector UInt8 32) (m : MemoryDB) (value : Bytes) :
    MemoryDB × Vector UInt8 32 :=
  if value = nullRlp then (m, blake2bNullRlp) else (m.emplace (blake2b value) value, blake2b value)

/-- `remove`: drop a reference, recording a negative count for a key that is not there. -/
def remove (m : MemoryDB) (key : Vector UInt8 32) : MemoryDB :=
  if key = blake2bNullRlp then m
  else
    match m.data.lookup key with
    | some (value, rc) => ⟨m.data.insert key (value, rc - 1)⟩
    | none => ⟨m.data.insert key ([], -1)⟩

/-- The total length of the stored values. -/
def size (m : MemoryDB) : ℕ := (m.data.entries.map fun e ↦ e.2.1.length).sum

/-- The reference count of a key: its stored count, and zero for a key that is not there. -/
def count (m : MemoryDB) (key : Vector UInt8 32) : Int32 := ((m.data.lookup key).map Prod.snd).getD 0

/-- The sizes of the stored counts, summed. -/
def references (m : MemoryDB) : ℕ := (m.data.entries.map fun e ↦ e.2.2.toInt.natAbs).sum

/-- The guard of `insert` and `emplace`: its lower bound is `i32::MIN`, which every count meets. -/
theorem emplace_guard_iff (rc : Int32) : (-0x80000000 ≤ rc ∧ rc ≤ 0) ↔ ¬0 < rc := by
  have hmin : (-0x80000000 : Int32) = Int32.minValue := by decide
  rw [Int32.not_lt, hmin]
  exact and_iff_right (Int32.minValue_le rc)

@[simp] theorem emplace_nullRlp (m : MemoryDB) (key : Vector UInt8 32) :
    m.emplace key nullRlp = m := if_pos rfl

theorem lookup_emplace_ne (m : MemoryDB) {key key' : Vector UInt8 32} (value : Bytes)
    (h : key' ≠ key) : (m.emplace key value).data.lookup key' = m.data.lookup key' := by
  unfold emplace
  split
  · rfl
  · split <;> exact AList.lookup_insert_ne h

theorem lookup_remove_ne (m : MemoryDB) {key key' : Vector UInt8 32} (h : key' ≠ key) :
    (m.remove key).data.lookup key' = m.data.lookup key' := by
  unfold remove
  split
  · rfl
  · split <;> exact AList.lookup_insert_ne h

/-- What `emplace` stores at its own key: the value under a count of one over nothing, else one
more than the old count, with the value only where that count was not positive. -/
theorem lookup_emplace_self_eq_some {m : MemoryDB} {key : Vector UInt8 32} {value d : Bytes}
    {rc : Int32} (hnull : value ≠ nullRlp)
    (hk : (m.emplace key value).data.lookup key = some (d, rc)) :
    (m.data.lookup key = none ∧ d = value ∧ rc = 1) ∨
      ∃ (old : Bytes) (rc₀ : Int32), m.data.lookup key = some (old, rc₀) ∧ rc = rc₀ + 1 ∧
        d = if -0x80000000 ≤ rc₀ ∧ rc₀ ≤ 0 then value else old := by
  simp only [emplace, if_neg hnull] at hk
  split at hk
  · next old rc₀ hold =>
    rw [AList.lookup_insert, Option.some.injEq, Prod.mk.injEq] at hk
    exact .inr ⟨old, rc₀, hold, hk.2.symm, hk.1.symm⟩
  · next hnone =>
    rw [AList.lookup_insert, Option.some.injEq, Prod.mk.injEq] at hk
    exact .inl ⟨hnone, hk.1.symm, hk.2.symm⟩

/-- What `remove` stores at its own key: the old value under one less, or an empty value under
`-1` over nothing; at the null hash nothing changes. -/
theorem lookup_remove_self_eq_some {m : MemoryDB} {key : Vector UInt8 32} {d : Bytes}
    {rc : Int32} (hk : (m.remove key).data.lookup key = some (d, rc)) :
    m.data.lookup key = some (d, rc) ∨
      (∃ rc₀ : Int32, m.data.lookup key = some (d, rc₀) ∧ rc = rc₀ - 1) ∨ (d = [] ∧ rc = -1) := by
  unfold remove at hk
  split at hk
  · exact .inl hk
  split at hk
  · next value rc₀ hold =>
    rw [AList.lookup_insert, Option.some.injEq, Prod.mk.injEq] at hk
    obtain ⟨rfl, rfl⟩ := hk
    exact .inr (.inl ⟨rc₀, hold, rfl⟩)
  · rw [AList.lookup_insert, Option.some.injEq, Prod.mk.injEq] at hk
    exact .inr (.inr ⟨hk.1.symm, hk.2.symm⟩)

theorem size_insert (m : MemoryDB) (key : Vector UInt8 32) (e : Bytes × Int32) :
    (⟨m.data.insert key e⟩ : MemoryDB).size =
      e.1.length + (⟨m.data.erase key⟩ : MemoryDB).size :=
  sum_entries_insert _ m.data key e

theorem size_of_lookup (m : MemoryDB) {key : Vector UInt8 32} {e : Bytes × Int32}
    (h : m.data.lookup key = some e) :
    m.size = e.1.length + (⟨m.data.erase key⟩ : MemoryDB).size :=
  sum_entries_of_lookup _ h

/-! ## References -/

theorem references_insert (m : MemoryDB) (key : Vector UInt8 32) (e : Bytes × Int32) :
    (⟨m.data.insert key e⟩ : MemoryDB).references =
      e.2.toInt.natAbs + (⟨m.data.erase key⟩ : MemoryDB).references :=
  sum_entries_insert _ m.data key e

theorem references_of_lookup (m : MemoryDB) {key : Vector UInt8 32} {e : Bytes × Int32}
    (h : m.data.lookup key = some e) :
    m.references = e.2.toInt.natAbs + (⟨m.data.erase key⟩ : MemoryDB).references :=
  sum_entries_of_lookup _ h

theorem natAbs_count_le_references (m : MemoryDB) (key : Vector UInt8 32) :
    (m.count key).toInt.natAbs ≤ m.references := by
  cases h : m.data.lookup key with
  | none => simp [count, h]
  | some e =>
    rw [references_of_lookup m h, count, h, Option.map_some, Option.getD_some]
    exact Nat.le_add_right _ _

/-- While fewer than `2³¹` references are held, no count is `i32::MIN`. -/
theorem count_ne_minValue (m : MemoryDB) (h : m.references < 2 ^ 31) (key : Vector UInt8 32) :
    m.count key ≠ Int32.minValue :=
  Int32.ne_minValue_of_natAbs_lt ((natAbs_count_le_references m key).trans_lt h)

/-- Storing under `key` a count at most one step from its count: the references grow by at most
one. -/
theorem references_insert_le (m : MemoryDB) (key : Vector UInt8 32) (e : Bytes × Int32)
    (he : e.2.toInt.natAbs ≤ (m.count key).toInt.natAbs + 1) :
    (⟨m.data.insert key e⟩ : MemoryDB).references ≤ m.references + 1 := by
  rw [references_insert]
  cases h : m.data.lookup key with
  | none =>
    rw [count, h, Option.map_none, Option.getD_none, Int32.toInt_zero] at he
    rw [erase_eq_self_of_lookup_eq_none m.data h]
    change _ + m.references ≤ _
    omega
  | some e' =>
    rw [count, h, Option.map_some, Option.getD_some] at he
    rw [references_of_lookup m h]
    omega

theorem references_emplace_le (m : MemoryDB) (key : Vector UInt8 32) (value : Bytes) :
    (m.emplace key value).references ≤ m.references + 1 := by
  unfold MemoryDB.emplace
  split
  · exact Nat.le_succ _
  split
  · next old rc hold =>
    refine references_insert_le m key _ ?_
    rw [count, hold, Option.map_some, Option.getD_some]
    exact Int32.natAbs_toInt_add_one_le rc
  · refine references_insert_le m key _ ?_
    exact Nat.le_add_left _ _

theorem references_remove_le (m : MemoryDB) (key : Vector UInt8 32) :
    (m.remove key).references ≤ m.references + 1 := by
  unfold MemoryDB.remove
  split
  · exact Nat.le_succ _
  split
  · next value rc hold =>
    refine references_insert_le m key _ ?_
    rw [count, hold, Option.map_some, Option.getD_some]
    exact Int32.natAbs_toInt_sub_one_le rc
  · refine references_insert_le m key _ ?_
    exact Nat.le_add_left _ _

theorem insert_references_le (blake2b : Bytes → Vector UInt8 32) (m : MemoryDB) (value : Bytes) :
    (m.insert blake2b value).1.references ≤ m.references + 1 := by
  unfold MemoryDB.insert
  split
  · exact Nat.le_succ _
  · exact references_emplace_le m _ value

/-! ## Values with a positive count -/

/-- Every value stored with a positive count satisfies `P`. -/
def LiveValues (m : MemoryDB) (P : Vector UInt8 32 → Bytes → Prop) : Prop :=
  ∀ k v rc, m.data.lookup k = some (v, rc) → 0 < rc → P k v

section LiveValues

variable {P : Vector UInt8 32 → Bytes → Prop}

theorem liveValues_new : new.LiveValues P := by
  intro k v rc h
  simp [new] at h

/-- `emplace` stores a live value only when it stores its own argument, or keeps one. -/
theorem LiveValues.emplace {m : MemoryDB} (h : m.LiveValues P) (key : Vector UInt8 32)
    {value : Bytes} (hv : value ≠ nullRlp → P key value) : (m.emplace key value).LiveValues P := by
  intro k v rc hk hrc
  by_cases hkey : k = key
  · subst hkey
    by_cases hnull : value = nullRlp
    · rw [hnull, emplace_nullRlp] at hk
      exact h k v rc hk hrc
    rcases lookup_emplace_self_eq_some hnull hk with ⟨-, rfl, -⟩ | ⟨old, rc₀, hold, rfl, rfl⟩
    · exact hv hnull
    · split
      · exact hv hnull
      · next hpos => exact h k old rc₀ hold (not_not.mp ((emplace_guard_iff rc₀).not.mp hpos))
  · rw [lookup_emplace_ne m value hkey] at hk
    exact h k v rc hk hrc

/-- `remove` lowers a count or records a negative one: no value comes alive, unless the count
wraps from `i32::MIN`. -/
theorem LiveValues.remove {m : MemoryDB} (h : m.LiveValues P) (key : Vector UInt8 32)
    (hmin : m.count key ≠ Int32.minValue) : (m.remove key).LiveValues P := by
  intro k v rc hk hrc
  by_cases hkey : k = key
  · subst hkey
    rcases lookup_remove_self_eq_some hk with hold | ⟨rc₀, hold, rfl⟩ | ⟨-, rfl⟩
    · exact h k v rc hold hrc
    · have hne : rc₀ ≠ Int32.minValue := by
        rwa [count, hold, Option.map_some, Option.getD_some] at hmin
      refine h k v rc₀ hold ?_
      rw [Int32.lt_iff_toInt_lt, Int32.toInt_sub_one_of_ne_minValue hne] at hrc
      rw [Int32.lt_iff_toInt_lt]
      omega
    · -- an empty value under `-1` is not live
      exact absurd hrc (by decide)
  · rw [lookup_remove_ne m hkey] at hk
    exact h k v rc hk hrc

theorem LiveValues.insert {m : MemoryDB} (h : m.LiveValues P) (blake2b : Bytes → Vector UInt8 32)
    {value : Bytes} (hv : value ≠ nullRlp → P (blake2b value) value) :
    (m.insert blake2b value).1.LiveValues P := by
  unfold MemoryDB.insert
  split
  · exact h
  · exact h.emplace _ hv

end LiveValues

/-! ## Representation of counted insertions -/

/-- `m` holds `val k` under the count `cnt k` for every key with a positive count, and nothing
under the others. -/
def Represents (m : MemoryDB) (val : Vector UInt8 32 → Bytes) (cnt : Vector UInt8 32 → ℕ) :
    Prop :=
  ∀ k, m.data.lookup k = if cnt k = 0 then none else some (val k, Int32.ofNat (cnt k))

section Represents

variable {m : MemoryDB} {val : Vector UInt8 32 → Bytes} {cnt : Vector UInt8 32 → ℕ}

theorem represents_new (val : Vector UInt8 32 → Bytes) : new.Represents val 0 := by
  intro k
  simp [new]

/-- Two databases that represent the same counts hold the same entries. -/
theorem Represents.lookup_eq {m' : MemoryDB} (h : m.Represents val cnt) (h' : m'.Represents val cnt)
    (k : Vector UInt8 32) : m.data.lookup k = m'.data.lookup k := by
  rw [h k, h' k]

theorem Represents.contains (h : m.Represents val cnt) {key : Vector UInt8 32}
    (hkey : key ≠ blake2bNullRlp) (hb : cnt key < 2 ^ 31) :
    m.contains key = decide (0 < cnt key) := by
  rw [MemoryDB.contains, if_neg hkey, h key]
  by_cases h0 : cnt key = 0
  · simp [h0]
  · rw [if_neg h0]
    exact decide_eq_decide.mpr (Int32.ofNat_pos_iff hb)

/-- An insertion of the represented value adds one reference. -/
theorem Represents.emplace (h : m.Represents val cnt) (key : Vector UInt8 32) {value : Bytes}
    (hnull : value ≠ nullRlp) (hval : value = val key) :
    (m.emplace key value).Represents val fun k ↦ cnt k + if key = k then 1 else 0 := by
  intro k
  dsimp only
  by_cases hkey : k = key
  · subst hkey
    have hk := h k
    simp only [↓reduceIte, Nat.add_one_ne_zero, MemoryDB.emplace, if_neg hnull]
    by_cases h0 : cnt k = 0
    · rw [if_pos h0] at hk
      rw [hk, AList.lookup_insert, h0, hval]
      rfl
    · rw [if_neg h0] at hk
      -- the value stored is the represented one already, whichever one the guard keeps
      rw [hk, AList.lookup_insert, ← hval, ite_self, Int32.ofNat_add_one]
  · simp only [lookup_emplace_ne m value hkey, if_neg (Ne.symm hkey), Nat.add_zero]
    exact h k

/-- The size grows by the value's length exactly when the key was not there. -/
theorem Represents.size_emplace (h : m.Represents val cnt) (key : Vector UInt8 32) {value : Bytes}
    (hnull : value ≠ nullRlp) (hkey : key ≠ blake2bNullRlp) (hb : cnt key < 2 ^ 31) :
    (m.emplace key value).size = if m.contains key then m.size else m.size + value.length := by
  have hk := h key
  rw [h.contains hkey hb]
  simp only [MemoryDB.emplace, if_neg hnull]
  by_cases h0 : cnt key = 0
  · rw [if_pos h0] at hk
    have hc : decide (0 < cnt key) = false := decide_eq_false (by omega)
    rw [hk, size_insert, erase_eq_self_of_lookup_eq_none m.data hk, hc]
    exact Nat.add_comm _ _
  · rw [if_neg h0] at hk
    have hpos : ¬(-0x80000000 ≤ Int32.ofNat (cnt key) ∧ Int32.ofNat (cnt key) ≤ 0) :=
      (emplace_guard_iff _).not.mpr (not_not_intro ((Int32.ofNat_pos_iff hb).mpr (by omega)))
    have hc : decide (0 < cnt key) = true := decide_eq_true (by omega)
    rw [hk, size_insert, size_of_lookup m hk, if_neg hpos, hc, if_pos rfl]

/-- Purging a key that is there drops one reference; the last one takes the entry, and its value,
with it. -/
theorem Represents.removeAndPurge (h : m.Represents val cnt) {key : Vector UInt8 32}
    (hkey : key ≠ blake2bNullRlp) (hpos : 0 < cnt key) (hb : cnt key < 2 ^ 31) :
    (m.removeAndPurge key).1.Represents val (fun k ↦ cnt k - if key = k then 1 else 0) ∧
      (m.removeAndPurge key).2 = (if cnt key = 1 then some (val key) else none) ∧
      (m.removeAndPurge key).1.size + ((m.removeAndPurge key).2.map List.length).getD 0 =
        m.size := by
  have hk := h key
  rw [if_neg (Nat.pos_iff_ne_zero.mp hpos)] at hk
  have hsize := size_of_lookup m hk
  by_cases h1 : cnt key = 1
  · -- the last reference: the entry goes
    have hrm : m.removeAndPurge key = (⟨m.data.erase key⟩, some (val key)) := by
      have hrc : Int32.ofNat (cnt key) = 1 := (Int32.ofNat_eq_one_iff hb).mpr h1
      simp only [MemoryDB.removeAndPurge, if_neg hkey, hk, hrc, if_true]
    rw [hrm, if_pos h1]
    refine ⟨fun k ↦ ?_, rfl, ?_⟩
    · dsimp only
      by_cases hkk : k = key
      · subst hkk
        simp [h1]
      · simp only [AList.lookup_erase_ne hkk, if_neg (Ne.symm hkk), Nat.sub_zero]
        exact h k
    · rw [hsize, Option.map_some, Option.getD_some]
      exact Nat.add_comm _ _
  · -- a reference stays: the count goes down by one
    have hrm :
        m.removeAndPurge key = (⟨m.data.insert key (val key, Int32.ofNat (cnt key) - 1)⟩, none) := by
      have hrc : ¬Int32.ofNat (cnt key) = 1 := fun h' ↦ h1 ((Int32.ofNat_eq_one_iff hb).mp h')
      simp only [MemoryDB.removeAndPurge, if_neg hkey, hk, if_neg hrc]
    rw [hrm, if_neg h1]
    refine ⟨fun k ↦ ?_, rfl, ?_⟩
    · dsimp only
      by_cases hkk : k = key
      · subst hkk
        simp only [AList.lookup_insert, ↓reduceIte, if_neg (by omega : cnt k - 1 ≠ 0),
          Int32.ofNat_sub_one hpos]
      · simp only [AList.lookup_insert_ne hkk, if_neg (Ne.symm hkk), Nat.sub_zero]
        exact h k
    · rw [size_insert, hsize, Option.map_none, Option.getD_none, Nat.add_zero]

/-- The size of a represented database is determined by what it represents. -/
theorem Represents.size_eq {m' : MemoryDB} (h : m.Represents val cnt) (h' : m'.Represents val cnt) :
    m.size = m'.size :=
  sum_entries_congr _ (h.lookup_eq h')

end Represents

end MemoryDB

end AionR
