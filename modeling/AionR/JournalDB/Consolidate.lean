import AionR.JournalDB.MemoryDB

/-!
# Consolidating reference-counted databases

`MemoryDB::consolidate` (`src/db/core/src/memorydb.rs`) adds the entries of a second database into
a first: the counts add up, and a value of the second replaces one of the first only where the
first's count is negative. Journal databases fold a commit's overlay into their own this way, so a
run split in two and consolidated should be the run in one piece.

## Main results

Over runs of `insert(v)`, `remove(k)` and `emplace(blake2b(v), v)`:
* `count_run`: each call adds a fixed amount to the count of a key, whatever the database, so the
  count after a run is the sum over its calls, as an `i32`; off `BLAKE2B_NULL_RLP` that is the
  key's insertions and emplacements less its removals (`sum_delta`). Below `2³¹` calls the `i32` is
  that integer (`count_run_new_toInt`); `2³¹` insertions wrap it to `i32::MIN`
  (`count_wraps_at_2pow31_inserts`).
* `count_consolidate`: consolidation adds the counts, so two runs consolidated have the counts, the
  `contains` and the `keys` of one run of both.
* `Tracks val`: every stored value is `val` of its key, or empty under a negative count. Runs keep
  it when their values are `val` of their hashes and no count wraps, and consolidation keeps it; a
  database that keeps it has its `get` determined by its counts.

`consolidate` replaces a value only under a negative count, where `insert` replaces it under a count
that is not positive, so the two agree on `get` only while each key holds one value: the values of
the calls must not share a hash.
-/

namespace AionR

namespace MemoryDB

/-- `keys`: the keys with a nonzero count, with their counts. -/
def keys (m : MemoryDB) : List (Vector UInt8 32 × Int32) :=
  m.data.entries.filterMap fun e ↦ if e.2.2 ≠ 0 then some (e.1, e.2.2) else none

/-- One entry of `other` added into `m`: the counts add up, and the value of `other` is taken only
where `m`'s count is negative. -/
def consolidateEntry (m : MemoryDB) (key : Vector UInt8 32) (entry : Bytes × Int32) : MemoryDB :=
  match m.data.lookup key with
  | some (value, rc) => ⟨m.data.insert key (if rc < 0 then entry.1 else value, rc + entry.2)⟩
  | none => ⟨m.data.insert key entry⟩

/-- `consolidate`: every entry of `other`, in the order `drain` yields them, added into `m`. -/
def consolidate (m other : MemoryDB) : MemoryDB :=
  other.data.entries.foldl (fun acc e ↦ acc.consolidateEntry e.1 e.2) m

/-! ## Runs of calls -/

/-- The calls of a run: `insert(v)`, `remove(k)`, and `emplace(k, v)` under the value's own hash
`k = blake2b(v)`. -/
inductive Op
  | insert (value : Bytes)
  | remove (key : Vector UInt8 32)
  | emplace (value : Bytes)
  deriving DecidableEq, Repr

variable (blake2b : Bytes → Vector UInt8 32)

/-- One call on `m`. -/
def Op.apply (m : MemoryDB) : Op → MemoryDB
  | .insert value => (m.insert blake2b value).1
  | .remove key => m.remove key
  | .emplace value => m.emplace (blake2b value) value

/-- The calls one after the other. -/
def run (m : MemoryDB) (ops : List Op) : MemoryDB := ops.foldl (Op.apply blake2b) m

/-- The value a call stores, if any. -/
def Op.value? : Op → Option Bytes
  | .insert value | .emplace value => some value
  | .remove _ => none

/-- An insertion or an emplacement under `key`. -/
def Op.adds (key : Vector UInt8 32) : Op → Bool
  | .insert value | .emplace value => blake2b value = key
  | .remove _ => false

/-- A removal of `key`. -/
def Op.removes (key : Vector UInt8 32) : Op → Bool
  | .remove k => k = key
  | _ => false

/-- What a call adds to the count of `key`: `NULL_RLP` is never stored, and `BLAKE2B_NULL_RLP` is
never removed. -/
def Op.delta (key : Vector UInt8 32) : Op → ℤ
  | .insert value | .emplace value => if value ≠ nullRlp ∧ blake2b value = key then 1 else 0
  | .remove k => if k ≠ blake2bNullRlp ∧ k = key then -1 else 0

@[simp] theorem run_nil (m : MemoryDB) : m.run blake2b [] = m := rfl

@[simp] theorem run_cons (m : MemoryDB) (op : Op) (ops : List Op) :
    m.run blake2b (op :: ops) = (op.apply blake2b m).run blake2b ops := rfl

theorem run_append (m : MemoryDB) (A B : List Op) :
    m.run blake2b (A ++ B) = (m.run blake2b A).run blake2b B := List.foldl_append

/-- `insert` is `emplace` under the value's hash, `NULL_RLP` included: `emplace` ignores it too. -/
theorem insert_fst (m : MemoryDB) (value : Bytes) :
    (m.insert blake2b value).1 = m.emplace (blake2b value) value := by
  unfold MemoryDB.insert
  split
  · next h => rw [h, emplace_nullRlp]
  · rfl

/-! ## Counts -/

-- Several proofs below unfold these at once: their equation lemmas are generated here, once.
section
attribute [local simp] MemoryDB.count
end

theorem count_emplace (m : MemoryDB) (key : Vector UInt8 32) (value : Bytes) (k : Vector UInt8 32) :
    (m.emplace key value).count k = m.count k + if value ≠ nullRlp ∧ key = k then 1 else 0 := by
  by_cases hv : value = nullRlp
  · rw [hv, emplace_nullRlp, if_neg (fun h ↦ h.1 rfl), Int32.add_zero]
  by_cases hk : key = k
  · subst hk
    rw [if_pos ⟨hv, rfl⟩]
    unfold count MemoryDB.emplace
    rw [if_neg hv]
    split
    · next hlook => simp [hlook]
    · next hlook => simp [hlook]
  · rw [count, lookup_emplace_ne m value (Ne.symm hk), if_neg (fun h ↦ hk h.2), Int32.add_zero]
    rfl

theorem count_remove (m : MemoryDB) (key k : Vector UInt8 32) :
    (m.remove key).count k = m.count k + if key ≠ blake2bNullRlp ∧ key = k then -1 else 0 := by
  by_cases hnull : key = blake2bNullRlp
  · rw [MemoryDB.remove, if_pos hnull, if_neg (fun h ↦ h.1 hnull), Int32.add_zero]
  by_cases hk : key = k
  · subst hk
    rw [if_pos ⟨hnull, rfl⟩]
    unfold count MemoryDB.remove
    rw [if_neg hnull]
    split
    · next hlook => simp [hlook, Int32.sub_eq_add_neg]
    · next hlook => simp [hlook]
  · rw [count, lookup_remove_ne m (Ne.symm hk), if_neg (fun h ↦ hk h.2), Int32.add_zero]
    rfl

/-- The step lemma: a call adds its `delta`, whatever the database. -/
theorem count_apply (m : MemoryDB) (op : Op) (k : Vector UInt8 32) :
    (op.apply blake2b m).count k = m.count k + Int32.ofInt (op.delta blake2b k) := by
  cases op with
  | insert value =>
    rw [Op.apply, insert_fst, count_emplace, Op.delta]
    split <;> rfl
  | remove key =>
    rw [Op.apply, count_remove, Op.delta]
    split <;> rfl
  | emplace value =>
    rw [Op.apply, count_emplace, Op.delta]
    split <;> rfl

/-- The run lemma: a run adds the `delta`s of its calls, as an `i32`. -/
theorem count_run (k : Vector UInt8 32) :
    ∀ (m : MemoryDB) (ops : List Op),
      (m.run blake2b ops).count k = m.count k + Int32.ofInt (ops.map (Op.delta blake2b k)).sum
  | m, [] => (Int32.add_zero _).symm
  | m, op :: ops => by
    rw [run_cons, count_run k _ ops, count_apply, List.map_cons, List.sum_cons, Int32.ofInt_add,
      Int32.add_assoc]

theorem natAbs_delta_le (k : Vector UInt8 32) (op : Op) : (op.delta blake2b k).natAbs ≤ 1 := by
  cases op <;> simp only [Op.delta] <;> split <;> decide

theorem natAbs_sum_delta_le (k : Vector UInt8 32) :
    ∀ ops : List Op, ((ops.map (Op.delta blake2b k)).sum).natAbs ≤ ops.length
  | [] => Nat.zero_le _
  | op :: ops => by
    rw [List.map_cons, List.sum_cons, List.length_cons]
    have hop := natAbs_delta_le blake2b k op
    have hops := natAbs_sum_delta_le k ops
    omega

/-- A call moves a count by at most one, wrap or no wrap. -/
theorem natAbs_count_apply_le (m : MemoryDB) (op : Op) (k : Vector UInt8 32) :
    ((op.apply blake2b m).count k).toInt.natAbs ≤ (m.count k).toInt.natAbs + 1 := by
  rw [count_apply]
  exact Int32.natAbs_toInt_add_le _ _ (natAbs_delta_le blake2b k op)

/-- From a fresh database, fewer than `2³¹` calls leave every count the integer sum of their
`delta`s. -/
theorem count_run_new_toInt {ops : List Op} (h : ops.length < 2 ^ 31) (k : Vector UInt8 32) :
    ((new.run blake2b ops).count k).toInt = (ops.map (Op.delta blake2b k)).sum := by
  rw [count_run, show new.count k = 0 from rfl, Int32.zero_add]
  exact Int32.toInt_ofInt_of_natAbs_lt ((natAbs_sum_delta_le blake2b k ops).trans_lt h)

/-- Off `BLAKE2B_NULL_RLP`, a call's `delta` counts it as an insertion or a removal of the key. This
uses that `NULL_RLP` hashes to `BLAKE2B_NULL_RLP`, which the skipped `NULL_RLP` calls rely on. -/
theorem delta_eq (hnull : blake2b nullRlp = blake2bNullRlp) {k : Vector UInt8 32}
    (hk : k ≠ blake2bNullRlp) (op : Op) :
    op.delta blake2b k = (if op.adds blake2b k then 1 else 0) - if op.removes k then 1 else 0 := by
  -- an insertion of `NULL_RLP` would be one under `BLAKE2B_NULL_RLP`
  have hins : ∀ value : Bytes, (if value ≠ nullRlp ∧ blake2b value = k then (1 : ℤ) else 0) =
      if blake2b value = k then 1 else 0 := by
    intro value
    by_cases hv : value = nullRlp
    · subst hv
      rw [if_neg (fun h ↦ h.1 rfl), if_neg (by rw [hnull]; exact Ne.symm hk)]
    · simp only [ne_eq, hv, not_false_eq_true, true_and]
  cases op with
  | insert value => simp [Op.delta, Op.adds, Op.removes, hins]
  | emplace value => simp [Op.delta, Op.adds, Op.removes, hins]
  | remove key =>
    by_cases hkey : key = k
    · subst hkey
      simp [Op.delta, Op.adds, Op.removes, hk]
    · simp [Op.delta, Op.adds, Op.removes, hkey]

theorem sum_delta (hnull : blake2b nullRlp = blake2bNullRlp) {k : Vector UInt8 32}
    (hk : k ≠ blake2bNullRlp) :
    ∀ ops : List Op, (ops.map (Op.delta blake2b k)).sum =
      (ops.countP (Op.adds blake2b k) : ℤ) - ops.countP (Op.removes k)
  | [] => rfl
  | op :: ops => by
    rw [List.map_cons, List.sum_cons, sum_delta hnull hk ops, delta_eq blake2b hnull hk,
      List.countP_cons, List.countP_cons]
    push_cast
    omega

/-! ## Consolidation adds the counts -/

theorem count_consolidateEntry (m : MemoryDB) (key : Vector UInt8 32) (entry : Bytes × Int32)
    (k : Vector UInt8 32) :
    (m.consolidateEntry key entry).count k = m.count k + if key = k then entry.2 else 0 := by
  by_cases hk : key = k
  · subst hk
    unfold consolidateEntry count
    split
    · next hlook => simp [hlook]
    · next hlook => simp [hlook]
  · unfold consolidateEntry count
    rw [if_neg hk, Int32.add_zero]
    split <;> rw [AList.lookup_insert_ne (Ne.symm hk)]

/-- Adding in a list of entries with distinct keys adds, at each key, the count listed there. -/
theorem count_foldl_consolidateEntry (k : Vector UInt8 32) :
    ∀ (m : MemoryDB) (l : List (Sigma fun _ : Vector UInt8 32 ↦ Bytes × Int32)), l.NodupKeys →
      (l.foldl (fun acc e ↦ acc.consolidateEntry e.1 e.2) m).count k =
        m.count k + ((l.dlookup k).map Prod.snd).getD 0
  | m, [], _ => by rw [List.foldl_nil, List.dlookup_nil, Option.map_none, Option.getD_none,
      Int32.add_zero]
  | m, ⟨key, entry⟩ :: l, hl => by
    obtain ⟨hkey, hl⟩ := List.nodupKeys_cons.mp hl
    rw [List.foldl_cons, count_foldl_consolidateEntry k _ l hl, count_consolidateEntry]
    by_cases hk : key = k
    · -- the key is listed here, and nowhere further on
      subst hk
      rw [if_pos rfl, List.dlookup_cons_eq, List.dlookup_eq_none.mpr hkey]
      simp
    · rw [if_neg hk, Int32.add_zero, List.dlookup_cons_ne _ _ (Ne.symm hk)]

theorem count_consolidate (m other : MemoryDB) (k : Vector UInt8 32) :
    (m.consolidate other).count k = m.count k + other.count k :=
  count_foldl_consolidateEntry k m _ other.data.nodupKeys

/-! ## What the counts determine -/

theorem contains_eq_count {m : MemoryDB} {k : Vector UInt8 32} (hk : k ≠ blake2bNullRlp) :
    m.contains k = decide (0 < m.count k) := by
  unfold MemoryDB.contains count
  rw [if_neg hk]
  split <;> simp [*]

theorem mem_keys {m : MemoryDB} {k : Vector UInt8 32} {r : Int32} :
    (k, r) ∈ m.keys ↔ m.count k = r ∧ r ≠ 0 := by
  unfold keys count
  rw [List.mem_filterMap]
  constructor
  · rintro ⟨⟨key, d, rc⟩, hmem, hsome⟩
    by_cases h0 : rc = 0
    · simp [h0] at hsome
    · simp only [ne_eq, h0, not_false_eq_true, if_true, Option.some.injEq, Prod.mk.injEq] at hsome
      obtain ⟨rfl, rfl⟩ := hsome
      rw [AList.mem_lookup_iff.mpr hmem]
      exact ⟨rfl, h0⟩
  · rintro ⟨hcount, h0⟩
    cases hlook : m.data.lookup k with
    | none => rw [hlook] at hcount; exact absurd hcount.symm h0
    | some e =>
      rw [hlook] at hcount
      refine ⟨⟨k, e⟩, AList.mem_lookup_iff.mp hlook, ?_⟩
      simp only [Option.map_some, Option.getD_some] at hcount
      simp [hcount, h0]

theorem nodup_keys (m : MemoryDB) : m.keys.Nodup := by
  -- two listed pairs with one key come from one entry
  refine List.Nodup.of_map Prod.fst ?_
  have hsub : (m.keys.map Prod.fst).Sublist m.data.keys := by
    unfold keys AList.keys List.keys
    rw [List.map_filterMap]
    induction m.data.entries with
    | nil => exact List.Sublist.slnil
    | cons e l ih =>
      rw [List.filterMap_cons, List.map_cons]
      split_ifs
      · exact ih.cons_cons _
      · exact ih.cons _
  exact hsub.nodup m.data.nodupKeys

/-- Two databases with the same counts list the same `keys`, in some order. -/
theorem keys_perm_of_count {m m' : MemoryDB} (h : ∀ k, m.count k = m'.count k) :
    m.keys.Perm m'.keys := by
  refine (List.perm_ext_iff_of_nodup (nodup_keys m) (nodup_keys m')).mpr ?_
  rintro ⟨k, r⟩
  rw [mem_keys, mem_keys, h k]

/-! ## Stored values -/

/-- Every value stored under a key is `val` of the key, or empty under a negative count, as
`remove` records a key it does not hold. -/
def Tracks (val : Vector UInt8 32 → Bytes) (m : MemoryDB) : Prop :=
  ∀ k d rc, m.data.lookup k = some (d, rc) → d = val k ∨ (d = [] ∧ rc < 0)

section Tracks

variable {val : Vector UInt8 32 → Bytes}

theorem tracks_new : new.Tracks val := by
  intro k d rc h
  simp [new] at h

/-- `emplace` stores its value only under a count that was not positive, and otherwise keeps one
that is `val` of the key. -/
theorem Tracks.emplace {m : MemoryDB} (h : m.Tracks val) (key : Vector UInt8 32) {value : Bytes}
    (hv : value ≠ nullRlp → value = val key) : (m.emplace key value).Tracks val := by
  intro k d rc hk
  by_cases hkey : k = key
  · subst hkey
    by_cases hnull : value = nullRlp
    · rw [hnull, emplace_nullRlp] at hk
      exact h k d rc hk
    rcases lookup_emplace_self_eq_some hnull hk with ⟨-, rfl, -⟩ | ⟨old, rc₀, hold, rfl, rfl⟩
    · exact .inl (hv hnull)
    · split
      · exact .inl (hv hnull)
      · next hpos =>
        -- the count was positive, so the value kept is not an empty one under a negative count
        rcases h k old rc₀ hold with hval | ⟨-, hneg⟩
        · exact .inl hval
        · exact absurd (not_not.mp ((emplace_guard_iff rc₀).not.mp hpos)) (Int32.lt_asymm hneg)
  · rw [lookup_emplace_ne m value hkey] at hk
    exact h k d rc hk

/-- `remove` keeps the value and lowers the count, or records an empty value under `-1`; a
negative count stays negative unless it is `i32::MIN`. -/
theorem Tracks.remove {m : MemoryDB} (h : m.Tracks val) (key : Vector UInt8 32)
    (hmin : m.count key ≠ Int32.minValue) : (m.remove key).Tracks val := by
  intro k d rc hk
  by_cases hkey : k = key
  · subst hkey
    rcases lookup_remove_self_eq_some hk with hold | ⟨rc₀, hold, rfl⟩ | ⟨rfl, rfl⟩
    · exact h k d rc hold
    · rcases h k d rc₀ hold with hval | ⟨hd, hneg⟩
      · exact .inl hval
      · have hne : rc₀ ≠ Int32.minValue := by
          rwa [count, hold, Option.map_some, Option.getD_some] at hmin
        refine .inr ⟨hd, ?_⟩
        rw [Int32.lt_iff_toInt_lt, Int32.toInt_sub_one_of_ne_minValue hne]
        rw [Int32.lt_iff_toInt_lt] at hneg
        omega
    · exact .inr ⟨rfl, by decide⟩
  · rw [lookup_remove_ne m hkey] at hk
    exact h k d rc hk

/-- A call whose value is `val` of its hash keeps `Tracks val`, where no count is `i32::MIN`. -/
theorem Tracks.apply {m : MemoryDB} (h : m.Tracks val) {op : Op}
    (hop : ∀ v, op.value? = some v → v ≠ nullRlp → v = val (blake2b v))
    (hmin : ∀ k, m.count k ≠ Int32.minValue) : (op.apply blake2b m).Tracks val := by
  cases op with
  | insert value =>
    rw [Op.apply, insert_fst]
    exact h.emplace _ (hop value rfl)
  | remove key => exact h.remove key (hmin key)
  | emplace value => exact h.emplace _ (hop value rfl)

/-- A run whose values are `val` of their hashes keeps `Tracks val` while no count can wrap: each
call moves a count by at most one. -/
theorem Tracks.run : ∀ {m : MemoryDB} {ops : List Op}, m.Tracks val →
    (∀ op ∈ ops, ∀ v, op.value? = some v → v ≠ nullRlp → v = val (blake2b v)) →
    (∀ k, (m.count k).toInt.natAbs + ops.length < 2 ^ 31) → (m.run blake2b ops).Tracks val
  | _, [], h, _, _ => h
  | m, op :: ops, h, hops, hb => by
    rw [run_cons]
    refine Tracks.run (h.apply blake2b (hops op List.mem_cons_self) fun k ↦ ?_)
      (fun op' hop' ↦ hops op' (List.mem_cons_of_mem op hop')) fun k ↦ ?_
    · have := hb k
      rw [List.length_cons] at this
      exact Int32.ne_minValue_of_natAbs_lt (by omega)
    · have := hb k
      have hstep := natAbs_count_apply_le blake2b m op k
      rw [List.length_cons] at this
      omega

/-- Adding in an entry of the kind `Tracks val` allows: the entry's value is taken only over a
negative count, and kept only over a count that was not; two negative counts whose sum does not
pass `i32::MIN` add up to a negative one. -/
theorem Tracks.consolidateEntry {m : MemoryDB} (h : m.Tracks val) (key : Vector UInt8 32)
    {entry : Bytes × Int32} (he : entry.1 = val key ∨ (entry.1 = [] ∧ entry.2 < 0))
    (hb : -2 ^ 31 ≤ (m.count key).toInt + entry.2.toInt) :
    (m.consolidateEntry key entry).Tracks val := by
  intro k d rc hk
  by_cases hkey : k = key
  · subst hkey
    unfold MemoryDB.consolidateEntry at hk
    split at hk
    · next value rc₀ hold =>
      rw [AList.lookup_insert, Option.some.injEq, Prod.mk.injEq] at hk
      obtain ⟨rfl, rfl⟩ := hk
      split
      · -- `m`'s count is negative: the entry's value, under the summed count
        next hneg =>
        rcases he with hval | ⟨hd, hlt⟩
        · exact .inl hval
        · refine .inr ⟨hd, ?_⟩
          rw [count, hold, Option.map_some, Option.getD_some] at hb
          dsimp only at hb
          rw [Int32.lt_iff_toInt_lt] at hneg hlt ⊢
          rw [Int32.toInt_add, Int32.toInt_zero] at *
          have hlo := Int32.le_toInt rc₀
          rw [Int.bmod_eq_of_le (by omega) (by omega)]
          omega
      · next hnonneg =>
        rcases h k value rc₀ hold with hval | ⟨-, hneg⟩
        · exact .inl hval
        · exact absurd hneg hnonneg
    · rw [AList.lookup_insert] at hk
      cases hk
      exact he
  · unfold MemoryDB.consolidateEntry at hk
    split at hk <;> rw [AList.lookup_insert_ne hkey] at hk <;> exact h k d rc hk

/-- Adding in entries of distinct keys: each meets the count it finds, which the entries before it
left alone. -/
theorem Tracks.foldl_consolidateEntry :
    ∀ {m : MemoryDB} {l : List (Sigma fun _ : Vector UInt8 32 ↦ Bytes × Int32)}, m.Tracks val →
      l.NodupKeys → (∀ e ∈ l, e.2.1 = val e.1 ∨ (e.2.1 = [] ∧ e.2.2 < 0)) →
      (∀ e ∈ l, -2 ^ 31 ≤ (m.count e.1).toInt + e.2.2.toInt) →
        (l.foldl (fun acc e ↦ acc.consolidateEntry e.1 e.2) m).Tracks val
  | _, [], h, _, _, _ => h
  | m, e :: l, h, hnd, hl, hb => by
    obtain ⟨hkey, hnd⟩ := List.nodupKeys_cons.mp hnd
    rw [List.foldl_cons]
    refine Tracks.foldl_consolidateEntry
      (h.consolidateEntry e.1 (hl e List.mem_cons_self) (hb e List.mem_cons_self)) hnd
      (fun e' he' ↦ hl e' (List.mem_cons_of_mem e he')) fun e' he' ↦ ?_
    have hne : e.1 ≠ e'.1 := fun heq ↦ hkey (heq ▸ List.mem_keys_of_mem he')
    rw [count_consolidateEntry, if_neg hne, Int32.add_zero]
    exact hb e' (List.mem_cons_of_mem e he')

theorem Tracks.consolidate {m other : MemoryDB} (h : m.Tracks val) (h' : other.Tracks val)
    (hb : ∀ k, -2 ^ 31 ≤ (m.count k).toInt + (other.count k).toInt) :
    (m.consolidate other).Tracks val := by
  refine h.foldl_consolidateEntry other.data.nodupKeys ?_ ?_
  · -- every entry of `other` is of the kind `Tracks val` allows
    rintro ⟨k, d, rc⟩ he
    exact h' k d rc (AList.mem_lookup_iff.mpr he)
  · rintro ⟨k, d, rc⟩ he
    have hc : other.count k = rc := by
      rw [count, AList.mem_lookup_iff.mpr he]
      rfl
    exact hc ▸ hb k

/-- Under `Tracks val`, `get` reads `val` off a positive count. -/
theorem Tracks.get_eq {m : MemoryDB} (h : m.Tracks val) {k : Vector UInt8 32}
    (hk : k ≠ blake2bNullRlp) : m.get k = if 0 < m.count k then some (val k) else none := by
  unfold MemoryDB.get count
  rw [if_neg hk]
  split
  · next d rc hlook =>
    rw [hlook, Option.map_some, Option.getD_some]
    split
    · next hpos =>
      rcases h k d rc hlook with hval | ⟨-, hneg⟩
      · rw [hval]
      · exact absurd hpos (Int32.lt_asymm hneg)
    · rfl
  · next hlook => rw [hlook, Option.map_none, Option.getD_none, if_neg Int32.lt_irrefl]

end Tracks

/-- The value the calls `ops` store under `key`: the first of their values that hashes to it. -/
def valueOf (ops : List Op) (key : Vector UInt8 32) : Bytes :=
  ((ops.filterMap Op.value?).find? fun v ↦ blake2b v = key).getD []

/-- When no two values of `ops` share a hash, each is the value of its hash. -/
theorem valueOf_hash {ops : List Op}
    (hinj : ∀ v ∈ ops.filterMap Op.value?, ∀ v' ∈ ops.filterMap Op.value?,
      blake2b v = blake2b v' → v = v')
    {v : Bytes} (hv : v ∈ ops.filterMap Op.value?) : valueOf blake2b ops (blake2b v) = v := by
  have hsome : ((ops.filterMap Op.value?).find? fun v' ↦ blake2b v' = blake2b v).isSome :=
    List.find?_isSome.mpr ⟨v, hv, by simp⟩
  obtain ⟨w, hw⟩ := Option.isSome_iff_exists.mp hsome
  have hwv : blake2b w = blake2b v := by simpa using List.find?_some hw
  rw [valueOf, hw, Option.getD_some]
  exact hinj w (List.mem_of_find?_eq_some hw) v hv hwv

/-! ## A run split in two and consolidated -/

/-- Consolidation of the runs of `A` and `B` from fresh databases has, at every key, the count of
the run of `A ++ B`. -/
theorem count_consolidate_run (A B : List Op) (k : Vector UInt8 32) :
    ((new.run blake2b A).consolidate (new.run blake2b B)).count k =
      (new.run blake2b (A ++ B)).count k := by
  rw [count_consolidate, count_run, count_run, count_run, show new.count k = 0 from rfl,
    List.map_append, List.sum_append, Int32.ofInt_add, Int32.zero_add, Int32.zero_add,
    Int32.zero_add]

/-- Two databases with the same counts answer `contains` alike. -/
theorem contains_eq_of_count {m m' : MemoryDB} (h : ∀ k, m.count k = m'.count k)
    (k : Vector UInt8 32) : m.contains k = m'.contains k := by
  by_cases hk : k = blake2bNullRlp
  · simp [MemoryDB.contains, hk]
  · rw [contains_eq_count hk, contains_eq_count hk, h k]

/-- Two databases with the same counts, which both keep `Tracks val`, answer `get` alike. -/
theorem get_eq_of_count {val : Vector UInt8 32 → Bytes} {m m' : MemoryDB}
    (hm : m.Tracks val) (hm' : m'.Tracks val) (h : ∀ k, m.count k = m'.count k)
    (k : Vector UInt8 32) : m.get k = m'.get k := by
  by_cases hk : k = blake2bNullRlp
  · simp [MemoryDB.get, hk]
  · rw [hm.get_eq hk, hm'.get_eq hk, h k]

/-- **Consolidation is the run of both halves.** Running `A` and `B` on fresh databases and
consolidating the second into the first gives the counts, the `contains` and the `keys` of running
`A ++ B` on one. The count of a key other than `BLAKE2B_NULL_RLP` is its insertions and emplacements
less its removals, as an `i32`; with fewer than `2³¹` calls it is that integer, and the two
databases answer `get` alike as well when no two values of the calls share a hash. -/
theorem consolidate_run_agrees (hnull : blake2b nullRlp = blake2bNullRlp) (A B : List Op) :
    (∀ k, ((new.run blake2b A).consolidate (new.run blake2b B)).count k =
      (new.run blake2b (A ++ B)).count k) ∧
    (∀ k, ((new.run blake2b A).consolidate (new.run blake2b B)).contains k =
      (new.run blake2b (A ++ B)).contains k) ∧
    ((new.run blake2b A).consolidate (new.run blake2b B)).keys.Perm
      (new.run blake2b (A ++ B)).keys ∧
    (∀ k, k ≠ blake2bNullRlp → (new.run blake2b (A ++ B)).count k =
      Int32.ofInt (((A ++ B).countP (Op.adds blake2b k) : ℤ) - (A ++ B).countP (Op.removes k))) ∧
    ((A ++ B).length < 2 ^ 31 →
      (∀ k, k ≠ blake2bNullRlp → ((new.run blake2b (A ++ B)).count k).toInt =
        ((A ++ B).countP (Op.adds blake2b k) : ℤ) - (A ++ B).countP (Op.removes k)) ∧
      ((∀ v ∈ (A ++ B).filterMap Op.value?, ∀ v' ∈ (A ++ B).filterMap Op.value?,
          blake2b v = blake2b v' → v = v') →
        ∀ k, ((new.run blake2b A).consolidate (new.run blake2b B)).get k =
          (new.run blake2b (A ++ B)).get k)) := by
  have hcount := count_consolidate_run blake2b A B
  refine ⟨hcount, contains_eq_of_count hcount, keys_perm_of_count hcount, fun k hk ↦ ?_,
    fun hlen ↦ ⟨fun k hk ↦ ?_, fun hinj ↦ ?_⟩⟩
  · rw [count_run, sum_delta blake2b hnull hk, show new.count k = 0 from rfl, Int32.zero_add]
  · rw [count_run_new_toInt blake2b hlen, sum_delta blake2b hnull hk]
  -- both databases store, under each key, the one value of the calls that hashes to it
  have hops : ∀ C ⊆ A ++ B, ∀ op ∈ C, ∀ v, op.value? = some v → v ≠ nullRlp →
      v = valueOf blake2b (A ++ B) (blake2b v) := by
    intro C hC op hop v hv _
    exact (valueOf_hash blake2b hinj (List.mem_filterMap.mpr ⟨op, hC hop, hv⟩)).symm
  rw [List.length_append] at hlen
  have hA := (@tracks_new (valueOf blake2b (A ++ B))).run blake2b
    (hops A (List.subset_append_left A B)) fun _ ↦ by
      rw [show new.count _ = 0 from rfl, Int32.toInt_zero]
      omega
  have hB := (@tracks_new (valueOf blake2b (A ++ B))).run blake2b
    (hops B (List.subset_append_right A B)) fun _ ↦ by
      rw [show new.count _ = 0 from rfl, Int32.toInt_zero]
      omega
  have hAB := (@tracks_new (valueOf blake2b (A ++ B))).run blake2b
    (hops (A ++ B) (List.Subset.refl _)) fun _ ↦ by
      rw [show new.count _ = 0 from rfl, Int32.toInt_zero, List.length_append]
      omega
  -- neither half reaches `2³¹` references, so the negative counts add without wrapping
  refine get_eq_of_count (hA.consolidate hB fun k ↦ ?_) hAB hcount
  rw [count_run_new_toInt blake2b (by omega), count_run_new_toInt blake2b (by omega)]
  have := natAbs_sum_delta_le blake2b k A
  have := natAbs_sum_delta_le blake2b k B
  omega

/-- A hash for the runs below: `NULL_RLP` goes to `BLAKE2B_NULL_RLP` and any other value to its
first 32 bytes, so that short values other than `NULL_RLP` do not collide. -/
def prefixHash (value : Bytes) : Vector UInt8 32 :=
  if value = nullRlp then blake2bNullRlp else Vector.ofFn fun i ↦ value.getD i 0

/-- Insert `[1]` and remove its key: the count is back at zero, with `[1]` still stored. -/
def insertRemoveOne : List Op := [.insert [1], .remove (prefixHash [1])]

/-- Emplace `[1]` again, and insert `[2]`. -/
def emplaceOneInsertTwo : List Op := [.emplace [1], .insert [2]]

theorem consolidate_run_agrees_prefixHash :
    (insertRemoveOne ++ emplaceOneInsertTwo).length < 2 ^ 31 ∧
      (∀ v ∈ (insertRemoveOne ++ emplaceOneInsertTwo).filterMap Op.value?,
        ∀ v' ∈ (insertRemoveOne ++ emplaceOneInsertTwo).filterMap Op.value?,
          prefixHash v = prefixHash v' → v = v') ∧
      ∀ k, ((new.run prefixHash insertRemoveOne).consolidate
          (new.run prefixHash emplaceOneInsertTwo)).get k =
        (new.run prefixHash (insertRemoveOne ++ emplaceOneInsertTwo)).get k := by
  have hlen : (insertRemoveOne ++ emplaceOneInsertTwo).length < 2 ^ 31 := by decide
  have hinj : ∀ v ∈ (insertRemoveOne ++ emplaceOneInsertTwo).filterMap Op.value?,
      ∀ v' ∈ (insertRemoveOne ++ emplaceOneInsertTwo).filterMap Op.value?,
        prefixHash v = prefixHash v' → v = v' := by decide
  exact ⟨hlen, hinj,
    ((consolidate_run_agrees prefixHash (by decide) insertRemoveOne emplaceOneInsertTwo).2.2.2.2
      hlen).2 hinj⟩

/-- `2³¹` insertions of one value: the `i32` count wraps to `i32::MIN`, so it is not the number of
insertions, and `contains` denies the key. -/
theorem count_wraps_at_2pow31_inserts :
    ((new.run prefixHash (List.replicate (2 ^ 31) (.insert [1]))).count (prefixHash [1])).toInt =
        -2 ^ 31 ∧
      ((List.replicate (2 ^ 31) (Op.insert [1])).countP (Op.adds prefixHash (prefixHash [1])) : ℤ) -
          (List.replicate (2 ^ 31) (Op.insert [1])).countP (Op.removes (prefixHash [1])) = 2 ^ 31 ∧
      (new.run prefixHash (List.replicate (2 ^ 31) (.insert [1]))).contains (prefixHash [1]) =
        false := by
  have hk : prefixHash [1] ≠ blake2bNullRlp := by decide
  have hdiff : ((List.replicate (2 ^ 31) (Op.insert [1])).countP
      (Op.adds prefixHash (prefixHash [1])) : ℤ) -
        (List.replicate (2 ^ 31) (Op.insert [1])).countP (Op.removes (prefixHash [1])) = 2 ^ 31 := by
    rw [List.countP_replicate, List.countP_replicate]
    decide
  have hcount : (new.run prefixHash (List.replicate (2 ^ 31) (.insert [1]))).count (prefixHash [1]) =
      Int32.minValue := by
    rw [count_run, sum_delta prefixHash (by decide) hk, hdiff]
    decide
  refine ⟨by rw [hcount, Int32.toInt_minValue], hdiff, ?_⟩
  rw [contains_eq_count hk, hcount]
  decide

end MemoryDB

end AionR
