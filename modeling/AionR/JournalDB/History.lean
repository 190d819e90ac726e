import AionR.JournalDB.Run

/-!
# Canonical insertions stay readable

`OverlayRecentDB` writes a block's nodes to the database only when `mark_canonical` retires the
block's era and names it canonical; until then they live in the backing overlay. `mark_canonical`
puts the canonical record's insertions, takes every record of the era off the overlay, and then
deletes the canonical record's removals, except those whose short key another era's record still
references. This module follows the blocks of a run and shows that `get` sees every key whose
latest canonical operation is an insertion.

## The history

`history` lists the blocks a run journals, in journal order. Each starts `pending`, and the
`mark_canonical` of its era makes it `canonical` or `retired` (`JournalledBlock.settle`). Taken to
the end of a run, it gives each block journalled in a prefix its final fate, so that the canonical
blocks of a prefix are those retired as canonical in it together with those still journalled that
will be. `LatestInsertion blocks n k v` says that, among the canonical blocks of the first `n`,
the latest operation on `k`, by era and then in journal order, is an insertion of `v`.

## The invariant

`Keeps val db blocks`: the journal holds the pending blocks, era by era and in order; the backing
overlay counts their insertions under the short keys (`Consistent`); and the database holds `v`
under `k` whenever `LatestInsertion blocks blocks.length k v`. A commit keeps it when the era it
retires is above the eras retired before (`Keeps.commitBatch`): then the canonical record's
removals come after every canonical operation retired earlier, and the last canonical record of
the era, whose removals `mark_canonical` applies, comes after every record of the era that
inserts the key.

## Main results

* `get_latest_canonical_insertion`: along a run whose values are those of their short keys and
  whose retired eras increase, `get k` returns `v` whenever the latest canonical operation on `k`
  is an insertion of `v`, and no commit deletes from the database a key that a pending block
  inserts.
* `get_keeps_first_canonical_value`: where one key is inserted with two values, the database
  keeps the first, though the latest canonical insertion is of the second.
-/

namespace AionR

namespace KeyValueDB

variable {k : Vector UInt8 32} {v : Bytes}

/-- A batch that never deletes `k` and puts no other value under it leaves `v` there, once `v` is
there before or put. -/
theorem lookup_write_of_puts :
    ∀ (batch : List DBOp) (kv : KeyValueDB), (∀ op ∈ batch, op ≠ .delete k) →
      (∀ d, DBOp.put k d ∈ batch → d = v) → (kv.data.lookup k = some v ∨ DBOp.put k v ∈ batch) →
      (kv.write batch).data.lookup k = some v
  | [], kv, _, _, h => by
    rcases h with h | h
    · exact h
    · cases h
  | op :: batch, kv, hdel, hput, h => by
    rw [write_cons]
    refine lookup_write_of_puts batch (kv.apply op) (fun op' h' ↦ hdel op' (List.mem_cons_of_mem _ h'))
      (fun d h' ↦ hput d (List.mem_cons_of_mem _ h')) ?_
    rcases h with h | h
    · -- `v` is there: the first operation keeps it
      left
      cases op with
      | put k' d =>
        by_cases hk : k = k'
        · subst hk
          rw [hput d List.mem_cons_self]
          exact AList.lookup_insert _
        · exact (AList.lookup_insert_ne hk).trans h
      | delete k' =>
        have hk : k ≠ k' := fun hk ↦ hdel _ List.mem_cons_self (by rw [hk])
        exact (AList.lookup_erase_ne hk).trans h
      | putRecord _ _ _ => exact h
      | deleteRecord _ _ => exact h
      | putLatestEra _ => exact h
    · rcases List.mem_cons.mp h with h | h
      · subst h
        exact .inl (AList.lookup_insert _)
      · exact .inr h

/-- A batch that never deletes `k` leaves it in the database. -/
theorem lookup_write_ne_none :
    ∀ (batch : List DBOp) (kv : KeyValueDB), (∀ op ∈ batch, op ≠ .delete k) →
      kv.data.lookup k ≠ none → (kv.write batch).data.lookup k ≠ none
  | [], _, _, h => h
  | op :: batch, kv, hdel, h => by
    rw [write_cons]
    refine lookup_write_ne_none batch (kv.apply op) (fun op' h' ↦ hdel op' (List.mem_cons_of_mem _ h')) ?_
    cases op with
    | put k' d =>
      by_cases hk : k = k'
      · subst hk
        simp [apply]
      · exact (AList.lookup_insert_ne hk).trans_ne h
    | delete k' =>
      have hk : k ≠ k' := fun hk ↦ hdel _ List.mem_cons_self (by rw [hk])
      exact (AList.lookup_erase_ne hk).trans_ne h
    | putRecord _ _ _ => exact h
    | deleteRecord _ _ => exact h
    | putLatestEra _ => exact h

end KeyValueDB

namespace OverlayRecentDB

/-- What the `mark_canonical` of its era has made of a journalled block. -/
inductive BlockFate where
  | pending
  | canonical
  | retired
  deriving DecidableEq, Repr

/-- A block of a run: the era it is journalled under, the record `journal_under` writes for it,
and its fate. -/
structure JournalledBlock where
  era : ℕ
  record : JournalRecord
  fate : BlockFate
  deriving DecidableEq

namespace JournalledBlock

/-- `mark_canonical(endEra, canonId)` settles the pending blocks of `endEra`: those of `canonId`
are canonical and the others retired. -/
def settle (endEra : ℕ) (canonId : Vector UInt8 32) (b : JournalledBlock) : JournalledBlock :=
  if b.fate = .pending ∧ b.era = endEra then
    { b with fate := if canonId = b.record.id then .canonical else .retired }
  else b

variable (endEra : ℕ) (canonId : Vector UInt8 32) (b : JournalledBlock)

-- Several proofs below unfold these at once: their equation lemmas are generated here, once.
section
attribute [local simp] settle
end

@[simp] theorem settle_era : (b.settle endEra canonId).era = b.era := by
  unfold settle
  split <;> rfl

@[simp] theorem settle_record : (b.settle endEra canonId).record = b.record := by
  unfold settle
  split <;> rfl

theorem settle_of_ne_pending (h : b.fate ≠ .pending) : b.settle endEra canonId = b :=
  if_neg fun h' ↦ h h'.1

theorem settle_of_era_ne (h : b.era ≠ endEra) : b.settle endEra canonId = b :=
  if_neg fun h' ↦ h h'.2

theorem settle_fate_pending :
    (b.settle endEra canonId).fate = .pending ↔ b.fate = .pending ∧ b.era ≠ endEra := by
  unfold settle
  by_cases h : b.fate = .pending ∧ b.era = endEra
  · rw [if_pos h]
    simp only [h, ne_eq, not_true_eq_false, and_false, iff_false]
    split <;> simp
  · rw [if_neg h]
    constructor
    · exact fun hp ↦ ⟨hp, fun he ↦ h ⟨hp, he⟩⟩
    · exact fun hp ↦ hp.1

/-- A pending block of the era becomes canonical exactly when it is of `canonId`. -/
theorem settle_fate_canonical (hp : b.fate = .pending) :
    (b.settle endEra canonId).fate = .canonical ↔ b.era = endEra ∧ canonId = b.record.id := by
  unfold settle
  by_cases he : b.era = endEra
  · rw [if_pos ⟨hp, he⟩]
    split <;> simp_all
  · rw [if_neg fun h ↦ he h.2]
    simp [hp, he]

end JournalledBlock

/-- The blocks of `blocks` still pending in era `e`. -/
def pendingIn (e : ℕ) (blocks : List JournalledBlock) : List JournalledBlock :=
  blocks.filter fun b ↦ b.fate = .pending ∧ b.era = e

/-- Settling an era leaves nothing pending in it, and the other eras as they were. -/
theorem pendingIn_map_settle (endEra : ℕ) (canonId : Vector UInt8 32) (e : ℕ) :
    ∀ blocks : List JournalledBlock, pendingIn e (blocks.map (JournalledBlock.settle endEra canonId)) =
      if e = endEra then [] else pendingIn e blocks
  | [] => by simp [pendingIn]
  | b :: blocks => by
    have ih := pendingIn_map_settle endEra canonId e blocks
    unfold pendingIn at ih ⊢
    rw [List.map_cons]
    -- the settled block is kept exactly when the block was, outside the settled era
    have hkept : ((b.settle endEra canonId).fate = .pending ∧ (b.settle endEra canonId).era = e) ↔
        (b.fate = .pending ∧ b.era ≠ endEra) ∧ b.era = e := by
      rw [JournalledBlock.settle_fate_pending, JournalledBlock.settle_era]
    by_cases he : e = endEra
    · subst he
      rw [if_pos rfl] at ih ⊢
      have hb : ¬((b.settle e canonId).fate = .pending ∧ (b.settle e canonId).era = e) :=
        fun h ↦ (hkept.mp h).1.2 (hkept.mp h).2
      rw [List.filter_cons_of_neg (by simpa using hb), ih]
    · rw [if_neg he] at ih ⊢
      by_cases hb : b.fate = .pending ∧ b.era = e
      · rw [JournalledBlock.settle_of_era_ne endEra canonId b fun h ↦ he (hb.2 ▸ h),
          List.filter_cons_of_pos (by simpa using hb), List.filter_cons_of_pos (by simpa using hb),
          ih]
      · have hb' : ¬((b.settle endEra canonId).fate = .pending ∧
            (b.settle endEra canonId).era = e) := fun h ↦ hb ⟨(hkept.mp h).1.1, (hkept.mp h).2⟩
        rw [List.filter_cons_of_neg (by simpa using hb'), List.filter_cons_of_neg (by simpa using hb),
          ih]

/-- The last element a filter keeps stands at an index that no other kept element passes. -/
theorem exists_index_of_last_filter {α : Type} {p : α → Bool} :
    ∀ {l : List α} {x : α}, (l.filter p).getLast? = some x →
      ∃ i, l[i]? = some x ∧ p x ∧ ∀ (j : ℕ) y, l[j]? = some y → p y → j ≤ i
  | [], _, h => by simp at h
  | a :: l, x, h => by
    cases hl : (l.filter p).getLast? with
    | none =>
      -- nothing after `a` is kept, so `a` is the last
      have hnil : l.filter p = [] := List.getLast?_eq_none_iff.mp hl
      have hpa : p a = true := by
        by_contra hpa
        rw [List.filter_cons_of_neg hpa, hnil] at h
        cases h
      rw [List.filter_cons_of_pos hpa, hnil, List.getLast?_singleton, Option.some.injEq] at h
      subst h
      refine ⟨0, rfl, hpa, fun j y hj hy ↦ ?_⟩
      cases j with
      | zero => exact le_rfl
      | succ j =>
        have hy' : y ∈ l.filter p := List.mem_filter.mpr ⟨List.mem_of_getElem? hj, hy⟩
        rw [hnil] at hy'
        cases hy'
    | some x' =>
      obtain ⟨i, hi, hpx, hmax⟩ := exists_index_of_last_filter hl
      have hx : x = x' := by
        have hlast : ((a :: l).filter p).getLast? = (l.filter p).getLast? := by
          rw [List.filter_cons]
          split
          · rw [List.getLast?_cons, hl]
            rfl
          · rfl
        rw [hlast, hl, Option.some.injEq] at h
        exact h.symm
      subst hx
      refine ⟨i + 1, hi, hpx, fun j y hj hy ↦ ?_⟩
      cases j with
      | zero => exact Nat.zero_le _
      | succ j => exact Nat.succ_le_succ (hmax j y hj hy)

/-- The history an operation extends: a commit journals its block, pending, then settles the era
it retires. -/
def recordOp (db : OverlayRecentDB) (blocks : List JournalledBlock) : Op → List JournalledBlock
  | .commitBatch now id canonical =>
    let blocks := blocks ++
      [⟨now, ⟨id, txInsertions db.transactionOverlay, txRemovedKeys db.transactionOverlay⟩, .pending⟩]
    match canonical with
    | some (endEra, canonId) => blocks.map (JournalledBlock.settle endEra canonId)
    | none => blocks
  | _ => blocks

/-- The blocks a run journals after `blocks`, in journal order, with the fate each has met by the
end of the run. -/
def history (blake2b : Bytes → Vector UInt8 32) :
    OverlayRecentDB → List JournalledBlock → List Op → List JournalledBlock
  | _, blocks, [] => blocks
  | db, blocks, op :: ops => history blake2b (db.step blake2b op) (recordOp db blocks op) ops

/-- Among the canonical blocks of the first `n`, the latest operation on `k`, by era and then in
journal order, is an insertion of `v`. -/
def LatestInsertion (blocks : List JournalledBlock) (n : ℕ) (k : Vector UInt8 32) (v : Bytes) :
    Prop :=
  ∃ i < n, ∃ b ∈ blocks[i]?, b.fate = .canonical ∧ (k, v) ∈ b.record.insertions ∧
    ∀ j < n, ∀ b' ∈ blocks[j]?, b'.fate = .canonical → k ∈ b'.record.deletions →
      b'.era < b.era ∨ b'.era = b.era ∧ j < i

set_option synthInstance.maxSize 256 in
instance (blocks : List JournalledBlock) (n : ℕ) (k : Vector UInt8 32) (v : Bytes) :
    Decidable (LatestInsertion blocks n k v) :=
  inferInstanceAs (Decidable (∃ i < n, ∃ b ∈ blocks[i]?, b.fate = .canonical ∧
    (k, v) ∈ b.record.insertions ∧ ∀ j < n, ∀ b' ∈ blocks[j]?, b'.fate = .canonical →
      k ∈ b'.record.deletions → b'.era < b.era ∨ b'.era = b.era ∧ j < i))

/-- The values an operation stores are those of their short keys, as `Admits` asks. -/
def Op.Fits (blake2b : Bytes → Vector UInt8 32) (val : Vector UInt8 32 → Bytes) : Op → Prop
  | .emplace key value => value ≠ nullRlp → value = val (toShortKey key)
  | .insert value => value ≠ nullRlp → value = val (toShortKey (blake2b value))
  | _ => True

instance (blake2b : Bytes → Vector UInt8 32) (val : Vector UInt8 32 → Bytes) :
    (op : Op) → Decidable (op.Fits blake2b val)
  | .emplace _ _ => inferInstanceAs (Decidable (_ → _))
  | .insert _ => inferInstanceAs (Decidable (_ → _))
  | .remove _ => inferInstanceAs (Decidable True)
  | .commitBatch _ _ _ => inferInstanceAs (Decidable True)

/-- The era a commit retires. -/
def Op.retiredEra : Op → Option ℕ
  | .commitBatch _ _ canonical => canonical.map Prod.fst
  | _ => none

/-! ## What `mark_canonical` writes -/

section MarkCanonical

variable (overlay : MemoryDB) (endEra : ℕ) (canonId : Vector UInt8 32)

/-- The scan collects the live insertions of every record of `canonId`. -/
theorem mem_scanRecords_canonInsertions :
    ∀ (records : List JournalEntry) (index : ℕ) (acc : CanonScan) (kv : Vector UInt8 32 × Bytes),
      kv ∈ (scanRecords overlay endEra canonId index records acc).canonInsertions ↔
        kv ∈ acc.canonInsertions ∨ (∃ r ∈ records, canonId = r.id ∧ kv.1 ∈ r.insertions) ∧
          ∃ rc, 0 < rc ∧ overlay.raw (toShortKey kv.1) = some (kv.2, rc)
  | [], _, acc, kv => by simp [scanRecords]
  | r :: rest, index, acc, kv => by
    rw [scanRecords, mem_scanRecords_canonInsertions rest]
    dsimp only
    by_cases hr : canonId = r.id
    · simp only [List.mem_cons, exists_eq_or_imp]
      rw [if_pos hr, List.mem_append, or_and_right, and_iff_right hr, or_assoc]
      refine or_congr_right (or_congr_left ?_)
      -- the live insertions of this record: its keys the overlay holds with a positive count
      rw [List.mem_filterMap]
      constructor
      · rintro ⟨h, hh, hsome⟩
        split at hsome
        · next d rc hraw =>
          split at hsome
          · next hrc =>
            cases hsome
            exact ⟨hh, rc, hrc, hraw⟩
          · cases hsome
        · cases hsome
      · rintro ⟨hk, rc, hrc, hraw⟩
        refine ⟨kv.1, hk, ?_⟩
        rw [hraw]
        simp [hrc]
    · simp only [List.mem_cons, exists_eq_or_imp]
      rw [if_neg hr, or_iff_right (fun h ↦ hr h.1 : ¬(canonId = r.id ∧ kv.1 ∈ r.insertions))]

/-- The scan keeps the removals of the last record of `canonId`. -/
theorem scanRecords_canonDeletions :
    ∀ (records : List JournalEntry) (index : ℕ) (acc : CanonScan),
      (scanRecords overlay endEra canonId index records acc).canonDeletions =
        ((records.filter fun r ↦ canonId = r.id).getLast?.map JournalEntry.deletions).getD
          acc.canonDeletions
  | [], _, acc => rfl
  | r :: rest, index, acc => by
    rw [scanRecords, scanRecords_canonDeletions rest]
    by_cases hr : canonId = r.id
    · rw [List.filter_cons_of_pos (by simpa using hr), List.getLast?_cons]
      simp only [if_pos hr]
      cases (rest.filter fun r ↦ canonId = r.id).getLast? <;> rfl
    · rw [List.filter_cons_of_neg (by simpa using hr)]
      simp only [if_neg hr]

variable (db : OverlayRecentDB) (batch : List DBOp)

/-- A put of `mark_canonical` is one of the batch it extends, or a live insertion of a canonical
record of the era. -/
theorem put_mem_markCanonical {k : Vector UInt8 32} {d : Bytes}
    (h : DBOp.put k d ∈ (db.markCanonical batch endEra canonId).2) :
    DBOp.put k d ∈ batch ∨ ∃ records, db.journalOverlay.journal.lookup endEra = some records ∧
      (∃ r ∈ records, canonId = r.id ∧ k ∈ r.insertions) ∧
      ∃ rc, 0 < rc ∧ db.journalOverlay.backingOverlay.raw (toShortKey k) = some (d, rc) := by
  cases hl : db.journalOverlay.journal.lookup endEra with
  | none =>
    simp only [markCanonical, hl] at h
    exact .inl h
  | some records =>
    simp only [markCanonical, hl, scanRecords_batch, List.mem_append, List.mem_map,
      List.mem_filterMap] at h
    rcases h with ((h | ⟨i, -, hi⟩) | ⟨kv, hkv, hput⟩) | ⟨k', -, hk'⟩
    · exact .inl h
    · cases hi
    · cases hput
      obtain h | h := (mem_scanRecords_canonInsertions _ _ _ _ _ _ _).mp hkv
      · cases h
      · exact .inr ⟨records, rfl, h⟩
    · split at hk' <;> cases hk'

/-- A delete of `mark_canonical` is one of the batch it extends, or a removal of the last
canonical record of the era whose short key no record left in the overlay references. -/
theorem delete_mem_markCanonical {k : Vector UInt8 32}
    (h : DBOp.delete k ∈ (db.markCanonical batch endEra canonId).2) :
    DBOp.delete k ∈ batch ∨
      (∃ records, db.journalOverlay.journal.lookup endEra = some records ∧
        k ∈ ((records.filter fun r ↦ canonId = r.id).getLast?.map JournalEntry.deletions).getD []) ∧
      (db.markCanonical batch endEra canonId).1.journalOverlay.backingOverlay.contains
        (toShortKey k) = false := by
  cases hl : db.journalOverlay.journal.lookup endEra with
  | none =>
    simp only [markCanonical, hl] at h
    exact .inl h
  | some records =>
    simp only [markCanonical, hl, scanRecords_batch, List.mem_append, List.mem_map,
      List.mem_filterMap] at h ⊢
    rcases h with ((h | ⟨i, -, hi⟩) | ⟨kv, -, hput⟩) | ⟨k', hk', hdel⟩
    · exact .inl h
    · cases hi
    · cases hput
    · split at hdel
      · cases hdel
      · next hcontains =>
        cases hdel
        rw [scanRecords_canonDeletions] at hk'
        exact .inr ⟨⟨records, rfl, hk'⟩, by simpa using hcontains⟩

/-- `mark_canonical` puts every live insertion of a canonical record of the era. -/
theorem put_mem_markCanonical_of {records : List JournalEntry}
    (hl : db.journalOverlay.journal.lookup endEra = some records) {r : JournalEntry}
    (hr : r ∈ records) (hid : canonId = r.id) {k : Vector UInt8 32} (hk : k ∈ r.insertions)
    {d : Bytes} {rc : Int32} (hrc : 0 < rc)
    (hraw : db.journalOverlay.backingOverlay.raw (toShortKey k) = some (d, rc)) :
    DBOp.put k d ∈ (db.markCanonical batch endEra canonId).2 := by
  have hmem : (k, d) ∈ (scanRecords db.journalOverlay.backingOverlay endEra canonId 0 records
      ⟨batch, [], [], []⟩).canonInsertions :=
    (mem_scanRecords_canonInsertions _ _ _ _ _ _ _).mpr (.inr ⟨⟨r, hr, hid, hk⟩, rc, hrc, hraw⟩)
  simp only [markCanonical, hl, List.mem_append, List.mem_map]
  exact .inl (.inr ⟨(k, d), hmem, rfl⟩)

end MarkCanonical

/-- `journal_under` writes records and the latest era, and no node. -/
theorem journalUnder_batch_nodes (db : OverlayRecentDB) (now : ℕ) (id : Vector UInt8 32)
    {op : DBOp} (h : op ∈ (db.journalUnder [] now id).2) : ¬op.IsNodeOp := by
  rw [journalUnder_batch] at h
  simp only [List.nil_append, List.mem_append, List.mem_singleton] at h
  rcases h with rfl | h
  · exact fun h ↦ h
  · split at h
    · rw [List.mem_singleton] at h
      subst h
      exact fun h ↦ h
    · cases h

/-! ## The invariant -/

/-- A journalled insertion counts under its short key. -/
theorem shortCount_pos_of_mem {journal : AList (fun _ : ℕ ↦ List JournalEntry)} {e : ℕ}
    {entry : JournalEntry} (he : entry ∈ (journal.lookup e).getD []) {k : Vector UInt8 32}
    (hk : k ∈ entry.insertions) : 0 < shortCount journal (toShortKey k) := by
  cases hl : journal.lookup e with
  | none =>
    rw [hl] at he
    cases he
  | some es =>
    rw [hl, Option.getD_some] at he
    have hera : 0 < eraCount es (toShortKey k) :=
      List.countP_pos_iff.mpr ⟨k, List.mem_flatMap.mpr ⟨entry, he, hk⟩, by simp⟩
    rw [shortCount_of_lookup _ _ hl]
    omega

/-- The backing overlay of a consistent journal holds the value of a short key with the count of
its journalled insertions. -/
theorem JournalOverlay.Consistent.raw_toShortKey {val : Vector UInt8 32 → Bytes} {jo : JournalOverlay}
    (h : jo.Consistent val) (k : Vector UInt8 32) :
    jo.backingOverlay.raw (toShortKey k) =
      if shortCount jo.journal (toShortKey k) = 0 then none
      else some (val (toShortKey k), Int32.ofNat (shortCount jo.journal (toShortKey k))) := by
  rw [MemoryDB.raw, if_neg (toShortKey_ne_blake2bNullRlp k)]
  exact h.1 (toShortKey k)

/-- The invariant of a run and its history. -/
structure Keeps (val : Vector UInt8 32 → Bytes) (db : OverlayRecentDB)
    (blocks : List JournalledBlock) : Prop where
  /-- The transaction overlay's live values are those of their short keys. -/
  transaction : db.transactionOverlay.LiveValues (FitsShortKey val)
  /-- The backing overlay counts the journal's insertions. -/
  consistent : db.journalOverlay.Consistent val
  /-- Nothing waits in the pending overlay. -/
  pending : db.journalOverlay.pendingOverlay = ∅
  /-- The journal holds the pending blocks, era by era and in journal order. -/
  journal : ∀ e, (db.journalOverlay.journal.lookup e).getD [] =
    (pendingIn e blocks).map fun b ↦ b.record.entry
  /-- Every journalled value is that of its short key. -/
  fits : ∀ b ∈ blocks, ∀ kv ∈ b.record.insertions, FitsShortKey val kv.1 kv.2
  /-- The database holds every key whose latest canonical operation is an insertion. -/
  stored : ∀ k v, LatestInsertion blocks blocks.length k v → db.backing.data.lookup k = some v

section Keeps

variable {val : Vector UInt8 32 → Bytes} {db : OverlayRecentDB} {blocks : List JournalledBlock}

theorem keeps_new : Keeps val (new .empty) [] where
  transaction := MemoryDB.liveValues_new
  consistent := JournalOverlay.consistent_empty
  pending := rfl
  journal _ := rfl
  fits _ hb := by cases hb
  stored _ _ h := by
    obtain ⟨i, hi, -⟩ := h
    cases hi

/-- A pending block's record is in the journal, under its era. -/
theorem Keeps.mem_journal (h : Keeps val db blocks) {b : JournalledBlock} (hb : b ∈ blocks)
    (hp : b.fate = .pending) : b.record.entry ∈ (db.journalOverlay.journal.lookup b.era).getD [] := by
  rw [h.journal]
  exact List.mem_map_of_mem (List.mem_filter.mpr ⟨hb, by simp [hp]⟩)

/-- A block journalled pending is no witness of a canonical insertion. -/
theorem latestInsertion_of_append_pending {e : ℕ} {r : JournalRecord} {k : Vector UInt8 32}
    {v : Bytes} (h : LatestInsertion (blocks ++ [(⟨e, r, .pending⟩ : JournalledBlock)])
      (blocks ++ [(⟨e, r, .pending⟩ : JournalledBlock)]).length k v) :
    LatestInsertion blocks blocks.length k v := by
  obtain ⟨i, hi, b, hb, hcanon, hkv, hlast⟩ := h
  rw [List.length_append, List.length_singleton] at hi
  have hi' : i < blocks.length := by
    rcases Nat.lt_succ_iff_lt_or_eq.mp hi with hi | rfl
    · exact hi
    · rw [List.getElem?_concat_length] at hb
      cases hb
      cases hcanon
  refine ⟨i, hi', b, ?_, hcanon, hkv, fun j hj b' hb' ↦ hlast j (by simp; omega) b' ?_⟩
  · rwa [List.getElem?_append_left hi'] at hb
  · rwa [List.getElem?_append_left hj]

theorem journalUnder_backing (batch : List DBOp) (now : ℕ) (id : Vector UInt8 32) :
    (db.journalUnder batch now id).1.backing = db.backing := rfl

theorem journalUnder_pendingOverlay (batch : List DBOp) (now : ℕ) (id : Vector UInt8 32) :
    (db.journalUnder batch now id).1.journalOverlay.pendingOverlay = ∅ := by
  simp only [journalUnder, JournalOverlay.pushEntry]
  rw [JournalOverlay.foldl_insertNode_eq]

/-- `journal_under` journals the block pending, and leaves the database to its batch. -/
theorem Keeps.journalUnder (h : Keeps val db blocks) (hb : db.budget < 2 ^ 31) (now : ℕ)
    (id : Vector UInt8 32) :
    Keeps val (db.journalUnder [] now id).1 (blocks ++
      [⟨now, ⟨id, txInsertions db.transactionOverlay, txRemovedKeys db.transactionOverlay⟩,
        .pending⟩]) where
  transaction := by
    rw [journalUnder_transactionOverlay]
    exact MemoryDB.liveValues_new
  consistent := consistent_journalUnder db [] now id h.consistent h.transaction hb
  pending := journalUnder_pendingOverlay [] now id
  journal e := by
    rw [journalUnder_journal, pendingIn, List.filter_append, List.map_append, ← pendingIn]
    by_cases he : e = now
    · subst he
      rw [AList.lookup_insert, Option.getD_some, h.journal, txInsertedKeys_eq]
      simp [JournalRecord.entry]
    · rw [AList.lookup_insert_ne he, h.journal]
      simp [Ne.symm he]
  fits b hb kv hkv := by
    rcases List.mem_append.mp hb with hb | hb
    · exact h.fits b hb kv hkv
    · rw [List.mem_singleton] at hb
      subst hb
      exact fitsShortKey_of_mem_txInsertions db h.transaction hkv
  stored k v hlatest := by
    rw [journalUnder_backing]
    exact h.stored k v (latestInsertion_of_append_pending hlatest)

/-- Writing a batch without node operations, then flushing, keeps the invariant. -/
theorem Keeps.flush_write (h : Keeps val db blocks) {batch : List DBOp}
    (hbatch : ∀ op ∈ batch, ¬op.IsNodeOp) :
    Keeps val (flush { db with backing := db.backing.write batch }) blocks where
  transaction := h.transaction
  consistent := h.consistent
  pending := rfl
  journal := h.journal
  fits := h.fits
  stored k v hlatest := by
    refine KeyValueDB.lookup_write_of_puts batch db.backing (fun op hop hdel ↦ ?_)
      (fun d hd ↦ absurd trivial (hbatch _ hd)) (.inl (h.stored k v hlatest))
    subst hdel
    exact hbatch _ hop trivial

/-- The records of an era that `mark_canonical` scans are those of its pending blocks. -/
theorem Keeps.lookup_eq_some (h : Keeps val db blocks) {e : ℕ} {records : List JournalEntry}
    (hl : db.journalOverlay.journal.lookup e = some records) :
    records = (pendingIn e blocks).map fun b ↦ b.record.entry := by
  have := h.journal e
  rwa [hl, Option.getD_some] at this

/-- The last canonical record of an era is that of a pending block of the era with the canonical
id, and no such block comes after it. -/
theorem exists_last_canonical_block {e : ℕ} {canonId : Vector UInt8 32} {L : JournalEntry}
    (hL : (((pendingIn e blocks).map fun b ↦ b.record.entry).filter fun r ↦ canonId = r.id).getLast? =
      some L) :
    ∃ iL B, blocks[iL]? = some B ∧ B.record.entry = L ∧ B.fate = .pending ∧ B.era = e ∧
      canonId = B.record.id ∧ ∀ (j : ℕ) y, blocks[j]? = some y → y.fate = .pending → y.era = e →
        canonId = y.record.id → j ≤ iL := by
  rw [pendingIn, List.filter_map, List.filter_filter, List.getLast?_map] at hL
  obtain ⟨B, hB, rfl⟩ := Option.map_eq_some_iff.mp hL
  obtain ⟨iL, hiL, hq, hmax⟩ := exists_index_of_last_filter hB
  simp only [Function.comp_apply, Bool.and_eq_true, decide_eq_true_eq] at hq
  refine ⟨iL, B, hiL, rfl, hq.2.1, hq.2.2, hq.1, fun j y hj hp he hid ↦ hmax j y hj ?_⟩
  simp only [Function.comp_apply, Bool.and_eq_true, decide_eq_true_eq]
  exact ⟨hid, hp, he⟩

/-- `mark_canonical` keeps every key whose latest canonical operation, the era's settled blocks
included, is an insertion: it puts the key when a canonical block of the era inserts it, and the
removals it applies, those of the era's last canonical record, come after every canonical
operation of an earlier era and after every record of the era that inserts the key. -/
theorem Keeps.stored_markCanonical (h : Keeps val db blocks) {batch : List DBOp}
    (hbatch : ∀ op ∈ batch, ¬op.IsNodeOp) (endEra : ℕ) (canonId : Vector UInt8 32)
    (hsettled : ∀ b ∈ blocks, b.fate ≠ .pending → b.era < endEra) {k : Vector UInt8 32}
    {v : Bytes} (hlatest : LatestInsertion (blocks.map (JournalledBlock.settle endEra canonId))
      blocks.length k v) :
    (db.backing.write (db.markCanonical batch endEra canonId).2).data.lookup k = some v := by
  obtain ⟨i, hi, b', hb', hcanon, hkv, hlast⟩ := hlatest
  -- the witness, before this era is settled
  obtain ⟨b, hb, rfl⟩ : ∃ b, blocks[i]? = some b ∧ b.settle endEra canonId = b' := by
    rw [List.getElem?_map] at hb'
    exact Option.map_eq_some_iff.mp hb'
  have hbmem : b ∈ blocks := List.mem_of_getElem? hb
  rw [JournalledBlock.settle_record] at hkv
  have hv : v = val (toShortKey k) := (h.fits b hbmem _ hkv).2
  -- every put under `k` is of `v`
  have hput : ∀ d, DBOp.put k d ∈ (db.markCanonical batch endEra canonId).2 → d = v := by
    intro d hd
    rcases put_mem_markCanonical endEra canonId db batch hd with hd | ⟨-, -, -, rc, -, hraw⟩
    · exact absurd trivial (hbatch _ hd)
    · rw [JournalOverlay.Consistent.raw_toShortKey h.consistent] at hraw
      split at hraw
      · cases hraw
      · cases hraw
        exact hv.symm
  -- no delete of `k`
  have hdel : ∀ op ∈ (db.markCanonical batch endEra canonId).2, op ≠ .delete k := by
    rintro op hop rfl
    rcases delete_mem_markCanonical endEra canonId db batch hop with hd | ⟨⟨records, hl, hk⟩, -⟩
    · exact hbatch _ hd trivial
    obtain ⟨L, hL, hkL⟩ : ∃ L, (records.filter fun r ↦ canonId = r.id).getLast? = some L ∧
        k ∈ L.deletions := by
      cases hlast' : (records.filter fun r ↦ canonId = r.id).getLast? with
      | none =>
        rw [hlast'] at hk
        cases hk
      | some L =>
        rw [hlast'] at hk
        exact ⟨L, rfl, hk⟩
    rw [h.lookup_eq_some hl] at hL
    obtain ⟨iL, B, hB, rfl, hBp, hBe, hBid, hmax⟩ := exists_last_canonical_block hL
    have hiL : iL < blocks.length := (List.getElem?_eq_some_iff.mp hB).1
    -- settled, the era's last canonical record is canonical and removes `k`
    have hBc : (B.settle endEra canonId).fate = .canonical :=
      (JournalledBlock.settle_fate_canonical _ _ _ hBp).mpr ⟨hBe, hBid⟩
    have horder := hlast iL hiL (B.settle endEra canonId) (by rw [List.getElem?_map, hB]; rfl) hBc
      (by rw [JournalledBlock.settle_record]; exact hkL)
    simp only [JournalledBlock.settle_era, hBe] at horder
    by_cases hp : b.fate = .pending
    · -- the witness is settled now: it is of the era, and comes before the last record
      obtain ⟨hbe, hbid⟩ := (JournalledBlock.settle_fate_canonical _ _ _ hp).mp hcanon
      have hle := hmax i b hb hp hbe hbid
      omega
    · -- the witness was settled before: its era is below this one
      have hlt := hsettled b hbmem hp
      omega
  -- `v` is there already, or put now
  have hthere : db.backing.data.lookup k = some v ∨
      DBOp.put k v ∈ (db.markCanonical batch endEra canonId).2 := by
    by_cases hp : b.fate = .pending
    · obtain ⟨hbe, hbid⟩ := (JournalledBlock.settle_fate_canonical _ _ _ hp).mp hcanon
      right
      have hentry := h.mem_journal hbmem hp
      rw [hbe] at hentry
      obtain ⟨records, hl⟩ : ∃ records, db.journalOverlay.journal.lookup endEra = some records := by
        cases hl : db.journalOverlay.journal.lookup endEra with
        | none =>
          rw [hl] at hentry
          cases hentry
        | some records => exact ⟨records, rfl⟩
      rw [hl, Option.getD_some] at hentry
      have hk : k ∈ b.record.entry.insertions := List.mem_map_of_mem (f := Prod.fst) hkv
      have hpos := shortCount_pos_of_mem (by rwa [hl, Option.getD_some]) hk
      rw [hv]
      refine put_mem_markCanonical_of endEra canonId db batch hl hentry hbid hk
        ((Int32.ofNat_pos_iff (h.consistent.2.2 _)).mpr hpos) ?_
      rw [JournalOverlay.Consistent.raw_toShortKey h.consistent, if_neg (Nat.pos_iff_ne_zero.mp hpos)]
    · left
      rw [JournalledBlock.settle_of_ne_pending _ _ _ hp] at hcanon hlast
      refine h.stored k v ⟨i, hi, b, hb, hcanon, hkv, fun j hj b₂ hb₂ hc hd ↦ ?_⟩
      have h₂ : (blocks.map (JournalledBlock.settle endEra canonId))[j]? = some b₂ := by
        rw [List.getElem?_map, hb₂, Option.map_some,
          JournalledBlock.settle_of_ne_pending _ _ _ (by rw [hc]; nofun)]
      exact hlast j hj b₂ h₂ hc hd
  exact KeyValueDB.lookup_write_of_puts _ _ hdel hput hthere

/-- `mark_canonical` settles its era in the history, and with its batch written and flushed keeps
the invariant, when every block settled before is of a lower era. -/
theorem Keeps.markCanonical (h : Keeps val db blocks) {batch : List DBOp}
    (hbatch : ∀ op ∈ batch, ¬op.IsNodeOp) (endEra : ℕ) (canonId : Vector UInt8 32)
    (hsettled : ∀ b ∈ blocks, b.fate ≠ .pending → b.era < endEra) :
    Keeps val (flush { (db.markCanonical batch endEra canonId).1 with
        backing := (db.markCanonical batch endEra canonId).1.backing.write
          (db.markCanonical batch endEra canonId).2 })
      (blocks.map (JournalledBlock.settle endEra canonId)) where
  transaction := by
    show (db.markCanonical batch endEra canonId).1.transactionOverlay.LiveValues _
    rw [markCanonical_transactionOverlay]
    exact h.transaction
  consistent := consistent_markCanonical endEra canonId db batch h.consistent
  pending := rfl
  journal e := by
    show ((db.markCanonical batch endEra canonId).1.journalOverlay.journal.lookup e).getD [] = _
    rw [markCanonical_journal, pendingIn_map_settle]
    by_cases he : e = endEra
    · rw [if_pos he, he, AList.lookup_erase]
      rfl
    · rw [if_neg he, AList.lookup_erase_ne he, h.journal]
  fits b hb kv hkv := by
    obtain ⟨b₀, hb₀, rfl⟩ := List.mem_map.mp hb
    rw [JournalledBlock.settle_record] at hkv
    exact h.fits b₀ hb₀ kv hkv
  stored k v hlatest := by
    show ((db.markCanonical batch endEra canonId).1.backing.write _).data.lookup k = some v
    rw [markCanonical_backing]
    exact h.stored_markCanonical hbatch endEra canonId hsettled (by simpa using hlatest)

/-- A commit keeps the invariant when the era it retires is above every era settled before. -/
theorem Keeps.commitBatch (h : Keeps val db blocks) (hb : db.budget < 2 ^ 31) (now : ℕ)
    (id : Vector UInt8 32) (canonical : Option (ℕ × Vector UInt8 32))
    (hsettled : ∀ e ∈ canonical.map Prod.fst, ∀ b ∈ blocks, b.fate ≠ .pending → b.era < e) :
    Keeps val (db.commitBatch now id canonical) (recordOp db blocks (.commitBatch now id canonical)) := by
  have hj := h.journalUnder hb now id
  have hbatch : ∀ op ∈ (db.journalUnder [] now id).2, ¬op.IsNodeOp :=
    fun _ ↦ journalUnder_batch_nodes db now id
  cases canonical with
  | none => exact hj.flush_write hbatch
  | some c =>
    obtain ⟨endEra, canonId⟩ := c
    refine hj.markCanonical hbatch endEra canonId fun b hb hp ↦ ?_
    rcases List.mem_append.mp hb with hb | hb
    · exact hsettled endEra rfl b hb hp
    · rw [List.mem_singleton] at hb
      subst hb
      exact absurd rfl hp

/-- An operation whose values fit their short keys, retiring an era above those settled before,
keeps the invariant. -/
theorem Keeps.step {blake2b : Bytes → Vector UInt8 32} (h : Keeps val db blocks)
    (hb : db.budget < 2 ^ 31) {op : Op} (hfit : op.Fits blake2b val)
    (hsettled : ∀ e ∈ op.retiredEra, ∀ b ∈ blocks, b.fate ≠ .pending → b.era < e) :
    Keeps val (db.step blake2b op) (recordOp db blocks op) := by
  cases op with
  | emplace key value =>
    exact { h with transaction := h.transaction.emplace key fun hnull ↦ ⟨hnull, hfit hnull⟩ }
  | insert value =>
    exact { h with transaction := h.transaction.insert blake2b fun hnull ↦ ⟨hnull, hfit hnull⟩ }
  | remove key =>
    exact { h with transaction := h.transaction.remove key (count_ne_minValue_of_budget hb key) }
  | commitBatch now id canonical => exact h.commitBatch hb now id canonical hsettled

end Keeps

/-! ## Runs -/

/-- A block an operation leaves settled was settled before, or is of the era it retires. -/
theorem era_of_settled_recordOp {db : OverlayRecentDB} {blocks : List JournalledBlock} {op : Op}
    {b : JournalledBlock} (hb : b ∈ recordOp db blocks op) (hp : b.fate ≠ .pending) :
    (∃ b₀ ∈ blocks, b₀.fate ≠ .pending ∧ b.era = b₀.era) ∨ ∃ e ∈ op.retiredEra, b.era = e := by
  -- the block just journalled is pending: a settled block of the history extended is an old one
  have hold : ∀ {b₀ : JournalledBlock} {e : ℕ} {r : JournalRecord},
      b₀ ∈ blocks ++ [⟨e, r, .pending⟩] → b₀.fate ≠ .pending → b₀ ∈ blocks := by
    intro b₀ e r hb₀ hp₀
    rcases List.mem_append.mp hb₀ with hb₀ | hb₀
    · exact hb₀
    · rw [List.mem_singleton] at hb₀
      subst hb₀
      exact absurd rfl hp₀
  cases op with
  | emplace _ _ => exact .inl ⟨b, hb, hp, rfl⟩
  | insert _ => exact .inl ⟨b, hb, hp, rfl⟩
  | remove _ => exact .inl ⟨b, hb, hp, rfl⟩
  | commitBatch now id canonical =>
    cases canonical with
    | none => exact .inl ⟨b, hold hb hp, hp, rfl⟩
    | some c =>
      obtain ⟨endEra, canonId⟩ := c
      obtain ⟨b₀, hb₀, rfl⟩ := List.mem_map.mp hb
      by_cases hp₀ : b₀.fate = .pending
      · -- settled by this commit: of the era it retires
        have he : b₀.era = endEra := by
          by_contra he
          exact hp ((JournalledBlock.settle_fate_pending _ _ _).mpr ⟨hp₀, he⟩)
        exact .inr ⟨endEra, rfl, by rw [JournalledBlock.settle_era, he]⟩
      · rw [JournalledBlock.settle_of_ne_pending _ _ _ hp₀] at hp ⊢
        exact .inl ⟨b₀, hold hb₀ hp₀, hp₀, rfl⟩

/-- Along a run within the budget whose values fit their short keys and whose retired eras
increase, each above the eras settled before it, the invariant holds at the end. -/
theorem Keeps.run {val : Vector UInt8 32 → Bytes} (blake2b : Bytes → Vector UInt8 32) :
    ∀ (ops : List Op) {db : OverlayRecentDB} {blocks : List JournalledBlock}, Keeps val db blocks →
      db.budget + ops.length < 2 ^ 31 →
      (∀ op ∈ ops, op.Fits blake2b val) → (ops.filterMap Op.retiredEra).Pairwise (· < ·) →
      (∀ e ∈ ops.filterMap Op.retiredEra, ∀ b ∈ blocks, b.fate ≠ .pending → b.era < e) →
      Keeps val (db.run blake2b ops) (history blake2b db blocks ops)
  | [], _, _, h, _, _, _, _ => h
  | op :: ops, db, blocks, h, hb, hfits, hpair, habove => by
    rw [List.length_cons] at hb
    have hbudget := budget_step_le blake2b db op
    have hop : ∀ e ∈ op.retiredEra, ∀ e' ∈ ops.filterMap Op.retiredEra, e < e' := by
      intro e he e' he'
      rw [List.filterMap_cons, Option.mem_def.mp he, List.pairwise_cons] at hpair
      exact hpair.1 e' he'
    have hrest : (ops.filterMap Op.retiredEra).Pairwise (· < ·) := by
      rw [List.filterMap_cons] at hpair
      split at hpair
      · exact hpair
      · exact (List.pairwise_cons.mp hpair).2
    have hsub : ∀ e ∈ ops.filterMap Op.retiredEra, e ∈ (op :: ops).filterMap Op.retiredEra := by
      intro e he
      rw [List.filterMap_cons]
      split
      · exact he
      · exact List.mem_cons_of_mem _ he
    have hstep := h.step (by omega) (hfits op List.mem_cons_self) fun e he ↦ habove e (by
      rw [List.filterMap_cons, Option.mem_def.mp he]
      exact List.mem_cons_self)
    refine Keeps.run blake2b ops hstep (by omega) (fun op' h' ↦ hfits op' (List.mem_cons_of_mem _ h'))
      hrest ?_
    intro e he b hb hp
    rcases era_of_settled_recordOp hb hp with ⟨b₀, hb₀, hp₀, hera⟩ | ⟨e₀, he₀, hera⟩
    · rw [hera]
      exact habove e (hsub e he) b₀ hb₀ hp₀
    · rw [hera]
      exact hop e₀ he₀ e he

/-! ## Reading a key -/

section Get

variable {val : Vector UInt8 32 → Bytes} {db : OverlayRecentDB} {blocks : List JournalledBlock}

/-- A consistent backing overlay answers a short key with its value while it is referenced. -/
theorem JournalOverlay.Consistent.get_toShortKey {jo : JournalOverlay} (h : jo.Consistent val)
    (k : Vector UInt8 32) :
    jo.backingOverlay.get (toShortKey k) =
      if 0 < shortCount jo.journal (toShortKey k) then some (val (toShortKey k)) else none := by
  rw [MemoryDB.get, if_neg (toShortKey_ne_blake2bNullRlp k), h.1 (toShortKey k)]
  by_cases h0 : shortCount jo.journal (toShortKey k) = 0
  · simp [h0]
  · have hpos : 0 < shortCount jo.journal (toShortKey k) := Nat.pos_of_ne_zero h0
    simp [h0, hpos, Int32.ofNat_pos_iff (h.2.2 (toShortKey k))]

/-- `get` returns the value of a key's short key when the database holds it there or a journalled
insertion references it. -/
theorem Keeps.get_eq (h : Keeps val db blocks) {k : Vector UInt8 32} (hk : k ≠ blake2bNullRlp)
    (hthere : db.backing.data.lookup k = some (val (toShortKey k)) ∨
      0 < shortCount db.journalOverlay.journal (toShortKey k)) :
    db.get k = some (val (toShortKey k)) := by
  -- past the transaction overlay: the backing overlay, the pending overlay, then the database
  have hrest : ((db.journalOverlay.backingOverlay.get (toShortKey k)).or
      (db.journalOverlay.pendingOverlay.lookup (toShortKey k))).or (db.payload k) =
      some (val (toShortKey k)) := by
    rw [JournalOverlay.Consistent.get_toShortKey h.consistent, h.pending]
    by_cases hpos : 0 < shortCount db.journalOverlay.journal (toShortKey k)
    · rw [if_pos hpos]
      rfl
    · rw [if_neg hpos]
      exact hthere.resolve_right hpos
  unfold get
  rw [MemoryDB.raw, if_neg hk]
  cases htx : db.transactionOverlay.data.lookup k with
  | none => exact hrest
  | some e =>
    obtain ⟨d, rc⟩ := e
    dsimp only
    split
    · next hrc => rw [(h.transaction k d rc htx hrc).2]
    · exact hrest

/-- A commit never deletes from the database a key that a block it leaves pending inserts: that
block is of another era than the retired one, and keeps the short key referenced. -/
theorem Keeps.lookup_step {blake2b : Bytes → Vector UInt8 32} (h : Keeps val db blocks)
    (hb : db.budget < 2 ^ 31) (op : Op) {k : Vector UInt8 32} (hpending : ∃ b ∈ recordOp db blocks op, b.fate = .pending ∧
      k ∈ b.record.insertions.map Prod.fst)
    (hk : db.backing.data.lookup k ≠ none) : (db.step blake2b op).backing.data.lookup k ≠ none := by
  cases op with
  | emplace _ _ => exact hk
  | insert _ => exact hk
  | remove _ => exact hk
  | commitBatch now id canonical =>
    have hj := h.journalUnder hb now id
    have hbatch : ∀ op ∈ (db.journalUnder [] now id).2, ¬op.IsNodeOp :=
      fun _ ↦ journalUnder_batch_nodes db now id
    cases canonical with
    | none =>
      refine KeyValueDB.lookup_write_ne_none _ _ (fun op hop hdel ↦ ?_) hk
      subst hdel
      exact hbatch _ hop trivial
    | some c =>
      obtain ⟨endEra, canonId⟩ := c
      obtain ⟨b, hb, hp, hkb⟩ := hpending
      show (((db.journalUnder [] now id).1.markCanonical (db.journalUnder [] now id).2 endEra
        canonId).1.backing.write _).data.lookup k ≠ none
      rw [markCanonical_backing]
      refine KeyValueDB.lookup_write_ne_none _ _ (fun op hop hdel ↦ ?_) hk
      subst hdel
      rcases delete_mem_markCanonical endEra canonId _ _ hop with hd | ⟨-, hcontains⟩
      · exact hbatch _ hd trivial
      -- the pending block is of another era, whose records keep the short key referenced
      obtain ⟨b₀, hb₀, rfl⟩ := List.mem_map.mp hb
      obtain ⟨hp₀, he₀⟩ := (JournalledBlock.settle_fate_pending _ _ _).mp hp
      rw [JournalledBlock.settle_record] at hkb
      have hentry := hj.mem_journal hb₀ hp₀
      rw [← AList.lookup_erase_ne he₀, ← markCanonical_journal endEra canonId _
        (db.journalUnder [] now id).2] at hentry
      have hpos := shortCount_pos_of_mem hentry hkb
      have hc := consistent_markCanonical endEra canonId _ (db.journalUnder [] now id).2 hj.consistent
      rw [hc.1.contains (toShortKey_ne_blake2bNullRlp k) (hc.2.2 _), decide_eq_false_iff_not]
        at hcontains
      exact hcontains hpos

end Get

/-! ## Histories -/

namespace JournalledBlock

/-- `b'` is `b` as a later history has it: the same era and record, and a settled fate kept. -/
def Becomes (b b' : JournalledBlock) : Prop :=
  b'.era = b.era ∧ b'.record = b.record ∧ (b.fate ≠ .pending → b'.fate = b.fate)

theorem becomes_refl (b : JournalledBlock) : b.Becomes b := ⟨rfl, rfl, fun _ ↦ rfl⟩

theorem Becomes.trans {b b' b'' : JournalledBlock} (h : b.Becomes b') (h' : b'.Becomes b'') :
    b.Becomes b'' := by
  refine ⟨h'.1.trans h.1, h'.2.1.trans h.2.1, fun hp ↦ ?_⟩
  have hp' : b'.fate ≠ .pending := by rwa [h.2.2 hp]
  exact (h'.2.2 hp').trans (h.2.2 hp)

theorem becomes_settle (endEra : ℕ) (canonId : Vector UInt8 32) (b : JournalledBlock) :
    b.Becomes (b.settle endEra canonId) :=
  ⟨settle_era _ _ _, settle_record _ _ _, fun hp ↦ by rw [settle_of_ne_pending _ _ _ hp]⟩

end JournalledBlock

/-- Every block of `blocks` stands at its index in `blocks'`, become what it has. -/
def Extends (blocks blocks' : List JournalledBlock) : Prop :=
  ∀ (i : ℕ) (b : JournalledBlock), blocks[i]? = some b → ∃ b', blocks'[i]? = some b' ∧ b.Becomes b'

theorem Extends.trans {blocks blocks' blocks'' : List JournalledBlock} (h : Extends blocks blocks')
    (h' : Extends blocks' blocks'') : Extends blocks blocks'' := by
  intro i b hb
  obtain ⟨b', hb', hbb'⟩ := h i b hb
  obtain ⟨b'', hb'', hb'b''⟩ := h' i b' hb'
  exact ⟨b'', hb'', hbb'.trans hb'b''⟩

/-- An operation appends its block and settles blocks, and moves none. -/
theorem extends_recordOp (db : OverlayRecentDB) (blocks : List JournalledBlock) (op : Op) :
    Extends blocks (recordOp db blocks op) := by
  intro i b hb
  have hi : i < blocks.length := (List.getElem?_eq_some_iff.mp hb).1
  cases op with
  | emplace _ _ => exact ⟨b, hb, JournalledBlock.becomes_refl b⟩
  | insert _ => exact ⟨b, hb, JournalledBlock.becomes_refl b⟩
  | remove _ => exact ⟨b, hb, JournalledBlock.becomes_refl b⟩
  | commitBatch now id canonical =>
    cases canonical with
    | none => exact ⟨b, by rw [recordOp, List.getElem?_append_left hi, hb],
        JournalledBlock.becomes_refl b⟩
    | some c =>
      obtain ⟨endEra, canonId⟩ := c
      refine ⟨b.settle endEra canonId, ?_, JournalledBlock.becomes_settle endEra canonId b⟩
      rw [recordOp, List.getElem?_map, List.getElem?_append_left hi, hb]
      rfl

theorem extends_history (blake2b : Bytes → Vector UInt8 32) :
    ∀ (ops : List Op) (db : OverlayRecentDB) (blocks : List JournalledBlock),
      Extends blocks (history blake2b db blocks ops)
  | [], _, _ => fun _ b hb ↦ ⟨b, hb, JournalledBlock.becomes_refl b⟩
  | op :: ops, db, blocks =>
    (extends_recordOp db blocks op).trans (extends_history blake2b ops _ _)

theorem history_append (blake2b : Bytes → Vector UInt8 32) :
    ∀ (ops ops' : List Op) (db : OverlayRecentDB) (blocks : List JournalledBlock),
      history blake2b db blocks (ops ++ ops') =
        history blake2b (db.run blake2b ops) (history blake2b db blocks ops) ops'
  | [], _, _, _ => rfl
  | op :: ops, ops', db, _ => history_append blake2b ops ops' (db.step blake2b op) _

/-! ## Canonical insertions are read back -/

/-- Along a run from an empty database whose stored values are those of their short keys and
whose retired eras increase: after any prefix, when the latest canonical operation on a key,
over the blocks journalled in the prefix that are canonical by the end of the run, is an
insertion of `v`, `get` returns `v`; and no commit deletes from the database a key that a block
it leaves pending inserts. -/
theorem get_latest_canonical_insertion (blake2b : Bytes → Vector UInt8 32)
    (val : Vector UInt8 32 → Bytes) (ops : List Op) (hlen : ops.length < 2 ^ 31)
    (hfits : ∀ op ∈ ops, op.Fits blake2b val)
    (hmarks : (ops.filterMap Op.retiredEra).Pairwise (· < ·)) :
    (∀ n k v, k ≠ blake2bNullRlp →
      LatestInsertion (history blake2b (new .empty) [] ops)
        (history blake2b (new .empty) [] (ops.take n)).length k v →
      ((new .empty).run blake2b (ops.take n)).get k = some v) ∧
    ∀ n k, (∃ b ∈ history blake2b (new .empty) [] (ops.take (n + 1)), b.fate = .pending ∧
        k ∈ b.record.insertions.map Prod.fst) →
      ((new .empty).run blake2b (ops.take n)).backing.data.lookup k ≠ none →
      ((new .empty).run blake2b (ops.take (n + 1))).backing.data.lookup k ≠ none := by
  have hkeeps : ∀ n, Keeps val ((new .empty).run blake2b (ops.take n))
      (history blake2b (new .empty) [] (ops.take n)) := fun n ↦
    keeps_new.run blake2b (ops.take n)
      (by rw [budget_new, Nat.zero_add, List.length_take]; omega)
      (fun op hop ↦ hfits op (List.mem_of_mem_take hop))
      (hmarks.sublist ((List.take_sublist n ops).filterMap _)) fun _ _ _ hb ↦ by cases hb
  refine ⟨fun n k v hk hlatest ↦ ?_, fun n k hpending hlookup ↦ ?_⟩
  · -- the blocks of the prefix, as the whole run leaves them
    have hext : Extends (history blake2b (new .empty) [] (ops.take n))
        (history blake2b (new .empty) [] ops) := by
      conv => rhs; rw [← List.take_append_drop n ops, history_append]
      exact extends_history blake2b _ _ _
    obtain ⟨i, hi, b', hb', hcanon, hkv, hlast⟩ := hlatest
    obtain ⟨b, hb⟩ : ∃ b, (history blake2b (new .empty) [] (ops.take n))[i]? = some b :=
      ⟨_, List.getElem?_eq_getElem hi⟩
    obtain ⟨b'', hb'', hbecomes⟩ := hext i b hb
    rw [Option.mem_def.mp hb', Option.some.injEq] at hb''
    subst hb''
    have hbmem := List.mem_of_getElem? hb
    rw [hbecomes.2.1] at hkv
    have hv : v = val (toShortKey k) := ((hkeeps n).fits b hbmem _ hkv).2
    rw [hv]
    apply (hkeeps n).get_eq hk
    cases hfate : b.fate with
    | pending =>
      -- still journalled: the backing overlay references it
      exact .inr (shortCount_pos_of_mem ((hkeeps n).mem_journal hbmem hfate)
        (List.mem_map_of_mem (f := Prod.fst) hkv))
    | canonical =>
      -- retired canonical: the database holds it
      rw [← hv]
      refine .inl ((hkeeps n).stored k v ⟨i, hi, b, hb, hfate, hkv, fun j hj b₂ hb₂ hc hd ↦ ?_⟩)
      obtain ⟨b₂', hb₂', hbecomes₂⟩ := hext j b₂ hb₂
      have hc' : b₂'.fate = .canonical := by
        rw [hbecomes₂.2.2 (by rw [hc]; nofun), hc]
      have horder := hlast j hj b₂' hb₂' hc' (by rw [hbecomes₂.2.1]; exact hd)
      rwa [hbecomes₂.1, hbecomes.1] at horder
    | retired =>
      have hretired := hbecomes.2.2 (by rw [hfate]; nofun)
      rw [hcanon, hfate] at hretired
      cases hretired
  · cases hop : ops[n]? with
    | none =>
      have htake : ops.take (n + 1) = ops.take n := by
        rw [List.take_add_one, hop, Option.toList_none, List.append_nil]
      rwa [htake]
    | some op =>
      have htake : ops.take (n + 1) = ops.take n ++ [op] := by
        rw [List.take_add_one, hop, Option.toList_some]
      rw [htake, history_append] at hpending
      rw [htake, run, List.foldl_append]
      -- the prefix holds fewer than `2³¹` operations, and adds no more to the budget
      have hbudget : ((new .empty).run blake2b (ops.take n)).budget < 2 ^ 31 := by
        have := budget_run_le blake2b (new .empty) (ops.take n)
        have hn : n < ops.length := (List.getElem?_eq_some_iff.mp hop).1
        rw [budget_new, Nat.zero_add, List.length_take] at this
        omega
      exact (hkeeps n).lookup_step hbudget op hpending hlookup

/-- Two keys with different short keys, inserted in eras 0 and 1; the commit of era 1 retires
era 0 with its block canonical. -/
def canonicalRun : List Op :=
  [.emplace (collidingKey 1) [1], .commitBatch 0 (collidingKey 10) none,
    .emplace (Vector.replicate 32 2) [2],
    .commitBatch 1 (collidingKey 11) (some (0, collidingKey 10))]

/-- The values of `canonicalRun`, by short key. -/
def canonicalRunValue (sk : Vector UInt8 32) : Bytes :=
  if sk = toShortKey (Vector.replicate 32 2) then [2] else [1]

theorem get_latest_canonical_insertion_canonicalRun :
    canonicalRun.length < 2 ^ 31 ∧
      (∀ op ∈ canonicalRun, op.Fits (fun _ ↦ Vector.replicate 32 0) canonicalRunValue) ∧
      (canonicalRun.filterMap Op.retiredEra).Pairwise (· < ·) ∧
      ((∀ n k v, k ≠ blake2bNullRlp →
        LatestInsertion (history (fun _ ↦ Vector.replicate 32 0) (new .empty) [] canonicalRun)
          (history (fun _ ↦ Vector.replicate 32 0) (new .empty) [] (canonicalRun.take n)).length
          k v →
        ((new .empty).run (fun _ ↦ Vector.replicate 32 0) (canonicalRun.take n)).get k = some v) ∧
      ∀ n k, (∃ b ∈ history (fun _ ↦ Vector.replicate 32 0) (new .empty) []
          (canonicalRun.take (n + 1)), b.fate = .pending ∧ k ∈ b.record.insertions.map Prod.fst) →
        ((new .empty).run (fun _ ↦ Vector.replicate 32 0) (canonicalRun.take n)).backing.data.lookup
          k ≠ none →
        ((new .empty).run (fun _ ↦ Vector.replicate 32 0)
          (canonicalRun.take (n + 1))).backing.data.lookup k ≠ none) :=
  have hfits : ∀ op ∈ canonicalRun, op.Fits (fun _ ↦ Vector.replicate 32 0) canonicalRunValue := by
    decide
  have hmarks : (canonicalRun.filterMap Op.retiredEra).Pairwise (· < ·) := by decide
  have hlen : canonicalRun.length < 2 ^ 31 := by decide
  ⟨hlen, hfits, hmarks, get_latest_canonical_insertion _ _ _ hlen hfits hmarks⟩

/-- One key, inserted with `[1]` in era 0 and with `[2]` in era 1; the next two commits retire
both eras with their blocks canonical. -/
def twoValueRun : List Op :=
  [.emplace (collidingKey 1) [1], .commitBatch 0 (collidingKey 10) none,
    .emplace (collidingKey 1) [2], .commitBatch 1 (collidingKey 11) (some (0, collidingKey 10)),
    .commitBatch 2 (collidingKey 12) (some (1, collidingKey 11))]

/-- Where one key is inserted with two values, the latest canonical insertion is of `[2]`, but the
backing overlay keeps the first value while it is referenced, and `mark_canonical` puts the
overlay's value: the database ends with `[1]`. -/
theorem get_keeps_first_canonical_value :
    LatestInsertion (history (fun _ ↦ Vector.replicate 32 0) (new .empty) [] twoValueRun) 3
        (collidingKey 1) [2] ∧
      ((new .empty).run (fun _ ↦ Vector.replicate 32 0) twoValueRun).get (collidingKey 1) =
        some [1] := by
  decide

end OverlayRecentDB

end AionR
