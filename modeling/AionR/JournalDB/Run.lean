import AionR.JournalDB.Reconstruct

/-!
# Admissible runs keep the journal readable

A run of `OverlayRecentDB` operations from an empty database keeps the invariant of
`JournalDB.Reconstruct` at every step, so that `can_reconstruct_refs` holds throughout
(`canReconstructRefs_run`), provided the run is admissible:

* keys that share a short key are inserted with the same value, the value `val` gives the short
  key (`Admits` on `emplace` and `insert`);
* each commit journals an era next to the journal's run of eras, or, with nothing journalled, an
  era not below the latest one (`JournalOverlay.AdmitsEra`);
* the era a commit retires is not above any journalled era, the new one included.

Without the first premise the two paths keep different values under a short key
(`canReconstructRefs_shortKeyCollision`); without the others `read_overlay` stops at a gap in the
eras and misses the records below it.

## Steps

`journal_under` and `mark_canonical` each keep `Consistent` and `Mirrors`; `flush` clears the
pending overlay. The transaction overlay's live values fit their short keys, which is what the
record `journal_under` writes inherits.

## Counts

The reference counts are `i32`s. `budget` counts the insertions the journal holds and the
references of the transaction overlay, which a commit may journal: it bounds every count, and an
operation adds at most one to it (`budget_step_le`). A run of fewer than `2³¹` operations from an
empty database therefore never wraps a count.
-/

namespace AionR

/-- `now` continues the journal's run of eras: with an era journalled it lies next to one, and
with none it is not below the latest era. -/
def JournalOverlay.AdmitsEra (jo : JournalOverlay) (now : ℕ) : Prop :=
  (jo.journal.keys = [] → jo.latestEra.all (· ≤ now) = true) ∧
    (jo.journal.keys ≠ [] →
      now ∈ jo.journal.keys ∨ now + 1 ∈ jo.journal.keys ∨ now - 1 ∈ jo.journal.keys)

/-- The operations on node keys, which leave the journal's records and its latest era alone. -/
def DBOp.IsNodeOp : DBOp → Prop
  | .put _ _ => True
  | .delete _ => True
  | _ => False

namespace KeyValueDB

theorem write_nodeOps (kv : KeyValueDB) :
    ∀ batch : List DBOp, (∀ op ∈ batch, op.IsNodeOp) →
      (kv.write batch).records = kv.records ∧ (kv.write batch).latestEra = kv.latestEra := by
  intro batch
  induction batch generalizing kv with
  | nil => exact fun _ ↦ ⟨rfl, rfl⟩
  | cons op batch ih =>
    intro h
    obtain ⟨hrec, hlatest⟩ := ih (kv.apply op) fun op' h' ↦ h op' (List.mem_cons_of_mem op h')
    have hop := h op List.mem_cons_self
    rw [write_cons, hrec, hlatest]
    cases op with
    | put _ _ => exact ⟨rfl, rfl⟩
    | delete _ => exact ⟨rfl, rfl⟩
    | putRecord _ _ _ => exact absurd hop id
    | deleteRecord _ _ => exact absurd hop id
    | putLatestEra _ => exact absurd hop id

/-- Deleting the records of indices `i` to `i + n - 1` of an era. -/
theorem write_deleteRecords (era : ℕ) :
    ∀ (n i : ℕ) (kv : KeyValueDB) (p : ℕ × ℕ),
      (kv.write ((List.range' i n).map (DBOp.deleteRecord era))).records.lookup p =
        if p.1 = era ∧ i ≤ p.2 ∧ p.2 < i + n then none else kv.records.lookup p
  | 0, i, kv, p => by
    rw [List.range'_zero, List.map_nil, write_nil, if_neg (by omega)]
  | n + 1, i, kv, p => by
    rw [List.range'_succ, List.map_cons, write_cons, write_deleteRecords era n (i + 1)]
    show (if _ then _ else (kv.records.erase (era, i)).lookup p) = _
    by_cases hp : p = (era, i)
    · subst hp
      have hin : (era, i).1 = era ∧ i ≤ (era, i).2 ∧ (era, i).2 < i + (n + 1) :=
        ⟨rfl, Nat.le_refl i, Nat.lt_add_of_pos_right (Nat.succ_pos n)⟩
      rw [AList.lookup_erase, if_pos hin]
      split <;> rfl
    · rw [AList.lookup_erase_ne hp]
      by_cases hin : p.1 = era ∧ i + 1 ≤ p.2 ∧ p.2 < i + 1 + n
      · rw [if_pos hin, if_pos (by omega)]
      · have hout : ¬(p.1 = era ∧ i ≤ p.2 ∧ p.2 < i + (n + 1)) := by
          intro h
          apply hin
          have : p.2 ≠ i := fun h' ↦ hp (Prod.ext h.1 h')
          omega
        rw [if_neg hin, if_neg hout]

theorem write_deleteRecords_latestEra (era : ℕ) :
    ∀ (n i : ℕ) (kv : KeyValueDB),
      (kv.write ((List.range' i n).map (DBOp.deleteRecord era))).latestEra = kv.latestEra
  | 0, _, _ => rfl
  | n + 1, i, kv => by
    rw [List.range'_succ, List.map_cons, write_cons, write_deleteRecords_latestEra era n (i + 1)]
    rfl

end KeyValueDB

/-! ## The insertions the journal holds -/

/-- The insertions of all the journal's entries. -/
def journalSize (journal : AList (fun _ : ℕ ↦ List JournalEntry)) : ℕ :=
  (journal.entries.map fun e ↦ (e.2.flatMap JournalEntry.insertions).length).sum

section JournalSize

variable (journal : AList (fun _ : ℕ ↦ List JournalEntry))

theorem shortCount_le_journalSize (sk : Vector UInt8 32) :
    shortCount journal sk ≤ journalSize journal :=
  List.sum_le_sum fun _ _ ↦ List.countP_le_length

theorem journalSize_insert (era : ℕ) (es : List JournalEntry) :
    journalSize (journal.insert era es) =
      (es.flatMap JournalEntry.insertions).length + journalSize (journal.erase era) :=
  sum_entries_insert _ journal era es

theorem journalSize_of_lookup {era : ℕ} {es : List JournalEntry} (h : journal.lookup era = some es) :
    journalSize journal =
      (es.flatMap JournalEntry.insertions).length + journalSize (journal.erase era) :=
  sum_entries_of_lookup _ h

theorem journalSize_erase_le (era : ℕ) : journalSize (journal.erase era) ≤ journalSize journal := by
  cases h : journal.lookup era with
  | none => rw [erase_eq_self_of_lookup_eq_none _ h]
  | some es =>
    rw [journalSize_of_lookup journal h]
    exact Nat.le_add_left _ _

/-- Pushing an entry adds its insertions. -/
theorem journalSize_insert_append (era : ℕ) (entry : JournalEntry) :
    journalSize (journal.insert era ((journal.lookup era).getD [] ++ [entry])) =
      journalSize journal + entry.insertions.length := by
  rw [journalSize_insert, List.flatMap_append, List.length_append]
  simp only [List.flatMap_cons, List.flatMap_nil, List.append_nil]
  cases h : journal.lookup era with
  | none =>
    rw [Option.getD_none, erase_eq_self_of_lookup_eq_none _ h, List.flatMap_nil, List.length_nil]
    omega
  | some es =>
    rw [Option.getD_some, journalSize_of_lookup journal h]
    omega

end JournalSize

namespace OverlayRecentDB

variable {val : Vector UInt8 32 → Bytes}

/-- The insertions the journal holds, and the references of the transaction overlay, which the
next commit may journal: a bound on every reference count. -/
def budget (db : OverlayRecentDB) : ℕ :=
  journalSize db.journalOverlay.journal + db.transactionOverlay.references

theorem budget_new : (new .empty).budget = 0 := rfl

/-! ## Journalling a commit -/

section JournalUnder

variable (db : OverlayRecentDB) (batch : List DBOp) (now : ℕ) (id : Vector UInt8 32)

/-- The keys `journal_under` journals are those of the insertions it writes. -/
theorem txInsertedKeys_eq (tx : MemoryDB) : txInsertedKeys tx = (txInsertions tx).map Prod.fst := by
  unfold txInsertedKeys txInsertions
  rw [List.map_filterMap]
  congr 1
  funext e
  split <;> rfl

theorem exists_of_mem_txInsertions {tx : MemoryDB} {kv : Vector UInt8 32 × Bytes}
    (h : kv ∈ txInsertions tx) : ∃ rc : Int32, 0 < rc ∧ tx.data.lookup kv.1 = some (kv.2, rc) := by
  obtain ⟨e, he, hkv⟩ := List.mem_filterMap.mp h
  split at hkv
  · next hpos =>
    cases hkv
    exact ⟨e.2.2, hpos, AList.mem_lookup_iff.mpr he⟩
  · cases hkv

theorem fitsShortKey_of_mem_txInsertions
    (htx : db.transactionOverlay.LiveValues (FitsShortKey val)) {kv : Vector UInt8 32 × Bytes}
    (h : kv ∈ txInsertions db.transactionOverlay) : FitsShortKey val kv.1 kv.2 := by
  obtain ⟨rc, hrc, hl⟩ := exists_of_mem_txInsertions h
  exact htx _ _ _ hl hrc

-- Several proofs below unfold these at once: their equation lemmas are generated here, once.
section
attribute [local simp] journalUnder markCanonical
end

/-- The transaction overlay journals at most as many keys as it holds references. -/
theorem length_txInsertedKeys_le (tx : MemoryDB) : (txInsertedKeys tx).length ≤ tx.references := by
  unfold txInsertedKeys MemoryDB.references
  induction tx.data.entries with
  | nil => exact Nat.le_refl 0
  | cons e l ih =>
    rw [List.map_cons, List.sum_cons]
    by_cases hpos : 0 < e.2.2
    · rw [List.filterMap_cons_some (by rw [if_pos hpos]), List.length_cons]
      -- a positive count holds at least one reference
      rw [Int32.lt_iff_toInt_lt, Int32.toInt_zero] at hpos
      omega
    · rw [List.filterMap_cons_none (by rw [if_neg hpos])]
      omega

theorem journalUnder_journal :
    (db.journalUnder batch now id).1.journalOverlay.journal =
      db.journalOverlay.journal.insert now ((db.journalOverlay.journal.lookup now).getD [] ++
        [⟨id, txInsertedKeys db.transactionOverlay, txRemovedKeys db.transactionOverlay⟩]) := by
  simp only [journalUnder, JournalOverlay.pushEntry_journal,
    JournalOverlay.foldl_insertNode_journal]

theorem journalSize_journalUnder :
    journalSize (db.journalUnder batch now id).1.journalOverlay.journal =
      journalSize db.journalOverlay.journal + (txInsertedKeys db.transactionOverlay).length := by
  rw [journalUnder_journal, journalSize_insert_append]

theorem journalUnder_transactionOverlay :
    (db.journalUnder batch now id).1.transactionOverlay = MemoryDB.new := rfl

/-- `journal_under` journals no more keys than the transaction overlay holds references, and
clears it. -/
theorem budget_journalUnder_le : (db.journalUnder batch now id).1.budget ≤ db.budget := by
  have hnew : MemoryDB.new.references = 0 := rfl
  have htx := length_txInsertedKeys_le db.transactionOverlay
  unfold budget
  rw [journalSize_journalUnder, journalUnder_transactionOverlay, hnew]
  omega

theorem journalUnder_latestEra :
    (db.journalUnder batch now id).1.journalOverlay.latestEra =
      if db.journalOverlay.latestEra.all (now > ·) then some now
      else db.journalOverlay.latestEra := by
  simp only [journalUnder, JournalOverlay.pushEntry, JournalOverlay.foldl_insertNode_latestEra]

/-- The batch of `journal_under`: the record, at the next index of its era, and the latest era
when it moves up. -/
theorem journalUnder_batch :
    (db.journalUnder batch now id).2 =
      batch ++ [.putRecord now ((db.journalOverlay.journal.lookup now).getD []).length
          ⟨id, txInsertions db.transactionOverlay, txRemovedKeys db.transactionOverlay⟩] ++
        (if db.journalOverlay.latestEra.all (now > ·) then [.putLatestEra now] else []) := by
  have hindex : ((db.journalOverlay.journal.lookup now).map List.length).getD 0 =
      ((db.journalOverlay.journal.lookup now).getD []).length := by
    cases db.journalOverlay.journal.lookup now <;> rfl
  simp only [journalUnder, JournalOverlay.foldl_insertNode_journal,
    JournalOverlay.foldl_insertNode_latestEra, hindex]
  split <;> simp

theorem consistent_journalUnder (h : db.journalOverlay.Consistent val)
    (htx : db.transactionOverlay.LiveValues (FitsShortKey val)) (hb : db.budget < 2 ^ 31) :
    (db.journalUnder batch now id).1.journalOverlay.Consistent val := by
  have h0 : ({ db.journalOverlay with pendingOverlay := ∅ } : JournalOverlay).Tracks val
      (shortCount db.journalOverlay.journal) := h
  -- the journal's counts and the keys journalled now stay within the budget
  have hroom : ∀ sk, shortCount db.journalOverlay.journal sk +
      ((txInsertions db.transactionOverlay).countP fun kv ↦ toShortKey kv.1 = sk) < 2 ^ 31 := by
    intro sk
    have hjournal := shortCount_le_journalSize db.journalOverlay.journal sk
    have hcount := List.countP_le_length (p := fun kv : Vector UInt8 32 × Bytes ↦
      decide (toShortKey kv.1 = sk)) (l := txInsertions db.transactionOverlay)
    have hkeys := length_txInsertedKeys_le db.transactionOverlay
    rw [txInsertedKeys_eq, List.length_map] at hkeys
    unfold budget at hb
    omega
  have htracks := JournalOverlay.Tracks.insertNodes _
    (fun _ hkv ↦ fitsShortKey_of_mem_txInsertions db htx hkv) h0 hroom
  simp only [journalUnder]
  apply JournalOverlay.Tracks.pushEntry
  simp only [JournalOverlay.foldl_insertNode_journal, txInsertedKeys_eq, List.countP_map,
    Function.comp_def]
  exact htracks

/-- The database gets the record that the journal gets, at the same index. -/
theorem mirrors_journalUnder {kv : KeyValueDB} (hm : Mirrors val db.journalOverlay kv)
    (htx : db.transactionOverlay.LiveValues (FitsShortKey val))
    (hera : db.journalOverlay.AdmitsEra now) :
    Mirrors val (db.journalUnder [] now id).1.journalOverlay
      (kv.write (db.journalUnder [] now id).2) := by
  let jo := db.journalOverlay
  obtain ⟨old, hold_eq⟩ : ∃ old, (jo.journal.lookup now).getD [] = old := ⟨_, rfl⟩
  let r : JournalRecord := ⟨id, txInsertions db.transactionOverlay, txRemovedKeys db.transactionOverlay⟩
  have hentry : (⟨id, txInsertedKeys db.transactionOverlay, txRemovedKeys db.transactionOverlay⟩ :
      JournalEntry) = r.entry := by
    rw [txInsertedKeys_eq]
    rfl
  have hrecords : (kv.write (db.journalUnder [] now id).2).records =
      kv.records.insert (now, old.length) r := by
    rw [journalUnder_batch, hold_eq]
    split <;> rfl
  have hlatest : (kv.write (db.journalUnder [] now id).2).latestEra =
      if jo.latestEra.all (now > ·) then some now else kv.latestEra := by
    rw [journalUnder_batch]
    split <;> rfl
  -- the entries of era `now` before this commit, as the database holds them
  have hold : ∀ i, (kv.records.lookup (now, i)).map JournalRecord.entry = old[i]? := fun i ↦ by
    rw [hm.records, ← hold_eq]
    cases jo.journal.lookup now <;> simp
  refine ⟨fun e i ↦ ?_, fun p r' hp ↦ ?_, fun e es he ↦ ?_, ?_, ?_⟩
  · rw [hrecords, journalUnder_journal, hentry]
    by_cases he : e = now
    · rw [he, hold_eq]
      rw [AList.lookup_insert, Option.bind_some]
      by_cases hi : i = old.length
      · subst hi
        rw [AList.lookup_insert, List.getElem?_concat_length]
        rfl
      · rw [AList.lookup_insert_ne (fun h ↦ hi (Prod.mk.inj h).2), hold]
        rcases Nat.lt_or_gt_of_ne hi with hlt | hgt
        · exact (List.getElem?_append_left hlt).symm
        · rw [List.getElem?_eq_none (by omega), List.getElem?_eq_none (by simp; omega)]
    · rw [AList.lookup_insert_ne (fun h ↦ he (Prod.mk.inj h).1), AList.lookup_insert_ne he,
        hm.records]
  · rw [hrecords] at hp
    by_cases hp' : p = (now, old.length)
    · rw [hp'] at hp
      rw [AList.lookup_insert, Option.some.injEq] at hp
      subst hp
      exact fun kv hkv ↦ fitsShortKey_of_mem_txInsertions db htx hkv
    · rw [AList.lookup_insert_ne hp'] at hp
      exact hm.values p r' hp
  · rw [journalUnder_journal] at he
    by_cases he' : e = now
    · subst he'
      rw [AList.lookup_insert, Option.some.injEq] at he
      subst he
      exact List.append_ne_nil_of_right_ne_nil _ (List.cons_ne_nil _ _)
    · rw [AList.lookup_insert_ne he'] at he
      exact hm.nonempty e es he
  · rw [hlatest, journalUnder_latestEra, hm.latestEra]
  · -- the new era lies next to the run, or starts one at or above the latest era
    have hmem : (· ∈ (db.journalUnder [] now id).1.journalOverlay.journal) =
        fun e ↦ e = now ∨ e ∈ jo.journal := by
      funext e
      rw [journalUnder_journal]
      exact propext (AList.mem_insert _)
    rw [hmem, journalUnder_latestEra]
    obtain ⟨hempty, hnext⟩ := hera
    refine hm.contiguous.insert (fun ⟨e, he⟩ ↦ ?_) (fun hnone ↦ hempty ?_)
    · simpa only [AList.mem_keys] using hnext (List.ne_nil_of_mem (AList.mem_keys.mpr he))
    · exact List.eq_nil_iff_forall_not_mem.mpr fun e he ↦ hnone e (AList.mem_keys.mp he)

end JournalUnder

/-! ## Retiring an era -/

section MarkCanonical

variable (overlay : MemoryDB) (endEra : ℕ) (canonId : Vector UInt8 32)

/-- The scan deletes the era's records, one index after the other. -/
theorem scanRecords_batch :
    ∀ (records : List JournalEntry) (index : ℕ) (acc : CanonScan),
      (scanRecords overlay endEra canonId index records acc).batch =
        acc.batch ++ (List.range' index records.length).map (DBOp.deleteRecord endEra)
  | [], _, acc => by simp [scanRecords]
  | j :: rest, index, acc => by
    rw [scanRecords, scanRecords_batch rest (index + 1), List.length_cons, List.range'_succ]
    simp

/-- The scan takes every record's insertions off the overlay. -/
theorem scanRecords_overlayDeletions :
    ∀ (records : List JournalEntry) (index : ℕ) (acc : CanonScan),
      (scanRecords overlay endEra canonId index records acc).overlayDeletions =
        acc.overlayDeletions ++ records.flatMap JournalEntry.insertions
  | [], _, acc => by simp [scanRecords]
  | j :: rest, index, acc => by
    rw [scanRecords, scanRecords_overlayDeletions rest (index + 1)]
    simp

variable (db : OverlayRecentDB) (batch : List DBOp)

theorem markCanonical_journal :
    (db.markCanonical batch endEra canonId).1.journalOverlay.journal =
      db.journalOverlay.journal.erase endEra := by
  cases h : db.journalOverlay.journal.lookup endEra with
  | none => simp only [markCanonical, h]
  | some records => simp only [markCanonical, h, JournalOverlay.foldl_purgeNode_journal]

theorem markCanonical_latestEra :
    (db.markCanonical batch endEra canonId).1.journalOverlay.latestEra =
      db.journalOverlay.latestEra := by
  cases h : db.journalOverlay.journal.lookup endEra with
  | none => simp only [markCanonical, h]
  | some records => simp only [markCanonical, h, JournalOverlay.foldl_purgeNode_latestEra]

theorem markCanonical_backing :
    (db.markCanonical batch endEra canonId).1.backing = db.backing := by
  cases h : db.journalOverlay.journal.lookup endEra <;> simp only [markCanonical, h]

theorem markCanonical_transactionOverlay :
    (db.markCanonical batch endEra canonId).1.transactionOverlay = db.transactionOverlay := by
  cases h : db.journalOverlay.journal.lookup endEra <;> simp only [markCanonical, h]

/-- The batch of `mark_canonical`: the deletions of the era's records, then operations on node
keys only. -/
theorem markCanonical_batch :
    ∃ nodeOps : List DBOp, (∀ op ∈ nodeOps, op.IsNodeOp) ∧
      (db.markCanonical batch endEra canonId).2 =
        batch ++ (List.range' 0 ((db.journalOverlay.journal.lookup endEra).getD []).length).map
          (DBOp.deleteRecord endEra) ++ nodeOps := by
  cases h : db.journalOverlay.journal.lookup endEra with
  | none => exact ⟨[], by simp, by simp [markCanonical, h]⟩
  | some records =>
    refine ⟨?nodeOps, fun op hop ↦ ?_, ?heq⟩
    case heq =>
      simp only [markCanonical, h, scanRecords_batch, Option.getD_some, List.append_assoc]
      rfl
    -- the canonical record's puts, and the deletes of its removals
    simp only [List.mem_append, List.mem_map, List.mem_filterMap] at hop
    rcases hop with ⟨kv, -, rfl⟩ | ⟨k, -, hk⟩
    · trivial
    · split at hk
      · cases hk
      · cases hk
        trivial

theorem budget_markCanonical_le : (db.markCanonical batch endEra canonId).1.budget ≤ db.budget := by
  have := journalSize_erase_le db.journalOverlay.journal endEra
  unfold budget
  rw [markCanonical_journal, markCanonical_transactionOverlay]
  omega

theorem consistent_markCanonical (h : db.journalOverlay.Consistent val) :
    (db.markCanonical batch endEra canonId).1.journalOverlay.Consistent val := by
  cases hl : db.journalOverlay.journal.lookup endEra with
  | none =>
    simp only [markCanonical, hl, erase_eq_self_of_lookup_eq_none _ hl]
    exact h
  | some records =>
    -- every insertion of the era is referenced: the journal counts it
    have hle : ∀ sk, ((records.flatMap JournalEntry.insertions).countP
        fun k ↦ toShortKey k = sk) ≤ shortCount db.journalOverlay.journal sk := fun sk ↦ by
      rw [shortCount_of_lookup _ _ hl]
      exact Nat.le_add_right _ _
    have h0 : ({ db.journalOverlay with
        pendingOverlay := (scanRecords db.journalOverlay.backingOverlay endEra canonId 0 records
          ⟨batch, [], [], []⟩).canonInsertions.foldl
            (fun p (kv : Vector UInt8 32 × Bytes) ↦ p.insert (toShortKey kv.1) kv.2)
            db.journalOverlay.pendingOverlay } : JournalOverlay).Tracks val
        (shortCount db.journalOverlay.journal) := h
    have htracks := JournalOverlay.Tracks.purgeNodes _ h0 hle
    have hcnt : shortCount (db.journalOverlay.journal.erase endEra) =
        fun sk ↦ shortCount db.journalOverlay.journal sk -
          (records.flatMap JournalEntry.insertions).countP fun k ↦ toShortKey k = sk := by
      funext sk
      rw [shortCount_of_lookup _ _ hl]
      simp only [eraCount]
      omega
    simp only [markCanonical, hl, scanRecords_overlayDeletions, List.nil_append]
    unfold JournalOverlay.Consistent
    simp only [JournalOverlay.foldl_purgeNode_journal]
    rw [hcnt]
    exact htracks

theorem mirrors_markCanonical {kv : KeyValueDB}
    (hm : Mirrors val db.journalOverlay (kv.write batch))
    (hmin : ∀ e ∈ db.journalOverlay.journal, endEra ≤ e) :
    Mirrors val (db.markCanonical batch endEra canonId).1.journalOverlay
      (kv.write (db.markCanonical batch endEra canonId).2) := by
  obtain ⟨nodeOps, hnode, hbatch⟩ := markCanonical_batch endEra canonId db batch
  obtain ⟨n, hn⟩ : ∃ n, ((db.journalOverlay.journal.lookup endEra).getD []).length = n := ⟨_, rfl⟩
  rw [hn] at hbatch
  obtain ⟨hrec, hlatest⟩ := KeyValueDB.write_nodeOps
    ((kv.write batch).write ((List.range' 0 n).map (DBOp.deleteRecord endEra))) nodeOps hnode
  -- what the batch leaves of the records: those of the retired era go
  have hlookup : ∀ p, (kv.write (db.markCanonical batch endEra canonId).2).records.lookup p =
      if p.1 = endEra ∧ 0 ≤ p.2 ∧ p.2 < 0 + n then none else (kv.write batch).records.lookup p := by
    intro p
    rw [hbatch, KeyValueDB.write_append, KeyValueDB.write_append, hrec,
      KeyValueDB.write_deleteRecords]
  refine ⟨fun e i ↦ ?_, fun p r hp ↦ ?_, fun e es he ↦ ?_, ?_, ?_⟩
  · rw [hlookup, markCanonical_journal]
    by_cases he : e = endEra
    · -- no record of the retired era is left
      rw [he, AList.lookup_erase, Option.bind_none]
      split
      · rfl
      · next hout =>
        have hi : n ≤ i := by
          simp only [true_and, Nat.zero_le, Nat.zero_add] at hout
          omega
        have hnone : (db.journalOverlay.journal.lookup endEra).bind (·[i]?) = none := by
          cases hl : db.journalOverlay.journal.lookup endEra with
          | none => rfl
          | some records =>
            rw [hl, Option.getD_some] at hn
            exact List.getElem?_eq_none (hn ▸ hi)
        rw [hm.records, hnone]
    · rw [if_neg (fun h ↦ he h.1), AList.lookup_erase_ne he, hm.records]
  · rw [hlookup] at hp
    split at hp
    · cases hp
    · exact hm.values p r hp
  · rw [markCanonical_journal] at he
    by_cases he' : e = endEra
    · rw [he', AList.lookup_erase] at he
      cases he
    · rw [AList.lookup_erase_ne he'] at he
      exact hm.nonempty e es he
  · rw [hbatch, KeyValueDB.write_append, KeyValueDB.write_append, hlatest,
      KeyValueDB.write_deleteRecords_latestEra, hm.latestEra, markCanonical_latestEra]
  · have hmem : (· ∈ (db.markCanonical batch endEra canonId).1.journalOverlay.journal) =
        fun e ↦ e ≠ endEra ∧ e ∈ db.journalOverlay.journal := by
      funext e
      rw [markCanonical_journal]
      exact propext (AList.mem_erase)
    rw [hmem, markCanonical_latestEra]
    exact hm.contiguous.erase_min hmin

end MarkCanonical

/-! ## Runs -/

/-- The invariant of an admissible run: the transaction overlay's live values fit their short
keys, the backing overlay is consistent with the journal, the database holds the journal, and
nothing is pending. -/
structure Invariant (val : Vector UInt8 32 → Bytes) (db : OverlayRecentDB) : Prop where
  transaction : db.transactionOverlay.LiveValues (FitsShortKey val)
  consistent : db.journalOverlay.Consistent val
  mirrors : Mirrors val db.journalOverlay db.backing
  pending : db.journalOverlay.pendingOverlay = ∅

/-- The premises of an operation: an inserted value is the one `val` gives its short key, and a
commit journals an era next to the journal's run and retires none above a journalled era. -/
def Admits (blake2b : Bytes → Vector UInt8 32) (val : Vector UInt8 32 → Bytes)
    (db : OverlayRecentDB) : Op → Prop
  | .emplace key value => value ≠ nullRlp → value = val (toShortKey key)
  | .insert value => value ≠ nullRlp → value = val (toShortKey (blake2b value))
  | .remove _ => True
  | .commitBatch now _ canonical =>
    db.journalOverlay.AdmitsEra now ∧
      ∀ c ∈ canonical, c.1 ≤ now ∧ ∀ e ∈ db.journalOverlay.journal.keys, c.1 ≤ e

/-- Every operation of the run is admissible in the state it meets. -/
def AdmissibleRun (blake2b : Bytes → Vector UInt8 32) (val : Vector UInt8 32 → Bytes) :
    OverlayRecentDB → List Op → Prop
  | _, [] => True
  | db, op :: ops => Admits blake2b val db op ∧ AdmissibleRun blake2b val (db.step blake2b op) ops

instance (jo : JournalOverlay) (now : ℕ) : Decidable (jo.AdmitsEra now) :=
  inferInstanceAs (Decidable (_ ∧ _))

instance (blake2b : Bytes → Vector UInt8 32) (val : Vector UInt8 32 → Bytes)
    (db : OverlayRecentDB) : (op : Op) → Decidable (Admits blake2b val db op)
  | .emplace _ _ => inferInstanceAs (Decidable (_ → _))
  | .insert _ => inferInstanceAs (Decidable (_ → _))
  | .remove _ => inferInstanceAs (Decidable True)
  | .commitBatch _ _ _ => inferInstanceAs (Decidable (_ ∧ _))

/-- Whether a run is admissible, decided operation by operation. -/
def decideAdmissibleRun (blake2b : Bytes → Vector UInt8 32) (val : Vector UInt8 32 → Bytes) :
    (db : OverlayRecentDB) → (ops : List Op) → Decidable (AdmissibleRun blake2b val db ops)
  | _, [] => isTrue trivial
  | db, op :: ops =>
    have := decideAdmissibleRun blake2b val (db.step blake2b op) ops
    inferInstanceAs (Decidable (_ ∧ _))

instance (blake2b : Bytes → Vector UInt8 32) (val : Vector UInt8 32 → Bytes)
    (db : OverlayRecentDB) (ops : List Op) : Decidable (AdmissibleRun blake2b val db ops) :=
  decideAdmissibleRun blake2b val db ops

theorem invariant_new : Invariant val (new .empty) where
  transaction := MemoryDB.liveValues_new
  consistent := JournalOverlay.consistent_empty
  mirrors :=
    { records := fun _ _ ↦ rfl
      values := fun _ _ hp ↦ by cases hp
      nonempty := fun _ _ he ↦ by cases he
      latestEra := rfl
      contiguous := fun _ he ↦ by cases he }
  pending := rfl

/-- A commit journals no more than the transaction overlay's references, and retires records. -/
theorem budget_commitBatch_le (db : OverlayRecentDB) (now : ℕ) (id : Vector UInt8 32) :
    ∀ canonical : Option (ℕ × Vector UInt8 32), (db.commitBatch now id canonical).budget ≤ db.budget
  | none => budget_journalUnder_le db [] now id
  | some (endEra, canonId) =>
    (budget_markCanonical_le endEra canonId _ _).trans (budget_journalUnder_le db [] now id)

/-- The step lemma of the budget: an operation adds at most one to it. -/
theorem budget_step_le (blake2b : Bytes → Vector UInt8 32) (db : OverlayRecentDB) :
    ∀ op : Op, (db.step blake2b op).budget ≤ db.budget + 1
  | .emplace key value => by
    have := db.transactionOverlay.references_emplace_le key value
    unfold budget
    exact Nat.add_assoc _ _ 1 ▸ Nat.add_le_add_left this _
  | .insert value => by
    have := db.transactionOverlay.insert_references_le blake2b value
    unfold budget
    exact Nat.add_assoc _ _ 1 ▸ Nat.add_le_add_left this _
  | .remove key => by
    have := db.transactionOverlay.references_remove_le key
    unfold budget
    exact Nat.add_assoc _ _ 1 ▸ Nat.add_le_add_left this _
  | .commitBatch now id canonical => Nat.le_succ_of_le (budget_commitBatch_le db now id canonical)

/-- The run lemma of the budget: a run adds at most its length. -/
theorem budget_run_le (blake2b : Bytes → Vector UInt8 32) :
    ∀ (db : OverlayRecentDB) (ops : List Op), (db.run blake2b ops).budget ≤ db.budget + ops.length
  | _, [] => Nat.le_refl _
  | db, op :: ops => by
    have hstep := budget_step_le blake2b db op
    have hrest := budget_run_le blake2b (db.step blake2b op) ops
    show ((db.step blake2b op).run blake2b ops).budget ≤ _
    rw [List.length_cons]
    omega

/-- A commit journals its era and retires the one it names, keeping the invariant. -/
theorem Invariant.commitBatch {db : OverlayRecentDB} (h : Invariant val db)
    (hb : db.budget < 2 ^ 31) {now : ℕ} {id : Vector UInt8 32}
    {canonical : Option (ℕ × Vector UInt8 32)} (hera : db.journalOverlay.AdmitsEra now)
    (hcanon : ∀ c ∈ canonical, c.1 ≤ now ∧ ∀ e ∈ db.journalOverlay.journal.keys, c.1 ≤ e) :
    Invariant val (db.commitBatch now id canonical) := by
  have hc := consistent_journalUnder db [] now id h.consistent h.transaction hb
  have hm := mirrors_journalUnder db now id h.mirrors h.transaction hera
  cases canonical with
  | none => exact ⟨MemoryDB.liveValues_new, hc, hm.congr rfl rfl, rfl⟩
  | some c =>
    obtain ⟨endEra, canonId⟩ := c
    obtain ⟨hnow, hmin⟩ := hcanon _ rfl
    -- the retired era is not above any journalled era, the one just journalled included
    have hmin' : ∀ e ∈ (db.journalUnder [] now id).1.journalOverlay.journal, endEra ≤ e := by
      intro e he
      rw [journalUnder_journal, AList.mem_insert] at he
      rcases he with rfl | he
      · exact hnow
      · exact hmin e (AList.mem_keys.mpr he)
    refine ⟨?_, consistent_markCanonical endEra canonId _ _ hc, ?_, rfl⟩
    · show ((db.journalUnder [] now id).1.markCanonical (db.journalUnder [] now id).2 endEra
        canonId).1.transactionOverlay.LiveValues (FitsShortKey val)
      rw [markCanonical_transactionOverlay]
      exact MemoryDB.liveValues_new
    · show Mirrors val _ (((db.journalUnder [] now id).1.markCanonical (db.journalUnder [] now id).2
        endEra canonId).1.backing.write _)
      rw [markCanonical_backing]
      exact (mirrors_markCanonical endEra canonId _ _ hm hmin').congr rfl rfl

/-- Within the budget no count of the transaction overlay is `i32::MIN`. -/
theorem count_ne_minValue_of_budget {db : OverlayRecentDB} (hb : db.budget < 2 ^ 31)
    (key : Vector UInt8 32) : db.transactionOverlay.count key ≠ Int32.minValue :=
  db.transactionOverlay.count_ne_minValue (by unfold budget at hb; omega) key

/-- An admissible operation within the budget keeps the invariant. -/
theorem Invariant.step {blake2b : Bytes → Vector UInt8 32} {db : OverlayRecentDB}
    (h : Invariant val db) (hb : db.budget < 2 ^ 31) :
    ∀ {op : Op}, Admits blake2b val db op → Invariant val (db.step blake2b op)
  | .emplace key _, ha =>
    ⟨h.transaction.emplace key fun hnull ↦ ⟨hnull, ha hnull⟩, h.consistent, h.mirrors, h.pending⟩
  | .insert _, ha =>
    ⟨h.transaction.insert blake2b fun hnull ↦ ⟨hnull, ha hnull⟩, h.consistent, h.mirrors,
      h.pending⟩
  | .remove key, _ =>
    ⟨h.transaction.remove key (count_ne_minValue_of_budget hb key), h.consistent, h.mirrors,
      h.pending⟩
  | .commitBatch _ _ _, ⟨hera, hcanon⟩ => h.commitBatch hb hera hcanon

/-- An admissible run keeps the invariant while its operations fit in what is left of the budget
below `2³¹`. -/
theorem Invariant.run {blake2b : Bytes → Vector UInt8 32} (ops : List Op) :
    ∀ {db : OverlayRecentDB}, Invariant val db → db.budget + ops.length < 2 ^ 31 →
      AdmissibleRun blake2b val db ops → Invariant val (db.run blake2b ops) := by
  induction ops with
  | nil => exact fun h _ _ ↦ h
  | cons op ops ih =>
    intro db h hb hrun
    obtain ⟨ha, hrest⟩ := hrun
    rw [List.length_cons] at hb
    -- the operation adds at most one to the budget
    have hstep := budget_step_le blake2b db op
    exact ih (h.step (by omega) ha) (by omega) hrest

end OverlayRecentDB

/-- Along an admissible run of fewer than `2³¹` operations from an empty database, the overlay
kept in memory is the one that `read_overlay` rebuilds from the database. -/
theorem canReconstructRefs_admissibleRun (blake2b : Bytes → Vector UInt8 32)
    (val : Vector UInt8 32 → Bytes) (ops : List OverlayRecentDB.Op) (hlen : ops.length < 2 ^ 31)
    (h : OverlayRecentDB.AdmissibleRun blake2b val (.new .empty) ops) :
    (OverlayRecentDB.run blake2b (.new .empty) ops).canReconstructRefs = true := by
  have hinv := OverlayRecentDB.Invariant.run ops OverlayRecentDB.invariant_new
    (by rw [OverlayRecentDB.budget_new, Nat.zero_add]; exact hlen) h
  exact canReconstructRefs_of_mirrors hinv.consistent hinv.mirrors hinv.pending

/-- Two forks in era 1, one of them inserting again a key of era 0, and era 0 retired. -/
def forkedRun : List OverlayRecentDB.Op :=
  [.emplace (collidingKey 1) [1], .commitBatch 0 (collidingKey 10) none,
    .emplace (collidingKey 1) [1], .commitBatch 1 (collidingKey 11) none,
    .emplace (Vector.replicate 32 2) [2], .commitBatch 1 (collidingKey 12) none,
    .remove (collidingKey 1), .commitBatch 2 (collidingKey 13) (some (0, collidingKey 10))]

/-- The values of `forkedRun`, by short key. -/
def forkedRunValue (sk : Vector UInt8 32) : Bytes :=
  if sk = toShortKey (Vector.replicate 32 2) then [2] else [1]

theorem canReconstructRefs_forkedRun :
    forkedRun.length < 2 ^ 31 ∧
      OverlayRecentDB.AdmissibleRun (fun _ ↦ Vector.replicate 32 0) forkedRunValue (.new .empty)
        forkedRun ∧
      (OverlayRecentDB.run (fun _ ↦ Vector.replicate 32 0) (.new .empty) forkedRun).canReconstructRefs =
        true :=
  have hlen : forkedRun.length < 2 ^ 31 := by decide
  have h : OverlayRecentDB.AdmissibleRun (fun _ ↦ Vector.replicate 32 0) forkedRunValue (.new .empty)
      forkedRun := by decide
  ⟨hlen, h, canReconstructRefs_admissibleRun _ _ _ hlen h⟩

end AionR
