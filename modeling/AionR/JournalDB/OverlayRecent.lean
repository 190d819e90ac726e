import Mathlib.Data.List.AList
import AionR.JournalDB.MemoryDB

/-!
# The journal database over an in-memory overlay

`OverlayRecentDB` (`src/db/journaldb/src/overlayrecentdb.rs`) keeps the state trie's nodes of its
history period in memory. Each commit is written as a journal record under its era and an index:
`journal_under` writes the record of the transaction overlay's insertions and removals and adds the
insertions to the `backing_overlay`, where a node is counted under its short key, the first
`DB_PREFIX_LEN` bytes of its key. `mark_canonical` retires an era: it deletes the era's records,
writes the canonical record's nodes to the database and takes every record's insertions off the
overlay. `read_overlay` rebuilds the overlay from the database alone, walking the eras down from
the latest one until it meets one with no records.

## The backing database

The journal writes three kinds of keys to its column: 32-byte node keys, the 12-byte
`LATEST_ERA_KEY`, and record keys, the RLP list of an era, an index and ten bytes of padding, which
are between 14 and 30 bytes long. The kinds never meet, so `KeyValueDB` keeps one map for each, and
keeps a record as the record it encodes and the latest era as its number: what `read_overlay`
decodes them to.
-/

namespace AionR

/-- `DB_PREFIX_LEN`. -/
def dbPrefixLen : ℕ := 12

/-- `to_short_key`: the first `DB_PREFIX_LEN` bytes of the key, then zeros. -/
def toShortKey (key : Vector UInt8 32) : Vector UInt8 32 :=
  Vector.ofFn fun i ↦ if i.val < dbPrefixLen then key[i] else 0

/-- A short key ends in zeros, and `BLAKE2B_NULL_RLP` does not: the overlay never meets the key
that `MemoryDB` treats as always present. -/
theorem toShortKey_ne_blake2bNullRlp (key : Vector UInt8 32) : toShortKey key ≠ blake2bNullRlp := by
  intro h
  have h12 := congrArg (fun v : Vector UInt8 32 ↦ v[12]) h
  simp [toShortKey, dbPrefixLen, blake2bNullRlp] at h12

/-- `JournalEntry`: a commit of the history period, with the keys it inserted and removed. -/
structure JournalEntry where
  id : Vector UInt8 32
  insertions : List (Vector UInt8 32)
  deletions : List (Vector UInt8 32)
  deriving DecidableEq

/-- A journal record as `journal_under` writes it: the commit's id, the inserted keys with their
values, and the removed keys. -/
structure JournalRecord where
  id : Vector UInt8 32
  insertions : List (Vector UInt8 32 × Bytes)
  deletions : List (Vector UInt8 32)
  deriving DecidableEq

/-- The entry that `read_overlay` makes of a record. -/
def JournalRecord.entry (r : JournalRecord) : JournalEntry :=
  ⟨r.id, r.insertions.map Prod.fst, r.deletions⟩

/-- The journal's column of the key-value database. -/
structure KeyValueDB where
  data : AList (fun _ : Vector UInt8 32 ↦ Bytes)
  records : AList (fun _ : ℕ × ℕ ↦ JournalRecord)
  latestEra : Option ℕ

/-- The operations of a `DBTransaction` that the journal makes. -/
inductive DBOp where
  | put (key : Vector UInt8 32) (value : Bytes)
  | delete (key : Vector UInt8 32)
  | putRecord (era index : ℕ) (record : JournalRecord)
  | deleteRecord (era index : ℕ)
  | putLatestEra (era : ℕ)

namespace KeyValueDB

/-- A database with nothing in the journal's column. -/
def empty : KeyValueDB := ⟨∅, ∅, none⟩

/-- One operation of a transaction. -/
def apply (db : KeyValueDB) : DBOp → KeyValueDB
  | .put key value => { db with data := db.data.insert key value }
  | .delete key => { db with data := db.data.erase key }
  | .putRecord era index record => { db with records := db.records.insert (era, index) record }
  | .deleteRecord era index => { db with records := db.records.erase (era, index) }
  | .putLatestEra era => { db with latestEra := some era }

/-- `write`: a transaction's operations, in order. -/
def write (db : KeyValueDB) (batch : List DBOp) : KeyValueDB := batch.foldl apply db

@[simp] theorem write_nil (db : KeyValueDB) : db.write [] = db := rfl

@[simp] theorem write_cons (db : KeyValueDB) (op : DBOp) (batch : List DBOp) :
    db.write (op :: batch) = (db.apply op).write batch := rfl

@[simp] theorem write_append (db : KeyValueDB) (batch batch' : List DBOp) :
    db.write (batch ++ batch') = (db.write batch).write batch' := List.foldl_append

end KeyValueDB

/-- `JournalOverlay`. -/
structure JournalOverlay where
  /-- The nodes inserted in the history period, under their short keys. -/
  backingOverlay : MemoryDB
  /-- The nodes on their way from `backing_overlay` to the database. -/
  pendingOverlay : AList (fun _ : Vector UInt8 32 ↦ Bytes)
  journal : AList (fun _ : ℕ ↦ List JournalEntry)
  latestEra : Option ℕ
  earliestEra : Option ℕ
  /-- The total size of the values in `backing_overlay`, as the journal counts it. -/
  cumulativeSize : ℕ

namespace JournalOverlay

def empty : JournalOverlay := ⟨MemoryDB.new, ∅, ∅, none, none, 0⟩

/-- The step that `journal_under` and `read_overlay` both take for an inserted node: count its
size when its short key is new, and add a reference to it. -/
def insertNode (jo : JournalOverlay) (k : Vector UInt8 32) (v : Bytes) : JournalOverlay :=
  { jo with
    cumulativeSize :=
      if jo.backingOverlay.contains (toShortKey k) then jo.cumulativeSize
      else jo.cumulativeSize + v.length
    backingOverlay := jo.backingOverlay.emplace (toShortKey k) v }

/-- `journal.entry(era).or_insert_with(Vec::new).push(entry)`. -/
def pushEntry (jo : JournalOverlay) (era : ℕ) (entry : JournalEntry) : JournalOverlay :=
  { jo with journal := jo.journal.insert era ((jo.journal.lookup era).getD [] ++ [entry]) }

/-- The step of `mark_canonical` for a key of a retired record: drop a reference to it, and take
the size of a purged value off the total. -/
def purgeNode (jo : JournalOverlay) (k : Vector UInt8 32) : JournalOverlay :=
  match jo.backingOverlay.removeAndPurge (toShortKey k) with
  | (overlay, some val) =>
    { jo with backingOverlay := overlay, cumulativeSize := jo.cumulativeSize - val.length }
  | (overlay, none) => { jo with backingOverlay := overlay }

@[simp] theorem insertNode_backingOverlay (jo : JournalOverlay) (k : Vector UInt8 32) (v : Bytes) :
    (jo.insertNode k v).backingOverlay = jo.backingOverlay.emplace (toShortKey k) v := by
  simp only [insertNode]

@[simp] theorem insertNode_cumulativeSize (jo : JournalOverlay) (k : Vector UInt8 32) (v : Bytes) :
    (jo.insertNode k v).cumulativeSize =
      if jo.backingOverlay.contains (toShortKey k) then jo.cumulativeSize
      else jo.cumulativeSize + v.length := by
  simp only [insertNode]

@[simp] theorem insertNode_journal (jo : JournalOverlay) (k : Vector UInt8 32) (v : Bytes) :
    (jo.insertNode k v).journal = jo.journal := by
  simp only [insertNode]

@[simp] theorem pushEntry_journal (jo : JournalOverlay) (era : ℕ) (entry : JournalEntry) :
    (jo.pushEntry era entry).journal =
      jo.journal.insert era ((jo.journal.lookup era).getD [] ++ [entry]) := rfl

@[simp] theorem pushEntry_backingOverlay (jo : JournalOverlay) (era : ℕ) (entry : JournalEntry) :
    (jo.pushEntry era entry).backingOverlay = jo.backingOverlay := rfl

@[simp] theorem pushEntry_cumulativeSize (jo : JournalOverlay) (era : ℕ) (entry : JournalEntry) :
    (jo.pushEntry era entry).cumulativeSize = jo.cumulativeSize := rfl

end JournalOverlay

/-! ## Reading the overlay back -/

/-- One record read back: its insertions, then its entry. -/
def replayRecord (era : ℕ) (r : JournalRecord) (acc : JournalOverlay) : JournalOverlay :=
  let acc := r.insertions.foldl (fun acc kv ↦ acc.insertNode kv.1 kv.2) acc
  { acc.pushEntry era r.entry with earliestEra := some era }

/-- The inner loop of `read_overlay`: the records of `era` from `index` on, until one is missing,
returning the index of the first missing one. The fuel is the number of records in the database,
which no run of the loop reaches. -/
def readRecords (db : KeyValueDB) (era : ℕ) : ℕ → ℕ → JournalOverlay → JournalOverlay × ℕ
  | 0, index, acc => (acc, index)
  | fuel + 1, index, acc =>
    match db.records.lookup (era, index) with
    | some r => readRecords db era fuel (index + 1) (replayRecord era r acc)
    | none => (acc, index)

/-- The outer loop of `read_overlay`: the eras from `era` down, until one has no records or era 0
has been read. -/
def readEras (db : KeyValueDB) : ℕ → JournalOverlay → JournalOverlay
  | 0, acc => (readRecords db 0 db.records.entries.length 0 acc).1
  | era + 1, acc =>
    let read := readRecords db (era + 1) db.records.entries.length 0 acc
    if read.2 = 0 then read.1 else readEras db era read.1

/-- `read_overlay`. -/
def readOverlay (db : KeyValueDB) : JournalOverlay :=
  match db.latestEra with
  | some era => readEras db era { JournalOverlay.empty with latestEra := some era }
  | none => JournalOverlay.empty

/-! ## The journal database -/

/-- `OverlayRecentDB`. -/
structure OverlayRecentDB where
  transactionOverlay : MemoryDB
  backing : KeyValueDB
  journalOverlay : JournalOverlay

/-- What `mark_canonical` gathers from the records of the era it retires. -/
structure CanonScan where
  batch : List DBOp
  canonInsertions : List (Vector UInt8 32 × Bytes)
  canonDeletions : List (Vector UInt8 32)
  overlayDeletions : List (Vector UInt8 32)

/-- The loop of `mark_canonical` over the records of `endEra`: delete each from the database,
collect the canonical record's live insertions and its deletions, and every record's insertions. -/
def scanRecords (overlay : MemoryDB) (endEra : ℕ) (canonId : Vector UInt8 32) :
    ℕ → List JournalEntry → CanonScan → CanonScan
  | _, [], acc => acc
  | index, journal :: rest, acc =>
    let canonical := canonId = journal.id
    scanRecords overlay endEra canonId (index + 1) rest
      { acc with
        batch := acc.batch ++ [DBOp.deleteRecord endEra index]
        canonInsertions :=
          if canonical then
            acc.canonInsertions ++ journal.insertions.filterMap fun h ↦
              match overlay.raw (toShortKey h) with
              | some (d, rc) => if 0 < rc then some (h, d) else none
              | none => none
          else acc.canonInsertions
        canonDeletions := if canonical then journal.deletions else acc.canonDeletions
        overlayDeletions := acc.overlayDeletions ++ journal.insertions }

namespace OverlayRecentDB

/-- `new`: the overlay is read from the database. -/
def new (backing : KeyValueDB) : OverlayRecentDB := ⟨MemoryDB.new, backing, readOverlay backing⟩

/-- `can_reconstruct_refs`: the overlay is the one `read_overlay` rebuilds from the database. -/
def canReconstructRefs (db : OverlayRecentDB) : Bool :=
  let reconstructed := readOverlay db.backing
  let jo := db.journalOverlay
  mapEq jo.backingOverlay.data reconstructed.backingOverlay.data &&
    mapEq jo.pendingOverlay reconstructed.pendingOverlay &&
    mapEq jo.journal reconstructed.journal &&
    decide (jo.latestEra = reconstructed.latestEra) &&
    decide (jo.cumulativeSize = reconstructed.cumulativeSize)

/-- `HashStore::emplace`. -/
def emplace (db : OverlayRecentDB) (key : Vector UInt8 32) (value : Bytes) : OverlayRecentDB :=
  { db with transactionOverlay := db.transactionOverlay.emplace key value }

/-- `HashStore::insert`. -/
def insert (blake2b : Bytes → Vector UInt8 32) (db : OverlayRecentDB) (value : Bytes) :
    OverlayRecentDB × Vector UInt8 32 :=
  let inserted := db.transactionOverlay.insert blake2b value
  ({ db with transactionOverlay := inserted.1 }, inserted.2)

/-- `HashStore::remove`. -/
def remove (db : OverlayRecentDB) (key : Vector UInt8 32) : OverlayRecentDB :=
  { db with transactionOverlay := db.transactionOverlay.remove key }

/-- `payload`: the value the database holds under the full key. -/
def payload (db : OverlayRecentDB) (key : Vector UInt8 32) : Option Bytes :=
  db.backing.data.lookup key

/-- `HashStore::get`: a live value of the transaction overlay; failing that the backing overlay,
then the pending overlay, under the short key; failing those the database. -/
def get (db : OverlayRecentDB) (key : Vector UInt8 32) : Option Bytes :=
  let v :=
    (db.journalOverlay.backingOverlay.get (toShortKey key)).or
      (db.journalOverlay.pendingOverlay.lookup (toShortKey key))
  match db.transactionOverlay.raw key with
  | some (d, rc) => if 0 < rc then some d else v.or (db.payload key)
  | none => v.or (db.payload key)

/-- The transaction overlay's insertions, its entries with a positive count, with their values. -/
def txInsertions (tx : MemoryDB) : List (Vector UInt8 32 × Bytes) :=
  tx.data.entries.filterMap fun e ↦ if 0 < e.2.2 then some (e.1, e.2.1) else none

/-- The keys of the transaction overlay's insertions. -/
def txInsertedKeys (tx : MemoryDB) : List (Vector UInt8 32) :=
  tx.data.entries.filterMap fun e ↦ if 0 < e.2.2 then some e.1 else none

/-- The transaction overlay's removals, its keys with a negative count. -/
def txRemovedKeys (tx : MemoryDB) : List (Vector UInt8 32) :=
  tx.data.entries.filterMap fun e ↦ if e.2.2 < 0 then some e.1 else none

/-- `journal_under`: write the transaction overlay's insertions and removals as a record of `id`
in era `now`, add the insertions to the backing overlay, and clear the transaction overlay. -/
def journalUnder (db : OverlayRecentDB) (batch : List DBOp) (now : ℕ) (id : Vector UInt8 32) :
    OverlayRecentDB × List DBOp :=
  -- flush previous changes
  let jo := { db.journalOverlay with pendingOverlay := ∅ }
  let tx := db.transactionOverlay
  let jo := (txInsertions tx).foldl (fun jo kv ↦ jo.insertNode kv.1 kv.2) jo
  let index := ((jo.journal.lookup now).map List.length).getD 0
  let batch := batch ++ [.putRecord now index ⟨id, txInsertions tx, txRemovedKeys tx⟩]
  let newLatest := jo.latestEra.all (now > ·)
  let batch := if newLatest then batch ++ [.putLatestEra now] else batch
  let jo := { jo with
    latestEra := if newLatest then some now else jo.latestEra
    earliestEra := if jo.earliestEra.all (· > now) then some now else jo.earliestEra }
  let jo := jo.pushEntry now ⟨id, txInsertedKeys tx, txRemovedKeys tx⟩
  ({ db with transactionOverlay := MemoryDB.new, journalOverlay := jo }, batch)

/-- `mark_canonical`: retire the records of `endEra`; those of `canonId` go to the database. -/
def markCanonical (db : OverlayRecentDB) (batch : List DBOp) (endEra : ℕ)
    (canonId : Vector UInt8 32) : OverlayRecentDB × List DBOp :=
  let jo := db.journalOverlay
  let (jo, batch) :=
    match jo.journal.lookup endEra with
    | some records =>
      let scan := scanRecords jo.backingOverlay endEra canonId 0 records ⟨batch, [], [], []⟩
      -- apply canon inserts first
      let batch :=
        scan.batch ++ scan.canonInsertions.map fun (kv : Vector UInt8 32 × Bytes) ↦ DBOp.put kv.1 kv.2
      let jo := { jo with
        pendingOverlay :=
          scan.canonInsertions.foldl (fun p (kv : Vector UInt8 32 × Bytes) ↦ p.insert (toShortKey kv.1) kv.2)
            jo.pendingOverlay }
      -- update the overlay
      let jo := scan.overlayDeletions.foldl JournalOverlay.purgeNode jo
      -- apply canon deletions
      let batch := batch ++ scan.canonDeletions.filterMap fun k ↦
        if jo.backingOverlay.contains (toShortKey k) then none else some (DBOp.delete k)
      (jo, batch)
    | none => (jo, batch)
  let jo := { jo with journal := jo.journal.erase endEra }
  let jo := { jo with
    earliestEra := if jo.journal.entries.isEmpty then jo.earliestEra else some (endEra + 1) }
  ({ db with journalOverlay := jo }, batch)

/-- `flush`. -/
def flush (db : OverlayRecentDB) : OverlayRecentDB :=
  { db with journalOverlay := { db.journalOverlay with pendingOverlay := ∅ } }

/-- `commit_batch`: journal the block of `id` in era `now`, retire the era of `canonical` (the
source's `end`) if there is one, write the batch and flush. -/
def commitBatch (db : OverlayRecentDB) (now : ℕ) (id : Vector UInt8 32)
    (canonical : Option (ℕ × Vector UInt8 32)) : OverlayRecentDB :=
  let journalled := db.journalUnder [] now id
  let retired :=
    match canonical with
    | some (endEra, canonId) => journalled.1.markCanonical journalled.2 endEra canonId
    | none => journalled
  flush { retired.1 with backing := retired.1.backing.write retired.2 }

/-- The operations of a run: the `HashStore` writes of a block, and `commit_batch`. -/
inductive Op where
  | emplace (key : Vector UInt8 32) (value : Bytes)
  | insert (value : Bytes)
  | remove (key : Vector UInt8 32)
  | commitBatch (now : ℕ) (id : Vector UInt8 32) (canonical : Option (ℕ × Vector UInt8 32))

/-- One operation. -/
def step (blake2b : Bytes → Vector UInt8 32) (db : OverlayRecentDB) : Op → OverlayRecentDB
  | .emplace key value => db.emplace key value
  | .insert value => (db.insert blake2b value).1
  | .remove key => db.remove key
  | .commitBatch now id canonical => db.commitBatch now id canonical

/-- A run of operations. -/
def run (blake2b : Bytes → Vector UInt8 32) (db : OverlayRecentDB) (ops : List Op) :
    OverlayRecentDB :=
  ops.foldl (step blake2b) db

end OverlayRecentDB

/-! ## Keys that share a short key -/

/-- Two keys that differ only in their last byte. -/
def collidingKey (last : UInt8) : Vector UInt8 32 :=
  Vector.ofFn fun i ↦ if i.val < 31 then 1 else last

/-- Two blocks in eras 0 and 1 insert different values under keys that share a short key, and the
second commit retires era 0. The overlay keeps the first value, which `emplace` does not replace
while it is referenced and which outlives era 0 because a reference remains, and counts its size
once; `read_overlay` sees only era 1, so it keeps the second value and counts the second size. -/
theorem canReconstructRefs_shortKeyCollision :
    (((((OverlayRecentDB.new .empty).emplace (collidingKey 1) [1]).commitBatch 0 (collidingKey 0)
      none).emplace (collidingKey 2) [2, 2]).commitBatch 1 (collidingKey 3)
        (some (0, collidingKey 0))).canReconstructRefs = false := by
  decide

end AionR
