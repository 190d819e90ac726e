import Mathlib.Data.List.AList
import AionR.JournalDB.OverlayRecent
import AionR.Lib.Contiguous

/-!
# Reading the journal back

`can_reconstruct_refs` asks that the overlay `OverlayRecentDB` keeps in memory be the one that
`read_overlay` rebuilds from the database alone. The two build it differently: the database is
written one commit at a time, each commit's insertions entering the overlay as it is journalled,
while `read_overlay` replays the records era by era from the latest one down.

## Counts

Both paths keep the overlay `Consistent`: it holds, under each short key, one reference for each
journalled insertion with that short key (`shortCount`), with the value `val` gives the short key,
and `cumulative_size` is the size of what it holds (`JournalOverlay.Tracks`). The counts are below
`2³¹`, where the `i32` reference count reads as the number it counts. Such an overlay is determined
by its journal, so two consistent overlays with the same journal agree, sizes included. Replaying
records only adds counts, so the journal's bound covers every overlay `read_overlay` builds on the
way (`ReadFrom.shortCount_add_eraCount_le`).
The value has to be a function of the short key: `emplace` keeps the first value it is given while
the key is referenced, and the two paths insert in different orders.

## The database

`Mirrors val jo db` says that the database holds the journal record for record, that the two agree
on the latest era, and that the journal's eras are a run up to it. `read_overlay` stops at the
first era with no records, so the run is what lets it reach every record (`readOverlay_readFrom`).
A commit keeps the run when it journals an era next to the run (`JournalOverlay.AdmitsEra`) and
retires the earliest era.
-/

namespace AionR

/-- `v` is the value that `val` gives the short key of `k`, and not `NULL_RLP`. -/
def FitsShortKey (val : Vector UInt8 32 → Bytes) (k : Vector UInt8 32) (v : Bytes) : Prop :=
  v ≠ nullRlp ∧ v = val (toShortKey k)

/-! ## Counting the journalled insertions -/

/-- The insertions of an era's entries under the short key `sk`. -/
def eraCount (es : List JournalEntry) (sk : Vector UInt8 32) : ℕ :=
  (es.flatMap JournalEntry.insertions).countP fun k ↦ toShortKey k = sk

/-- The journalled insertions under the short key `sk`. -/
def shortCount (journal : AList (fun _ : ℕ ↦ List JournalEntry)) (sk : Vector UInt8 32) : ℕ :=
  (journal.entries.map fun e ↦ eraCount e.2 sk).sum

section Counts

variable (journal : AList (fun _ : ℕ ↦ List JournalEntry)) (sk : Vector UInt8 32)

theorem eraCount_append_singleton (es : List JournalEntry) (e : JournalEntry) :
    eraCount (es ++ [e]) sk = eraCount es sk + e.insertions.countP fun k ↦ toShortKey k = sk := by
  simp only [eraCount, List.flatMap_append, List.countP_append, List.flatMap_cons,
    List.flatMap_nil, List.append_nil]

theorem shortCount_empty : shortCount ∅ sk = 0 := rfl

theorem shortCount_of_lookup {era : ℕ} {es : List JournalEntry} (h : journal.lookup era = some es) :
    shortCount journal sk = eraCount es sk + shortCount (journal.erase era) sk :=
  sum_entries_of_lookup _ h

theorem shortCount_insert (era : ℕ) (es : List JournalEntry) :
    shortCount (journal.insert era es) sk = eraCount es sk + shortCount (journal.erase era) sk :=
  sum_entries_insert _ journal era es

theorem shortCount_congr {journal' : AList (fun _ : ℕ ↦ List JournalEntry)}
    (h : ∀ e, journal.lookup e = journal'.lookup e) : shortCount journal = shortCount journal' :=
  funext fun _ ↦ sum_entries_congr _ h

/-- A journal whose eras another journal holds counts no more than it. -/
theorem shortCount_le_of_lookup {journal' : AList (fun _ : ℕ ↦ List JournalEntry)}
    (h : ∀ e es, journal.lookup e = some es → journal'.lookup e = some es) :
    shortCount journal sk ≤ shortCount journal' sk :=
  sum_entries_le_of_lookup _ h

/-- The insertions of the entries read back from records. -/
theorem eraCount_map_entry (rs : List JournalRecord) :
    eraCount (rs.map JournalRecord.entry) sk =
      (rs.flatMap JournalRecord.insertions).countP fun kv ↦ toShortKey kv.1 = sk := by
  induction rs with
  | nil => rfl
  | cons r rs ih =>
    rw [List.map_cons, List.flatMap_cons, List.countP_append, ← ih]
    simp only [eraCount, List.flatMap_cons, List.countP_append, JournalRecord.entry,
      List.countP_map, Function.comp_def]

end Counts

namespace JournalOverlay

/-- Pushing an entry adds its insertions to the counts. -/
theorem shortCount_pushEntry (jo : JournalOverlay) (era : ℕ) (entry : JournalEntry)
    (sk : Vector UInt8 32) :
    shortCount (jo.pushEntry era entry).journal sk =
      shortCount jo.journal sk + entry.insertions.countP fun k ↦ toShortKey k = sk := by
  rw [pushEntry_journal, shortCount_insert, eraCount_append_singleton]
  cases h : jo.journal.lookup era with
  | none =>
    rw [erase_eq_self_of_lookup_eq_none _ h, Option.getD_none]
    simp only [eraCount, List.flatMap_nil, List.countP_nil, Nat.zero_add]
    exact Nat.add_comm _ _
  | some es =>
    rw [shortCount_of_lookup _ _ h, Option.getD_some]
    omega

/-! ## Tracking counts in the overlay -/

/-- The backing overlay represents the counts `cnt` with the values `val`, `cumulative_size` is
its size, and every count is below `2³¹`. -/
def Tracks (val : Vector UInt8 32 → Bytes) (cnt : Vector UInt8 32 → ℕ) (jo : JournalOverlay) :
    Prop :=
  jo.backingOverlay.Represents val cnt ∧ jo.cumulativeSize = jo.backingOverlay.size ∧
    ∀ sk, cnt sk < 2 ^ 31

/-- The backing overlay tracks the journal's own counts. -/
def Consistent (val : Vector UInt8 32 → Bytes) (jo : JournalOverlay) : Prop :=
  jo.Tracks val (shortCount jo.journal)

variable {val : Vector UInt8 32 → Bytes}

theorem consistent_empty : empty.Consistent val :=
  ⟨MemoryDB.represents_new val, rfl, fun _ ↦ Nat.two_pow_pos 31⟩

theorem Tracks.insertNode {jo : JournalOverlay} {cnt : Vector UInt8 32 → ℕ} (h : jo.Tracks val cnt)
    {k : Vector UInt8 32} {v : Bytes} (hv : FitsShortKey val k v)
    (hb : cnt (toShortKey k) + 1 < 2 ^ 31) :
    (jo.insertNode k v).Tracks val fun sk ↦ cnt sk + if toShortKey k = sk then 1 else 0 := by
  refine ⟨h.1.emplace (toShortKey k) hv.1 hv.2, ?_, fun sk ↦ ?_⟩
  · rw [insertNode_cumulativeSize, insertNode_backingOverlay,
      h.1.size_emplace _ hv.1 (toShortKey_ne_blake2bNullRlp k) (h.2.2 _), h.2.1]
  · show cnt sk + (if toShortKey k = sk then 1 else 0) < 2 ^ 31
    split
    · next hsk =>
      subst hsk
      exact hb
    · exact h.2.2 sk

/-- Inserting nodes adds their short keys to the counts, which stay below `2³¹` when the last ones
do. -/
theorem Tracks.insertNodes (ins : List (Vector UInt8 32 × Bytes))
    (hins : ∀ kv ∈ ins, FitsShortKey val kv.1 kv.2) :
    ∀ {cnt : Vector UInt8 32 → ℕ} {jo : JournalOverlay}, jo.Tracks val cnt →
      (∀ sk, cnt sk + (ins.countP fun kv ↦ toShortKey kv.1 = sk) < 2 ^ 31) →
      (ins.foldl (fun jo kv ↦ jo.insertNode kv.1 kv.2) jo).Tracks val
        fun sk ↦ cnt sk + ins.countP fun kv ↦ toShortKey kv.1 = sk := by
  induction ins with
  | nil =>
    intro cnt jo h _
    simpa using h
  | cons kv ins ih =>
    intro cnt jo h hb
    have hcons : ∀ sk, ((kv :: ins).countP fun kv ↦ toShortKey kv.1 = sk) =
        (ins.countP fun kv ↦ toShortKey kv.1 = sk) + if toShortKey kv.1 = sk then 1 else 0 := by
      intro sk
      rw [List.countP_cons]
      simp only [decide_eq_true_eq]
    -- the first node is counted, then the others on top of it
    have hhead : cnt (toShortKey kv.1) + 1 < 2 ^ 31 := by
      have := hb (toShortKey kv.1)
      rw [hcons, if_pos rfl] at this
      omega
    have hrest := ih (fun kv' h' ↦ hins kv' (List.mem_cons_of_mem kv h'))
      (h.insertNode (hins kv List.mem_cons_self) hhead) fun sk ↦
        show cnt sk + (if toShortKey kv.1 = sk then 1 else 0) + _ < 2 ^ 31 by
          have := hb sk
          rw [hcons] at this
          omega
    have hcnt : (fun sk ↦ cnt sk + (kv :: ins).countP fun kv ↦ toShortKey kv.1 = sk) =
        fun sk ↦ (cnt sk + if toShortKey kv.1 = sk then 1 else 0) +
          ins.countP fun kv ↦ toShortKey kv.1 = sk := by
      funext sk
      rw [hcons]
      omega
    rw [List.foldl_cons, hcnt]
    exact hrest

theorem Tracks.purgeNode {jo : JournalOverlay} {cnt : Vector UInt8 32 → ℕ} (h : jo.Tracks val cnt)
    {k : Vector UInt8 32} (hpos : 0 < cnt (toShortKey k)) :
    (jo.purgeNode k).Tracks val fun sk ↦ cnt sk - if toShortKey k = sk then 1 else 0 := by
  obtain ⟨hrep, -, hsize⟩ :=
    h.1.removeAndPurge (toShortKey_ne_blake2bNullRlp k) hpos (h.2.2 (toShortKey k))
  have hb : ∀ sk, cnt sk - (if toShortKey k = sk then 1 else 0) < 2 ^ 31 := fun sk ↦
    lt_of_le_of_lt (Nat.sub_le _ _) (h.2.2 sk)
  unfold JournalOverlay.purgeNode
  split
  · next overlay v heq =>
    -- the last reference went, with the value's size
    rw [heq] at hrep hsize
    simp only [Option.map_some, Option.getD_some] at hsize
    exact ⟨hrep, by have := h.2.1; dsimp only; omega, hb⟩
  · next overlay heq =>
    rw [heq] at hrep hsize
    simp only [Option.map_none, Option.getD_none, Nat.add_zero] at hsize
    exact ⟨hrep, by rw [hsize]; exact h.2.1, hb⟩

/-- Purging nodes, each of them referenced, takes their short keys off the counts. -/
theorem Tracks.purgeNodes (keys : List (Vector UInt8 32)) :
    ∀ {cnt : Vector UInt8 32 → ℕ} {jo : JournalOverlay}, jo.Tracks val cnt →
      (∀ sk, (keys.countP fun k ↦ toShortKey k = sk) ≤ cnt sk) →
      (keys.foldl JournalOverlay.purgeNode jo).Tracks val
        fun sk ↦ cnt sk - keys.countP fun k ↦ toShortKey k = sk := by
  induction keys with
  | nil =>
    intro cnt jo h _
    simpa using h
  | cons k keys ih =>
    intro cnt jo h hle
    have hcons : ∀ sk, ((k :: keys).countP fun k ↦ toShortKey k = sk) =
        (keys.countP fun k ↦ toShortKey k = sk) + if toShortKey k = sk then 1 else 0 := by
      intro sk
      rw [List.countP_cons]
      simp only [decide_eq_true_eq]
    -- the first key is referenced: it is among the keys still to be purged
    have hpos : 0 < cnt (toShortKey k) := by
      have := hle (toShortKey k)
      rw [hcons, if_pos rfl] at this
      omega
    have hrest := ih (h.purgeNode hpos) fun sk ↦ by
      have := hle sk
      rw [hcons] at this
      by_cases hs : toShortKey k = sk
      · simp only [if_pos hs] at this ⊢
        omega
      · simp only [if_neg hs] at this ⊢
        omega
    have hcnt : (fun sk ↦ cnt sk - (k :: keys).countP fun k ↦ toShortKey k = sk) =
        fun sk ↦ (cnt sk - if toShortKey k = sk then 1 else 0) -
          keys.countP fun k ↦ toShortKey k = sk := by
      funext sk
      rw [hcons]
      omega
    rw [List.foldl_cons, hcnt]
    exact hrest

/-- Inserting nodes changes nothing but the overlay and its size. -/
theorem foldl_insertNode_eq (ins : List (Vector UInt8 32 × Bytes)) (jo : JournalOverlay) :
    ins.foldl (fun jo kv ↦ jo.insertNode kv.1 kv.2) jo =
      { jo with
        backingOverlay := (ins.foldl (fun jo kv ↦ jo.insertNode kv.1 kv.2) jo).backingOverlay
        cumulativeSize := (ins.foldl (fun jo kv ↦ jo.insertNode kv.1 kv.2) jo).cumulativeSize } := by
  induction ins generalizing jo with
  | nil => rfl
  | cons kv ins ih =>
    rw [List.foldl_cons, ih]
    rfl

/-- Purging nodes changes nothing but the overlay and its size. -/
theorem foldl_purgeNode_eq (keys : List (Vector UInt8 32)) (jo : JournalOverlay) :
    keys.foldl purgeNode jo =
      { jo with
        backingOverlay := (keys.foldl purgeNode jo).backingOverlay
        cumulativeSize := (keys.foldl purgeNode jo).cumulativeSize } := by
  induction keys generalizing jo with
  | nil => rfl
  | cons k keys ih =>
    rw [List.foldl_cons, ih]
    unfold purgeNode
    split <;> rfl

theorem foldl_insertNode_journal (ins : List (Vector UInt8 32 × Bytes)) (jo : JournalOverlay) :
    (ins.foldl (fun jo kv ↦ jo.insertNode kv.1 kv.2) jo).journal = jo.journal := by
  rw [foldl_insertNode_eq]

theorem foldl_insertNode_latestEra (ins : List (Vector UInt8 32 × Bytes)) (jo : JournalOverlay) :
    (ins.foldl (fun jo kv ↦ jo.insertNode kv.1 kv.2) jo).latestEra = jo.latestEra := by
  rw [foldl_insertNode_eq]

theorem foldl_purgeNode_journal (keys : List (Vector UInt8 32)) (jo : JournalOverlay) :
    (keys.foldl purgeNode jo).journal = jo.journal := by
  rw [foldl_purgeNode_eq]

theorem foldl_purgeNode_latestEra (keys : List (Vector UInt8 32)) (jo : JournalOverlay) :
    (keys.foldl purgeNode jo).latestEra = jo.latestEra := by
  rw [foldl_purgeNode_eq]

theorem tracks_pushEntry {jo : JournalOverlay} {cnt : Vector UInt8 32 → ℕ} (era : ℕ)
    (entry : JournalEntry) : (jo.pushEntry era entry).Tracks val cnt ↔ jo.Tracks val cnt :=
  Iff.rfl

/-- An overlay that tracks its journal's counts and those of one more entry is consistent once
the entry is pushed. -/
theorem Tracks.pushEntry {jo : JournalOverlay} {era : ℕ} {entry : JournalEntry}
    (h : jo.Tracks val fun sk ↦
      shortCount jo.journal sk + entry.insertions.countP fun k ↦ toShortKey k = sk) :
    (jo.pushEntry era entry).Consistent val := by
  have hcnt : shortCount (jo.pushEntry era entry).journal =
      fun sk ↦ shortCount jo.journal sk + entry.insertions.countP fun k ↦ toShortKey k = sk :=
    funext (shortCount_pushEntry jo era entry)
  unfold Consistent
  rw [hcnt, tracks_pushEntry]
  exact h

/-- A record's insertions enter the overlay, and then its entry the journal: what
`journal_under` does with the transaction overlay and `read_overlay` with each record. -/
theorem Consistent.insertNodes_pushEntry {jo : JournalOverlay} (h : jo.Consistent val)
    {ins : List (Vector UInt8 32 × Bytes)} (hins : ∀ kv ∈ ins, FitsShortKey val kv.1 kv.2)
    (hb : ∀ sk, shortCount jo.journal sk + (ins.countP fun kv ↦ toShortKey kv.1 = sk) < 2 ^ 31)
    (era : ℕ) (entry : JournalEntry) (hentry : entry.insertions = ins.map Prod.fst) :
    ((ins.foldl (fun jo kv ↦ jo.insertNode kv.1 kv.2) jo).pushEntry era entry).Consistent val := by
  apply Tracks.pushEntry
  rw [foldl_insertNode_journal, hentry]
  simp only [List.countP_map, Function.comp_def]
  exact Tracks.insertNodes ins hins h hb

end JournalOverlay

/-! ## Replaying records -/

section Replay

variable {val : Vector UInt8 32 → Bytes} (era : ℕ)

theorem replayRecord_journal (r : JournalRecord) (acc : JournalOverlay) :
    (replayRecord era r acc).journal =
      acc.journal.insert era ((acc.journal.lookup era).getD [] ++ [r.entry]) := by
  simp only [replayRecord, JournalOverlay.pushEntry_journal, JournalOverlay.foldl_insertNode_journal]

theorem replayRecord_pendingOverlay (r : JournalRecord) (acc : JournalOverlay) :
    (replayRecord era r acc).pendingOverlay = acc.pendingOverlay := by
  simp only [replayRecord]
  rw [JournalOverlay.foldl_insertNode_eq]
  rfl

theorem replayRecord_latestEra (r : JournalRecord) (acc : JournalOverlay) :
    (replayRecord era r acc).latestEra = acc.latestEra := by
  simp only [replayRecord]
  rw [JournalOverlay.foldl_insertNode_eq]
  rfl

theorem shortCount_replayRecord (r : JournalRecord) (acc : JournalOverlay) (sk : Vector UInt8 32) :
    shortCount (replayRecord era r acc).journal sk =
      shortCount acc.journal sk + r.insertions.countP fun kv ↦ toShortKey kv.1 = sk := by
  rw [replayRecord_journal, ← JournalOverlay.pushEntry_journal, JournalOverlay.shortCount_pushEntry]
  simp only [JournalRecord.entry, List.countP_map, Function.comp_def]

theorem JournalOverlay.Consistent.replayRecord {acc : JournalOverlay} (h : acc.Consistent val)
    {r : JournalRecord} (hr : ∀ kv ∈ r.insertions, FitsShortKey val kv.1 kv.2)
    (hb : ∀ sk, shortCount acc.journal sk + (r.insertions.countP fun kv ↦ toShortKey kv.1 = sk) <
      2 ^ 31) :
    (AionR.replayRecord era r acc).Consistent val :=
  h.insertNodes_pushEntry hr hb era r.entry rfl

theorem foldl_replayRecord_lookup_ne (rs : List JournalRecord) (acc : JournalOverlay) {x : ℕ}
    (hx : x ≠ era) :
    (rs.foldl (fun acc r ↦ replayRecord era r acc) acc).journal.lookup x = acc.journal.lookup x := by
  induction rs generalizing acc with
  | nil => rfl
  | cons r rs ih => rw [List.foldl_cons, ih, replayRecord_journal, AList.lookup_insert_ne hx]

/-- The records of an era, replayed in order, are its entries. -/
theorem foldl_replayRecord_lookup_self :
    ∀ (rs : List JournalRecord) (acc : JournalOverlay), rs ≠ [] →
      (rs.foldl (fun acc r ↦ replayRecord era r acc) acc).journal.lookup era =
        some ((acc.journal.lookup era).getD [] ++ rs.map JournalRecord.entry)
  | [], _, h => absurd rfl h
  | [r], acc, _ => by
    rw [List.foldl_cons, List.foldl_nil, replayRecord_journal, AList.lookup_insert]
    rfl
  | r :: r' :: rs, acc, _ => by
    rw [List.foldl_cons, foldl_replayRecord_lookup_self (r' :: rs) _ (List.cons_ne_nil _ _),
      replayRecord_journal, AList.lookup_insert, Option.getD_some]
    simp

theorem foldl_replayRecord_pendingOverlay (rs : List JournalRecord) (acc : JournalOverlay) :
    (rs.foldl (fun acc r ↦ replayRecord era r acc) acc).pendingOverlay = acc.pendingOverlay := by
  induction rs generalizing acc with
  | nil => rfl
  | cons r rs ih => rw [List.foldl_cons, ih, replayRecord_pendingOverlay]

theorem foldl_replayRecord_latestEra (rs : List JournalRecord) (acc : JournalOverlay) :
    (rs.foldl (fun acc r ↦ replayRecord era r acc) acc).latestEra = acc.latestEra := by
  induction rs generalizing acc with
  | nil => rfl
  | cons r rs ih => rw [List.foldl_cons, ih, replayRecord_latestEra]

/-- Records replayed in order keep the overlay consistent while the counts they reach stay below
`2³¹`. -/
theorem JournalOverlay.Consistent.foldl_replayRecord (rs : List JournalRecord)
    (hrs : ∀ r ∈ rs, ∀ kv ∈ r.insertions, FitsShortKey val kv.1 kv.2) :
    ∀ {acc : JournalOverlay}, acc.Consistent val →
      (∀ sk, shortCount acc.journal sk +
        ((rs.flatMap JournalRecord.insertions).countP fun kv ↦ toShortKey kv.1 = sk) < 2 ^ 31) →
      (rs.foldl (fun acc r ↦ AionR.replayRecord era r acc) acc).Consistent val := by
  induction rs with
  | nil => exact fun h _ ↦ h
  | cons r rs ih =>
    intro acc h hb
    rw [List.foldl_cons]
    -- the record's insertions are counted, then the later records' on top of them
    refine ih (fun r' hr' ↦ hrs r' (List.mem_cons_of_mem r hr'))
      (h.replayRecord era (hrs r List.mem_cons_self) fun sk ↦ ?_) fun sk ↦ ?_
    · have := hb sk
      rw [List.flatMap_cons, List.countP_append] at this
      omega
    · have := hb sk
      rw [List.flatMap_cons, List.countP_append] at this
      rw [shortCount_replayRecord]
      omega

end Replay

/-! ## The database holds the journal -/

/-- The database holds the journal record for record, with values as `val` gives them; the two
agree on the latest era; and the journal's eras are a run up to it. -/
structure Mirrors (val : Vector UInt8 32 → Bytes) (jo : JournalOverlay) (db : KeyValueDB) :
    Prop where
  records : ∀ e i,
    (db.records.lookup (e, i)).map JournalRecord.entry = (jo.journal.lookup e).bind (·[i]?)
  values : ∀ p r, db.records.lookup p = some r → ∀ kv ∈ r.insertions, FitsShortKey val kv.1 kv.2
  nonempty : ∀ e es, jo.journal.lookup e = some es → es ≠ []
  latestEra : db.latestEra = jo.latestEra
  contiguous : Contiguous (· ∈ jo.journal) jo.latestEra

/-- `Mirrors` reads the journal and the latest era of the overlay, nothing else. -/
theorem Mirrors.congr {val : Vector UInt8 32 → Bytes} {jo jo' : JournalOverlay} {kv : KeyValueDB}
    (h : Mirrors val jo kv) (hj : jo'.journal = jo.journal) (hl : jo'.latestEra = jo.latestEra) :
    Mirrors val jo' kv where
  records := by rw [hj]; exact h.records
  values := h.values
  nonempty := by rw [hj]; exact h.nonempty
  latestEra := by rw [hl]; exact h.latestEra
  contiguous := by rw [hj, hl]; exact h.contiguous

/-- What `read_overlay` has built once it has read the eras from `n` up: their entries, with an
overlay consistent with them. -/
structure ReadFrom (val : Vector UInt8 32 → Bytes) (jo : JournalOverlay) (n : ℕ)
    (acc : JournalOverlay) : Prop where
  consistent : acc.Consistent val
  pending : acc.pendingOverlay = ∅
  latestEra : acc.latestEra = jo.latestEra
  journal : ∀ x, acc.journal.lookup x = if n ≤ x then jo.journal.lookup x else none

section Read

variable {val : Vector UInt8 32 → Bytes} {db : KeyValueDB} {jo : JournalOverlay}

theorem Mirrors.lookup_eq_none (hm : Mirrors val jo db) {e : ℕ} (he : jo.journal.lookup e = none)
    (i : ℕ) : db.records.lookup (e, i) = none := by
  have := hm.records e i
  rw [he, Option.bind_none, Option.map_eq_none_iff] at this
  exact this

theorem readRecords_of_lookup_none {era i : ℕ} (fuel : ℕ) (acc : JournalOverlay)
    (h : db.records.lookup (era, i) = none) : readRecords db era fuel i acc = (acc, i) := by
  cases fuel with
  | zero => rfl
  | succ fuel => simp only [readRecords, h]

/-- With enough fuel the inner loop of `read_overlay` reads a run of records up to the first
missing one. -/
theorem readRecords_of_records (era : ℕ) :
    ∀ (rs : List JournalRecord) (i fuel : ℕ) (acc : JournalOverlay),
      (∀ j (hj : j < rs.length), db.records.lookup (era, i + j) = some rs[j]) →
      db.records.lookup (era, i + rs.length) = none → rs.length ≤ fuel →
      readRecords db era fuel i acc =
        (rs.foldl (fun acc r ↦ replayRecord era r acc) acc, i + rs.length)
  | [], _, fuel, acc, _, hnone, _ => readRecords_of_lookup_none fuel acc hnone
  | _ :: _, _, 0, _, _, _, hle => absurd hle (by simp)
  | r :: rs, i, fuel + 1, acc, hrs, hnone, hle => by
    have hr : db.records.lookup (era, i) = some r := by
      have := hrs 0 (by simp)
      rwa [Nat.add_zero, List.getElem_cons_zero] at this
    have hrest := readRecords_of_records era rs (i + 1) fuel (replayRecord era r acc)
      (fun j hj ↦ by
        have := hrs (j + 1) (by simp; omega)
        rw [show i + 1 + j = i + (j + 1) by omega]
        simpa using this)
      (by rw [show i + 1 + rs.length = i + (r :: rs).length by simp; omega]; exact hnone)
      (by simp at hle; omega)
    simp only [readRecords, hr, hrest, List.foldl_cons, List.length_cons]
    congr 1
    omega

/-- The entries of an era are read from records at consecutive indices. -/
theorem exists_records {era : ℕ} :
    ∀ (es : List JournalEntry) (i : ℕ),
      (∀ j, (db.records.lookup (era, i + j)).map JournalRecord.entry = es[j]?) →
      ∃ rs : List JournalRecord, rs.map JournalRecord.entry = es ∧
        (∀ j (hj : j < rs.length), db.records.lookup (era, i + j) = some rs[j]) ∧
        db.records.lookup (era, i + rs.length) = none
  | [], i, h => ⟨[], rfl, fun _ hj ↦ absurd hj (by simp), by
      have := h 0
      rw [List.getElem?_nil, Option.map_eq_none_iff] at this
      exact this⟩
  | e :: es, i, h => by
    obtain ⟨r, hr, hre⟩ : ∃ r, db.records.lookup (era, i) = some r ∧ r.entry = e := by
      have := h 0
      rw [Nat.add_zero, List.getElem?_cons_zero, Option.map_eq_some_iff] at this
      exact this
    obtain ⟨rs, hmap, hrs, hnone⟩ := exists_records es (i + 1) fun j ↦ by
      rw [show i + 1 + j = i + (j + 1) by omega, h (j + 1), List.getElem?_cons_succ]
    refine ⟨r :: rs, by rw [List.map_cons, hre, hmap], fun j hj ↦ ?_, ?_⟩
    · cases j with
      | zero => simpa using hr
      | succ j =>
        rw [show i + (j + 1) = i + 1 + j by omega, List.getElem_cons_succ]
        exact hrs j (by simpa using hj)
    · rw [show i + (r :: rs).length = i + 1 + rs.length by simp; omega]
      exact hnone

/-- The records of an era are distinct records of the database, so the fuel of the inner loop
covers them. -/
theorem length_le_of_records {era : ℕ} {rs : List JournalRecord}
    (hrs : ∀ j (hj : j < rs.length), db.records.lookup (era, j) = some rs[j]) :
    rs.length ≤ db.records.entries.length := by
  have hnodup : ((List.range rs.length).map fun j ↦ (era, j)).Nodup :=
    List.Nodup.map (fun _ _ h ↦ (Prod.mk.inj h).2) List.nodup_range
  have hsub : ((List.range rs.length).map fun j ↦ (era, j)) ⊆ db.records.keys := by
    intro p hp
    obtain ⟨j, hj, rfl⟩ := List.mem_map.mp hp
    exact AList.lookup_isSome.mp (by rw [hrs j (List.mem_range.mp hj)]; rfl)
  simpa [AList.keys, List.keys] using hnodup.length_le_of_subset hsub

/-- The eras read so far and the next one count no more than the whole journal. -/
theorem ReadFrom.shortCount_add_eraCount_le {e : ℕ} {acc : JournalOverlay}
    (hr : ReadFrom val jo (e + 1) acc) {es : List JournalEntry} (he : jo.journal.lookup e = some es)
    (sk : Vector UInt8 32) : shortCount acc.journal sk + eraCount es sk ≤ shortCount jo.journal sk := by
  have hnone : acc.journal.lookup e = none := by rw [hr.journal, if_neg (by omega)]
  -- the eras read, with the next one, are eras of the journal
  have hsub : ∀ x v, (acc.journal.insert e es).lookup x = some v → jo.journal.lookup x = some v := by
    intro x v hx
    by_cases hxe : x = e
    · subst hxe
      rw [AList.lookup_insert] at hx
      rw [he, hx]
    · rw [AList.lookup_insert_ne hxe, hr.journal] at hx
      split at hx
      · exact hx
      · cases hx
  have := shortCount_le_of_lookup _ sk hsub
  rw [shortCount_insert, erase_eq_self_of_lookup_eq_none _ hnone] at this
  omega

/-- Reading an era that the journal holds adds its entries. -/
theorem ReadFrom.readEra (hm : Mirrors val jo db) (hbound : ∀ sk, shortCount jo.journal sk < 2 ^ 31)
    {e : ℕ} {acc : JournalOverlay} (hr : ReadFrom val jo (e + 1) acc) {es : List JournalEntry}
    (he : jo.journal.lookup e = some es) :
    (readRecords db e db.records.entries.length 0 acc).2 ≠ 0 ∧
      ReadFrom val jo e (readRecords db e db.records.entries.length 0 acc).1 := by
  obtain ⟨rs, hmap, hrs, hnone⟩ := exists_records es 0 fun j ↦ by
    rw [Nat.zero_add, hm.records, he]
    rfl
  have hrs' : ∀ j (hj : j < rs.length), db.records.lookup (e, j) = some rs[j] := fun j hj ↦ by
    have := hrs j hj
    rwa [Nat.zero_add] at this
  rw [readRecords_of_records e rs 0 _ acc hrs hnone (length_le_of_records hrs')]
  have hne : rs ≠ [] := by
    rintro rfl
    exact hm.nonempty e es he hmap.symm
  have hvalid : ∀ r ∈ rs, ∀ kv ∈ r.insertions, FitsShortKey val kv.1 kv.2 := by
    intro r hr
    obtain ⟨j, hj, rfl⟩ := List.getElem_of_mem hr
    exact hm.values _ _ (hrs' j hj)
  have hroom : ∀ sk, shortCount acc.journal sk +
      ((rs.flatMap JournalRecord.insertions).countP fun kv ↦ toShortKey kv.1 = sk) < 2 ^ 31 := by
    intro sk
    rw [← eraCount_map_entry, hmap]
    exact lt_of_le_of_lt (hr.shortCount_add_eraCount_le he sk) (hbound sk)
  refine ⟨by simpa using hne,
    ⟨hr.consistent.foldl_replayRecord e rs hvalid hroom, ?_, ?_, fun x ↦ ?_⟩⟩
  · rw [foldl_replayRecord_pendingOverlay]
    exact hr.pending
  · rw [foldl_replayRecord_latestEra]
    exact hr.latestEra
  · by_cases hx : x = e
    · subst hx
      rw [foldl_replayRecord_lookup_self _ _ _ hne, hr.journal, if_neg (by omega), Option.getD_none,
        List.nil_append, hmap, if_pos (Nat.le_refl _), he]
    · rw [foldl_replayRecord_lookup_ne _ _ _ hx, hr.journal]
      by_cases hle : e + 1 ≤ x
      · rw [if_pos hle, if_pos (by omega)]
      · rw [if_neg hle, if_neg (by omega)]

/-- An era with no entries below the latest one ends the reading: the run of eras holds none
below it either. -/
theorem ReadFrom.stop (hm : Mirrors val jo db) {e L : ℕ} {acc : JournalOverlay}
    (hr : ReadFrom val jo (e + 1) acc) (he : jo.journal.lookup e = none)
    (hL : jo.latestEra = some L) (heL : e ≤ L) : ReadFrom val jo 0 acc := by
  refine ⟨hr.consistent, hr.pending, hr.latestEra, fun x ↦ ?_⟩
  rw [hr.journal x, if_pos (Nat.zero_le x)]
  by_cases hx : e + 1 ≤ x
  · rw [if_pos hx]
  · rw [if_neg hx]
    symm
    apply AList.lookup_eq_none.mpr
    intro hmem
    exact AList.lookup_eq_none.mp he (hm.contiguous.mem_of_le hmem hL (by omega) heL)

/-- The outer loop of `read_overlay` reads every era from the one it starts at down. -/
theorem readEras_readFrom (hm : Mirrors val jo db) (hbound : ∀ sk, shortCount jo.journal sk < 2 ^ 31)
    {L : ℕ} (hL : jo.latestEra = some L) (e : ℕ) :
    e ≤ L → ∀ {acc : JournalOverlay}, ReadFrom val jo (e + 1) acc →
      ReadFrom val jo 0 (readEras db e acc) := by
  induction e with
  | zero =>
    intro _ acc hr
    cases he : jo.journal.lookup 0 with
    | none =>
      rw [readEras, readRecords_of_lookup_none _ _ (hm.lookup_eq_none he 0)]
      exact hr.stop hm he hL (Nat.zero_le L)
    | some es => exact (hr.readEra hm hbound he).2
  | succ e ih =>
    intro heL acc hr
    cases he : jo.journal.lookup (e + 1) with
    | none =>
      simp only [readEras, readRecords_of_lookup_none _ _ (hm.lookup_eq_none he 0), if_true]
      exact hr.stop hm he hL heL
    | some es =>
      obtain ⟨hne, hread⟩ := hr.readEra hm hbound he
      simp only [readEras, if_neg hne]
      exact ih (by omega) hread

/-- `read_overlay` reads every era the journal holds. -/
theorem readOverlay_readFrom (hm : Mirrors val jo db) (hbound : ∀ sk, shortCount jo.journal sk < 2 ^ 31) :
    ReadFrom val jo 0 (readOverlay db) := by
  unfold readOverlay
  rw [hm.latestEra]
  cases hL : jo.latestEra with
  | none =>
    refine ⟨JournalOverlay.consistent_empty, rfl, hL.symm, fun x ↦ ?_⟩
    rw [if_pos (Nat.zero_le x)]
    symm
    apply AList.lookup_eq_none.mpr
    exact (hL ▸ hm.contiguous).not_mem_of_none x
  | some L =>
    refine readEras_readFrom hm hbound hL L (Nat.le_refl L)
      ⟨JournalOverlay.consistent_empty, rfl, hL.symm, fun x ↦ ?_⟩
    by_cases hx : L + 1 ≤ x
    · rw [if_pos hx]
      symm
      apply AList.lookup_eq_none.mpr
      intro hmem
      have := hm.contiguous.le_top hmem hL
      omega
    · rw [if_neg hx]
      rfl

end Read

/-- An overlay consistent with a journal that the database holds is the one `read_overlay`
rebuilds. -/
theorem canReconstructRefs_of_mirrors {val : Vector UInt8 32 → Bytes} {db : OverlayRecentDB}
    (hc : db.journalOverlay.Consistent val) (hm : Mirrors val db.journalOverlay db.backing)
    (hp : db.journalOverlay.pendingOverlay = ∅) : db.canReconstructRefs = true := by
  have hr := readOverlay_readFrom hm hc.2.2
  have hj : ∀ x, db.journalOverlay.journal.lookup x = (readOverlay db.backing).journal.lookup x :=
    fun x ↦ by rw [hr.journal x, if_pos (Nat.zero_le x)]
  -- the rebuilt overlay tracks the same counts, so it holds the same entries
  have hrep : (readOverlay db.backing).backingOverlay.Represents val
      (shortCount db.journalOverlay.journal) := by
    rw [shortCount_congr _ hj]
    exact hr.consistent.1
  simp only [OverlayRecentDB.canReconstructRefs, Bool.and_eq_true, mapEq_iff, decide_eq_true_eq]
  refine ⟨⟨⟨⟨hc.1.lookup_eq hrep, fun k ↦ ?_⟩, hj⟩, hr.latestEra.symm⟩, ?_⟩
  · rw [hp, hr.pending]
  · rw [hc.2.1, hr.consistent.2.1, hc.1.size_eq hrep]

end AionR
