import AionR.Trie.Remove

/-!
# `TrieDBMut` as a map from keys to values

What the operations of `TrieDBMut` do to the value each key holds. This is for a trie in normal
form (`TrieDBMut.Valid`), over a database that holds the empty trie under its hash
(`NodeStore.HoldsNull`):
* `get` reads the key's value, and `contains` whether it has one;
* `insert` sets the value, or clears it when the value is empty;
* `remove` clears the value;
* `insert` and `remove` return the value they replaced and keep the normal form;
* `is_empty` says that no key has a value.

Every sequence of calls succeeds, and it returns what the same calls on a map return
(`run_refines`).
-/

namespace AionR

namespace Trie

open PrefixMap

/-- The database holds the empty trie under the hash of the empty trie: `MemoryDB` returns the
null RLP for that hash, which `Node::from_rlp` decodes as `Node::Empty`, and a lookup below it finds
nothing. -/
structure NodeStore.HoldsNull (db : NodeStore) : Prop where
  decodedAt_null : db.decodedAt blake2bNullRlp = some .empty
  lookUp_null : ∀ path, db.lookUp blake2bNullRlp path = .ok none

/-- Distinct keys have distinct nibbles. -/
theorem keyNibbles_injective : Function.Injective keyNibbles := by
  intro as
  induction as with
  | nil =>
    intro bs h
    cases bs with
    | nil => rfl
    | cons b bs => simp [keyNibbles] at h
  | cons a as ih =>
    intro bs h
    cases bs with
    | nil => simp [keyNibbles] at h
    | cons b bs =>
      simp only [keyNibbles, List.flatMap_cons, List.cons_append, List.nil_append, List.cons.injEq,
        Fin.mk.injEq] at h
      obtain ⟨hhigh, hlow, hrest⟩ := h
      have hab : a.toNat = b.toNat := by omega
      rw [UInt8.toNat_inj.mp hab, ih hrest]

namespace TrieDBMut

/-- A trie in normal form: its root is the hash of the empty trie, or a node in memory in normal
form. -/
def Valid (t : TrieDBMut) : Prop := t.rootHandle = .hash blake2bNullRlp ∨ t.rootHandle.Normal

/-- The value each key holds. -/
def contents (t : TrieDBMut) (key : Bytes) : Option Bytes := t.rootHandle.entries (keyNibbles key)

theorem valid_new : new.Valid := Or.inl rfl

theorem contents_new : new.contents = fun _ ↦ none := rfl

/-- Setting one path of the root's entries sets one key of the contents. -/
theorem contents_eq_update {t t' : TrieDBMut} {key : Bytes} {v : Option Bytes}
    (h : t'.rootHandle.entries = Function.update t.rootHandle.entries (keyNibbles key) v) :
    t'.contents = Function.update t.contents key v := by
  funext key'
  simp only [contents, h, Function.update_apply, keyNibbles_injective.eq_iff]

section Operations

variable {db : NodeStore} (hdb : db.HoldsNull) {t : TrieDBMut} (ht : t.Valid)
include hdb ht

/-- The root's node, loaded from the database when the trie is the empty one. -/
theorem exists_takeStored_root :
    ∃ stored, takeStored db t.rootHandle = .ok stored ∧ stored.node.Normal ∧
      stored.node.entries = t.rootHandle.entries := by
  rcases ht with h | h
  · refine ⟨.cached .empty blake2bNullRlp, ?_, trivial, ?_⟩
    · rw [h, takeStored, cache, hdb.decodedAt_null]
    · rw [h]
      rfl
  · cases hroot : t.rootHandle with
    | hash _ =>
      rw [hroot] at h
      exact h.elim
    | inMemory stored =>
      rw [hroot] at h
      exact ⟨stored, rfl, ((Stored.normal_iff stored).mp h).1, by simp⟩

/-- `get` reads the key's value. -/
theorem get_eq_contents (key : Bytes) : t.get db key = .ok (t.contents key) := by
  rcases ht with h | h
  · simp [get, contents, h, lookupHandle, hdb.lookUp_null]
  · exact lookupHandle_eq_entries db _ _ h

theorem contains_eq_contents (key : Bytes) : t.contains db key = .ok (t.contents key).isSome := by
  rw [contains, get_eq_contents hdb ht]
  rfl

/-- `remove` clears the key's value and returns it, keeping the normal form. -/
theorem remove_eq (key : Bytes) :
    ∃ t', t.remove db key = .ok (t', t.contents key) ∧ t'.Valid ∧
      t'.rootHandle.entries = Function.update t.rootHandle.entries (keyNibbles key) none := by
  obtain ⟨stored, htake, hnormal, hentries⟩ := exists_takeStored_root hdb ht
  obtain ⟨result, deathRow, hrun, hresult⟩ := removeAt_normal db (2 * (keyNibbles key).length + 6)
    ⟨t.deathRow, none⟩ t.rootHandle stored (keyNibbles key) rfl htake hnormal (by omega)
  have hold : stored.node.entries (keyNibbles key) = t.contents key := by
    rw [hentries]
    rfl
  cases result with
  | none =>
    -- nothing is left: the root becomes the hash of the empty trie
    refine ⟨{ t with rootHandle := .hash blake2bNullRlp, root := blake2bNullRlp, deathRow },
      ?_, Or.inl rfl, ?_⟩
    · simp only [remove, hrun, except_ok_bind, hold]
      rfl
    · show PrefixMap.empty = _
      rw [← hentries, hresult]
  | some r =>
    obtain ⟨handle, changed⟩ := r
    obtain ⟨hnorm, hentries', -⟩ := hresult
    refine ⟨{ t with rootHandle := .inMemory handle, deathRow }, ?_, Or.inr hnorm, ?_⟩
    · simp only [remove, hrun, except_ok_bind, hold]
      rfl
    · show handle.entries = _
      rw [Stored.entries_eq, hentries', hentries]

/-- `insert` sets the key's value, or clears it for an empty value, and returns the old one,
keeping the normal form. -/
theorem insert_eq (key value : Bytes) :
    ∃ t', t.insert db key value = .ok (t', t.contents key) ∧ t'.Valid ∧
      t'.rootHandle.entries = Function.update t.rootHandle.entries (keyNibbles key)
        (if value.isEmpty then none else some value) := by
  by_cases hv : value.isEmpty
  · rw [insert, if_pos hv, if_pos hv]
    exact remove_eq hdb ht key
  · obtain ⟨stored, htake, hnormal, hentries⟩ := exists_takeStored_root hdb ht
    obtain ⟨stored', changed, deathRow, hrun, hnorm, hentries', -⟩ :=
      insertAt_normal db value t.rootHandle (keyNibbles key) ⟨t.deathRow, none⟩ stored rfl htake hnormal
    refine ⟨{ t with rootHandle := .inMemory stored', deathRow }, ?_, Or.inr hnorm, ?_⟩
    · rw [insert, if_neg hv]
      simp only [hrun, except_ok_bind, except_pure_eq]
      rw [hentries]
      rfl
    · show stored'.entries = _
      rw [if_neg hv, Stored.entries_eq, hentries', hentries]

omit hdb in
/-- `is_empty` answers whether the trie holds nothing: in normal form only the empty trie does. -/
theorem isEmpty_iff_entries : t.isEmpty = true ↔ t.rootHandle.entries = PrefixMap.empty := by
  rcases ht with h | h
  · simp [isEmpty, h]
  · cases hroot : t.rootHandle with
    | hash _ =>
      rw [hroot] at h
      exact h.elim
    | inMemory stored =>
      rw [hroot] at h
      obtain ⟨-, hne⟩ := (Stored.normal_iff stored).mp h
      obtain ⟨path, hpath⟩ := Stored.exists_entry stored h
      have hfalse : t.isEmpty = false := by
        cases hnode : stored.node with
        | empty => exact absurd hnode hne
        | _ => simp [isEmpty, hroot, hnode]
      rw [hfalse, Bool.false_eq_true, false_iff]
      intro hempty
      exact hpath (congrFun hempty path)

end Operations

/-- Every entry of the trie is at the nibbles of a key, as the entries that `insert` makes are. -/
def Keyed (t : TrieDBMut) : Prop :=
  ∀ path, t.rootHandle.entries path ≠ none → ∃ key, keyNibbles key = path

theorem keyed_new : new.Keyed := fun _ h ↦ absurd rfl h

theorem Keyed.of_update {t t' : TrieDBMut} (ht : t.Keyed) {key : Bytes} {v : Option Bytes}
    (h : t'.rootHandle.entries = Function.update t.rootHandle.entries (keyNibbles key) v) :
    t'.Keyed := by
  intro path hpath
  rw [h] at hpath
  by_cases hkey : path = keyNibbles key
  · exact ⟨key, hkey.symm⟩
  · rw [Function.update_of_ne hkey] at hpath
    exact ht path hpath

/-- On a keyed trie the contents say all the entries say. -/
theorem Keyed.entries_eq_empty {t : TrieDBMut} (hk : t.Keyed) (h : t.contents = fun _ ↦ none) :
    t.rootHandle.entries = PrefixMap.empty := by
  funext path
  by_contra hpath
  obtain ⟨key, rfl⟩ := hk path hpath
  exact hpath (congrFun h key)

/-! ## Runs of calls -/

/-- A call of `TrieMut` that changes the trie. -/
inductive Op where
  | insert (key value : Bytes)
  | remove (key : Bytes)

def Op.key : Op → Bytes
  | .insert key _ => key
  | .remove key => key

/-- One call on the trie. -/
def Op.apply (db : NodeStore) : Op → TrieDBMut → Except TrieFault (TrieDBMut × Option Bytes)
  | .insert key value, t => t.insert db key value
  | .remove key, t => t.remove db key

/-- Calls one after another, with the values they return in order. -/
def run (db : NodeStore) : List Op → TrieDBMut → Except TrieFault (TrieDBMut × List (Option Bytes))
  | [], t => .ok (t, [])
  | op :: ops, t => do
    let (t, old) ← op.apply db t
    let (t, olds) ← run db ops t
    pure (t, old :: olds)

/-- What a call does to a map from keys to values: `insert` with an empty value clears the key. -/
def Op.update (m : Bytes → Option Bytes) : Op → Bytes → Option Bytes
  | .insert key value => Function.update m key (if value.isEmpty then none else some value)
  | .remove key => Function.update m key none

/-- The same calls on a map: the map they leave, and the values at their keys before each. -/
def runMap : List Op → (Bytes → Option Bytes) → (Bytes → Option Bytes) × List (Option Bytes)
  | [], m => (m, [])
  | op :: ops, m => ((runMap ops (op.update m)).1, m op.key :: (runMap ops (op.update m)).2)

section Runs

variable {db : NodeStore} (hdb : db.HoldsNull)
include hdb

/-- One call on a trie in normal form acts on its contents as on a map. -/
theorem Op.apply_refines {t : TrieDBMut} (ht : t.Valid) (hk : t.Keyed) (op : Op) :
    ∃ t', op.apply db t = .ok (t', t.contents op.key) ∧ t'.Valid ∧ t'.Keyed ∧
      t'.contents = op.update t.contents := by
  cases op with
  | insert key value =>
    obtain ⟨t', hrun, hvalid, hentries⟩ := insert_eq hdb ht key value
    exact ⟨t', hrun, hvalid, hk.of_update hentries, contents_eq_update hentries⟩
  | remove key =>
    obtain ⟨t', hrun, hvalid, hentries⟩ := remove_eq hdb ht key
    exact ⟨t', hrun, hvalid, hk.of_update hentries, contents_eq_update hentries⟩

/-- Every run of calls on a trie in normal form succeeds, returns what the same calls on its
contents return, and leaves a trie in normal form holding the map they leave. -/
theorem run_refines : ∀ (ops : List Op) {t : TrieDBMut}, t.Valid → t.Keyed →
    ∃ t', run db ops t = .ok (t', (runMap ops t.contents).2) ∧ t'.Valid ∧ t'.Keyed ∧
      t'.contents = (runMap ops t.contents).1
  | [], t, ht, hk => ⟨t, rfl, ht, hk, rfl⟩
  | op :: ops, t, ht, hk => by
    obtain ⟨t₁, hop, hvalid₁, hkeyed₁, hcontents₁⟩ := Op.apply_refines hdb ht hk op
    obtain ⟨t₂, hrun, hvalid₂, hkeyed₂, hcontents₂⟩ := run_refines ops hvalid₁ hkeyed₁
    refine ⟨t₂, ?_, hvalid₂, hkeyed₂, ?_⟩
    · rw [run, hop, except_ok_bind]
      simp only [hrun, hcontents₁, except_ok_bind, except_pure_eq, runMap]
    · rw [hcontents₂, hcontents₁]
      rfl

/-- From `TrieDBMut::new`, every run of `insert` and `remove` calls succeeds, and each call
returns the value its key held before. Afterwards `get` and `contains` answer as the map the calls
leave. -/
theorem run_new_refines (ops : List Op) :
    ∃ t, run db ops new = .ok (t, (runMap ops fun _ ↦ none).2) ∧
      ∀ key, t.get db key = .ok ((runMap ops fun _ ↦ none).1 key) ∧
        t.contains db key = .ok ((runMap ops fun _ ↦ none).1 key).isSome := by
  obtain ⟨t, hrun, hvalid, -, hcontents⟩ := run_refines hdb ops valid_new keyed_new
  refine ⟨t, hrun, fun key ↦ ⟨?_, ?_⟩⟩
  · rw [get_eq_contents hdb hvalid, hcontents]
    rfl
  · rw [contains_eq_contents hdb hvalid, hcontents]
    rfl

/-- Every trie that a run of calls from `TrieDBMut::new` leaves is in normal form. Its root is
the hash of the empty trie, or a node in memory under which every extension has a key and leads to
a branch, every branch holds two things, and nothing is empty. -/
theorem run_new_valid (ops : List Op) :
    ∃ t olds, run db ops new = .ok (t, olds) ∧ t.Valid := by
  obtain ⟨t, hrun, hvalid, -⟩ := run_refines hdb ops valid_new keyed_new
  exact ⟨t, _, hrun, hvalid⟩

/-- After any run of calls from `TrieDBMut::new`, `is_empty` holds exactly when the calls left no
key with a value. -/
theorem run_new_isEmpty (ops : List Op) :
    ∃ t olds, run db ops new = .ok (t, olds) ∧
      (t.isEmpty = true ↔ (runMap ops fun _ ↦ none).1 = fun _ ↦ none) := by
  obtain ⟨t, hrun, hvalid, hkeyed, hcontents⟩ := run_refines hdb ops valid_new keyed_new
  rw [contents_new] at hcontents
  refine ⟨t, _, hrun, ?_⟩
  rw [isEmpty_iff_entries hvalid, ← hcontents]
  constructor
  · intro hempty
    funext key
    exact congrFun hempty (keyNibbles key)
  · exact hkeyed.entries_eq_empty

end Runs

/-- The database of a new `MemoryDB`: it holds the empty trie under its hash, and nothing else. -/
def freshStore : NodeStore where
  decodedAt hash := if hash = blake2bNullRlp then some .empty else none
  lookUp hash _ := if hash = blake2bNullRlp then .ok none else .error (.incompleteDatabase hash)

theorem holdsNull_freshStore : freshStore.HoldsNull where
  decodedAt_null := by simp [freshStore]
  lookUp_null _ := by simp [freshStore]

/-- Two keys that part at their second nibble, one of them removed again. -/
def sampleCalls : List Op := [.insert [0x12] [1], .insert [0x13] [2], .remove [0x12], .insert [0x13] [3]]

theorem run_new_refines_sampleCalls : freshStore.HoldsNull ∧
    ∃ t, run freshStore sampleCalls new = .ok (t, (runMap sampleCalls fun _ ↦ none).2) ∧
      ∀ key, t.get freshStore key = .ok ((runMap sampleCalls fun _ ↦ none).1 key) ∧
        t.contains freshStore key = .ok ((runMap sampleCalls fun _ ↦ none).1 key).isSome :=
  ⟨holdsNull_freshStore, run_new_refines holdsNull_freshStore sampleCalls⟩

-- the calls return what each key held: nothing, nothing, the removed value, the replaced one
example : ((run freshStore sampleCalls new).toOption.map Prod.snd) =
    some [none, none, some [1], some [2]] := by
  decide +kernel

theorem run_new_valid_sampleCalls : freshStore.HoldsNull ∧
    ∃ t olds, run freshStore sampleCalls new = .ok (t, olds) ∧ t.Valid :=
  ⟨holdsNull_freshStore, run_new_valid holdsNull_freshStore sampleCalls⟩

theorem run_new_isEmpty_sampleCalls : freshStore.HoldsNull ∧
    ∃ t olds, run freshStore sampleCalls new = .ok (t, olds) ∧
      (t.isEmpty = true ↔ (runMap sampleCalls fun _ ↦ none).1 = fun _ ↦ none) :=
  ⟨holdsNull_freshStore, run_new_isEmpty holdsNull_freshStore sampleCalls⟩

end TrieDBMut

end Trie

end AionR
