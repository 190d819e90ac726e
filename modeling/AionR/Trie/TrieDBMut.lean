import AionR.JournalDB.MemoryDB

/-!
# The in-memory Patricia trie

`TrieDBMut` (`src/util/patricia_trie/src/triedbmut.rs`) edits a Patricia trie in memory and
writes it to its `HashStore` only on `commit`. `insert` descends along the key's nibbles,
turning leaves into extensions and branches where keys part; `remove` descends the same way and
re-normalises on the way back up through `fix`: a branch left with one occupant becomes a leaf or
an extension, and an extension absorbs an extension or a leaf below it. `get` walks down, into
the database once it meets a hash.

## Model

A node's key is kept as the nibbles it encodes: the source stores `NibbleSlice::encoded` and
reads it back with `NibbleSlice::from_encoded`, which returns the same nibbles
(`NibbleSlice.fromEncoded_hexPrefix`), and the leaf-or-extension flag is the constructor. The
slices the trie compares are never composed, so a slice is its list of nibbles, and
`common_prefix`, `starts_with`, `==`, `at(0)` and `mid` are read on that list. The node storage
is a tree: each `StorageHandle` is owned by exactly one node, so a handle in memory is the
`Stored` node its slot holds. A branch's sixteen children are a function on `Fin 16`.

What the trie reads of its database, a node decoded by `Node::from_rlp` and a lookup below a
hash by `Lookup::look_up`, is a parameter (`NodeStore`); decoding and hashing are not modelled
here, nor is `commit`.

`insert_at` and its inspector recurse on a key that gets shorter at every step but a change of
node kind, so they are defined by well-founded recursion. `remove_at` and `fix` can only loop
through the database, on a chain of extensions leading to extensions; they are given a bound,
`2 * path.length + 6` steps, which a trie in normal form never reaches (`Trie.Remove`).
-/

namespace AionR

namespace Trie

/-- `TrieError`. -/
inductive TrieError where
  | invalidStateRoot (root : Vector UInt8 32)
  | incompleteDatabase (hash : Vector UInt8 32)
  deriving DecidableEq, Repr

/-- Why a trie operation stopped: an `Err` of the source, a panic, or a walk that did not end
within the bound the model gives it. -/
inductive TrieFault where
  | error (e : TrieError)
  | panic (message : String)
  | diverges
  deriving DecidableEq, Repr

mutual
/-- `Node`. A key is kept as the nibbles it encodes: the source stores `NibbleSlice::encoded`
and reads it back with `NibbleSlice::from_encoded`, which returns those nibbles. -/
inductive Node where
  | empty
  | leaf (key : List (Fin 16)) (value : Bytes)
  | extension (key : List (Fin 16)) (child : NodeHandle)
  | branch (children : Fin 16 → Option NodeHandle) (value : Option Bytes)

/-- `NodeHandle`. A node in memory is the `Stored` node its storage slot holds. -/
inductive NodeHandle where
  | inMemory (stored : Stored)
  | hash (hash : Vector UInt8 32)

/-- `Stored`: a new node, or one loaded from the database under its hash. -/
inductive Stored where
  | new (node : Node)
  | cached (node : Node) (hash : Vector UInt8 32)
end

/-- The node a slot holds (`Index for NodeStorage`). -/
def Stored.node : Stored → Node
  | .new node => node
  | .cached node _ => node

/-- `empty_children`. -/
def emptyChildren : Fin 16 → Option NodeHandle := fun _ ↦ none

/-- What the trie reads of its `HashStore`: the node stored under a hash as `Node::from_rlp`
decodes it (`none` when the store lacks the hash), and `Lookup::look_up` of a key below a hash. -/
structure NodeStore where
  decodedAt : Vector UInt8 32 → Option Node
  lookUp : Vector UInt8 32 → List (Fin 16) → Except TrieError (Option Bytes)

/-- `post-inspect action`. -/
inductive Action where
  | replace (node : Node)
  | restore (node : Node)
  | delete

/-- `post-insert action`. -/
inductive InsertAction where
  | replace (node : Node)
  | restore (node : Node)

def InsertAction.intoAction : InsertAction → Action
  | .replace node => .replace node
  | .restore node => .restore node

def InsertAction.unwrapNode : InsertAction → Node
  | .replace node => node
  | .restore node => node

/-- What an operation changes besides the nodes: `death_row`, and the `old_val` it found. -/
structure Effects where
  deathRow : List (Vector UInt8 32)
  oldVal : Option Bytes

/-- `NibbleSlice::common_prefix`. -/
def commonPrefix : List (Fin 16) → List (Fin 16) → ℕ
  | a :: as, b :: bs => if a = b then commonPrefix as bs + 1 else 0
  | _, _ => 0

@[simp] theorem commonPrefix_cons_cons (a b : Fin 16) (as bs : List (Fin 16)) :
    commonPrefix (a :: as) (b :: bs) = if a = b then commonPrefix as bs + 1 else 0 := rfl

@[simp] theorem commonPrefix_nil_left (bs : List (Fin 16)) : commonPrefix [] bs = 0 := rfl

@[simp] theorem commonPrefix_nil_right (as : List (Fin 16)) : commonPrefix as [] = 0 := by
  cases as <;> rfl

theorem commonPrefix_le_length_right :
    ∀ (as bs : List (Fin 16)), commonPrefix as bs ≤ bs.length
  | a :: as, b :: bs => by
    rw [commonPrefix_cons_cons]
    split_ifs
    · exact Nat.succ_le_succ (commonPrefix_le_length_right as bs)
    · exact Nat.zero_le _
  | [], _ => Nat.zero_le _
  | _ :: _, [] => Nat.zero_le _

theorem commonPrefix_comm : ∀ (as bs : List (Fin 16)), commonPrefix as bs = commonPrefix bs as
  | a :: as, b :: bs => by
    rw [commonPrefix_cons_cons, commonPrefix_cons_cons, commonPrefix_comm as bs]
    by_cases h : a = b
    · rw [if_pos h, if_pos h.symm]
    · rw [if_neg h, if_neg (Ne.symm h)]
  | [], bs => by rw [commonPrefix_nil_left, commonPrefix_nil_right]
  | _ :: _, [] => rfl

/-- The two lists agree up to their common prefix. -/
theorem take_commonPrefix :
    ∀ (as bs : List (Fin 16)), as.take (commonPrefix as bs) = bs.take (commonPrefix as bs)
  | a :: as, b :: bs => by
    rw [commonPrefix_cons_cons]
    split_ifs with h
    · rw [List.take_succ_cons, List.take_succ_cons, h, take_commonPrefix as bs]
    · rfl
  | [], _ => rfl
  | _ :: _, [] => rfl

/-- Past the common prefix, the lists differ at the next nibble. -/
theorem getElem_ne_of_commonPrefix :
    ∀ {as bs : List (Fin 16)} (has : commonPrefix as bs < as.length)
      (hbs : commonPrefix as bs < bs.length), as[commonPrefix as bs] ≠ bs[commonPrefix as bs]
  | a :: as, b :: bs, has, hbs => by
    by_cases h : a = b
    · have has' : commonPrefix as bs < as.length := by
        rw [commonPrefix_cons_cons, if_pos h] at has
        simpa using has
      have hbs' : commonPrefix as bs < bs.length := by
        rw [commonPrefix_cons_cons, if_pos h] at hbs
        simpa using hbs
      simp only [commonPrefix_cons_cons, if_pos h, List.getElem_cons_succ]
      exact getElem_ne_of_commonPrefix has' hbs'
    · simpa [commonPrefix_cons_cons, if_neg h] using h
  | [], _, has, _ => absurd has (Nat.not_lt_zero _)
  | _ :: _, [], _, hbs => absurd hbs (Nat.not_lt_zero _)

/-- A shared first part counts towards the common prefix. -/
theorem commonPrefix_append (k as bs : List (Fin 16)) :
    commonPrefix (k ++ as) (k ++ bs) = k.length + commonPrefix as bs := by
  induction k with
  | nil => simp
  | cons a k ih =>
    rw [List.cons_append, List.cons_append, commonPrefix_cons_cons, if_pos rfl, ih,
      List.length_cons]
    omega

/-- The common prefix is all of `bs` exactly when `bs` is a prefix of `as`. -/
theorem commonPrefix_eq_length_right_iff {as bs : List (Fin 16)} :
    commonPrefix as bs = bs.length ↔ bs <+: as := by
  constructor
  · intro h
    have htake := take_commonPrefix as bs
    rw [h, List.take_length] at htake
    rw [← htake]
    exact List.take_prefix _ _
  · rintro ⟨rest, rfl⟩
    have h := commonPrefix_append bs rest []
    rwa [List.append_nil, commonPrefix_nil_right, Nat.add_zero] at h

/-- A common prefix as long as both lists makes them equal. -/
theorem eq_of_commonPrefix_eq_length {as bs : List (Fin 16)}
    (has : commonPrefix as bs = as.length) (hbs : commonPrefix as bs = bs.length) : as = bs := by
  have htake := take_commonPrefix as bs
  rwa [hbs, List.take_length, ← hbs, has, List.take_length] at htake

/-- `NibbleSlice::starts_with`. -/
def startsWith (self them : List (Fin 16)) : Bool := commonPrefix self them == them.length

/-- `NibbleSlice::eq`. -/
def nibblesEq (self them : List (Fin 16)) : Bool := self.length == them.length && startsWith self them

theorem startsWith_iff {self them : List (Fin 16)} : startsWith self them = true ↔ them <+: self := by
  rw [startsWith, beq_iff_eq, commonPrefix_eq_length_right_iff]

theorem nibblesEq_iff {self them : List (Fin 16)} : nibblesEq self them = true ↔ self = them := by
  rw [nibblesEq, Bool.and_eq_true, beq_iff_eq, startsWith_iff]
  constructor
  · rintro ⟨hlen, hpre⟩
    exact (hpre.eq_of_length hlen.symm).symm
  · rintro rfl
    exact ⟨rfl, List.prefix_refl _⟩

/-- `UsedIndex`, the occupied children `fix` has seen. -/
inductive UsedIndex where
  | none
  | one (index : Fin 16)
  | many

/-- One turn of the loop of `fix` over the children. -/
def UsedIndex.next (children : Fin 16 → Option NodeHandle) (used : UsedIndex) (i : Fin 16) :
    UsedIndex :=
  match (children i).isNone, used with
  | false, .none => .one i
  | false, .one _ => .many
  | _, used => used

/-- The loop of `fix` over the sixteen children; it stops early at a second one, which changes
nothing it returns. -/
def usedIndex (children : Fin 16 → Option NodeHandle) : UsedIndex :=
  (List.finRange 16).foldl (UsedIndex.next children) .none

section Ops

variable (db : NodeStore)

/-- `cache`: load a node from the database. -/
def cache (hash : Vector UInt8 32) : Except TrieFault Stored :=
  match db.decodedAt hash with
  | some node => .ok (.cached node hash)
  | none => .error (.error (.incompleteDatabase hash))

/-- The stored node a handle gives up to `insert_at` and `remove_at`: its slot, or the node
loaded from the database. -/
def takeStored : NodeHandle → Except TrieFault Stored
  | .inMemory stored => .ok stored
  | .hash hash => cache db hash

/-- `inspect`, after its inspector has run: replacing or deleting a node loaded from the database
puts its hash on death row. -/
def inspect (deathRow : List (Vector UInt8 32)) : Stored → Action →
    Option (Stored × Bool) × List (Vector UInt8 32)
  | .new _, .restore node => (some (.new node, false), deathRow)
  | .new _, .replace node => (some (.new node, true), deathRow)
  | .new _, .delete => (none, deathRow)
  | .cached _ hash, .restore node => (some (.cached node hash, false), deathRow)
  | .cached _ hash, .replace node => (some (.new node, true), deathRow.insert hash)
  | .cached _ hash, .delete => (none, deathRow.insert hash)

theorem commonPrefix_le_length_left :
    ∀ (as bs : List (Fin 16)), commonPrefix as bs ≤ as.length
  | a :: as, b :: bs => by
    unfold commonPrefix
    split_ifs
    · exact Nat.succ_le_succ (commonPrefix_le_length_left as bs)
    · exact Nat.zero_le _
  | [], _ => Nat.zero_le _
  | _ :: _, [] => Nat.zero_le _

mutual
/-- `insert_at`. -/
def insertAt (fx : Effects) (handle : NodeHandle) (path : List (Fin 16)) (value : Bytes) :
    Except TrieFault (Stored × Bool × Effects) := do
  let stored ← takeStored db handle
  let (action, fx) ← insertInspector fx stored.node path value
  match inspect fx.deathRow stored action.intoAction with
  | (some (stored, changed), deathRow) => pure (stored, changed, { fx with deathRow })
  | (none, _) => throw (.panic "Insertion never deletes.")
termination_by 3 * path.length + 2

/-- The `Node::Branch` arm of `insert_inspector`. -/
def insertBranch (fx : Effects) (children : Fin 16 → Option NodeHandle)
    (storedValue : Option Bytes) (path : List (Fin 16)) (value : Bytes) :
    Except TrieFault (InsertAction × Effects) :=
  match path with
  | [] =>
    let unchanged := storedValue == some value
    let branch := Node.branch children (some value)
    pure (if unchanged then .restore branch else .replace branch, { fx with oldVal := storedValue })
  | i :: rest =>
    match children i with
    | some child => do
      let (newChild, changed, fx) ← insertAt fx child rest value
      let children := Function.update children i (some (.inMemory newChild))
      if !changed then pure (.restore (.branch children storedValue), fx)
      else pure (.replace (.branch children storedValue), fx)
    | none =>
      let leaf := Stored.new (.leaf rest value)
      pure (.replace (.branch (Function.update children i (some (.inMemory leaf))) storedValue), fx)
termination_by 3 * path.length

/-- `insert_inspector`. -/
def insertInspector (fx : Effects) (node : Node) (path : List (Fin 16)) (value : Bytes) :
    Except TrieFault (InsertAction × Effects) :=
  match node with
  | .empty => pure (.replace (.leaf path value), fx)
  | .branch children storedValue => insertBranch fx children storedValue path value
  | .leaf existing storedValue =>
    let cp := commonPrefix path existing
    if cp = existing.length ∧ cp = path.length then
      -- equivalent leaf
      let unchanged := storedValue == value
      let leaf := Node.leaf existing value
      pure (if unchanged then .restore leaf else .replace leaf, { fx with oldVal := some storedValue })
    else if cp = 0 then
      -- no common prefix: transmute to a branch
      match existing with
      | [] => do
        let (action, fx) ← insertBranch fx emptyChildren (some storedValue) path value
        pure (.replace action.unwrapNode, fx)
      | i :: rest => do
        let leaf := Stored.new (.leaf rest storedValue)
        let (action, fx) ← insertBranch fx
          (Function.update emptyChildren i (some (.inMemory leaf))) none path value
        pure (.replace action.unwrapNode, fx)
    else if cp = existing.length then do
      -- the leaf's key is a prefix: a stub branch under an extension
      let (action, fx) ← insertBranch fx emptyChildren (some storedValue) (path.drop cp) value
      pure (.replace (.extension existing (.inMemory (.new action.unwrapNode))), fx)
    else do
      -- partially shared prefix
      let (action, fx) ← insertInspector fx (.leaf (existing.drop cp) storedValue) (path.drop cp) value
      pure (.replace (.extension (existing.take cp) (.inMemory (.new action.unwrapNode))), fx)
  | .extension existing childBranch =>
    let cp := commonPrefix path existing
    if cp = 0 then
      match existing with
      | [] => throw (.panic "assertion failed: !existing_key.is_empty()")
      | i :: rest => do
        let child := if rest.length = 0 then childBranch
          else .inMemory (.new (.extension rest childBranch))
        let (action, fx) ← insertBranch fx (Function.update emptyChildren i (some child)) none
          path value
        pure (.replace action.unwrapNode, fx)
    else if cp = existing.length then do
      -- fully shared prefix: insert into the child
      let (newChild, changed, fx) ← insertAt fx childBranch (path.drop cp) value
      let newExt := Node.extension existing (.inMemory newChild)
      pure (if changed then .replace newExt else .restore newExt, fx)
    else do
      -- partially shared prefix
      let (action, fx) ← insertInspector fx (.extension (existing.drop cp) childBranch)
        (path.drop cp) value
      pure (.replace (.extension (existing.take cp) (.inMemory (.new action.unwrapNode))), fx)
termination_by 3 * path.length + 1
decreasing_by
  all_goals first
    | omega
    | (have hle := commonPrefix_le_length_left path existing
       simp only [List.length_drop, cp] at *
       omega)
end

mutual
/-- `remove_at`. A walk down a trie whose extensions lead to branches ends within
`2 * path.length + 6` steps; the bound makes the model total over any database. -/
def removeAt : ℕ → Effects → NodeHandle → List (Fin 16) →
    Except TrieFault (Option (Stored × Bool) × Effects)
  | 0, _, _, _ => throw .diverges
  | fuel + 1, fx, handle, path => do
    let stored ← takeStored db handle
    let (action, fx) ← removeInspector fuel fx stored.node path
    let (result, deathRow) := inspect fx.deathRow stored action
    pure (result, { fx with deathRow })

/-- `remove_inspector`. -/
def removeInspector : ℕ → Effects → Node → List (Fin 16) → Except TrieFault (Action × Effects)
  | 0, _, _, _ => throw .diverges
  | fuel + 1, fx, node, path =>
    match node, path with
    | .empty, _ => pure (.delete, fx)
    | .branch children none, [] => pure (.restore (.branch children none), fx)
    | .branch children (some val), [] => do
      -- always replace since we took the value out
      let (node, fx) ← fix fuel { fx with oldVal := some val } (.branch children none)
      pure (.replace node, fx)
    | .branch children value, i :: rest =>
      match children i with
      | some child => do
        let (result, fx) ← removeAt fuel fx child rest
        match result with
        | some (new, changed) =>
          let branch := Node.branch (Function.update children i (some (.inMemory new))) value
          pure (if changed then .replace branch else .restore branch, fx)
        | none => do
          -- the child was deleted: the branch may need fixing
          let (node, fx) ← fix fuel fx (.branch (Function.update children i none) value)
          pure (.replace node, fx)
      | none => pure (.restore (.branch children value), fx)
    | .leaf existing value, path =>
      if nibblesEq existing path then pure (.delete, { fx with oldVal := some value })
      else pure (.restore (.leaf existing value), fx)
    | .extension existing childBranch, path =>
      let cp := commonPrefix existing path
      if cp = existing.length then do
        let (result, fx) ← removeAt fuel fx childBranch (path.drop cp)
        match result with
        | some (newChild, changed) =>
          if changed then do
            let (node, fx) ← fix fuel fx (.extension existing (.inMemory newChild))
            pure (.replace node, fx)
          else pure (.restore (.extension existing (.inMemory newChild)), fx)
        | none => pure (.delete, fx)
      else pure (.restore (.extension existing childBranch), fx)

/-- `fix`: a branch left with one occupant becomes a leaf or an extension, and an extension
absorbs an extension or a leaf below it. -/
def fix : ℕ → Effects → Node → Except TrieFault (Node × Effects)
  | 0, _, _ => throw .diverges
  | fuel + 1, fx, .branch children value =>
    match usedIndex children, value with
    | .none, none => throw (.panic "Branch with no subvalues. Something went wrong.")
    | .one a, none =>
      match children a with
      | some child => fix fuel fx (.extension [a] child)
      | none => throw (.panic "used_index only set if occupied; qed")
    | .none, some value => pure (.leaf [] value, fx)
    | _, value => pure (.branch children value, fx)
  | fuel + 1, fx, .extension key child => do
    let stored ← takeStored db child
    match stored with
    | .new (.extension subKey subChild) => fix fuel fx (.extension (key ++ subKey) subChild)
    | .cached (.extension subKey subChild) hash =>
      fix fuel { fx with deathRow := fx.deathRow.insert hash } (.extension (key ++ subKey) subChild)
    | .new (.leaf subKey value) => pure (.leaf (key ++ subKey) value, fx)
    | .cached (.leaf subKey value) hash =>
      pure (.leaf (key ++ subKey) value, { fx with deathRow := fx.deathRow.insert hash })
    | stored => pure (.extension key (.inMemory stored), fx)
  | _ + 1, fx, node => pure (node, fx)
end

mutual
/-- `lookup`, over a handle: a hash is looked up in the database. -/
def lookupHandle : List (Fin 16) → NodeHandle → Except TrieError (Option Bytes)
  | path, .hash hash => db.lookUp hash path
  | path, .inMemory stored => lookupStored path stored

def lookupStored : List (Fin 16) → Stored → Except TrieError (Option Bytes)
  | path, .new node => lookupNode path node
  | path, .cached node _ => lookupNode path node

/-- `lookup`, over a node in memory. -/
def lookupNode : List (Fin 16) → Node → Except TrieError (Option Bytes)
  | _, .empty => .ok none
  | path, .leaf key value => .ok (if nibblesEq key path then some value else none)
  | path, .extension slice child =>
    if startsWith path slice then lookupHandle (path.drop slice.length) child else .ok none
  | path, .branch children value =>
    match path with
    | [] => .ok value
    | i :: rest => lookupChild rest (children i)

def lookupChild : List (Fin 16) → Option NodeHandle → Except TrieError (Option Bytes)
  | _, none => .ok none
  | path, some child => lookupHandle path child
end

end Ops

/-- The nibbles of a key, `NibbleSlice::new(key)`: each byte's high nibble, then its low one. -/
def keyNibbles (key : Bytes) : List (Fin 16) :=
  key.flatMap fun b ↦
    [⟨b.toNat / 16, by have := b.toNat_lt; omega⟩, ⟨b.toNat % 16, Nat.mod_lt _ (by decide)⟩]

/-- `TrieDBMut`, with its node storage as the tree of nodes its root handle owns. -/
structure TrieDBMut where
  root : Vector UInt8 32
  rootHandle : NodeHandle
  deathRow : List (Vector UInt8 32)
  hashCount : ℕ

namespace TrieDBMut

variable (db : NodeStore) (t : TrieDBMut)

/-- `TrieDBMut::new`. -/
def new : TrieDBMut := ⟨blake2bNullRlp, .hash blake2bNullRlp, [], 0⟩

/-- `is_empty`. -/
def isEmpty : Bool :=
  match t.rootHandle with
  | .hash h => h == blake2bNullRlp
  | .inMemory stored =>
    match stored.node with
    | .empty => true
    | _ => false

/-- `get`. -/
def get (key : Bytes) : Except TrieError (Option Bytes) := lookupHandle db (keyNibbles key) t.rootHandle

/-- `contains`, as `TrieMut` provides it. -/
def contains (key : Bytes) : Except TrieError Bool := (t.get db key).map Option.isSome

/-- `remove`. -/
def remove (key : Bytes) : Except TrieFault (TrieDBMut × Option Bytes) := do
  let path := keyNibbles key
  let (result, fx) ← removeAt db (2 * path.length + 6) ⟨t.deathRow, none⟩ t.rootHandle path
  match result with
  | some (handle, _) =>
    pure ({ t with
      rootHandle := .inMemory handle
      deathRow := fx.deathRow }, fx.oldVal)
  | none =>
    -- the trie was obliterated
    pure ({ t with
      rootHandle := .hash blake2bNullRlp
      root := blake2bNullRlp
      deathRow := fx.deathRow }, fx.oldVal)

/-- `insert`; an empty value removes the key. -/
def insert (key value : Bytes) : Except TrieFault (TrieDBMut × Option Bytes) :=
  if value.isEmpty then t.remove db key
  else do
    let (newHandle, _, fx) ← insertAt db ⟨t.deathRow, none⟩ t.rootHandle (keyNibbles key) value
    pure ({ t with
      rootHandle := .inMemory newHandle
      deathRow := fx.deathRow }, fx.oldVal)

end TrieDBMut

end Trie

end AionR
