import AionR.Trie.TrieDBMut
import AionR.Rlp.Stream
import AionR.Lib.HexPrefix

/-!
# Committing the trie

`commit` (`src/util/patricia_trie/src/triedbmut.rs`) writes the changed nodes to the database and
makes the hash of the root's RLP the new root. It first drops a reference to each node on death
row. Then `into_rlp` encodes the root with `commit_node` as the callback for the children:
`commit_node` encodes a new node the same way and stores it under its hash when its RLP has 32
bytes or more, giving its parent the hash, or gives the parent the RLP itself when it is shorter.
A hash, or a node loaded from the database, is given by its hash. Finally the root's RLP is stored
and its hash becomes the root, whatever its length.

## Model

A node key is kept as its nibbles (`Trie.TrieDBMut`); the bytes `into_rlp` appends for it are the
`NibbleSlice::encoded` form of those nibbles, their hex-prefix encoding (`hexPrefix`, as
`NibbleSlice.encoded_roundTrip_agrees_with_hexPrefixEncode` shows). What `commit_node` changes as
it goes, the database and `hash_count`, is a `CommitState`.

## The bytes do not depend on the database

What `commit` writes into a node's RLP is decided by the node alone: the hash `insert` returns is
the hash of the value. `Node.rlp` is that encoding, computed without a database
(`commitRlp_fst`). For a tree of new nodes in memory, `Fresh`, it is the encoding of the tree's
shape: every node is encoded from its children, as `triehash` does.
-/

namespace AionR

/-- `insert` returns the hash of the value, and the constant hash for the null RLP. -/
theorem MemoryDB.insert_snd (blake2b : Bytes → Vector UInt8 32) (m : MemoryDB) (value : Bytes) :
    (m.insert blake2b value).2 = if value = nullRlp then blake2bNullRlp else blake2b value := by
  unfold MemoryDB.insert
  split_ifs <;> rfl

namespace Trie

open Rlp

/-- The nibbles of a node key as the bytes `NibbleSlice` yields them. -/
def nibbleBytes (key : List (Fin 16)) : List UInt8 := key.map fun n ↦ n.val.toUInt8

/-- The item `append` writes for a hash: its 32 bytes as a string. -/
def hashItem (hash : Vector UInt8 32) : Bytes := encodeValue hash.toList

/-- The last item of a branch's RLP: its value, or empty data. -/
def valueItem : Option Bytes → Bytes
  | some value => encodeValue value
  | none => encodeValue []

/-- What `commit` changes as it goes: the database and `hash_count`. -/
structure CommitState where
  db : MemoryDB
  hashCount : ℕ

section Commit

variable (blake2b : Bytes → Vector UInt8 32)

mutual
/-- `into_rlp` with `commit_node` as the callback for the children: the node's RLP, and the state
once the children it hashes are stored. -/
def Node.commitRlp : Node → CommitState → Bytes × CommitState
  | .empty, s => (encodeValue [], s)
  | .leaf key value, s =>
    (encodeListPayload (encodeValue (hexPrefix (nibbleBytes key) true) ++ encodeValue value), s)
  | .extension key child, s =>
    let (item, s) := child.commitNode s
    (encodeListPayload (encodeValue (hexPrefix (nibbleBytes key) false) ++ item), s)
  | .branch children value, s =>
    -- the sixteen children in order, each appended by `commit_node` or as empty data
    let (items, s) := (List.finRange 16).foldl (fun (acc : Bytes × CommitState) i ↦
      let r := commitChild (children i) acc.2
      (acc.1 ++ r.1, r.2)) ([], s)
    (encodeListPayload (items ++ valueItem value), s)

/-- `commit_node`: the item a child gives its parent's RLP. -/
def NodeHandle.commitNode : NodeHandle → CommitState → Bytes × CommitState
  | .hash hash, s => (hashItem hash, s)
  | .inMemory stored, s => stored.commitNode s

def Stored.commitNode : Stored → CommitState → Bytes × CommitState
  | .cached _ hash, s => (hashItem hash, s)
  | .new node, s =>
    let (rlp, s) := node.commitRlp s
    if 32 ≤ rlp.length then
      let (db, hash) := s.db.insert blake2b rlp
      (hashItem hash, ⟨db, s.hashCount + 1⟩)
    else (rlp, s)

/-- A slot of a branch: its child through `commit_node`, or empty data. -/
def commitChild : Option NodeHandle → CommitState → Bytes × CommitState
  | none, s => (encodeValue [], s)
  | some child, s => child.commitNode s
end

namespace TrieDBMut

/-- `commit`: drop a reference to each node on death row, then store the root and the new nodes
below it, and make the root's hash the root. A root that is a hash is left alone, and a root
loaded from the database keeps its hash. -/
def commit (db : MemoryDB) (t : TrieDBMut) : MemoryDB × TrieDBMut :=
  let db := t.deathRow.foldl MemoryDB.remove db
  match t.rootHandle with
  | .hash _ => (db, { t with deathRow := [] })
  | .inMemory (.new node) =>
    let (rootRlp, s) := node.commitRlp blake2b ⟨db, t.hashCount⟩
    let (db, root) := s.db.insert blake2b rootRlp
    (db, { t with root, rootHandle := .hash root, deathRow := [], hashCount := s.hashCount + 1 })
  | .inMemory (.cached node hash) =>
    (db, { t with root := hash, rootHandle := .inMemory (.cached node hash), deathRow := [] })

/-- Committing a trie whose root is a hash changes no root. -/
theorem commit_root_of_hash (db : MemoryDB) {t : TrieDBMut} {hash : Vector UInt8 32}
    (h : t.rootHandle = .hash hash) : (t.commit blake2b db).2.root = t.root := by
  simp [commit, h]

end TrieDBMut

/-! ## The encoding without the database -/

mutual
/-- The RLP `commit` gives a node, from the node alone: a new child of 32 bytes or more is given
by the hash of its RLP, a hash or a loaded child by its hash. -/
def Node.rlp : Node → Bytes
  | .empty => encodeValue []
  | .leaf key value =>
    encodeListPayload (encodeValue (hexPrefix (nibbleBytes key) true) ++ encodeValue value)
  | .extension key child =>
    encodeListPayload (encodeValue (hexPrefix (nibbleBytes key) false) ++ child.item)
  | .branch children value =>
    encodeListPayload (((List.finRange 16).map fun i ↦ childItem (children i)).flatten ++
      valueItem value)

/-- The item a child gives its parent's RLP. -/
def NodeHandle.item : NodeHandle → Bytes
  | .hash hash => hashItem hash
  | .inMemory stored => stored.item

def Stored.item : Stored → Bytes
  | .cached _ hash => hashItem hash
  | .new node => if 32 ≤ node.rlp.length then hashItem (blake2b node.rlp) else node.rlp

def childItem : Option NodeHandle → Bytes
  | none => encodeValue []
  | some child => child.item
end

theorem ne_nullRlp_of_le {rlp : Bytes} (h : 32 ≤ rlp.length) : rlp ≠ nullRlp := by
  rintro rfl
  exact absurd h (by decide)

/-- The loop over a branch's children appends their items, whatever the state does. -/
theorem foldl_items_fst {σ : Type} (f : Fin 16 → σ → Bytes × σ) (g : Fin 16 → Bytes)
    (h : ∀ i s, (f i s).1 = g i) : ∀ (l : List (Fin 16)) (acc : Bytes × σ),
      (l.foldl (fun acc i ↦ (acc.1 ++ (f i acc.2).1, (f i acc.2).2)) acc).1 =
        acc.1 ++ (l.map g).flatten
  | [], acc => by simp
  | i :: l, acc => by
    rw [List.foldl_cons, foldl_items_fst f g h l, h, List.map_cons, List.flatten_cons,
      List.append_assoc]

mutual
/-- What `commit` writes for a node does not depend on the database it writes to. -/
theorem Node.commitRlp_fst : ∀ (node : Node) (s : CommitState),
    (node.commitRlp blake2b s).1 = node.rlp blake2b
  | .empty, _ => rfl
  | .leaf _ _, _ => rfl
  | .extension key child, s => by
    have h := NodeHandle.commitNode_fst child s
    rcases hc : child.commitNode blake2b s with ⟨item, s'⟩
    rw [hc] at h
    simp only [Node.commitRlp, Node.rlp, hc, ← h]
  | .branch children value, s => by
    have h := foldl_items_fst (fun i s ↦ commitChild blake2b (children i) s)
      (fun i ↦ childItem blake2b (children i)) (fun i s ↦ commitChild_fst (children i) s)
      (List.finRange 16) ([], s)
    simp only [List.nil_append] at h
    simp only [Node.commitRlp, Node.rlp, h]

theorem NodeHandle.commitNode_fst : ∀ (handle : NodeHandle) (s : CommitState),
    (handle.commitNode blake2b s).1 = handle.item blake2b
  | .hash _, _ => rfl
  | .inMemory stored, s => Stored.commitNode_fst stored s

theorem Stored.commitNode_fst : ∀ (stored : Stored) (s : CommitState),
    (stored.commitNode blake2b s).1 = stored.item blake2b
  | .cached _ _, _ => rfl
  | .new node, s => by
    have h := Node.commitRlp_fst node s
    rcases hc : node.commitRlp blake2b s with ⟨rlp, s'⟩
    rw [hc] at h
    simp only at h
    subst h
    by_cases hlen : 32 ≤ (node.rlp blake2b).length
    · simp [Stored.commitNode, Stored.item, hc, hlen, MemoryDB.insert_snd, ne_nullRlp_of_le hlen]
    · simp [Stored.commitNode, Stored.item, hc, hlen]

theorem commitChild_fst : ∀ (child : Option NodeHandle) (s : CommitState),
    (commitChild blake2b child s).1 = childItem blake2b child
  | none, _ => rfl
  | some child, s => NodeHandle.commitNode_fst child s
end

/-- Committing a trie whose root is a new node makes the hash of the root's RLP the root. -/
theorem TrieDBMut.commit_root_of_new (db : MemoryDB) {t : TrieDBMut} {node : Node}
    (h : t.rootHandle = .inMemory (.new node)) :
    (t.commit blake2b db).2.root =
      if node.rlp blake2b = nullRlp then blake2bNullRlp else blake2b (node.rlp blake2b) := by
  have hfst := Node.commitRlp_fst blake2b node ⟨t.deathRow.foldl MemoryDB.remove db, t.hashCount⟩
  rcases hc : node.commitRlp blake2b ⟨t.deathRow.foldl MemoryDB.remove db, t.hashCount⟩ with
    ⟨rlp, s⟩
  rw [hc] at hfst
  simp only at hfst
  subst hfst
  simp [TrieDBMut.commit, h, hc, MemoryDB.insert_snd]

end Commit

end Trie

end AionR
