import AionR.Trie.Entries
import AionR.Trie.Commit
import AionR.Lib.AscList

/-!
# The entries of a node as a list

`Node.entryList` lists what a node holds in the order `trie_root` sorts it: the value at the node
first, then each child's entries below its index, the children in order. It holds exactly the
node's entries (`Node.mem_entryList`), and its paths ascend (`Node.ascending_entryList`).

`keyedBelow q` gives the entries of a node at path `q` the keys `trie_root` gives them: the
nibbles of the whole path, as bytes. For a trie, whose paths are the nibbles of its keys, those
are the nibbles of the keys (`nibbleBytes_keyNibbles`).
-/

namespace AionR

namespace Trie

open PrefixMap AscList

mutual
/-- The entries of a node, in ascending order of path. -/
def Node.entryList : Node → List (List (Fin 16) × Bytes)
  | .empty => []
  | .leaf key value => [(key, value)]
  | .extension key child => child.entryList.map fun e ↦ (key ++ e.1, e.2)
  | .branch children value =>
    value.toList.map (fun v ↦ ([], v)) ++
      (List.finRange 16).flatMap fun i ↦ (childEntryList (children i)).map fun e ↦ (i :: e.1, e.2)

def NodeHandle.entryList : NodeHandle → List (List (Fin 16) × Bytes)
  | .inMemory stored => stored.entryList
  | .hash _ => []

def Stored.entryList : Stored → List (List (Fin 16) × Bytes)
  | .new node => node.entryList
  | .cached node _ => node.entryList

def childEntryList : Option NodeHandle → List (List (Fin 16) × Bytes)
  | none => []
  | some child => child.entryList
end

@[simp] theorem Stored.entryList_eq (stored : Stored) : stored.entryList = stored.node.entryList := by
  cases stored <;> rfl

/-! ## The list holds the entries -/

mutual
theorem Node.mem_entryList : ∀ (node : Node) (path : List (Fin 16)) (v : Bytes),
    (path, v) ∈ node.entryList ↔ node.entries path = some v
  | .empty, _, _ => by simp [Node.entryList]
  | .leaf key value, path, v => by
    simp [Node.entryList, eq_comm]
  | .extension key child, path, v => by
    rw [Node.entryList, Node.entries, List.mem_map]
    constructor
    · rintro ⟨⟨p, w⟩, hmem, heq⟩
      obtain ⟨rfl, rfl⟩ := Prod.mk.inj heq
      rw [under_apply_append]
      exact (NodeHandle.mem_entryList child p w).mp hmem
    · intro h
      obtain ⟨p, rfl⟩ := prefix_of_under_ne_none (k := key) (by rw [h]; simp)
      rw [under_apply_append] at h
      exact ⟨(p, v), (NodeHandle.mem_entryList child p v).mpr h, rfl⟩
  | .branch children value, [], v => by
    cases value <;> simp [Node.entryList, eq_comm]
  | .branch children value, i :: rest, v => by
    -- only the entries below child `i` start with `i`
    rw [Node.entries, cons_cons, ← childMem_entryList (children i) rest v]
    simp [Node.entryList]

theorem NodeHandle.mem_entryList : ∀ (handle : NodeHandle) (path : List (Fin 16)) (v : Bytes),
    (path, v) ∈ handle.entryList ↔ handle.entries path = some v
  | .inMemory stored, path, v => Stored.mem_entryList stored path v
  | .hash _, _, _ => by simp [NodeHandle.entryList]

theorem Stored.mem_entryList : ∀ (stored : Stored) (path : List (Fin 16)) (v : Bytes),
    (path, v) ∈ stored.entryList ↔ stored.entries path = some v
  | .new node, path, v => Node.mem_entryList node path v
  | .cached node _, path, v => Node.mem_entryList node path v

theorem childMem_entryList : ∀ (child : Option NodeHandle) (path : List (Fin 16)) (v : Bytes),
    (path, v) ∈ childEntryList child ↔ childEntries child path = some v
  | none, _, _ => by simp [childEntryList]
  | some child, path, v => NodeHandle.mem_entryList child path v
end

/-- A child in normal form holds something. -/
theorem childEntryList_ne_nil {child : NodeHandle} (h : child.Normal) : child.entryList ≠ [] := by
  obtain ⟨path, hpath⟩ := NodeHandle.exists_entry child h
  obtain ⟨v, hv⟩ := Option.ne_none_iff_exists'.mp hpath
  exact List.ne_nil_of_mem ((NodeHandle.mem_entryList child path v).mpr hv)

/-! ## The paths ascend -/

mutual
theorem Node.ascending_entryList : ∀ node : Node, Ascending node.entryList
  | .empty => List.Pairwise.nil
  | .leaf key value => List.pairwise_singleton _ (key, value)
  | .extension key child =>
    (NodeHandle.ascending_entryList child).map_keys fun _ _ h ↦ append_lt_append_left key h
  | .branch children value => by
    refine List.pairwise_append.mpr ⟨?_, ?_, ?_⟩
    · -- at most one value
      cases value <;> simp
    · -- within a child, and from one child to a later one
      refine List.pairwise_flatMap.mpr ⟨fun i _ ↦ ?_, ?_⟩
      · exact (childAscending_entryList (children i)).map_keys fun _ _ h ↦ List.Lex.cons h
      · refine (List.pairwise_lt_finRange 16).imp fun {i j} hij ↦ ?_
        intro x hx y hy
        obtain ⟨_, -, rfl⟩ := List.mem_map.mp hx
        obtain ⟨_, -, rfl⟩ := List.mem_map.mp hy
        exact List.Lex.rel hij
    · -- the value's empty path comes first
      intro x hx y hy
      obtain ⟨_, -, rfl⟩ := List.mem_map.mp hx
      obtain ⟨_, -, hy⟩ := List.mem_flatMap.mp hy
      obtain ⟨_, -, rfl⟩ := List.mem_map.mp hy
      exact List.Lex.nil

theorem NodeHandle.ascending_entryList : ∀ handle : NodeHandle, Ascending handle.entryList
  | .inMemory stored => Stored.ascending_entryList stored
  | .hash _ => List.Pairwise.nil

theorem Stored.ascending_entryList : ∀ stored : Stored, Ascending stored.entryList
  | .new node => Node.ascending_entryList node
  | .cached node _ => Node.ascending_entryList node

theorem childAscending_entryList : ∀ child : Option NodeHandle, Ascending (childEntryList child)
  | none => List.Pairwise.nil
  | some child => NodeHandle.ascending_entryList child
end

/-! ## Keys as `trie_root` gives them -/

/-- The entries of a node at path `q`, keyed by the nibbles of their whole path. -/
def keyedBelow (q : List (Fin 16)) (l : List (List (Fin 16) × Bytes)) : List (List UInt8 × Bytes) :=
  l.map fun e ↦ (nibbleBytes (q ++ e.1), e.2)

@[simp] theorem nibbleBytes_nil : nibbleBytes [] = [] := rfl

@[simp] theorem nibbleBytes_append (a b : List (Fin 16)) :
    nibbleBytes (a ++ b) = nibbleBytes a ++ nibbleBytes b :=
  List.map_append

@[simp] theorem length_nibbleBytes (a : List (Fin 16)) : (nibbleBytes a).length = a.length :=
  List.length_map _

theorem nibble_toUInt8_lt {a b : Fin 16} (h : a < b) : a.val.toUInt8 < b.val.toUInt8 := by
  rw [UInt8.lt_iff_toNat_lt]
  simp only [Nat.toUInt8_eq, UInt8.toNat_ofNat']
  omega

theorem nibbleBytes_lt {a b : List (Fin 16)} (h : a < b) : nibbleBytes a < nibbleBytes b :=
  map_lt_map (fun _ _ ↦ nibble_toUInt8_lt) h

/-- The trie's path for a key is the nibbles `trie_root` reads it as. -/
theorem nibbleBytes_keyNibbles (key : Bytes) : nibbleBytes (keyNibbles key) = nibblesOf key := by
  induction key with
  | nil => rfl
  | cons b key ih =>
    have hb := b.toNat_lt
    have hhigh : (b.toNat / 16).toUInt8 = b >>> 4 := by
      rw [UInt8.toNat_inj.symm, toNat_shiftRight_four]
      simp only [Nat.toUInt8_eq, UInt8.toNat_ofNat']
      omega
    have hlow : (b.toNat % 16).toUInt8 = b &&& 15 := by
      rw [UInt8.toNat_inj.symm, toNat_and_fifteen]
      simp only [Nat.toUInt8_eq, UInt8.toNat_ofNat']
      omega
    rw [nibblesOf_cons, ← ih]
    simp [nibbleBytes, keyNibbles, hhigh, hlow]

/-- Reading bytes as nibbles keeps their order. -/
theorem nibblesOf_lt {a b : Bytes} (h : a < b) : nibblesOf a < nibblesOf b := by
  induction h with
  | nil => exact List.Lex.nil
  | cons _ ih => exact List.Lex.cons (List.Lex.cons ih)
  | @rel x _ y _ hxy =>
    -- the high nibbles part, or they agree and the low ones part
    have hxy' := UInt8.lt_iff_toNat_lt.mp hxy
    rw [nibblesOf_cons, nibblesOf_cons]
    by_cases hhigh : x >>> 4 = y >>> 4
    · rw [hhigh]
      refine List.Lex.cons (List.Lex.rel ?_)
      have := congrArg UInt8.toNat hhigh
      rw [toNat_shiftRight_four, toNat_shiftRight_four] at this
      rw [UInt8.lt_iff_toNat_lt, toNat_and_fifteen, toNat_and_fifteen]
      omega
    · refine List.Lex.rel ?_
      have : (x >>> 4).toNat ≠ (y >>> 4).toNat := fun h ↦ hhigh (UInt8.toNat_inj.mp h)
      rw [toNat_shiftRight_four, toNat_shiftRight_four] at this
      rw [UInt8.lt_iff_toNat_lt, toNat_shiftRight_four, toNat_shiftRight_four]
      omega

theorem keyedBelow_map_append (q key : List (Fin 16)) (l : List (List (Fin 16) × Bytes)) :
    keyedBelow q (l.map fun e ↦ (key ++ e.1, e.2)) = keyedBelow (q ++ key) l := by
  simp [keyedBelow, Function.comp_def]

theorem ascending_keyedBelow (q : List (Fin 16)) {l : List (List (Fin 16) × Bytes)}
    (h : Ascending l) : Ascending (keyedBelow q l) :=
  h.map_keys fun _ _ hab ↦ nibbleBytes_lt (append_lt_append_left q hab)

/-- Every key below `q` starts with the nibbles of `q`. -/
theorem prefix_of_mem_keyedBelow {q : List (Fin 16)} {l : List (List (Fin 16) × Bytes)}
    {e : List UInt8 × Bytes} (he : e ∈ keyedBelow q l) : nibbleBytes q <+: e.1 := by
  obtain ⟨e', -, rfl⟩ := List.mem_map.mp he
  exact ⟨nibbleBytes e'.1, (nibbleBytes_append q e'.1).symm⟩

/-- Every key below `q ++ [i]` has `i` at the position past `q`. -/
theorem getElem?_of_mem_keyedBelow {q : List (Fin 16)} {i : Fin 16}
    {l : List (List (Fin 16) × Bytes)} {e : List UInt8 × Bytes} (he : e ∈ keyedBelow (q ++ [i]) l) :
    e.1[q.length]? = some i.val.toUInt8 := by
  obtain ⟨e', -, rfl⟩ := List.mem_map.mp he
  simp [nibbleBytes]

end Trie

end AionR
