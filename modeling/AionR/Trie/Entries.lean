import AionR.Trie.TrieDBMut
import AionR.Lib.ListFilter
import AionR.Lib.PrefixMap

/-!
# What a trie holds

The contents of a trie in memory as a map from nibble paths to values (`Node.entries`). The map
is built from the pieces of `PrefixMap`: a leaf is a single entry, and an extension moves its
child's map below its key. A branch holds its value at the empty path and each child's map below
the child's index. A hash stands for a node the trie has not loaded. The trie's own operations
never leave one below a node they change, so here a hash holds nothing.

## Normal form

`Node.Normal` is the shape that `insert` and `remove` keep:
* an extension has a nonempty key and leads to a branch;
* a branch holds at least two things, counting its children and its value;
* every node below is in memory and not empty.

`lookup` over a trie in normal form reads exactly its entries, and never the database
(`lookupNode_eq_entries`).
-/

namespace AionR

namespace Trie

open PrefixMap

/-! ## The occupants of a branch -/

/-- The indices of a branch's children, in order. -/
def occupied (children : Fin 16 → Option NodeHandle) : List (Fin 16) :=
  (List.finRange 16).filter fun i ↦ (children i).isSome

/-- How many children and values a branch holds. -/
def occupants (children : Fin 16 → Option NodeHandle) (value : Option Bytes) : ℕ :=
  (occupied children).length + if value.isSome then 1 else 0

theorem mem_occupied {children : Fin 16 → Option NodeHandle} {i : Fin 16} :
    i ∈ occupied children ↔ (children i).isSome := by
  simp [occupied]

/-- Setting one child moves the count by what that slot held before and after. -/
theorem occupants_update (children : Fin 16 → Option NodeHandle) (value : Option Bytes)
    (i : Fin 16) (child : Option NodeHandle) :
    occupants (Function.update children i child) value + (if (children i).isSome then 1 else 0) =
      occupants children value + (if child.isSome then 1 else 0) := by
  have h := length_filter_add_of_agree (p := fun j ↦ (children j).isSome)
    (q := fun j ↦ (Function.update children i child j).isSome)
    (fun j hj ↦ by rw [Function.update_of_ne hj]) (List.nodup_finRange 16) (List.mem_finRange i)
  simp only [Function.update_self] at h
  simp only [occupants, occupied]
  omega

/-- What the loop of `fix` ends with, from `used`, after seeing the occupied indices `is`. -/
def UsedIndex.after : UsedIndex → List (Fin 16) → UsedIndex
  | used, [] => used
  | .none, i :: rest => UsedIndex.after (.one i) rest
  | .one _, _ :: _ => .many
  | .many, _ :: _ => .many

theorem UsedIndex.after_many (is : List (Fin 16)) : UsedIndex.after .many is = .many := by
  cases is <;> rfl

/-- The loop of `fix` sees only the occupied children. -/
theorem foldl_next (children : Fin 16 → Option NodeHandle) :
    ∀ (l : List (Fin 16)) (used : UsedIndex),
      l.foldl (UsedIndex.next children) used = used.after (l.filter fun i ↦ (children i).isSome)
  | [], _ => rfl
  | i :: l, used => by
    rw [List.foldl_cons, foldl_next children l, List.filter_cons]
    cases h : children i <;> cases used <;>
      simp [UsedIndex.next, h, UsedIndex.after, UsedIndex.after_many]

/-- `used_index` is none, one or many as the branch has no, one or several children. -/
theorem usedIndex_eq_after (children : Fin 16 → Option NodeHandle) :
    usedIndex children = UsedIndex.none.after (occupied children) :=
  foldl_next children _ _

theorem usedIndex_eq_none_iff (children : Fin 16 → Option NodeHandle) :
    usedIndex children = .none ↔ occupied children = [] := by
  rw [usedIndex_eq_after]
  generalize occupied children = l
  rcases l with _ | ⟨a, _ | ⟨b, l⟩⟩ <;> simp [UsedIndex.after]

theorem usedIndex_eq_one_iff (children : Fin 16 → Option NodeHandle) (a : Fin 16) :
    usedIndex children = .one a ↔ occupied children = [a] := by
  rw [usedIndex_eq_after]
  generalize occupied children = l
  rcases l with _ | ⟨b, _ | ⟨c, l⟩⟩ <;> simp [UsedIndex.after, eq_comm]

/-! ## Entries -/

mutual
/-- The entries of a node, at paths relative to it. -/
def Node.entries : Node → List (Fin 16) → Option Bytes
  | .empty => PrefixMap.empty
  | .leaf key value => single key value
  | .extension key child => under key child.entries
  | .branch children value => cons value fun i ↦ childEntries (children i)

/-- The entries of a handle: those of the node it holds in memory. -/
def NodeHandle.entries : NodeHandle → List (Fin 16) → Option Bytes
  | .inMemory stored => stored.entries
  | .hash _ => PrefixMap.empty

def Stored.entries : Stored → List (Fin 16) → Option Bytes
  | .new node => node.entries
  | .cached node _ => node.entries

def childEntries : Option NodeHandle → List (Fin 16) → Option Bytes
  | none => PrefixMap.empty
  | some child => child.entries
end

attribute [simp] Node.entries NodeHandle.entries childEntries

@[simp] theorem Stored.entries_eq (stored : Stored) : stored.entries = stored.node.entries := by
  cases stored <;> rfl

/-- The entries of a branch's children after one of them is set. -/
theorem childEntries_update (children : Fin 16 → Option NodeHandle) (i : Fin 16)
    (child : Option NodeHandle) :
    (fun j ↦ childEntries (Function.update children i child j)) =
      Function.update (fun j ↦ childEntries (children j)) i (childEntries child) := by
  funext j
  by_cases hj : j = i
  · subst hj
    simp
  · simp [Function.update_of_ne hj]

theorem childEntries_emptyChildren : (fun i ↦ childEntries (emptyChildren i)) = fun _ ↦ empty := by
  funext i
  rfl

/-! ## Normal form -/

def Node.IsBranch : Node → Prop
  | .branch _ _ => True
  | _ => False

def NodeHandle.IsBranch : NodeHandle → Prop
  | .inMemory stored => stored.node.IsBranch
  | .hash _ => False

mutual
/-- A node in normal form. -/
def Node.Normal : Node → Prop
  | .empty => True
  | .leaf _ _ => True
  | .extension key child => key ≠ [] ∧ child.Normal ∧ child.IsBranch
  | .branch children value => (∀ i, ChildNormal (children i)) ∧ 2 ≤ occupants children value

/-- A handle in normal form holds a nonempty node in normal form in memory. -/
def NodeHandle.Normal : NodeHandle → Prop
  | .inMemory stored => stored.Normal
  | .hash _ => False

def Stored.Normal : Stored → Prop
  | .new node => node.Normal ∧ node ≠ .empty
  | .cached node _ => node.Normal ∧ node ≠ .empty

def ChildNormal : Option NodeHandle → Prop
  | none => True
  | some child => child.Normal
end

theorem Node.leaf_ne_empty (key : List (Fin 16)) (value : Bytes) : Node.leaf key value ≠ .empty :=
  fun h ↦ Node.noConfusion h

theorem Node.extension_ne_empty (key : List (Fin 16)) (child : NodeHandle) :
    Node.extension key child ≠ .empty :=
  fun h ↦ Node.noConfusion h

theorem Node.branch_ne_empty (children : Fin 16 → Option NodeHandle) (value : Option Bytes) :
    Node.branch children value ≠ .empty :=
  fun h ↦ Node.noConfusion h

theorem Stored.normal_iff (stored : Stored) :
    stored.Normal ↔ stored.node.Normal ∧ stored.node ≠ .empty := by
  cases stored <;> rfl

/-! ## A node in normal form holds something -/

mutual
/-- No subtree of a trie in normal form is empty: a node holds an entry unless it is `empty`. -/
theorem Node.exists_entry : ∀ node : Node, node.Normal → node ≠ .empty →
    ∃ path, node.entries path ≠ none
  | .empty, _, hne => absurd rfl hne
  | .leaf key value, _, _ => ⟨key, by simp⟩
  | .extension key child, h, _ => by
    obtain ⟨path, hpath⟩ := NodeHandle.exists_entry child h.2.1
    exact ⟨key ++ path, by rwa [Node.entries, under_apply_append]⟩
  | .branch children value, h, _ => by
    cases value with
    | some v => exact ⟨[], by simp⟩
    | none =>
      -- two occupants and no value: some child is there
      have hlen : 0 < (occupied children).length := by
        have := h.2
        simp only [occupants, Option.isSome_none, Bool.false_eq_true, if_false] at this
        omega
      obtain ⟨i, hi⟩ := List.exists_mem_of_length_pos hlen
      obtain ⟨path, hpath⟩ := childEntries_exists (children i) (h.1 i) (mem_occupied.mp hi)
      exact ⟨i :: path, hpath⟩

theorem NodeHandle.exists_entry : ∀ handle : NodeHandle, handle.Normal →
    ∃ path, handle.entries path ≠ none
  | .inMemory stored, h => Stored.exists_entry stored h
  | .hash _, h => h.elim

theorem Stored.exists_entry : ∀ stored : Stored, stored.Normal → ∃ path, stored.entries path ≠ none
  | .new node, h => Node.exists_entry node h.1 h.2
  | .cached node _, h => Node.exists_entry node h.1 h.2

theorem childEntries_exists : ∀ child : Option NodeHandle, ChildNormal child → child.isSome →
    ∃ path, childEntries child path ≠ none
  | none, _, h => absurd h (by simp)
  | some child, hchild, _ => NodeHandle.exists_entry child hchild
end

/-! ## Lookup reads the entries -/

section Lookup

variable (db : NodeStore)

mutual
theorem lookupHandle_eq_entries : ∀ (path : List (Fin 16)) (handle : NodeHandle), handle.Normal →
    lookupHandle db path handle = .ok (handle.entries path)
  | path, .inMemory stored, h => lookupStored_eq_entries path stored h
  | _, .hash _, h => h.elim

theorem lookupStored_eq_entries : ∀ (path : List (Fin 16)) (stored : Stored), stored.Normal →
    lookupStored db path stored = .ok (stored.entries path)
  | path, .new node, h => lookupNode_eq_entries path node h.1
  | path, .cached node _, h => lookupNode_eq_entries path node h.1

/-- `lookup` over a node in normal form returns its entry at the path. -/
theorem lookupNode_eq_entries : ∀ (path : List (Fin 16)) (node : Node), node.Normal →
    lookupNode db path node = .ok (node.entries path)
  | _, .empty, _ => rfl
  | path, .leaf key value, _ => by
    have hkey : (nibblesEq key path = true) = (path = key) := propext (nibblesEq_iff.trans eq_comm)
    simp only [lookupNode, Node.entries, single_apply, hkey]
  | path, .extension slice child, h => by
    by_cases hs : slice <+: path
    · rw [lookupNode, if_pos (startsWith_iff.mpr hs), lookupHandle_eq_entries _ child h.2.1]
      simp [under, hs]
    · have hs' : startsWith path slice = false := by
        rw [Bool.eq_false_iff]
        exact fun h ↦ hs (startsWith_iff.mp h)
      simp [lookupNode, hs', under, hs]
  | [], .branch _ _, _ => rfl
  | i :: rest, .branch children _, h => lookupChild_eq_entries rest (children i) (h.1 i)

theorem lookupChild_eq_entries : ∀ (path : List (Fin 16)) (child : Option NodeHandle),
    ChildNormal child → lookupChild db path child = .ok (childEntries child path)
  | _, none, _ => rfl
  | path, some child, h => lookupHandle_eq_entries path child h
end

end Lookup

end Trie

end AionR
