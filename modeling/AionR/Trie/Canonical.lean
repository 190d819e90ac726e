import AionR.Trie.Map

/-!
# The normal form is canonical

Two nodes in normal form that hold the same entries are the same tree, up to which of their
nodes were loaded from the database (`Node.plain_eq_of_entries_eq`). So the shape `TrieDBMut`
leaves depends on its contents only, not on the calls that produced them
(`run_new_plain_eq`). That shape is what `commit` hashes into the root.

The proof reads the shape off the entries. A leaf holds one entry. A branch in normal form forks:
it holds a value and an entry below a child, or entries below two children (`forks_of_branch`).
An extension moves a branch's entries below its key, which is then the longest prefix they
share (`PrefixMap.eq_of_under_eq_under`).
-/

namespace AionR

namespace Trie

open PrefixMap

mutual
/-- A node with every stored node below it marked as new: the tree without the hashes it was
loaded under. -/
def Node.plain : Node → Node
  | .empty => .empty
  | .leaf key value => .leaf key value
  | .extension key child => .extension key child.plain
  | .branch children value => .branch (fun i ↦ childPlain (children i)) value

def NodeHandle.plain : NodeHandle → NodeHandle
  | .inMemory stored => .inMemory stored.plain
  | .hash hash => .hash hash

def Stored.plain : Stored → Stored
  | .new node => .new node.plain
  | .cached node _ => .new node.plain

def childPlain : Option NodeHandle → Option NodeHandle
  | none => none
  | some child => some child.plain
end

theorem Stored.plain_eq (stored : Stored) : stored.plain = .new stored.node.plain := by
  cases stored <;> rfl

/-! ## What the entries say about the shape -/

/-- The occupied children of a branch are distinct. -/
theorem nodup_occupied (children : Fin 16 → Option NodeHandle) : (occupied children).Nodup :=
  (List.nodup_finRange 16).filter _

/-- A branch in normal form forks: a value and a child, or two children. -/
theorem forks_of_branch {children : Fin 16 → Option NodeHandle} {value : Option Bytes}
    (h : (Node.branch children value).Normal) : Forks (Node.branch children value).entries := by
  obtain ⟨hchildren, hocc⟩ := h
  -- each occupied child holds an entry below its index
  have hentry : ∀ i ∈ occupied children,
      ∃ rest, (Node.branch children value).entries (i :: rest) ≠ none := fun i hi ↦
    childEntries_exists (children i) (hchildren i) (mem_occupied.mp hi)
  unfold occupants at hocc
  cases hused : occupied children with
  | nil =>
    rw [hused] at hocc
    split at hocc <;> simp at hocc
  | cons i rest =>
    obtain ⟨r, hr⟩ := hentry i (by rw [hused]; exact List.mem_cons_self)
    cases value with
    | some v => exact ⟨[], i :: r, by simp, hr, by simp⟩
    | none =>
      cases rest with
      | nil => simp [hused] at hocc
      | cons j rest =>
        obtain ⟨r', hr'⟩ := hentry j (by rw [hused]; simp)
        have hij : i ≠ j := by
          have hnodup := nodup_occupied children
          rw [hused, List.nodup_cons] at hnodup
          exact fun h ↦ hnodup.1 (h ▸ List.mem_cons_self)
        exact ⟨i :: r, j :: r', hr, hr', by simpa using hij⟩

/-- An extension in normal form moves the entries of a branch below its key. -/
theorem forks_of_extension_child {key : List (Fin 16)} {child : NodeHandle}
    (h : (Node.extension key child).Normal) : Forks child.entries := by
  obtain ⟨-, hchild, hbranch⟩ := h
  cases child with
  | hash _ => exact hchild.elim
  | inMemory stored =>
  obtain ⟨hnormal, -⟩ := (Stored.normal_iff stored).mp hchild
  cases hnode : stored.node with
  | branch children value =>
    rw [hnode] at hnormal
    have := forks_of_branch hnormal
    simpa [hnode] using this
  | _ =>
    have hb : stored.node.IsBranch := hbranch
    rw [hnode] at hb
    exact hb.elim

theorem eq_empty_of_entries_eq {node : Node} (h : node.Normal) (hentries : node.entries = empty) :
    node = .empty := by
  by_contra hne
  obtain ⟨path, hpath⟩ := Node.exists_entry node h hne
  exact hpath (congrFun hentries path)

theorem eq_leaf_of_entries_eq {node : Node} {key : List (Fin 16)} {value : Bytes}
    (h : node.Normal) (hentries : node.entries = single key value) : node = .leaf key value := by
  cases node with
  | empty =>
    have := congrFun hentries key
    simp at this
  | leaf key' value' =>
    have hat := congrFun hentries key'
    rw [Node.entries, single_apply, single_apply, if_pos rfl] at hat
    by_cases hkey : key' = key
    · subst hkey
      rw [if_pos rfl, Option.some.injEq] at hat
      rw [hat]
    · rw [if_neg hkey] at hat
      exact absurd hat (Option.some_ne_none _)
  | extension key' child =>
    exact absurd hentries.symm (single_ne_under (forks_of_extension_child h) _ _ _)
  | branch children value' =>
    have hne := single_ne_under (forks_of_branch h) key [] value
    rw [under_nil] at hne
    exact absurd hentries.symm hne

theorem eq_extension_of_entries_eq {node : Node} {key : List (Fin 16)}
    {m : List (Fin 16) → Option Bytes} (h : node.Normal) (hkey : key ≠ []) (hm : Forks m)
    (hentries : node.entries = under key m) :
    ∃ child, node = .extension key child ∧ child.entries = m := by
  cases node with
  | empty =>
    obtain ⟨p, -, hp, -, -⟩ := hm
    have hp' := congrFun hentries (key ++ p)
    rw [under_apply_append] at hp'
    exact absurd hp'.symm hp
  | leaf key' value =>
    exact absurd hentries (single_ne_under hm _ _ _)
  | extension key' child =>
    obtain ⟨rfl, hchild⟩ := eq_of_under_eq_under (forks_of_extension_child h) hm hentries
    exact ⟨child, rfl, hchild⟩
  | branch children value =>
    have hbranch : under [] (Node.branch children value).entries = under key m := by
      rw [under_nil]
      exact hentries
    exact absurd (eq_of_under_eq_under (forks_of_branch h) hm hbranch).1.symm hkey

theorem eq_branch_of_entries_eq {node : Node} {children : Fin 16 → Option NodeHandle}
    {value : Option Bytes} (h : node.Normal) (hbranch : (Node.branch children value).Normal)
    (hentries : node.entries = (Node.branch children value).entries) :
    ∃ children' value', node = .branch children' value' := by
  cases node with
  | empty =>
    obtain ⟨p, -, hp, -, -⟩ := forks_of_branch hbranch
    exact absurd (congrFun hentries p).symm hp
  | leaf key value' =>
    exact absurd hentries (by simpa using single_ne_under (forks_of_branch hbranch) key [] value')
  | extension key child =>
    have hunder : under key child.entries = under [] (Node.branch children value).entries := by
      rw [under_nil]
      exact hentries
    exact absurd (eq_of_under_eq_under (forks_of_extension_child h) (forks_of_branch hbranch)
      hunder).1 h.1
  | branch children' value' => exact ⟨children', value', rfl⟩

/-! ## Uniqueness -/

mutual
/-- Two nodes in normal form that hold the same entries are the same tree, up to the hashes their
nodes were loaded under. -/
theorem Node.plain_eq_of_entries_eq : ∀ (a b : Node), a.Normal → b.Normal →
    a.entries = b.entries → a.plain = b.plain
  | .empty, b, _, hb, h => by
    rw [eq_empty_of_entries_eq hb h.symm]
  | .leaf key value, b, _, hb, h => by
    rw [eq_leaf_of_entries_eq hb h.symm]
  | .extension key child, b, ha, hb, h => by
    obtain ⟨child', rfl, hchild⟩ := eq_extension_of_entries_eq hb ha.1 (forks_of_extension_child ha)
      h.symm
    simp only [Node.plain]
    rw [NodeHandle.plain_eq_of_entries_eq child child' ha.2.1 hb.2.1 hchild.symm]
  | .branch children value, b, ha, hb, h => by
    obtain ⟨children', value', rfl⟩ := eq_branch_of_entries_eq hb ha h.symm
    -- the value is the entry at the empty path, and each child holds the entries below its index
    have hvalue : value = value' := congrFun h []
    have hchildren : ∀ i, childEntries (children i) = childEntries (children' i) := fun i ↦
      funext fun rest ↦ congrFun h (i :: rest)
    simp only [Node.plain, hvalue]
    congr 1
    funext i
    exact childPlain_eq_of_entries_eq (children i) (children' i) (ha.1 i) (hb.1 i) (hchildren i)
termination_by structural a _ _ _ _ => a

theorem NodeHandle.plain_eq_of_entries_eq : ∀ (a b : NodeHandle), a.Normal → b.Normal →
    a.entries = b.entries → a.plain = b.plain
  | .inMemory stored, .inMemory stored', ha, hb, h => by
    simp only [NodeHandle.plain]
    rw [Stored.plain_eq_of_entries_eq stored stored' ha hb h]
  | .hash _, _, ha, _, _ => ha.elim
  | _, .hash _, _, hb, _ => hb.elim
termination_by structural a _ _ _ _ => a

theorem Stored.plain_eq_of_entries_eq : ∀ (a b : Stored), a.Normal → b.Normal →
    a.entries = b.entries → a.plain = b.plain
  | .new node, b, ha, hb, h => by
    rw [Stored.plain_eq b]
    simp only [Stored.plain]
    rw [Node.plain_eq_of_entries_eq node b.node ha.1 ((Stored.normal_iff b).mp hb).1
      (by simpa [Stored.node] using h)]
  | .cached node _, b, ha, hb, h => by
    rw [Stored.plain_eq b]
    simp only [Stored.plain]
    rw [Node.plain_eq_of_entries_eq node b.node ha.1 ((Stored.normal_iff b).mp hb).1
      (by simpa [Stored.node] using h)]
termination_by structural a _ _ _ _ => a

theorem childPlain_eq_of_entries_eq : ∀ (a b : Option NodeHandle), ChildNormal a → ChildNormal b →
    childEntries a = childEntries b → childPlain a = childPlain b
  | none, none, _, _, _ => rfl
  | some a, some b, ha, hb, h => by
    simp only [childPlain]
    rw [NodeHandle.plain_eq_of_entries_eq a b ha hb h]
  | none, some b, _, hb, h => by
    obtain ⟨path, hpath⟩ := NodeHandle.exists_entry b hb
    exact absurd (congrFun h path).symm hpath
  | some a, none, ha, _, h => by
    obtain ⟨path, hpath⟩ := NodeHandle.exists_entry a ha
    exact absurd (congrFun h path) hpath
termination_by structural a _ _ _ _ => a
end

/-! ## The shape a run leaves -/

namespace TrieDBMut

/-- On keyed tries, equal contents are equal entries. -/
theorem entries_eq_of_contents_eq {t t' : TrieDBMut} (hk : t.Keyed) (hk' : t'.Keyed)
    (h : t.contents = t'.contents) : t.rootHandle.entries = t'.rootHandle.entries := by
  funext path
  by_cases hkey : ∃ key, keyNibbles key = path
  · obtain ⟨key, rfl⟩ := hkey
    exact congrFun h key
  · -- neither trie holds an entry off the keys' nibbles
    have hnone : ∀ {s : TrieDBMut}, s.Keyed → s.rootHandle.entries path = none := fun hs ↦ by
      by_contra hpath
      exact hkey (hs path hpath)
    rw [hnone hk, hnone hk']

/-- Two tries in normal form, keyed, with the same contents have the same shape. -/
theorem plain_eq_of_contents_eq {t t' : TrieDBMut} (ht : t.Valid) (ht' : t'.Valid)
    (hk : t.Keyed) (hk' : t'.Keyed) (h : t.contents = t'.contents) :
    t.rootHandle.plain = t'.rootHandle.plain := by
  have hentries := entries_eq_of_contents_eq hk hk' h
  rcases ht with hnull | hnormal <;> rcases ht' with hnull' | hnormal'
  · rw [hnull, hnull']
  · -- a node in normal form holds an entry; the empty trie holds none
    obtain ⟨path, hpath⟩ := NodeHandle.exists_entry _ hnormal'
    rw [← hentries, hnull] at hpath
    exact absurd rfl hpath
  · obtain ⟨path, hpath⟩ := NodeHandle.exists_entry _ hnormal
    rw [hentries, hnull'] at hpath
    exact absurd rfl hpath
  · exact NodeHandle.plain_eq_of_entries_eq _ _ hnormal hnormal' hentries

/-- The tree a run of calls from `TrieDBMut::new` leaves depends only on the map the calls leave.
Runs that set the same keys to the same values, in any order and by any detour, build the same
tree. -/
theorem run_new_plain_eq {db : NodeStore} (hdb : db.HoldsNull) (ops ops' : List Op)
    (h : (runMap ops fun _ ↦ none).1 = (runMap ops' fun _ ↦ none).1) :
    ∃ t t' olds olds', run db ops new = .ok (t, olds) ∧ run db ops' new = .ok (t', olds') ∧
      t.rootHandle.plain = t'.rootHandle.plain := by
  obtain ⟨t, hrun, hvalid, hkeyed, hcontents⟩ := run_refines hdb ops valid_new keyed_new
  obtain ⟨t', hrun', hvalid', hkeyed', hcontents'⟩ := run_refines hdb ops' valid_new keyed_new
  refine ⟨t, t', _, _, hrun, hrun', plain_eq_of_contents_eq hvalid hvalid' hkeyed hkeyed' ?_⟩
  rw [hcontents, hcontents', contents_new, h]

/-- The calls of `sampleCalls` that leave a value, in the other order. -/
def sampleCallsReordered : List Op := [.insert [0x13] [3], .insert [0x12] [1], .remove [0x12]]

theorem run_new_plain_eq_sampleCalls :
    freshStore.HoldsNull ∧ (runMap sampleCalls fun _ ↦ none).1 =
      (runMap sampleCallsReordered fun _ ↦ none).1 ∧
    ∃ t t' olds olds', run freshStore sampleCalls new = .ok (t, olds) ∧
      run freshStore sampleCallsReordered new = .ok (t', olds') ∧
      t.rootHandle.plain = t'.rootHandle.plain := by
  have hmap : (runMap sampleCalls fun _ ↦ none).1 = (runMap sampleCallsReordered fun _ ↦ none).1 := by
    funext key
    by_cases h12 : key = [0x12] <;> by_cases h13 : key = [0x13] <;>
      simp_all [runMap, sampleCalls, sampleCallsReordered, Op.update, Function.update_apply]
  exact ⟨holdsNull_freshStore, hmap,
    run_new_plain_eq holdsNull_freshStore sampleCalls sampleCallsReordered hmap⟩

end TrieDBMut

end Trie

end AionR
