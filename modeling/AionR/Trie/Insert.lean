import AionR.Trie.Entries
import AionR.Lib.Except

/-!
# Insertion adds one entry and keeps the normal form

`insert_at` on a trie in normal form (`Trie.Entries`) succeeds. It leaves a trie in normal form
whose entries are the old ones with the new value at the path, and it reports the value it
replaced (`insertAt_normal`). The proof follows the three mutually recursive functions of the
source: one lemma per arm of `insert_inspector` and of its branch arm, put together by their
functional induction.

The branch arm is also called on a branch built in place of a leaf or an extension, which holds
one thing. There the slot the insertion fills is free (`slotFree`), and filling it gives the
branch the two occupants of the normal form.
-/

namespace AionR

namespace Trie

open PrefixMap

-- Several proofs below unfold these at once: their equation lemmas are generated here, once.
section
attribute [local simp] insertAt insertInspector insertBranch
end

/-! ## Paths past their common prefix -/

/-- Past their common prefix, two paths have no common prefix left. -/
theorem commonPrefix_drop_commonPrefix : ∀ as bs : List (Fin 16),
    commonPrefix (as.drop (commonPrefix as bs)) (bs.drop (commonPrefix as bs)) = 0
  | a :: as, b :: bs => by
    by_cases h : a = b
    · subst h
      simpa using commonPrefix_drop_commonPrefix as bs
    · simp [h]
  | [], _ => by simp
  | _ :: _, [] => by simp

/-- A path is its common prefix with `key`, read off `key`, and the rest of the path. -/
theorem take_append_drop_commonPrefix (path key : List (Fin 16)) :
    key.take (commonPrefix path key) ++ path.drop (commonPrefix path key) = path := by
  rw [← take_commonPrefix, List.take_append_drop]

theorem take_commonPrefix_of_eq_length {path key : List (Fin 16)}
    (h : commonPrefix path key = key.length) : key.take (commonPrefix path key) = key := by
  rw [h, List.take_length]

/-- Paths with no common prefix part at their first nibble. -/
theorem ne_of_commonPrefix_eq_zero {i j : Fin 16} {rest path : List (Fin 16)}
    (h : commonPrefix (j :: path) (i :: rest) = 0) : j ≠ i := by
  rintro rfl
  simp at h

/-- Updating a map moved below the common prefix of `path` and `key`. -/
theorem update_under_take (path key : List (Fin 16)) (m : List (Fin 16) → Option Bytes)
    (w : Option Bytes) :
    Function.update (under (key.take (commonPrefix path key)) m) path w =
      under (key.take (commonPrefix path key)) (Function.update m (path.drop (commonPrefix path key)) w) := by
  have h := update_under_append (key.take (commonPrefix path key)) (path.drop (commonPrefix path key)) m w
  rwa [take_append_drop_commonPrefix] at h

theorem under_take_apply (path key : List (Fin 16)) (m : List (Fin 16) → Option Bytes) :
    under (key.take (commonPrefix path key)) m path = m (path.drop (commonPrefix path key)) := by
  have h := under_apply_append (key.take (commonPrefix path key)) (path.drop (commonPrefix path key)) m
  rwa [take_append_drop_commonPrefix] at h

/-! ## Branches built in place -/

/-- Whether the slot that an insertion at `path` fills in a branch is free. -/
def slotFree (children : Fin 16 → Option NodeHandle) (value : Option Bytes) :
    List (Fin 16) → Bool
  | [] => value.isNone
  | i :: _ => (children i).isNone

theorem occupants_emptyChildren (value : Option Bytes) :
    occupants emptyChildren value = if value.isSome then 1 else 0 := by
  simp [occupants, occupied, emptyChildren]

/-- The branch built in place of a leaf or an extension that keeps its key holds one child. -/
theorem occupants_update_emptyChildren (i : Fin 16) (child : NodeHandle) :
    occupants (Function.update emptyChildren i (some child)) none = 1 := by
  have h := occupants_update emptyChildren none i (some child)
  simpa [occupants_emptyChildren, emptyChildren] using h

-- Several proofs below unfold these at once: their equation lemmas are generated here, once.
section
attribute [local simp] slotFree
end

theorem slotFree_emptyChildren (value : Option Bytes) {path : List (Fin 16)} (hpath : path ≠ []) :
    slotFree emptyChildren value path = true := by
  cases path with
  | nil => exact absurd rfl hpath
  | cons i rest => rfl

theorem slotFree_update_emptyChildren {i : Fin 16} {rest path : List (Fin 16)} (child : NodeHandle)
    (h : commonPrefix path (i :: rest) = 0) :
    slotFree (Function.update emptyChildren i (some child)) none path = true := by
  cases path with
  | nil => rfl
  | cons j path =>
    simp [slotFree, Function.update_of_ne (ne_of_commonPrefix_eq_zero h), emptyChildren]

theorem childNormal_emptyChildren (i : Fin 16) : ChildNormal (emptyChildren i) := trivial

theorem entries_branch_emptyChildren (v : Bytes) :
    (Node.branch emptyChildren (some v)).entries = single [] v := by
  simp only [Node.entries, childEntries_emptyChildren, cons_some_empty]

/-- A branch with one child is an extension by that child's index. -/
theorem entries_branch_update_emptyChildren (i : Fin 16) (child : NodeHandle) :
    (Node.branch (Function.update emptyChildren i (some child)) none).entries =
      under [i] child.entries := by
  simp only [Node.entries, childEntries_update, childEntries_emptyChildren, under_cons, under_nil]
  rfl

/-- The branch the branch arm returns is in normal form once its two occupants are there. -/
theorem branch_normal_of_occupants {children children' : Fin 16 → Option NodeHandle}
    {storedValue value' : Option Bytes} {path : List (Fin 16)}
    (hchildren : ∀ i, ChildNormal (children' i))
    (hocc : occupants children storedValue + (if slotFree children storedValue path then 1 else 0) ≤
      occupants children' value')
    (hfill : 2 ≤ occupants children storedValue + (if slotFree children storedValue path then 1 else 0)) :
    (Node.branch children' value').Normal :=
  ⟨hchildren, hfill.trans hocc⟩

/-! ## The specification of each function -/

/-- Inserting at `path` leaves a branch in the node's place: the node is a branch, or its key
parts from the path at once. -/
def Node.BranchesAt : Node → List (Fin 16) → Prop
  | .branch _ _, _ => True
  | .leaf key _, path => key ≠ [] ∧ commonPrefix path key = 0
  | .extension key _, path => key ≠ [] ∧ commonPrefix path key = 0
  | .empty, _ => False

theorem Node.branchesAt_of_isBranch {node : Node} (path : List (Fin 16)) (h : node.IsBranch) :
    node.BranchesAt path := by
  cases node with
  | branch => trivial
  | _ => exact h.elim

@[simp] theorem InsertAction.unwrapNode_replace (node : Node) :
    (InsertAction.replace node).unwrapNode = node := rfl

@[simp] theorem InsertAction.unwrapNode_restore (node : Node) :
    (InsertAction.restore node).unwrapNode = node := rfl

@[simp] theorem InsertAction.unwrapNode_ite (c : Prop) [Decidable c] (node : Node) :
    (if c then InsertAction.restore node else .replace node).unwrapNode = node := by
  split <;> rfl

@[simp] theorem InsertAction.unwrapNode_ite_replace (c : Prop) [Decidable c] (node : Node) :
    (if c then InsertAction.replace node else .restore node).unwrapNode = node := by
  split <;> rfl

/-- `inspect` after an insertion stores the node the inspector returned. -/
theorem inspect_intoAction (deathRow : List (Vector UInt8 32)) (stored : Stored)
    (action : InsertAction) :
    ∃ stored' changed deathRow', inspect deathRow stored action.intoAction =
      (some (stored', changed), deathRow') ∧ stored'.node = action.unwrapNode := by
  cases stored <;> cases action <;> exact ⟨_, _, _, rfl, rfl⟩

section Insert

variable (db : NodeStore) (value : Bytes)

/-- `insert_at` on a handle whose node is in normal form. -/
def InsertAtSpec (handle : NodeHandle) (path : List (Fin 16)) : Prop :=
  ∀ (fx : Effects) (stored : Stored), fx.oldVal = none → takeStored db handle = .ok stored →
    stored.node.Normal →
    ∃ stored' changed deathRow,
      insertAt db fx handle path value = .ok (stored', changed, ⟨deathRow, stored.node.entries path⟩) ∧
      stored'.Normal ∧ stored'.node.entries = Function.update stored.node.entries path (some value) ∧
      (stored.node.IsBranch → stored'.node.IsBranch)

/-- `insert_inspector` on a node in normal form. -/
def InsertInspectorSpec (node : Node) (path : List (Fin 16)) : Prop :=
  ∀ fx : Effects, fx.oldVal = none → node.Normal →
    ∃ action deathRow,
      insertInspector db fx node path value = .ok (action, ⟨deathRow, node.entries path⟩) ∧
      action.unwrapNode.Normal ∧ action.unwrapNode ≠ .empty ∧
      action.unwrapNode.entries = Function.update node.entries path (some value) ∧
      (node.BranchesAt path → action.unwrapNode.IsBranch)

/-- The branch arm of `insert_inspector`, on a branch whose children are in normal form. -/
def InsertBranchSpec (children : Fin 16 → Option NodeHandle) (storedValue : Option Bytes)
    (path : List (Fin 16)) : Prop :=
  ∀ fx : Effects, fx.oldVal = none → (∀ i, ChildNormal (children i)) →
    ∃ action children' value' deathRow,
      insertBranch db fx children storedValue path value =
        .ok (action, ⟨deathRow, (Node.branch children storedValue).entries path⟩) ∧
      action.unwrapNode = .branch children' value' ∧ (∀ i, ChildNormal (children' i)) ∧
      occupants children storedValue + (if slotFree children storedValue path then 1 else 0) ≤
        occupants children' value' ∧
      (Node.branch children' value').entries =
        Function.update (Node.branch children storedValue).entries path (some value)

theorem insertAtSpec_of_inspector (handle : NodeHandle) (path : List (Fin 16))
    (ih : ∀ stored : Stored, InsertInspectorSpec db value stored.node path) :
    InsertAtSpec db value handle path := by
  intro fx stored hfx htake hnormal
  obtain ⟨action, deathRow, hrun, hnorm, hne, hentries, hbranch⟩ := ih stored fx hfx hnormal
  obtain ⟨stored', changed, deathRow', hinspect, hnode⟩ := inspect_intoAction deathRow stored action
  refine ⟨stored', changed, deathRow', ?_, ?_, ?_, ?_⟩
  · simp only [insertAt, htake, hrun, hinspect, except_ok_bind, except_pure_eq]
  · rw [Stored.normal_iff, hnode]
    exact ⟨hnorm, hne⟩
  · rw [hnode, hentries]
  · intro h
    rw [hnode]
    exact hbranch (Node.branchesAt_of_isBranch path h)

/-! ### Two shapes the arms share -/

/-- A leaf or an extension that parts from the path at once becomes a branch: the branch arm
runs on a branch built in its place, with its entries, and fills a free slot. -/
theorem insertInspectorSpec_rebranch {node : Node} {path : List (Fin 16)}
    {children : Fin 16 → Option NodeHandle} {storedValue : Option Bytes}
    (hchildren : ∀ i, ChildNormal (children i))
    (hE : (Node.branch children storedValue).entries = node.entries)
    (hfill : 2 ≤ occupants children storedValue + (if slotFree children storedValue path then 1 else 0))
    (hrun : ∀ fx r, insertBranch db fx children storedValue path value = .ok r →
      insertInspector db fx node path value = .ok (.replace r.1.unwrapNode, r.2))
    (ih : InsertBranchSpec db value children storedValue path) :
    InsertInspectorSpec db value node path := by
  intro fx hfx _
  obtain ⟨action, children', value', deathRow, hbranch, hnode, hchildren', hocc, hentries⟩ :=
    ih fx hfx hchildren
  refine ⟨.replace action.unwrapNode, deathRow, ?_, ?_, ?_, ?_, fun _ ↦ ?_⟩
  · rw [hrun fx _ hbranch, hE]
  all_goals rw [InsertAction.unwrapNode_replace, hnode]
  · exact branch_normal_of_occupants hchildren' hocc hfill
  · exact Node.branch_ne_empty _ _
  · rw [← hE]
    exact hentries
  · trivial

/-- A partially shared prefix: the rest of the node moves below an extension by the common
prefix, and the insertion goes on there. -/
theorem insertInspectorSpec_split {node node' : Node} {path key : List (Fin 16)}
    (h0 : ¬commonPrefix path key = 0) (hlen : ¬commonPrefix path key = key.length)
    (hE : node.entries = under (key.take (commonPrefix path key)) node'.entries)
    (hnormal : node.Normal → node'.Normal)
    (hbranches : node'.BranchesAt (path.drop (commonPrefix path key)))
    (hnot : ¬node.BranchesAt path)
    (hrun : ∀ fx r, insertInspector db fx node' (path.drop (commonPrefix path key)) value = .ok r →
      insertInspector db fx node path value =
        .ok (.replace (.extension (key.take (commonPrefix path key)) (.inMemory (.new r.1.unwrapNode))), r.2))
    (ih : InsertInspectorSpec db value node' (path.drop (commonPrefix path key))) :
    InsertInspectorSpec db value node path := by
  intro fx hfx hnode
  obtain ⟨action, deathRow, hinspect, hnorm, hne, hentries, hbranch⟩ := ih fx hfx (hnormal hnode)
  have hold : node'.entries (path.drop (commonPrefix path key)) = node.entries path := by
    rw [hE, under_take_apply]
  have hkey : key.take (commonPrefix path key) ≠ [] := by
    have := commonPrefix_le_length_right path key
    rw [ne_eq, List.take_eq_nil_iff, not_or, ← List.length_eq_zero_iff]
    omega
  refine ⟨.replace (.extension (key.take (commonPrefix path key)) (.inMemory (.new action.unwrapNode))),
    deathRow, ?_, ⟨hkey, ⟨hnorm, hne⟩, hbranch hbranches⟩, Node.extension_ne_empty _ _, ?_, fun h ↦ absurd h hnot⟩
  · rw [hrun fx _ hinspect, hold]
  · calc under (key.take (commonPrefix path key)) action.unwrapNode.entries
        = under (key.take (commonPrefix path key))
            (Function.update node'.entries (path.drop (commonPrefix path key)) (some value)) := by
          rw [hentries]
      _ = Function.update node.entries path (some value) := by
          rw [← update_under_take, hE]

/-! ### The arms of `insert_inspector` -/

theorem insertInspectorSpec_empty (path : List (Fin 16)) :
    InsertInspectorSpec db value .empty path := by
  rintro ⟨deathRow, _⟩ rfl -
  refine ⟨.replace (.leaf path value), deathRow, ?_, trivial, Node.leaf_ne_empty _ _, ?_, fun h ↦ False.elim h⟩
  · rw [insertInspector]
    rfl
  · simp [update_empty]

theorem insertInspectorSpec_branch (path : List (Fin 16)) (children : Fin 16 → Option NodeHandle)
    (storedValue : Option Bytes) (ih : InsertBranchSpec db value children storedValue path) :
    InsertInspectorSpec db value (.branch children storedValue) path := by
  intro fx hfx hnormal
  obtain ⟨action, children', value', deathRow, hrun, hnode, hchildren, hocc, hentries⟩ :=
    ih fx hfx hnormal.1
  refine ⟨action, deathRow, ?_, ?_, ?_, ?_, fun _ ↦ ?_⟩
  · rw [insertInspector]
    exact hrun
  all_goals rw [hnode]
  · exact branch_normal_of_occupants hchildren hocc (by have := hnormal.2; omega)
  · exact Node.branch_ne_empty _ _
  · exact hentries
  · trivial

/-- An equal key: the leaf takes the new value. -/
theorem insertInspectorSpec_leaf_eq (path existing : List (Fin 16)) (storedValue : Bytes)
    (h : commonPrefix path existing = existing.length ∧ commonPrefix path existing = path.length) :
    InsertInspectorSpec db value (.leaf existing storedValue) path := by
  rintro ⟨deathRow, _⟩ rfl -
  have hpath : path = existing := eq_of_commonPrefix_eq_length h.2 h.1
  refine ⟨if (storedValue == value) = true then .restore (.leaf existing value)
    else .replace (.leaf existing value), deathRow, ?_, ?_, ?_, ?_, ?_⟩
  · rw [insertInspector.eq_def]
    dsimp only
    rw [if_pos h]
    simp [hpath]
  · simp only [InsertAction.unwrapNode_ite]
    trivial
  · simp
  · simp [hpath, update_single_self]
  · rintro ⟨hkey, hcp⟩
    exact absurd (List.length_eq_zero_iff.mp (h.1.symm.trans hcp)) hkey

/-- A leaf with the empty key becomes a branch holding its value. -/
theorem insertInspectorSpec_leaf_nil (path : List (Fin 16)) (storedValue : Bytes)
    (hne : ¬(commonPrefix path [] = ([] : List (Fin 16)).length ∧ commonPrefix path [] = path.length))
    (ih : InsertBranchSpec db value emptyChildren (some storedValue) path) :
    InsertInspectorSpec db value (.leaf [] storedValue) path := by
  have hpath : path ≠ [] := by
    rintro rfl
    exact hne ⟨rfl, rfl⟩
  refine insertInspectorSpec_rebranch db value childNormal_emptyChildren
    (entries_branch_emptyChildren storedValue) ?_ (fun fx r hr ↦ ?_) ih
  · simp [occupants_emptyChildren, slotFree_emptyChildren _ hpath]
  · rw [insertInspector, if_neg hne, if_pos (commonPrefix_nil_right path), hr]
    rfl

/-- No common prefix: the leaf moves into a new branch, under its first nibble. -/
theorem insertInspectorSpec_leaf_cons (path : List (Fin 16)) (storedValue : Bytes) (i : Fin 16)
    (rest : List (Fin 16))
    (hne : ¬(commonPrefix path (i :: rest) = (i :: rest).length ∧
      commonPrefix path (i :: rest) = path.length))
    (h0 : commonPrefix path (i :: rest) = 0)
    (ih : InsertBranchSpec db value
      (Function.update emptyChildren i (some (.inMemory (.new (.leaf rest storedValue))))) none path) :
    InsertInspectorSpec db value (.leaf (i :: rest) storedValue) path := by
  have hchildren : ∀ j, ChildNormal
      (Function.update emptyChildren i (some (.inMemory (.new (.leaf rest storedValue)))) j) := by
    intro j
    by_cases hj : j = i
    · subst hj
      simp only [Function.update_self]
      exact ⟨trivial, Node.leaf_ne_empty _ _⟩
    · rw [Function.update_of_ne hj]
      trivial
  have hE : (Node.branch (Function.update emptyChildren i
      (some (.inMemory (.new (.leaf rest storedValue))))) none).entries =
      (Node.leaf (i :: rest) storedValue).entries := by
    rw [entries_branch_update_emptyChildren]
    exact (single_append [i] rest storedValue).symm
  refine insertInspectorSpec_rebranch db value hchildren hE ?_ (fun fx r hr ↦ ?_) ih
  · simp [occupants_update_emptyChildren, slotFree_update_emptyChildren _ h0]
  · rw [insertInspector, if_neg hne, if_pos h0]
    dsimp only
    rw [hr]
    rfl

/-- The leaf's key is a proper prefix of the path: an extension by that key to a branch holding
the leaf's value. -/
theorem insertInspectorSpec_leaf_stub (path existing : List (Fin 16)) (storedValue : Bytes)
    (hne : ¬(commonPrefix path existing = existing.length ∧ commonPrefix path existing = path.length))
    (h0 : ¬commonPrefix path existing = 0) (hlen : commonPrefix path existing = existing.length)
    (ih : InsertBranchSpec db value emptyChildren (some storedValue)
      (path.drop (commonPrefix path existing))) :
    InsertInspectorSpec db value (.leaf existing storedValue) path := by
  intro fx hfx _
  have hrest : path.drop (commonPrefix path existing) ≠ [] := by
    have := commonPrefix_le_length_left path existing
    simp only [ne_eq, List.drop_eq_nil_iff]
    omega
  obtain ⟨action, children', value', deathRow, hrun, hnode, hchildren, hocc, hentries⟩ :=
    ih fx hfx fun _ ↦ trivial
  have htake := take_commonPrefix_of_eq_length hlen
  -- the leaf's entries are a single entry at the empty path, moved below its key
  have hE : (Node.leaf existing storedValue).entries = under existing (single [] storedValue) :=
    single_eq_under existing storedValue
  have hold : (Node.branch emptyChildren (some storedValue)).entries
      (path.drop (commonPrefix path existing)) = (Node.leaf existing storedValue).entries path := by
    have h := under_take_apply path existing (single [] storedValue)
    rw [htake] at h
    rw [entries_branch_emptyChildren, ← h, hE]
  refine ⟨.replace (.extension existing (.inMemory (.new action.unwrapNode))), deathRow, ?_, ?_,
    Node.extension_ne_empty _ _, ?_, fun h ↦ absurd h.2 h0⟩
  · rw [insertInspector.eq_def]
    dsimp only
    rw [if_neg hne, if_neg h0, if_pos hlen, hrun, hold]
    rfl
  · rw [InsertAction.unwrapNode_replace, hnode]
    refine ⟨fun h ↦ h0 (by rw [hlen, h, List.length_nil]), ⟨?_, Node.branch_ne_empty _ _⟩, trivial⟩
    refine branch_normal_of_occupants hchildren hocc ?_
    simp [occupants_emptyChildren, slotFree_emptyChildren _ hrest]
  · have hsplit := update_under_take path existing (single [] storedValue) (some value)
    rw [htake] at hsplit
    rw [InsertAction.unwrapNode_replace, hnode]
    calc under existing (Node.branch children' value').entries
        = under existing (Function.update (single [] storedValue)
            (path.drop (commonPrefix path existing)) (some value)) := by
          rw [hentries, entries_branch_emptyChildren]
      _ = Function.update (Node.leaf existing storedValue).entries path (some value) := by
          rw [← hsplit, hE]

/-- A partially shared prefix with a leaf. -/
theorem insertInspectorSpec_leaf_split (path existing : List (Fin 16)) (storedValue : Bytes)
    (hne : ¬(commonPrefix path existing = existing.length ∧ commonPrefix path existing = path.length))
    (h0 : ¬commonPrefix path existing = 0) (hlen : ¬commonPrefix path existing = existing.length)
    (ih : InsertInspectorSpec db value
      (.leaf (existing.drop (commonPrefix path existing)) storedValue)
      (path.drop (commonPrefix path existing))) :
    InsertInspectorSpec db value (.leaf existing storedValue) path := by
  have hdrop : existing.drop (commonPrefix path existing) ≠ [] := by
    have := commonPrefix_le_length_right path existing
    simp only [ne_eq, List.drop_eq_nil_iff]
    omega
  have hE : (Node.leaf existing storedValue).entries = under (existing.take (commonPrefix path existing))
      (Node.leaf (existing.drop (commonPrefix path existing)) storedValue).entries := by
    rw [Node.entries, Node.entries, ← single_append, List.take_append_drop]
  refine insertInspectorSpec_split db value h0 hlen hE (fun _ ↦ trivial)
    ⟨hdrop, commonPrefix_drop_commonPrefix path existing⟩ (fun h ↦ h0 h.2) (fun fx r hr ↦ ?_) ih
  rw [insertInspector.eq_def]
  dsimp only
  rw [if_neg hne, if_neg h0, if_neg hlen, hr]
  rfl

/-- An extension with the empty key is not in normal form; the source asserts it never occurs. -/
theorem insertInspectorSpec_extension_nil (path : List (Fin 16)) (childBranch : NodeHandle) :
    InsertInspectorSpec db value (.extension [] childBranch) path :=
  fun _ _ hnormal ↦ absurd rfl hnormal.1

/-- No common prefix: the extension moves into a new branch, under its first nibble, shortened
by that nibble or gone if that was all of its key. -/
theorem insertInspectorSpec_extension_cons (path : List (Fin 16)) (childBranch : NodeHandle)
    (i : Fin 16) (rest : List (Fin 16)) (h0 : commonPrefix path (i :: rest) = 0)
    (ih : InsertBranchSpec db value (Function.update emptyChildren i (some
      (if rest.length = 0 then childBranch else .inMemory (.new (.extension rest childBranch)))))
      none path) :
    InsertInspectorSpec db value (.extension (i :: rest) childBranch) path := by
  intro fx hfx hnormal
  obtain ⟨-, hchild, hbranch⟩ := hnormal
  -- what the new branch holds at `i`: the child, or an extension by the rest of the key
  have hnew : (if rest.length = 0 then childBranch else .inMemory (.new (.extension rest childBranch))).Normal ∧
      (if rest.length = 0 then childBranch else .inMemory (.new (.extension rest childBranch))).entries =
        under rest childBranch.entries := by
    by_cases hrest : rest.length = 0
    · rw [if_pos hrest, List.length_eq_zero_iff.mp hrest, under_nil]
      exact ⟨hchild, rfl⟩
    · rw [if_neg hrest]
      exact ⟨⟨⟨fun h ↦ hrest (by rw [h, List.length_nil]), hchild, hbranch⟩, Node.extension_ne_empty _ _⟩, rfl⟩
  have hchildren : ∀ j, ChildNormal (Function.update emptyChildren i (some
      (if rest.length = 0 then childBranch else .inMemory (.new (.extension rest childBranch))))
      j) := by
    intro j
    by_cases hj : j = i
    · subst hj
      rw [Function.update_self]
      exact hnew.1
    · rw [Function.update_of_ne hj]
      trivial
  have hE : (Node.branch (Function.update emptyChildren i (some
      (if rest.length = 0 then childBranch else .inMemory (.new (.extension rest childBranch)))))
      none).entries = (Node.extension (i :: rest) childBranch).entries := by
    rw [entries_branch_update_emptyChildren, hnew.2, ← under_append]
    rfl
  refine insertInspectorSpec_rebranch db value hchildren hE ?_ (fun fx r hr ↦ ?_) ih fx hfx
    ⟨List.cons_ne_nil i rest, hchild, hbranch⟩
  · simp [occupants_update_emptyChildren, slotFree_update_emptyChildren _ h0]
  · rw [insertInspector, if_pos h0]
    dsimp only
    rw [hr]
    rfl

/-- The extension's key is a prefix of the path: the insertion goes on in its child. -/
theorem insertInspectorSpec_extension_descend (path existing : List (Fin 16))
    (childBranch : NodeHandle) (h0 : ¬commonPrefix path existing = 0)
    (hlen : commonPrefix path existing = existing.length)
    (ih : InsertAtSpec db value childBranch (path.drop (commonPrefix path existing))) :
    InsertInspectorSpec db value (.extension existing childBranch) path := by
  intro fx hfx hnormal
  obtain ⟨hkey, hchild, hbranch⟩ := hnormal
  cases childBranch with
  | hash _ => exact hchild.elim
  | inMemory stored =>
  obtain ⟨stored', changed, deathRow, hat, hnorm, hentries, hbr⟩ :=
    ih fx stored hfx rfl ((Stored.normal_iff stored).mp hchild).1
  have htake := take_commonPrefix_of_eq_length hlen
  have hold : stored.node.entries (path.drop (commonPrefix path existing)) =
      (Node.extension existing (.inMemory stored)).entries path := by
    have h := under_take_apply path existing stored.node.entries
    rw [htake] at h
    rw [← h]
    simp
  refine ⟨if changed then .replace (.extension existing (.inMemory stored'))
    else .restore (.extension existing (.inMemory stored')), deathRow, ?_, ?_, ?_, ?_,
    fun h ↦ absurd h.2 h0⟩
  · rw [insertInspector.eq_def]
    dsimp only
    rw [if_neg h0, if_pos hlen, hat, hold]
    rfl
  all_goals simp only [InsertAction.unwrapNode_ite_replace]
  · exact ⟨hkey, hnorm, hbr hbranch⟩
  · exact Node.extension_ne_empty _ _
  · have hsplit := update_under_take path existing stored.node.entries (some value)
    rw [htake] at hsplit
    calc (Node.extension existing (.inMemory stored')).entries
        = under existing (Function.update stored.node.entries
            (path.drop (commonPrefix path existing)) (some value)) := by
          simp [hentries]
      _ = Function.update (Node.extension existing (.inMemory stored)).entries path (some value) := by
          rw [← hsplit]
          simp

/-- A partially shared prefix with an extension. -/
theorem insertInspectorSpec_extension_split (path existing : List (Fin 16))
    (childBranch : NodeHandle) (h0 : ¬commonPrefix path existing = 0)
    (hlen : ¬commonPrefix path existing = existing.length)
    (ih : InsertInspectorSpec db value
      (.extension (existing.drop (commonPrefix path existing)) childBranch)
      (path.drop (commonPrefix path existing))) :
    InsertInspectorSpec db value (.extension existing childBranch) path := by
  have hdrop : existing.drop (commonPrefix path existing) ≠ [] := by
    have := commonPrefix_le_length_right path existing
    simp only [ne_eq, List.drop_eq_nil_iff]
    omega
  have hE : (Node.extension existing childBranch).entries =
      under (existing.take (commonPrefix path existing))
        (Node.extension (existing.drop (commonPrefix path existing)) childBranch).entries := by
    rw [Node.entries, Node.entries, ← under_append, List.take_append_drop]
  refine insertInspectorSpec_split db value h0 hlen hE (fun h ↦ ⟨hdrop, h.2⟩)
    ⟨hdrop, commonPrefix_drop_commonPrefix path existing⟩ (fun h ↦ h0 h.2) (fun fx r hr ↦ ?_) ih
  rw [insertInspector.eq_def]
  dsimp only
  rw [if_neg h0, if_neg hlen, hr]
  rfl

/-! ### The arms of the branch case -/

/-- The path ends at the branch: the branch takes the value. -/
theorem insertBranchSpec_nil (children : Fin 16 → Option NodeHandle) (storedValue : Option Bytes) :
    InsertBranchSpec db value children storedValue [] := by
  intro fx _ hchildren
  refine ⟨if (storedValue == some value) = true then .restore (.branch children (some value))
    else .replace (.branch children (some value)), children, some value, fx.deathRow, ?_, ?_,
    hchildren, ?_, ?_⟩
  · rw [insertBranch]
    rfl
  · simp
  · cases storedValue <;> simp [occupants, slotFree]
  · simp only [Node.entries]
    rw [update_cons_nil]

/-- The child at the path's first nibble takes the insertion. -/
theorem insertBranchSpec_child (children : Fin 16 → Option NodeHandle) (storedValue : Option Bytes)
    (i : Fin 16) (rest : List (Fin 16)) (child : NodeHandle) (h : children i = some child)
    (ih : InsertAtSpec db value child rest) :
    InsertBranchSpec db value children storedValue (i :: rest) := by
  intro fx hfx hchildren
  have hchild := hchildren i
  rw [h] at hchild
  cases child with
  | hash _ => exact hchild.elim
  | inMemory stored =>
  obtain ⟨stored', changed, deathRow, hat, hnorm, hentries, -⟩ :=
    ih fx stored hfx rfl ((Stored.normal_iff stored).mp hchild).1
  have hocc := occupants_update children storedValue i (some (.inMemory stored'))
  refine ⟨if (!changed) = true
      then .restore (.branch (Function.update children i (some (.inMemory stored'))) storedValue)
      else .replace (.branch (Function.update children i (some (.inMemory stored'))) storedValue),
    Function.update children i (some (.inMemory stored')), storedValue, deathRow, ?_, ?_, ?_, ?_, ?_⟩
  · rw [insertBranch, h]
    dsimp only
    rw [hat]
    cases changed <;> simp [h]
  · simp
  · intro j
    by_cases hj : j = i
    · subst hj
      rw [Function.update_self]
      exact hnorm
    · rw [Function.update_of_ne hj]
      exact hchildren j
  · simp only [h, Option.isSome_some, if_true] at hocc
    simp [slotFree, h]
    omega
  · simp only [Node.entries]
    rw [childEntries_update, update_cons_cons, h]
    simp [hentries]

/-- No child at the path's first nibble: a new leaf there. -/
theorem insertBranchSpec_none (children : Fin 16 → Option NodeHandle) (storedValue : Option Bytes)
    (i : Fin 16) (rest : List (Fin 16)) (h : children i = none) :
    InsertBranchSpec db value children storedValue (i :: rest) := by
  rintro ⟨deathRow, _⟩ rfl hchildren
  have hocc := occupants_update children storedValue i (some (.inMemory (.new (.leaf rest value))))
  refine ⟨.replace (.branch (Function.update children i (some (.inMemory (.new (.leaf rest value)))))
    storedValue), Function.update children i (some (.inMemory (.new (.leaf rest value)))),
    storedValue, deathRow, ?_, rfl, ?_, ?_, ?_⟩
  · rw [insertBranch, h]
    simp [h]
  · intro j
    by_cases hj : j = i
    · subst hj
      rw [Function.update_self]
      exact ⟨trivial, Node.leaf_ne_empty _ _⟩
    · rw [Function.update_of_ne hj]
      exact hchildren j
  · simp [h] at hocc
    simp [slotFree, h]
    omega
  · simp only [Node.entries]
    rw [childEntries_update, update_cons_cons, h]
    simp [update_empty, Stored.node]

/-! ### Insertion -/

/-- `insert_at` on a handle whose node is in normal form succeeds. It leaves a node in normal
form, not empty, whose entries are the old ones with `value` at `path`; it reports the old entry
at `path`, and a branch stays a branch. -/
theorem insertAt_normal (handle : NodeHandle) (path : List (Fin 16)) :
    InsertAtSpec db value handle path :=
  insertAt.induct value (InsertAtSpec db value) (InsertInspectorSpec db value)
    (InsertBranchSpec db value) (insertAtSpec_of_inspector db value)
    (insertInspectorSpec_empty db value) (insertInspectorSpec_branch db value)
    (insertInspectorSpec_leaf_eq db value) (fun path storedValue hne _ ↦ insertInspectorSpec_leaf_nil db value path storedValue hne)
    (insertInspectorSpec_leaf_cons db value) (insertInspectorSpec_leaf_stub db value)
    (insertInspectorSpec_leaf_split db value) (fun path childBranch _ ↦ insertInspectorSpec_extension_nil db value path childBranch)
    (insertInspectorSpec_extension_cons db value) (insertInspectorSpec_extension_descend db value)
    (insertInspectorSpec_extension_split db value) (insertBranchSpec_nil db value)
    (insertBranchSpec_child db value) (insertBranchSpec_none db value) handle path

end Insert

end Trie

end AionR
