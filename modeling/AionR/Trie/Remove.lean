import AionR.Trie.Insert

/-!
# Removal deletes one entry and keeps the normal form

`remove_at` on a trie in normal form (`Trie.Entries`) succeeds within `2 * path.length + 5` steps,
which `TrieDBMut.remove` gives it. It reports the value it removed. It returns the node that takes
the trie's place, in normal form, holding the old entries but the one at the path; or it reports
that no entry is left (`removeAt_normal`).

`fix` never meets a hash below a trie in normal form, and it runs at most three steps. A branch
left with one child becomes an extension by that child's index. The extension absorbs its child
if that is an extension or a leaf. An extension below an extension leads to a branch, where `fix`
stops.
-/

namespace AionR

namespace Trie

open PrefixMap

-- Several proofs below unfold these at once: their equation lemmas are generated here, once.
section
attribute [local simp] removeAt removeInspector fix inspect
end

/-! ## Occupied children -/

/-- A branch with no occupied child has none. -/
theorem eq_emptyChildren_of_occupied_eq_nil {children : Fin 16 → Option NodeHandle}
    (h : occupied children = []) : children = emptyChildren := by
  funext i
  cases hi : children i with
  | none => rfl
  | some child =>
    have hmem : i ∈ occupied children := mem_occupied.mpr (by rw [hi]; rfl)
    rw [h] at hmem
    exact absurd hmem List.not_mem_nil

/-- A branch with one occupied child holds that child alone. -/
theorem eq_update_of_occupied_eq_singleton {children : Fin 16 → Option NodeHandle} {a : Fin 16}
    (h : occupied children = [a]) :
    ∃ child, children a = some child ∧ children = Function.update emptyChildren a (some child) := by
  have ha : (children a).isSome := mem_occupied.mp (by rw [h]; exact List.mem_singleton_self a)
  obtain ⟨child, hchild⟩ := Option.isSome_iff_exists.mp ha
  refine ⟨child, hchild, funext fun j ↦ ?_⟩
  by_cases hj : j = a
  · subst hj
    rw [Function.update_self, hchild]
  · rw [Function.update_of_ne hj]
    cases hc : children j with
    | none => rfl
    | some _ =>
      have hmem : j ∈ occupied children := mem_occupied.mpr (by rw [hc]; rfl)
      rw [h, List.mem_singleton] at hmem
      exact absurd hmem hj

section Remove

variable (db : NodeStore)

/-! ## `fix` -/

/-- `fix` leaves an extension to a branch as it is. -/
theorem fix_extension_of_isBranch (fuel : ℕ) (fx : Effects) (key : List (Fin 16)) (stored : Stored)
    (h : stored.node.IsBranch) :
    fix db (fuel + 1) fx (.extension key (.inMemory stored)) =
      .ok (.extension key (.inMemory stored), fx) := by
  cases stored with
  | new node =>
    cases node with
    | branch => rfl
    | _ => exact h.elim
  | cached node =>
    cases node with
    | branch => rfl
    | _ => exact h.elim

/-- `fix` joins an extension to the extension below it. -/
theorem fix_extension_of_extension (fuel : ℕ) (fx : Effects) (key : List (Fin 16)) (stored : Stored)
    {subKey : List (Fin 16)} {subChild : NodeHandle} (h : stored.node = .extension subKey subChild) :
    ∃ deathRow, fix db (fuel + 1) fx (.extension key (.inMemory stored)) =
      fix db fuel ⟨deathRow, fx.oldVal⟩ (.extension (key ++ subKey) subChild) := by
  cases stored with
  | new node =>
    obtain rfl : node = _ := h
    exact ⟨fx.deathRow, rfl⟩
  | cached node hash =>
    obtain rfl : node = _ := h
    exact ⟨fx.deathRow.insert hash, rfl⟩

/-- `fix` joins an extension to the leaf below it. -/
theorem fix_extension_of_leaf (fuel : ℕ) (fx : Effects) (key : List (Fin 16)) (stored : Stored)
    {subKey : List (Fin 16)} {value : Bytes} (h : stored.node = .leaf subKey value) :
    ∃ deathRow, fix db (fuel + 1) fx (.extension key (.inMemory stored)) =
      .ok (.leaf (key ++ subKey) value, ⟨deathRow, fx.oldVal⟩) := by
  cases stored with
  | new node =>
    obtain rfl : node = _ := h
    exact ⟨fx.deathRow, rfl⟩
  | cached node hash =>
    obtain rfl : node = _ := h
    exact ⟨fx.deathRow.insert hash, rfl⟩

/-- A branch with one child and no value becomes an extension by the child's index. -/
theorem fix_branch_of_occupied_eq_singleton (fuel : ℕ) (fx : Effects)
    {children : Fin 16 → Option NodeHandle} {a : Fin 16} {child : NodeHandle}
    (h : occupied children = [a]) (ha : children a = some child) :
    fix db (fuel + 1) fx (.branch children none) = fix db fuel fx (.extension [a] child) := by
  rw [fix.eq_3 db fx fuel children a ((usedIndex_eq_one_iff children a).mpr h), ha]

/-- A branch with a value and no child becomes a leaf with the empty key. -/
theorem fix_branch_of_occupied_eq_nil (fuel : ℕ) (fx : Effects)
    {children : Fin 16 → Option NodeHandle} (value : Bytes) (h : occupied children = []) :
    fix db (fuel + 1) fx (.branch children (some value)) = .ok (.leaf [] value, fx) := by
  rw [fix.eq_4 db fx fuel children value ((usedIndex_eq_none_iff children).mpr h)]
  rfl

/-- A branch with two occupants stays as it is. -/
theorem fix_branch_of_two_le (fuel : ℕ) (fx : Effects) {children : Fin 16 → Option NodeHandle}
    {value : Option Bytes} (h : 2 ≤ occupants children value) :
    fix db (fuel + 1) fx (.branch children value) = .ok (.branch children value, fx) := by
  unfold occupants at h
  -- the three arms before it need at most one occupant
  refine fix.eq_5 db fx fuel children value ?_ ?_ ?_
  · intro hnone hvalue
    rw [(usedIndex_eq_none_iff children).mp hnone, hvalue] at h
    simp at h
  · intro a hone hvalue
    rw [(usedIndex_eq_one_iff children a).mp hone, hvalue] at h
    simp at h
  · intro v hnone hvalue
    rw [(usedIndex_eq_none_iff children).mp hnone, hvalue] at h
    simp at h

/-- `fix` returned a node in normal form, not empty, holding what `node` held. -/
def Fixed (fuel : ℕ) (fx : Effects) (node : Node) : Prop :=
  ∃ node' deathRow, fix db fuel fx node = .ok (node', ⟨deathRow, fx.oldVal⟩) ∧
    node'.Normal ∧ node' ≠ .empty ∧ node'.entries = node.entries

/-- `fix` on an extension whose child is in normal form. -/
theorem fixed_extension {fuel : ℕ} (hfuel : 2 ≤ fuel) (fx : Effects) {key : List (Fin 16)}
    (hkey : key ≠ []) {child : NodeHandle} (hchild : child.Normal) :
    Fixed db fuel fx (.extension key child) := by
  obtain ⟨fuel, rfl⟩ : ∃ f, fuel = f + 1 := ⟨fuel - 1, by omega⟩
  cases child with
  | hash _ => exact hchild.elim
  | inMemory stored =>
  obtain ⟨hnormal, hne⟩ := (Stored.normal_iff stored).mp hchild
  cases hnode : stored.node with
  | empty => exact absurd hnode hne
  | leaf subKey value =>
    obtain ⟨deathRow, hrun⟩ := fix_extension_of_leaf db fuel fx key stored hnode
    refine ⟨.leaf (key ++ subKey) value, deathRow, hrun, trivial, Node.leaf_ne_empty _ _, ?_⟩
    simp [hnode, single_append]
  | extension subKey subChild =>
    -- the extension below leads to a branch, where `fix` stops
    rw [hnode] at hnormal
    obtain ⟨hsubKey, hsubChild, hsubBranch⟩ := hnormal
    obtain ⟨deathRow, hrun⟩ := fix_extension_of_extension db fuel fx key stored hnode
    cases subChild with
    | hash _ => exact hsubChild.elim
    | inMemory subStored =>
    obtain ⟨f, rfl⟩ : ∃ f, fuel = f + 1 := ⟨fuel - 1, by omega⟩
    refine ⟨.extension (key ++ subKey) (.inMemory subStored), deathRow, ?_,
      ⟨by simp [hkey], hsubChild, hsubBranch⟩, Node.extension_ne_empty _ _, ?_⟩
    · rw [hrun, fix_extension_of_isBranch db f _ _ _ hsubBranch]
    · simp [hnode, under_append]
  | branch children value =>
    refine ⟨.extension key (.inMemory stored), fx.deathRow, ?_, ⟨hkey, hchild, ?_⟩,
      Node.extension_ne_empty _ _, rfl⟩
    · exact fix_extension_of_isBranch db fuel fx key stored (by rw [hnode]; trivial)
    · show stored.node.IsBranch
      rw [hnode]
      trivial

/-- `fix` on a branch whose children are in normal form and that holds something. -/
theorem fixed_branch {fuel : ℕ} (hfuel : 3 ≤ fuel) (fx : Effects)
    {children : Fin 16 → Option NodeHandle} {value : Option Bytes}
    (hchildren : ∀ i, ChildNormal (children i)) (hocc : 1 ≤ occupants children value) :
    Fixed db fuel fx (.branch children value) := by
  obtain ⟨f, rfl⟩ : ∃ f, fuel = f + 1 := ⟨fuel - 1, by omega⟩
  by_cases h2 : 2 ≤ occupants children value
  · exact ⟨.branch children value, fx.deathRow, fix_branch_of_two_le db f fx h2,
      ⟨hchildren, h2⟩, Node.branch_ne_empty _ _, rfl⟩
  -- one occupant: the value alone, or one child alone
  unfold occupants at hocc h2
  cases hused : occupied children with
  | nil =>
    cases value with
    | none => simp [hused] at hocc
    | some v =>
      refine ⟨.leaf [] v, fx.deathRow, fix_branch_of_occupied_eq_nil db f fx v hused, trivial,
        Node.leaf_ne_empty _ _, ?_⟩
      rw [eq_emptyChildren_of_occupied_eq_nil hused, entries_branch_emptyChildren]
      rfl
  | cons a rest =>
    cases rest with
    | cons =>
      simp [hused] at h2
      omega
    | nil =>
    cases value with
    | some _ => simp [hused] at h2
    | none =>
    obtain ⟨child, ha, hchildren'⟩ := eq_update_of_occupied_eq_singleton hused
    have hchild : child.Normal := by
      have := hchildren a
      rwa [ha] at this
    obtain ⟨node', deathRow, hrun, hnormal, hne, hentries⟩ :=
      fixed_extension db (show 2 ≤ f by omega) fx (List.cons_ne_nil a []) hchild
    refine ⟨node', deathRow, ?_, hnormal, hne, ?_⟩
    · rw [fix_branch_of_occupied_eq_singleton db f fx hused ha, hrun]
    · rw [hentries, hchildren', entries_branch_update_emptyChildren]
      rfl

/-! ## The specification of removal -/

/-- What `remove_inspector` may return for a node in normal form: delete, when the path held the
node's only entry, or the node that takes its place. A node restored in place keeps its kind. -/
def Removed (node : Node) (path : List (Fin 16)) : Action → Prop
  | .delete => Function.update node.entries path none = empty
  | .restore node' => node'.Normal ∧ node' ≠ .empty ∧
      node'.entries = Function.update node.entries path none ∧ (node.IsBranch → node'.IsBranch)
  | .replace node' => node'.Normal ∧ node' ≠ .empty ∧
      node'.entries = Function.update node.entries path none

/-- What `remove_at` may return for a stored node in normal form: no node, when the path held its
only entry, or the stored node that takes its place. One that did not change keeps its kind. -/
def RemovedAt (node : Node) (path : List (Fin 16)) : Option (Stored × Bool) → Prop
  | none => Function.update node.entries path none = empty
  | some (stored', changed) => stored'.Normal ∧
      stored'.node.entries = Function.update node.entries path none ∧
      (changed = false → node.IsBranch → stored'.node.IsBranch)

/-- `remove_inspector` with `fuel` steps removes the entry at the path. -/
def RemovesWith (fuel : ℕ) (fx : Effects) (node : Node) (path : List (Fin 16)) : Prop :=
  ∃ action deathRow, removeInspector db fuel fx node path = .ok (action, ⟨deathRow, node.entries path⟩) ∧
    Removed node path action

/-- `remove_inspector` on nodes in normal form, with enough steps. -/
def RemoveInspectorSpec (fuel : ℕ) : Prop :=
  ∀ (fx : Effects) (node : Node) (path : List (Fin 16)), fx.oldVal = none → node.Normal →
    2 * path.length + 4 ≤ fuel → RemovesWith db fuel fx node path

/-- `remove_at` on handles whose node is in normal form, with enough steps. -/
def RemoveAtSpec (fuel : ℕ) : Prop :=
  ∀ (fx : Effects) (handle : NodeHandle) (stored : Stored) (path : List (Fin 16)),
    fx.oldVal = none → takeStored db handle = .ok stored → stored.node.Normal →
    2 * path.length + 5 ≤ fuel →
    ∃ result deathRow, removeAt db fuel fx handle path =
      .ok (result, ⟨deathRow, stored.node.entries path⟩) ∧ RemovedAt stored.node path result

/-- `inspect` after a removal stores the node the inspector returned. -/
theorem removedAt_inspect {deathRow : List (Vector UInt8 32)} {stored : Stored}
    {path : List (Fin 16)} {action : Action} (h : Removed stored.node path action) :
    RemovedAt stored.node path (inspect deathRow stored action).1 := by
  cases stored <;> cases action <;>
    simp_all [inspect, Removed, RemovedAt, Stored.normal_iff, Stored.node]

theorem removeAtSpec_succ {fuel : ℕ} (hins : RemoveInspectorSpec db fuel) :
    RemoveAtSpec db (fuel + 1) := by
  intro fx handle stored path hfx htake hnormal hfuel
  obtain ⟨action, deathRow, hrun, hremoved⟩ := hins fx stored.node path hfx hnormal (by omega)
  refine ⟨(inspect deathRow stored action).1, (inspect deathRow stored action).2, ?_,
    removedAt_inspect hremoved⟩
  simp only [removeAt, htake, hrun, except_ok_bind, except_pure_eq]

/-! ### The arms of `remove_inspector` -/

theorem removesWith_empty (fuel : ℕ) (fx : Effects) (hfx : fx.oldVal = none)
    (path : List (Fin 16)) : RemovesWith db (fuel + 1) fx .empty path := by
  obtain ⟨deathRow, _⟩ := fx
  obtain rfl : _ = none := hfx
  refine ⟨.delete, deathRow, ?_, Function.update_eq_self_iff.mpr rfl⟩
  rw [removeInspector]
  rfl

/-- A leaf is deleted when its key is the path, and kept otherwise. -/
theorem removesWith_leaf (fuel : ℕ) (fx : Effects) (hfx : fx.oldVal = none)
    (existing : List (Fin 16)) (value : Bytes) (path : List (Fin 16)) :
    RemovesWith db (fuel + 1) fx (.leaf existing value) path := by
  obtain ⟨deathRow, _⟩ := fx
  obtain rfl : _ = none := hfx
  by_cases hpath : path = existing
  · subst hpath
    refine ⟨.delete, deathRow, ?_, update_single_self_none _ _⟩
    rw [removeInspector, if_pos (nibblesEq_iff.mpr rfl)]
    simp
  · have hne : nibblesEq existing path = false := by
      rw [Bool.eq_false_iff]
      exact fun h ↦ hpath (nibblesEq_iff.mp h).symm
    refine ⟨.restore (.leaf existing value), deathRow, ?_, trivial, Node.leaf_ne_empty _ _, ?_,
      fun h ↦ False.elim h⟩
    · rw [removeInspector, hne]
      simp [hpath]
    · exact (Function.update_eq_self_iff.mpr (by simp [hpath])).symm

/-- An extension passes the removal to its child when its key starts the path. -/
theorem removesWith_extension {fuel : ℕ} (hat : RemoveAtSpec db fuel) (fx : Effects)
    (hfx : fx.oldVal = none) (existing : List (Fin 16)) (childBranch : NodeHandle)
    (path : List (Fin 16)) (hnormal : (Node.extension existing childBranch).Normal)
    (hfuel : 2 * path.length + 4 ≤ fuel + 1) :
    RemovesWith db (fuel + 1) fx (.extension existing childBranch) path := by
  obtain ⟨hkey, hchild, hbranch⟩ := hnormal
  cases childBranch with
  | hash _ => exact hchild.elim
  | inMemory stored =>
  by_cases hpre : existing <+: path
  · have hcp : commonPrefix existing path = existing.length := by
      rw [commonPrefix_comm]
      exact commonPrefix_eq_length_right_iff.mpr hpre
    have hpath : existing ++ path.drop existing.length = path := List.prefix_iff_eq_append.mp hpre
    have hlen : existing.length ≤ path.length := hpre.length_le
    have hpos : 0 < existing.length := List.length_pos_iff.mpr hkey
    obtain ⟨result, deathRow, hrun, hresult⟩ := hat fx (.inMemory stored) stored
      (path.drop existing.length) hfx rfl ((Stored.normal_iff stored).mp hchild).1
      (by rw [List.length_drop]; omega)
    -- the entries below the extension, at the path
    have hE : (Node.extension existing (.inMemory stored)).entries = under existing stored.node.entries := by
      simp
    have hold : stored.node.entries (path.drop existing.length) =
        (Node.extension existing (.inMemory stored)).entries path := by
      rw [hE, ← hpath, under_apply_append, hpath]
    have hupdate (m : List (Fin 16) → Option Bytes) :
        under existing (Function.update m (path.drop existing.length) none) =
          Function.update (under existing m) path none := by
      rw [← update_under_append, hpath]
    cases result with
    | none =>
      -- the child is gone, and the extension with it
      refine ⟨.delete, deathRow, ?_, ?_⟩
      · rw [removeInspector, if_pos hcp, hcp, hrun, hold]
        rfl
      · show Function.update (Node.extension existing (.inMemory stored)).entries path none = empty
        rw [hE, ← hupdate, hresult, under_empty]
    | some r =>
      obtain ⟨newChild, changed⟩ := r
      obtain ⟨hnew, hentries, hkind⟩ := hresult
      have hE' : (Node.extension existing (.inMemory newChild)).entries =
          Function.update (Node.extension existing (.inMemory stored)).entries path none := by
        rw [hE, ← hupdate, ← hentries]
        simp
      cases changed with
      | true =>
        -- the child changed: the extension may absorb it
        obtain ⟨node', deathRow', hfix, hnorm', hne', hentries'⟩ := fixed_extension db (show 2 ≤ fuel by omega)
          ⟨deathRow, (Node.extension existing (.inMemory stored)).entries path⟩ hkey
          (show (NodeHandle.inMemory newChild).Normal from hnew)
        refine ⟨.replace node', deathRow', ?_, hnorm', hne', hentries'.trans hE'⟩
        rw [removeInspector, if_pos hcp, hcp, hrun, hold]
        simp only [except_ok_bind, if_true]
        rw [hfix]
        rfl
      | false =>
        refine ⟨.restore (.extension existing (.inMemory newChild)), deathRow, ?_,
          ⟨hkey, hnew, hkind rfl hbranch⟩, Node.extension_ne_empty _ _, hE', fun h ↦ False.elim h⟩
        rw [removeInspector, if_pos hcp, hcp, hrun, hold]
        rfl
  · -- the path leaves the extension's key: nothing to remove
    have hcp : commonPrefix existing path ≠ existing.length := fun h ↦
      hpre (commonPrefix_eq_length_right_iff.mp (by rwa [commonPrefix_comm] at h))
    obtain ⟨deathRow, _⟩ := fx
    obtain rfl : _ = none := hfx
    have hnone : (Node.extension existing (.inMemory stored)).entries path = none := by
      simp [under, hpre]
    refine ⟨.restore (.extension existing (.inMemory stored)), deathRow, ?_, ⟨hkey, hchild, hbranch⟩,
      Node.extension_ne_empty _ _, (Function.update_eq_self_iff.mpr hnone.symm).symm,
      fun h ↦ False.elim h⟩
    rw [removeInspector, if_neg hcp, hnone]
    rfl

/-- A branch with no value at the path's end is kept. -/
theorem removesWith_branch_nil_none (fuel : ℕ) (fx : Effects) (hfx : fx.oldVal = none)
    (children : Fin 16 → Option NodeHandle) (hnormal : (Node.branch children none).Normal) :
    RemovesWith db (fuel + 1) fx (.branch children none) [] := by
  obtain ⟨deathRow, _⟩ := fx
  obtain rfl : _ = none := hfx
  refine ⟨.restore (.branch children none), deathRow, ?_, hnormal, Node.branch_ne_empty _ _, ?_,
    fun h ↦ h⟩
  · rw [removeInspector]
    rfl
  · simp only [Node.entries]
    rw [update_cons_nil]

/-- A branch loses its value at the path's end, and `fix` reshapes what is left. -/
theorem removesWith_branch_nil_some {fuel : ℕ} (hfuel : 3 ≤ fuel) (fx : Effects)
    (children : Fin 16 → Option NodeHandle) (val : Bytes)
    (hnormal : (Node.branch children (some val)).Normal) :
    RemovesWith db (fuel + 1) fx (.branch children (some val)) [] := by
  obtain ⟨hchildren, hocc⟩ := hnormal
  have hocc' : 1 ≤ occupants children none := by
    unfold occupants at hocc ⊢
    simp only [Option.isSome_some, if_true, Option.isSome_none] at hocc ⊢
    omega
  obtain ⟨node', deathRow, hfix, hnorm', hne', hentries'⟩ :=
    fixed_branch db hfuel { fx with oldVal := some val } hchildren hocc'
  refine ⟨.replace node', deathRow, ?_, hnorm', hne', ?_⟩
  · rw [removeInspector, hfix]
    rfl
  · rw [hentries']
    simp only [Node.entries]
    rw [update_cons_nil]

/-- The child at the path's first nibble takes the removal; a branch that loses the child is
reshaped by `fix`. -/
theorem removesWith_branch_child {fuel : ℕ} (hat : RemoveAtSpec db fuel) (fx : Effects)
    (hfx : fx.oldVal = none) (children : Fin 16 → Option NodeHandle) (value : Option Bytes)
    (i : Fin 16) (rest : List (Fin 16)) (child : NodeHandle) (h : children i = some child)
    (hnormal : (Node.branch children value).Normal) (hfuel : 2 * (i :: rest).length + 4 ≤ fuel + 1) :
    RemovesWith db (fuel + 1) fx (.branch children value) (i :: rest) := by
  obtain ⟨hchildren, hocc⟩ := hnormal
  have hchild := hchildren i
  rw [h] at hchild
  cases child with
  | hash _ => exact hchild.elim
  | inMemory stored =>
  rw [List.length_cons] at hfuel
  obtain ⟨result, deathRow, hrun, hresult⟩ := hat fx (.inMemory stored) stored rest hfx rfl
    ((Stored.normal_iff stored).mp hchild).1 (by omega)
  have hold : stored.node.entries rest = (Node.branch children value).entries (i :: rest) := by
    simp [h]
  -- the branch's entries once the child is set to `c`
  have hupdate (c : Option NodeHandle)
      (hc : childEntries c = Function.update stored.node.entries rest none) :
      (Node.branch (Function.update children i c) value).entries =
        Function.update (Node.branch children value).entries (i :: rest) none := by
    simp only [Node.entries]
    rw [childEntries_update, update_cons_cons, h, hc]
    simp
  cases result with
  | none =>
    have hocc' : 1 ≤ occupants (Function.update children i none) value := by
      have := occupants_update children value i none
      simp only [h, Option.isSome_some, if_true, Option.isSome_none] at this
      omega
    have hchildren' : ∀ j, ChildNormal (Function.update children i none j) := by
      intro j
      by_cases hj : j = i
      · subst hj
        rw [Function.update_self]
        trivial
      · rw [Function.update_of_ne hj]
        exact hchildren j
    obtain ⟨node', deathRow', hfix, hnorm', hne', hentries'⟩ :=
      fixed_branch db (show 3 ≤ fuel by omega) ⟨deathRow, stored.node.entries rest⟩ hchildren' hocc'
    refine ⟨.replace node', deathRow', ?_, hnorm', hne', hentries'.trans (hupdate none hresult.symm)⟩
    rw [removeInspector, h]
    simp only [hrun, except_ok_bind]
    rw [hfix, hold]
    rfl
  | some r =>
    obtain ⟨new, changed⟩ := r
    obtain ⟨hnew, hentries, -⟩ := hresult
    have hnormal' : (Node.branch (Function.update children i (some (.inMemory new))) value).Normal := by
      refine ⟨fun j ↦ ?_, ?_⟩
      · by_cases hj : j = i
        · subst hj
          rw [Function.update_self]
          exact hnew
        · rw [Function.update_of_ne hj]
          exact hchildren j
      · have := occupants_update children value i (some (.inMemory new))
        simp only [h, Option.isSome_some, if_true] at this
        omega
    have hE := hupdate (some (.inMemory new)) (by simpa using hentries)
    cases changed with
    | true =>
      refine ⟨.replace (.branch (Function.update children i (some (.inMemory new))) value), deathRow,
        ?_, hnormal', Node.branch_ne_empty _ _, hE⟩
      rw [removeInspector, h]
      simp [hrun, hold]
    | false =>
      refine ⟨.restore (.branch (Function.update children i (some (.inMemory new))) value), deathRow,
        ?_, hnormal', Node.branch_ne_empty _ _, hE, fun _ ↦ trivial⟩
      rw [removeInspector, h]
      simp [hrun, hold]

/-- No child at the path's first nibble: the branch is kept. -/
theorem removesWith_branch_none (fuel : ℕ) (fx : Effects) (hfx : fx.oldVal = none)
    (children : Fin 16 → Option NodeHandle) (value : Option Bytes) (i : Fin 16)
    (rest : List (Fin 16)) (h : children i = none) (hnormal : (Node.branch children value).Normal) :
    RemovesWith db (fuel + 1) fx (.branch children value) (i :: rest) := by
  obtain ⟨deathRow, _⟩ := fx
  obtain rfl : _ = none := hfx
  have hnone : (Node.branch children value).entries (i :: rest) = none := by
    simp [h]
  refine ⟨.restore (.branch children value), deathRow, ?_, hnormal, Node.branch_ne_empty _ _,
    (Function.update_eq_self_iff.mpr hnone.symm).symm, fun h ↦ h⟩
  rw [removeInspector, h, hnone]
  rfl

theorem removeInspectorSpec_succ {fuel : ℕ} (hat : RemoveAtSpec db fuel) :
    RemoveInspectorSpec db (fuel + 1) := by
  intro fx node path hfx hnormal hfuel
  cases node with
  | empty => exact removesWith_empty db fuel fx hfx path
  | leaf existing value => exact removesWith_leaf db fuel fx hfx existing value path
  | extension existing childBranch =>
    exact removesWith_extension db hat fx hfx existing childBranch path hnormal hfuel
  | branch children value =>
    cases path with
    | nil =>
      cases value with
      | none => exact removesWith_branch_nil_none db fuel fx hfx children hnormal
      | some val => exact removesWith_branch_nil_some db (by simp at hfuel; omega) fx children val hnormal
    | cons i rest =>
      cases h : children i with
      | none => exact removesWith_branch_none db fuel fx hfx children value i rest h hnormal
      | some child =>
        exact removesWith_branch_child db hat fx hfx children value i rest child h hnormal hfuel

/-! ### Removal -/

mutual
/-- `remove_at` on a handle whose node is in normal form succeeds within `2 * path.length + 5`
steps. It leaves a node in normal form holding the old entries but the one at `path`, or no node
when that was the only one, and it reports the old entry at `path`. -/
theorem removeAt_normal : ∀ fuel, RemoveAtSpec db fuel
  | 0 => fun _ _ _ _ _ _ _ h ↦ absurd h (by omega)
  | fuel + 1 => removeAtSpec_succ db (removeInspector_normal fuel)

theorem removeInspector_normal : ∀ fuel, RemoveInspectorSpec db fuel
  | 0 => fun _ _ _ _ _ h ↦ absurd h (by omega)
  | fuel + 1 => removeInspectorSpec_succ db (removeAt_normal fuel)
end

end Remove

end Trie

end AionR
