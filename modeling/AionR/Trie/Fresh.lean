import AionR.Trie.Map

/-!
# The trie holds new nodes only

A trie that `TrieDBMut::new` starts, changed by `insert` and `remove` alone, holds below its root
no hash and no node loaded from the database (`TrieDBMut.run_fresh`). Its root starts as the hash
of the empty trie; the node `insert` or `remove` loads from there is the empty node, which they
replace or delete at once, and a trie the calls empty becomes that hash again. Every other node
is one the calls build. So `commit` encodes the whole tree from its nodes.

Each operation is followed through its recursion, as `Trie.Insert` and `Trie.Remove` do: one
lemma for each arm says that the node the arm builds is new when the one it was given is, and
`insertAt.induct` and `removeAt.induct` assemble them.
-/

namespace AionR

namespace Trie

mutual
/-- A tree of new nodes: no child below is a hash or a node loaded from the database. -/
def Node.Fresh : Node → Prop
  | .empty => True
  | .leaf _ _ => True
  | .extension _ child => child.Fresh
  | .branch children _ => ∀ i, ChildFresh (children i)

def NodeHandle.Fresh : NodeHandle → Prop
  | .inMemory stored => stored.Fresh
  | .hash _ => False

def Stored.Fresh : Stored → Prop
  | .new node => node.Fresh
  | .cached _ _ => False

def ChildFresh : Option NodeHandle → Prop
  | none => True
  | some child => child.Fresh
end

theorem childFresh_update {children : Fin 16 → Option NodeHandle}
    (h : ∀ j, ChildFresh (children j)) (i : Fin 16) {child : Option NodeHandle}
    (hchild : ChildFresh child) : ∀ j, ChildFresh (Function.update children i child j) := by
  intro j
  by_cases hj : j = i
  · subst hj
    rwa [Function.update_self]
  · rw [Function.update_of_ne hj]
    exact h j

theorem childFresh_emptyChildren (i : Fin 16) : ChildFresh (emptyChildren i) := trivial

/-- A fresh handle holds a new node in memory. -/
theorem NodeHandle.eq_of_fresh {handle : NodeHandle} (h : handle.Fresh) :
    ∃ node, handle = .inMemory (.new node) ∧ node.Fresh := by
  cases handle with
  | hash _ => exact h.elim
  | inMemory stored =>
    cases stored with
    | new node => exact ⟨node, rfl, h⟩
    | cached _ _ => exact h.elim

/-- The node an action keeps. -/
def Action.Fresh : Action → Prop
  | .replace node => node.Fresh
  | .restore node => node.Fresh
  | .delete => True

/-- `inspect` on a new node stores what its inspector returned as a new node. -/
theorem inspect_new_of_fresh {deathRow : List (Vector UInt8 32)} {node : Node} {action : Action}
    (h : action.Fresh) : ∀ r ∈ (inspect deathRow (.new node) action).1, r.1.Fresh := by
  cases action with
  | replace _ => simpa [inspect, Action.Fresh, Stored.Fresh] using h
  | restore _ => simpa [inspect, Action.Fresh, Stored.Fresh] using h
  | delete => simp [inspect]

section Insert

variable (db : NodeStore) (value : Bytes)

/-- `insert_at` on a fresh handle stores a fresh node. -/
def InsertAtFresh (handle : NodeHandle) (path : List (Fin 16)) : Prop :=
  ∀ fx r, handle.Fresh → insertAt db fx handle path value = .ok r → r.1.Fresh

/-- `insert_inspector` on a fresh node returns a fresh node. -/
def InsertInspectorFresh (node : Node) (path : List (Fin 16)) : Prop :=
  ∀ fx r, node.Fresh → insertInspector db fx node path value = .ok r → r.1.unwrapNode.Fresh

/-- The branch arm on fresh children returns a fresh node. -/
def InsertBranchFresh (children : Fin 16 → Option NodeHandle) (storedValue : Option Bytes)
    (path : List (Fin 16)) : Prop :=
  ∀ fx r, (∀ i, ChildFresh (children i)) →
    insertBranch db fx children storedValue path value = .ok r → r.1.unwrapNode.Fresh

theorem insertAtFresh_of_inspector (handle : NodeHandle) (path : List (Fin 16))
    (ih : ∀ stored : Stored, InsertInspectorFresh db value stored.node path) :
    InsertAtFresh db value handle path := by
  intro fx r hfresh hrun
  obtain ⟨node, rfl, hnode⟩ := NodeHandle.eq_of_fresh hfresh
  rw [insertAt] at hrun
  simp only [takeStored, except_ok_bind] at hrun
  obtain ⟨⟨action, fx'⟩, hins, hrest⟩ := except_bind_eq_ok.mp hrun
  have haction := ih (.new node) fx _ hnode hins
  cases action <;> (simp only [inspect, InsertAction.intoAction] at hrest; cases hrest; exact haction)

/-- An arm that hands the insertion to the branch arm and keeps the node it returns. -/
theorem fresh_of_bind_replace {x : Except TrieFault (InsertAction × Effects)} (wrap : Node → Node)
    {r : InsertAction × Effects}
    (h : (x >>= fun p ↦ pure (InsertAction.replace (wrap p.1.unwrapNode), p.2)) = .ok r)
    (hx : ∀ p, x = .ok p → p.1.unwrapNode.Fresh) (hwrap : ∀ node, node.Fresh → (wrap node).Fresh) :
    r.1.unwrapNode.Fresh := by
  obtain ⟨p, hp, hr⟩ := except_bind_eq_ok.mp h
  cases hr
  exact hwrap _ (hx p hp)

theorem insertInspectorFresh_empty (path : List (Fin 16)) :
    InsertInspectorFresh db value .empty path := by
  intro fx r _ hrun
  simp only [insertInspector, except_pure_eq, Except.ok.injEq] at hrun
  subst hrun
  trivial

theorem insertInspectorFresh_branch (path : List (Fin 16)) (children : Fin 16 → Option NodeHandle)
    (storedValue : Option Bytes) (ih : InsertBranchFresh db value children storedValue path) :
    InsertInspectorFresh db value (.branch children storedValue) path := by
  intro fx r hfresh hrun
  rw [insertInspector] at hrun
  exact ih fx r hfresh hrun

theorem insertInspectorFresh_leaf_eq (path existing : List (Fin 16)) (storedValue : Bytes)
    (h : commonPrefix path existing = existing.length ∧ commonPrefix path existing = path.length) :
    InsertInspectorFresh db value (.leaf existing storedValue) path := by
  intro fx r _ hrun
  rw [insertInspector.eq_def] at hrun
  dsimp only at hrun
  rw [if_pos h, except_pure_eq, Except.ok.injEq] at hrun
  subst hrun
  split <;> trivial

theorem insertInspectorFresh_leaf_nil (path : List (Fin 16)) (storedValue : Bytes)
    (hne : ¬(commonPrefix path [] = ([] : List (Fin 16)).length ∧ commonPrefix path [] = path.length))
    (ih : InsertBranchFresh db value emptyChildren (some storedValue) path) :
    InsertInspectorFresh db value (.leaf [] storedValue) path := by
  intro fx r _ hrun
  rw [insertInspector, if_neg hne, if_pos (commonPrefix_nil_right path)] at hrun
  exact fresh_of_bind_replace id hrun (fun p hp ↦ ih fx p childFresh_emptyChildren hp)
    fun _ h ↦ h

theorem insertInspectorFresh_leaf_cons (path : List (Fin 16)) (storedValue : Bytes) (i : Fin 16)
    (rest : List (Fin 16))
    (hne : ¬(commonPrefix path (i :: rest) = (i :: rest).length ∧
      commonPrefix path (i :: rest) = path.length))
    (h0 : commonPrefix path (i :: rest) = 0)
    (ih : InsertBranchFresh db value
      (Function.update emptyChildren i (some (.inMemory (.new (.leaf rest storedValue))))) none path) :
    InsertInspectorFresh db value (.leaf (i :: rest) storedValue) path := by
  intro fx r _ hrun
  rw [insertInspector, if_neg hne, if_pos h0] at hrun
  exact fresh_of_bind_replace id hrun
    (fun p hp ↦ ih fx p (childFresh_update childFresh_emptyChildren i trivial) hp) fun _ h ↦ h

theorem insertInspectorFresh_leaf_stub (path existing : List (Fin 16)) (storedValue : Bytes)
    (hne : ¬(commonPrefix path existing = existing.length ∧ commonPrefix path existing = path.length))
    (h0 : ¬commonPrefix path existing = 0) (hlen : commonPrefix path existing = existing.length)
    (ih : InsertBranchFresh db value emptyChildren (some storedValue)
      (path.drop (commonPrefix path existing))) :
    InsertInspectorFresh db value (.leaf existing storedValue) path := by
  intro fx r _ hrun
  rw [insertInspector.eq_def] at hrun
  dsimp only at hrun
  rw [if_neg hne, if_neg h0, if_pos hlen] at hrun
  exact fresh_of_bind_replace (fun node ↦ .extension existing (.inMemory (.new node))) hrun
    (fun p hp ↦ ih fx p childFresh_emptyChildren hp) fun _ h ↦ h

theorem insertInspectorFresh_leaf_split (path existing : List (Fin 16)) (storedValue : Bytes)
    (hne : ¬(commonPrefix path existing = existing.length ∧ commonPrefix path existing = path.length))
    (h0 : ¬commonPrefix path existing = 0) (hlen : ¬commonPrefix path existing = existing.length)
    (ih : InsertInspectorFresh db value
      (.leaf (existing.drop (commonPrefix path existing)) storedValue)
      (path.drop (commonPrefix path existing))) :
    InsertInspectorFresh db value (.leaf existing storedValue) path := by
  intro fx r _ hrun
  rw [insertInspector.eq_def] at hrun
  dsimp only at hrun
  rw [if_neg hne, if_neg h0, if_neg hlen] at hrun
  exact fresh_of_bind_replace
    (fun node ↦ .extension (existing.take (commonPrefix path existing)) (.inMemory (.new node)))
    hrun (fun p hp ↦ ih fx p trivial hp) fun _ h ↦ h

theorem insertInspectorFresh_extension_nil (path : List (Fin 16)) (childBranch : NodeHandle) :
    InsertInspectorFresh db value (.extension [] childBranch) path := by
  intro fx r _ hrun
  rw [insertInspector, if_pos (commonPrefix_nil_right path)] at hrun
  cases hrun

theorem insertInspectorFresh_extension_cons (path : List (Fin 16)) (childBranch : NodeHandle)
    (i : Fin 16) (rest : List (Fin 16)) (h0 : commonPrefix path (i :: rest) = 0)
    (ih : InsertBranchFresh db value (Function.update emptyChildren i (some
      (if rest.length = 0 then childBranch else .inMemory (.new (.extension rest childBranch)))))
      none path) :
    InsertInspectorFresh db value (.extension (i :: rest) childBranch) path := by
  intro fx r hfresh hrun
  have hchild : childBranch.Fresh := hfresh
  -- the new branch holds the child at `i`, or an extension by the rest of the key to it
  have hslot : ChildFresh (some (if rest.length = 0 then childBranch
      else .inMemory (.new (.extension rest childBranch)))) := by
    split
    · exact hchild
    · exact hchild
  rw [insertInspector, if_pos h0] at hrun
  exact fresh_of_bind_replace id hrun
    (fun p hp ↦ ih fx p (childFresh_update childFresh_emptyChildren i hslot) hp) fun _ h ↦ h

theorem insertInspectorFresh_extension_descend (path existing : List (Fin 16))
    (childBranch : NodeHandle) (h0 : ¬commonPrefix path existing = 0)
    (hlen : commonPrefix path existing = existing.length)
    (ih : InsertAtFresh db value childBranch (path.drop (commonPrefix path existing))) :
    InsertInspectorFresh db value (.extension existing childBranch) path := by
  intro fx r hfresh hrun
  rw [insertInspector.eq_def] at hrun
  dsimp only at hrun
  rw [if_neg h0, if_pos hlen] at hrun
  obtain ⟨⟨newChild, changed, fx'⟩, hat, hr⟩ := except_bind_eq_ok.mp hrun
  cases hr
  have hnew : newChild.Fresh := ih fx _ hfresh hat
  split <;> exact hnew

theorem insertInspectorFresh_extension_split (path existing : List (Fin 16))
    (childBranch : NodeHandle) (h0 : ¬commonPrefix path existing = 0)
    (hlen : ¬commonPrefix path existing = existing.length)
    (ih : InsertInspectorFresh db value
      (.extension (existing.drop (commonPrefix path existing)) childBranch)
      (path.drop (commonPrefix path existing))) :
    InsertInspectorFresh db value (.extension existing childBranch) path := by
  intro fx r hfresh hrun
  rw [insertInspector.eq_def] at hrun
  dsimp only at hrun
  rw [if_neg h0, if_neg hlen] at hrun
  exact fresh_of_bind_replace
    (fun node ↦ .extension (existing.take (commonPrefix path existing)) (.inMemory (.new node)))
    hrun (fun p hp ↦ ih fx p hfresh hp) fun _ h ↦ h

theorem insertBranchFresh_nil (children : Fin 16 → Option NodeHandle)
    (storedValue : Option Bytes) : InsertBranchFresh db value children storedValue [] := by
  intro fx r hchildren hrun
  simp only [insertBranch, except_pure_eq, Except.ok.injEq] at hrun
  subst hrun
  split <;> exact hchildren

theorem insertBranchFresh_child (children : Fin 16 → Option NodeHandle)
    (storedValue : Option Bytes) (i : Fin 16) (rest : List (Fin 16)) (child : NodeHandle)
    (h : children i = some child) (ih : InsertAtFresh db value child rest) :
    InsertBranchFresh db value children storedValue (i :: rest) := by
  intro fx r hchildren hrun
  have hchild : child.Fresh := by
    have := hchildren i
    rwa [h] at this
  simp only [insertBranch, h] at hrun
  obtain ⟨⟨newChild, changed, fx'⟩, hat, hrest⟩ := except_bind_eq_ok.mp hrun
  have hnew : newChild.Fresh := ih fx _ hchild hat
  have hupdate := childFresh_update hchildren i (show ChildFresh (some (.inMemory newChild)) from hnew)
  cases changed <;> (simp at hrest; subst hrest; exact hupdate)

theorem insertBranchFresh_none (children : Fin 16 → Option NodeHandle)
    (storedValue : Option Bytes) (i : Fin 16) (rest : List (Fin 16)) (h : children i = none) :
    InsertBranchFresh db value children storedValue (i :: rest) := by
  intro fx r hchildren hrun
  simp only [insertBranch, h, except_pure_eq, Except.ok.injEq] at hrun
  subst hrun
  exact childFresh_update hchildren i (show ChildFresh (some (.inMemory (.new (.leaf rest value)))) from
    trivial)

/-- `insert_at` on a fresh handle stores a fresh node. -/
theorem insertAt_fresh (handle : NodeHandle) (path : List (Fin 16)) :
    InsertAtFresh db value handle path :=
  insertAt.induct value (InsertAtFresh db value) (InsertInspectorFresh db value)
    (InsertBranchFresh db value) (insertAtFresh_of_inspector db value)
    (insertInspectorFresh_empty db value)
    (insertInspectorFresh_branch db value)
    (insertInspectorFresh_leaf_eq db value)
    (fun path storedValue hne _ ↦ insertInspectorFresh_leaf_nil db value path storedValue hne)
    (insertInspectorFresh_leaf_cons db value) (insertInspectorFresh_leaf_stub db value)
    (insertInspectorFresh_leaf_split db value)
    (fun path childBranch _ ↦ insertInspectorFresh_extension_nil db value path childBranch)
    (insertInspectorFresh_extension_cons db value) (insertInspectorFresh_extension_descend db value)
    (insertInspectorFresh_extension_split db value) (insertBranchFresh_nil db value)
    (insertBranchFresh_child db value) (insertBranchFresh_none db value) handle path

end Insert

section Remove

variable (db : NodeStore)

/-- `fix` on a fresh node returns a fresh node: what it joins is new, and it loads nothing. -/
theorem fix_fresh : ∀ (fuel : ℕ) (fx : Effects) (node : Node) (r : Node × Effects), node.Fresh →
    fix db fuel fx node = .ok r → r.1.Fresh
  | 0, _, _, _, _, hrun => by cases hrun
  | fuel + 1, fx, .branch children value, r, hfresh, hrun => by
    -- the arms of `fix` on a branch, by what `used_index` found and the value
    rcases hused : usedIndex children with _ | a | _ <;> rcases value with _ | v
    · rw [fix.eq_2 db fx fuel children hused] at hrun
      cases hrun
    · rw [fix.eq_4 db fx fuel children v hused] at hrun
      cases hrun
      trivial
    · -- one child and no value: the branch becomes an extension to the child
      rw [fix.eq_3 db fx fuel children a hused] at hrun
      cases hchild : children a with
      | none =>
        rw [hchild] at hrun
        cases hrun
      | some child =>
        rw [hchild] at hrun
        have hc : child.Fresh := by
          have := hfresh a
          rwa [hchild] at this
        exact fix_fresh fuel fx (.extension [a] child) r hc hrun
    all_goals
      rw [fix.eq_5 db fx fuel children _ (by simp [hused]) (by simp [hused]) (by simp [hused])] at hrun
      cases hrun
      exact hfresh
  | fuel + 1, fx, .extension key child, r, hfresh, hrun => by
    obtain ⟨node, rfl, hnode⟩ := NodeHandle.eq_of_fresh hfresh
    rw [fix.eq_6] at hrun
    simp only [takeStored, except_ok_bind] at hrun
    cases node with
    | extension subKey subChild => exact fix_fresh fuel fx (.extension (key ++ subKey) subChild) r hnode hrun
    | leaf subKey value =>
      cases hrun
      trivial
    | empty =>
      cases hrun
      exact hnode
    | branch _ _ =>
      cases hrun
      exact hnode
  | fuel + 1, fx, .empty, r, _, hrun => by
    rw [fix.eq_7 db fx _ fuel (by simp) (by simp)] at hrun
    cases hrun
    trivial
  | fuel + 1, fx, .leaf key value, r, _, hrun => by
    rw [fix.eq_7 db fx _ fuel (by simp) (by simp)] at hrun
    cases hrun
    trivial

/-- `remove_at` on a fresh handle stores a fresh node, if any. -/
def RemoveAtFresh (fuel : ℕ) (fx : Effects) (handle : NodeHandle) (path : List (Fin 16)) : Prop :=
  ∀ r, handle.Fresh → removeAt db fuel fx handle path = .ok r → ∀ p ∈ r.1, p.1.Fresh

/-- `remove_inspector` on a fresh node keeps a fresh node, if any. -/
def RemoveInspectorFresh (fuel : ℕ) (fx : Effects) (node : Node) (path : List (Fin 16)) : Prop :=
  ∀ r, node.Fresh → removeInspector db fuel fx node path = .ok r → r.1.Fresh

theorem removeAtFresh_succ (fuel : ℕ) (fx : Effects) (handle : NodeHandle) (path : List (Fin 16))
    (ih : ∀ stored : Stored, RemoveInspectorFresh db fuel fx stored.node path) :
    RemoveAtFresh db (fuel + 1) fx handle path := by
  intro r hfresh hrun
  obtain ⟨node, rfl, hnode⟩ := NodeHandle.eq_of_fresh hfresh
  rw [removeAt] at hrun
  simp only [takeStored, except_ok_bind] at hrun
  obtain ⟨⟨action, fx'⟩, hins, hrest⟩ := except_bind_eq_ok.mp hrun
  cases hrest
  exact inspect_new_of_fresh (ih (.new node) _ hnode hins)

/-- An arm that runs `fix` on a fresh node keeps the node `fix` returns. -/
theorem fresh_of_bind_fix {fuel : ℕ} {fx : Effects} {node : Node} {r : Action × Effects}
    (h : (fix db fuel fx node >>= fun p ↦ pure (Action.replace p.1, p.2)) = .ok r)
    (hnode : node.Fresh) : r.1.Fresh := by
  obtain ⟨p, hp, hr⟩ := except_bind_eq_ok.mp h
  cases hr
  exact fix_fresh db fuel fx node p hnode hp

theorem removeInspectorFresh_branch_child (fuel : ℕ) (fx : Effects)
    (children : Fin 16 → Option NodeHandle) (value : Option Bytes) (i : Fin 16)
    (rest : List (Fin 16)) (child : NodeHandle) (h : children i = some child)
    (ih : RemoveAtFresh db fuel fx child rest) :
    RemoveInspectorFresh db (fuel + 1) fx (.branch children value) (i :: rest) := by
  intro r hfresh hrun
  have hchild : child.Fresh := by
    have := hfresh i
    rwa [h] at this
  rw [removeInspector.eq_def] at hrun
  simp only [h] at hrun
  obtain ⟨⟨result, fx'⟩, hat, hrest⟩ := except_bind_eq_ok.mp hrun
  have hresult := ih _ hchild hat
  cases result with
  | some p =>
    obtain ⟨new, changed⟩ := p
    have hupdate := childFresh_update hfresh i
      (show ChildFresh (some (.inMemory new)) from hresult _ rfl)
    simp only [except_pure_eq, Except.ok.injEq] at hrest
    subst hrest
    split <;> exact hupdate
  | none =>
    -- the child is gone: `fix` tidies the branch without it
    exact fresh_of_bind_fix db hrest (childFresh_update hfresh i trivial)

theorem removeInspectorFresh_extension (fuel : ℕ) (fx : Effects) (existing : List (Fin 16))
    (childBranch : NodeHandle) (path : List (Fin 16))
    (hlen : commonPrefix existing path = existing.length)
    (ih : RemoveAtFresh db fuel fx childBranch (path.drop (commonPrefix existing path))) :
    RemoveInspectorFresh db (fuel + 1) fx (.extension existing childBranch) path := by
  intro r hfresh hrun
  rw [removeInspector.eq_def] at hrun
  dsimp only at hrun
  rw [if_pos hlen] at hrun
  obtain ⟨⟨result, fx'⟩, hat, hrest⟩ := except_bind_eq_ok.mp hrun
  have hresult := ih _ hfresh hat
  cases result with
  | some p =>
    obtain ⟨newChild, changed⟩ := p
    have hnew : newChild.Fresh := hresult _ rfl
    dsimp only at hrest
    split at hrest
    · exact fresh_of_bind_fix db hrest hnew
    · simp only [except_pure_eq, Except.ok.injEq] at hrest
      subst hrest
      exact hnew
  | none =>
    simp only [except_pure_eq, Except.ok.injEq] at hrest
    subst hrest
    trivial

/-! ### The arms that keep or delete the node they were given -/

theorem removeInspectorFresh_empty (fuel : ℕ) (fx : Effects) (path : List (Fin 16)) :
    RemoveInspectorFresh db (fuel + 1) fx .empty path := by
  intro r _ hrun
  simp only [removeInspector, except_pure_eq, Except.ok.injEq] at hrun
  subst hrun
  trivial

theorem removeInspectorFresh_branch_nil_none (fuel : ℕ) (fx : Effects)
    (children : Fin 16 → Option NodeHandle) :
    RemoveInspectorFresh db (fuel + 1) fx (.branch children none) [] := by
  intro r hfresh hrun
  simp only [removeInspector, except_pure_eq, Except.ok.injEq] at hrun
  subst hrun
  exact hfresh

/-- The value is taken out: `fix` tidies the branch without it. -/
theorem removeInspectorFresh_branch_nil_some (fuel : ℕ) (fx : Effects)
    (children : Fin 16 → Option NodeHandle) (val : Bytes) :
    RemoveInspectorFresh db (fuel + 1) fx (.branch children (some val)) [] := by
  intro r hfresh hrun
  rw [removeInspector] at hrun
  exact fresh_of_bind_fix db hrun hfresh

theorem removeInspectorFresh_branch_none (fuel : ℕ) (fx : Effects)
    (children : Fin 16 → Option NodeHandle) (value : Option Bytes) (i : Fin 16)
    (rest : List (Fin 16)) (h : children i = none) :
    RemoveInspectorFresh db (fuel + 1) fx (.branch children value) (i :: rest) := by
  intro r hfresh hrun
  simp only [removeInspector, h, except_pure_eq, Except.ok.injEq] at hrun
  subst hrun
  exact hfresh

/-- A leaf is deleted or kept. -/
theorem removeInspectorFresh_leaf (fuel : ℕ) (fx : Effects) (existing : List (Fin 16))
    (value : Bytes) (path : List (Fin 16)) :
    RemoveInspectorFresh db (fuel + 1) fx (.leaf existing value) path := by
  intro r _ hrun
  simp only [removeInspector] at hrun
  split_ifs at hrun <;> (cases hrun; trivial)

theorem removeInspectorFresh_extension_restore (fuel : ℕ) (fx : Effects)
    (existing : List (Fin 16)) (childBranch : NodeHandle) (path : List (Fin 16))
    (h : ¬commonPrefix existing path = existing.length) :
    RemoveInspectorFresh db (fuel + 1) fx (.extension existing childBranch) path := by
  intro r hfresh hrun
  rw [removeInspector.eq_def] at hrun
  dsimp only at hrun
  rw [if_neg h, except_pure_eq, Except.ok.injEq] at hrun
  subst hrun
  exact hfresh

/-- `remove_at` on a fresh handle stores a fresh node, if any. -/
theorem removeAt_fresh (fuel : ℕ) (fx : Effects) (handle : NodeHandle) (path : List (Fin 16)) :
    RemoveAtFresh db fuel fx handle path :=
  removeAt.induct (RemoveAtFresh db) (RemoveInspectorFresh db)
    (fun _ _ _ _ _ hrun ↦ by cases hrun) (removeAtFresh_succ db)
    (fun _ _ _ _ _ hrun ↦ by cases hrun) (removeInspectorFresh_empty db)
    (removeInspectorFresh_branch_nil_none db) (removeInspectorFresh_branch_nil_some db)
    (removeInspectorFresh_branch_child db) (removeInspectorFresh_branch_none db)
    (fun fuel fx existing value path _ ↦ removeInspectorFresh_leaf db fuel fx existing value path)
    (fun fuel fx existing value path _ ↦ removeInspectorFresh_leaf db fuel fx existing value path)
    (removeInspectorFresh_extension db) (removeInspectorFresh_extension_restore db)
    fuel fx handle path

end Remove

namespace TrieDBMut

/-- The root is the hash of the empty trie, held as such, or a tree of new nodes in memory. -/
def Fresh (t : TrieDBMut) : Prop :=
  (t.rootHandle = .hash blake2bNullRlp ∧ t.root = blake2bNullRlp) ∨ t.rootHandle.Fresh

theorem fresh_new : new.Fresh := Or.inl ⟨rfl, rfl⟩

section Operations

variable {db : NodeStore} (hdb : db.HoldsNull)
include hdb

/-- `insert_at` on the hash of the empty trie loads the empty node and replaces it by a new leaf. -/
theorem insertAt_null_fresh (fx : Effects) (path : List (Fin 16)) (value : Bytes)
    {r : Stored × Bool × Effects} (h : insertAt db fx (.hash blake2bNullRlp) path value = .ok r) :
    r.1.Fresh := by
  rw [insertAt] at h
  simp only [takeStored, cache, hdb.decodedAt_null, except_ok_bind, Stored.node] at h
  rw [insertInspector] at h
  simp only [except_pure_eq, except_ok_bind, inspect, InsertAction.intoAction] at h
  cases h
  trivial

/-- `remove_at` on the hash of the empty trie deletes the empty node it loads. -/
theorem removeAt_null (fuel : ℕ) (fx : Effects) (path : List (Fin 16))
    {r : Option (Stored × Bool) × Effects}
    (h : removeAt db fuel fx (.hash blake2bNullRlp) path = .ok r) : r.1 = none := by
  cases fuel with
  | zero => cases h
  | succ fuel =>
    rw [removeAt] at h
    simp only [takeStored, cache, hdb.decodedAt_null, except_ok_bind, Stored.node] at h
    cases fuel with
    | zero => cases h
    | succ fuel =>
      simp only [removeInspector, except_pure_eq, except_ok_bind, inspect] at h
      cases h
      rfl

theorem Fresh.remove {t t' : TrieDBMut} (ht : t.Fresh) {key : Bytes} {old : Option Bytes}
    (h : t.remove db key = .ok (t', old)) : t'.Fresh := by
  obtain ⟨⟨result, fx⟩, hat, hrest⟩ := except_bind_eq_ok.mp h
  -- the handle `remove_at` returns is fresh, or there is none and the trie is the empty one
  have hresult : ∀ p ∈ result, p.1.Fresh := by
    rcases ht with ⟨hnull, -⟩ | hfresh
    · rw [hnull] at hat
      have hnone : result = none := removeAt_null hdb _ _ _ hat
      simp [hnone]
    · exact removeAt_fresh db _ _ _ _ _ hfresh hat
  cases result with
  | some p =>
    simp only [except_pure_eq, Except.ok.injEq, Prod.mk.injEq] at hrest
    obtain ⟨rfl, -⟩ := hrest
    exact Or.inr (hresult p rfl)
  | none =>
    simp only [except_pure_eq, Except.ok.injEq, Prod.mk.injEq] at hrest
    obtain ⟨rfl, -⟩ := hrest
    exact Or.inl ⟨rfl, rfl⟩

theorem Fresh.insert {t t' : TrieDBMut} (ht : t.Fresh) {key value : Bytes} {old : Option Bytes}
    (h : t.insert db key value = .ok (t', old)) : t'.Fresh := by
  unfold TrieDBMut.insert at h
  split_ifs at h
  · exact ht.remove hdb h
  · obtain ⟨⟨newHandle, changed, fx⟩, hat, hrest⟩ := except_bind_eq_ok.mp h
    simp only [except_pure_eq, Except.ok.injEq, Prod.mk.injEq] at hrest
    obtain ⟨rfl, -⟩ := hrest
    refine Or.inr ?_
    rcases ht with ⟨hnull, -⟩ | hfresh
    · rw [hnull] at hat
      exact insertAt_null_fresh hdb _ _ _ hat
    · exact insertAt_fresh db value _ _ _ _ hfresh hat

/-- Every run of calls keeps the trie fresh. -/
theorem run_fresh : ∀ (ops : List Op) {t t' : TrieDBMut} {olds : List (Option Bytes)}, t.Fresh →
    run db ops t = .ok (t', olds) → t'.Fresh
  | [], t, t', olds, ht, h => by
    cases h
    exact ht
  | op :: ops, t, t', olds, ht, h => by
    obtain ⟨⟨t₁, old⟩, hop, hrest⟩ := except_bind_eq_ok.mp h
    obtain ⟨⟨t₂, olds'⟩, hrun, hr⟩ := except_bind_eq_ok.mp hrest
    cases hr
    have ht₁ : t₁.Fresh := by
      cases op with
      | insert key value => exact ht.insert hdb hop
      | remove key => exact ht.remove hdb hop
    exact run_fresh ops ht₁ hrun

end Operations

end TrieDBMut

end Trie

end AionR
