import AionR.State.Machine

/-!
# Reverting a checkpoint

`revert_to_checkpoint` writes each record of the last checkpoint back into the cache through
`AccountEntry::overwrite_with`, which copies a recorded account only into an entry that still has
one. `kill_account` leaves an entry with no account, and records the entry it replaces; so when an
account that is cached is killed after a checkpoint, reverting that checkpoint restores the
entry's state but not its account, and the account no longer exists.
-/

namespace AionR

namespace State

variable {α : Type}

/-! ## The operations on the cache and the checkpoints -/

@[simp] theorem checkpoint_cache (s : State α) : s.checkpoint.cache = s.cache := rfl

@[simp] theorem checkpoint_checkpoints (s : State α) : s.checkpoint.checkpoints = ∅ :: s.checkpoints :=
  rfl

variable [DecidableEq α]

@[simp] theorem discardCheckpoint_cache (s : State α) : s.discardCheckpoint.cache = s.cache := by
  unfold discardCheckpoint
  split <;> rfl

@[simp] theorem insertCache_cache (s : State α) (a : α) (e : AccountEntry) :
    (s.insertCache a e).cache = s.cache.insert a e := rfl

theorem insertCache_checkpoints_of_isDirty (s : State α) (a : α) {e : AccountEntry}
    (he : e.isDirty = true) (checkpoint : AList (fun _ : α ↦ Option AccountEntry)) (rest)
    (hs : s.checkpoints = checkpoint :: rest) :
    (s.insertCache a e).checkpoints = orInsert checkpoint a (s.cache.lookup a) :: rest := by
  simp [insertCache, he, hs]

theorem revertToCheckpoint_of_cons (s : State α) (checkpoint : AList (fun _ : α ↦ Option AccountEntry))
    (rest) (hs : s.checkpoints = checkpoint :: rest) :
    s.revertToCheckpoint =
      { s with
        cache := checkpoint.entries.foldl (fun c e ↦ revertEntry c e.1 e.2) s.cache
        checkpoints := rest } := by
  simp [revertToCheckpoint, hs]

/-- A query of a cached address answers from the cache and changes nothing. -/
theorem ensureCached_of_lookup {β : Type} (s : State α) {a : α} {e : AccountEntry}
    (he : s.cache.lookup a = some e) (checkNull : Bool) (f : Option Account → β) :
    (ensureCached a checkNull f).run.run s = some (.ok (f e.account), s) := by
  simp [ensureCached, he]

/-! ## Killing after a checkpoint -/

/-- Reverting a checkpoint taken before `kill_account` gives the killed entry back its state but
not its account. -/
theorem revertToCheckpoint_killAccount (s : State α) {a : α} {e : AccountEntry}
    (he : s.cache.lookup a = some e) :
    ((s.checkpoint.killAccount a).revertToCheckpoint).cache.lookup a =
      some { account := none, state := e.state } := by
  -- the kill records the cached entry in the fresh checkpoint, its only record
  have hrec : (s.checkpoint.killAccount a).checkpoints = (∅ : AList _).insert a (some e) :: s.checkpoints := by
    rw [killAccount, insertCache_checkpoints_of_isDirty _ a (AccountEntry.isDirty_newDirty none) ∅
      s.checkpoints (checkpoint_checkpoints s)]
    simp [orInsert, he]
  rw [revertToCheckpoint_of_cons _ _ _ hrec]
  simp only [revertEntry, killAccount, AccountEntry.overwriteWith, AccountEntry.newDirty,
    insertCache_cache, checkpoint_cache, AList.insert_empty, AList.singleton_entries,
    List.foldl_cons, List.foldl_nil, AList.lookup_insert]
  split <;> rfl

/-- For every state that caches an account at `a`: `a` exists once a checkpoint is taken, and no
longer once it is killed and the checkpoint reverted. -/
theorem exists_killAccount_revertToCheckpoint (s : State α) {a : α} {e : AccountEntry}
    (he : s.cache.lookup a = some e) (hacc : e.account.isSome) :
    ((do
      modify checkpoint
      let before ← «exists» a
      modify fun s ↦ (s.killAccount a).revertToCheckpoint
      let after ← «exists» a
      pure (before, after) : StateOp α (Bool × Bool))).run.run s =
      some (.ok (true, false), (s.checkpoint.killAccount a).revertToCheckpoint) := by
  have hbefore := ensureCached_of_lookup s.checkpoint (a := a) he false Option.isSome
  -- the reverted entry has no account
  have hafter := ensureCached_of_lookup _ (revertToCheckpoint_killAccount s he) false Option.isSome
  simp only [ExceptState.run_bind, ExceptState.run_modify, ExceptState.run_pure, «exists»,
    hbefore, hafter, Option.bind_some, hacc, Option.isSome_none]

/-- The state in which `0` was created by `inc_nonce` on an empty backend. -/
def emptyBackend : Backend ℕ :=
  { trie := .ok fun _ ↦ none, cachedAccount := fun _ ↦ none, isKnownNull := fun _ ↦ false }

/-- A state over `emptyBackend` with nothing cached and no checkpoint. -/
def freshState : State ℕ := { db := emptyBackend, cache := ∅, checkpoints := [], accountStartNonce := 0 }

/-- **A reverted kill loses the account.** Account `0` exists when the checkpoint is taken; it is
killed, the checkpoint is reverted, and it does not exist. -/
theorem revertToCheckpoint_killAccount_exists :
    ((do
      incNonce 0
      modify checkpoint
      let before ← «exists» 0
      modify fun s ↦ (s.killAccount 0).revertToCheckpoint
      let after ← «exists» 0
      pure (before, after) : StateOp ℕ (Bool × Bool))).run.run' freshState = some (.ok (true, false)) := by
  -- `inc_nonce` caches a new account at `0`
  obtain ⟨s₁, hinc, e, he, hacc⟩ : ∃ s₁, (incNonce 0 : StateOp ℕ Unit).run.run freshState =
      some (.ok (), s₁) ∧ ∃ e, s₁.cache.lookup 0 = some e ∧ e.account.isSome :=
    ⟨_, rfl, _, rfl, rfl⟩
  have hrun : ((do
      incNonce 0
      modify checkpoint
      let before ← «exists» 0
      modify fun s ↦ (s.killAccount 0).revertToCheckpoint
      let after ← «exists» 0
      pure (before, after) : StateOp ℕ (Bool × Bool))).run.run freshState =
        some (.ok (true, false), (s₁.checkpoint.killAccount 0).revertToCheckpoint) := by
    rw [ExceptState.run_bind, hinc, Option.bind_some]
    exact exists_killAccount_revertToCheckpoint s₁ he hacc
  rw [StateT.run'_eq, hrun]
  rfl

end State

end AionR
