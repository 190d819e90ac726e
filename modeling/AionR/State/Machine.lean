import AionR.State.Account
import AionR.Lib.AList
import AionR.Lib.ExceptState

/-!
# The state: the account cache and its checkpoints

`State` (`src/core/src/state/mod.rs`) keeps every account it has read or changed in `cache`, over
a backend that holds the committed state. A mutation goes through `require_or_from`, which loads
the account into the cache, records its value before the change in the last checkpoint
(`note_cache`) and marks it dirty; `new_contract` and `kill_account` replace the entry outright
through `insert_cache`, which records the value it replaces. A checkpoint keeps, for each account
changed since it was taken, the first such record: `revert_to_checkpoint` writes them back, and
`discard_checkpoint` hands them to the checkpoint below, where older records win.

## Operations that can fail

A `trie::Result` fails when the state root is not in the database; the backend's `trie` is that
error or the state trie's accounts. A failed lookup inside the trie reads as no account, as
`invoke_account_from_db` has it. The operations that return a `trie::Result` are `StateOp`s: they
change the state, keep what they changed before an error, and end with a value or the error.
Panics (`assert!`, `expect`) are the other way an operation ends: they are the `none` of the
underlying `Option`, so that a caller that matches on `Err` does not catch them.

Queries take `&self` but write the cache through a `RefCell`: an account read from the trie is
inserted as a clean entry. So they are `StateOp`s too.

## What is left out

`RequireCache` and the code and object-graph loading it drives; `debug!` logging, whose arguments
(`self.balance(a)?` among them) are not evaluated with logging off; and the `not_default` argument
of `require_or_from`, a no-op at every caller.
-/

namespace AionR

/-- `TrieError`, as the state can meet it: a state root that is not in the database. -/
inductive TrieError where
  | invalidStateRoot
  deriving DecidableEq, Repr

/-- What the state reads from its backend (`StateDB` and the trie factory). -/
structure Backend (α : Type) where
  /-- `factories.trie.readonly(db, root)`: the accounts of the state trie, or the error of a root
  that is not in the database. -/
  trie : Except TrieError (α → Option Account)
  /-- `get_cached` and `get_cached_account`: the shared cache of committed accounts. -/
  cachedAccount : α → Option (Option Account)
  /-- `is_known_null`: the bloom filter's word that there is no account. -/
  isKnownNull : α → Bool

/-- `State`. The last checkpoint is the head of `checkpoints`. -/
structure State (α : Type) where
  db : Backend α
  cache : AList (fun _ : α ↦ AccountEntry)
  checkpoints : List (AList (fun _ : α ↦ Option AccountEntry))
  accountStartNonce : ℕ

/-- An operation on the state: it returns a value or the `Err` of a `trie::Result`, keeping the
changes it made before; `none` is a panic. -/
abbrev StateOp (α β : Type) := ExceptT TrieError (StateT (State α) Option) β

/-- A panic. -/
def abort {α β : Type} : StateOp α β := ExceptT.lift (StateT.lift none)

/-- `CleanupMode`, with the set of touched accounts that `TrackTouched` writes to. -/
inductive CleanupMode (α : Type) where
  | forceCreate
  | noEmpty
  | trackTouched (touched : List α)
  deriving DecidableEq, Repr

namespace State

variable {α : Type} [DecidableEq α]

/-! ## Checkpoints -/

/-- `checkpoint`. -/
def checkpoint (s : State α) : State α := { s with checkpoints := ∅ :: s.checkpoints }

/-- `discard_checkpoint`: merge the last checkpoint into the one below, whose records win. -/
def discardCheckpoint (s : State α) : State α :=
  match s.checkpoints with
  | [] => s
  | [_] => { s with checkpoints := [] }
  | checkpoint :: prev :: rest =>
    let prev :=
      if prev.entries.isEmpty then checkpoint
      else checkpoint.entries.foldl (fun m e ↦ orInsert m e.1 e.2) prev
    { s with checkpoints := prev :: rest }

/-- One record of `revert_to_checkpoint` written back into the cache. -/
def revertEntry (cache : AList (fun _ : α ↦ AccountEntry)) (k : α) :
    Option AccountEntry → AList (fun _ : α ↦ AccountEntry)
  | some v =>
    match cache.lookup k with
    | some e => cache.insert k (e.overwriteWith v)
    | none => cache.insert k v
  | none =>
    match cache.lookup k with
    | some e => if e.isDirty then cache.erase k else cache
    | none => cache

/-- `revert_to_checkpoint`. -/
def revertToCheckpoint (s : State α) : State α :=
  match s.checkpoints with
  | [] => s
  | checkpoint :: rest =>
    { s with
      cache := checkpoint.entries.foldl (fun c e ↦ revertEntry c e.1 e.2) s.cache
      checkpoints := rest }

/-- `insert_cache`: a dirty entry records the entry it replaces in the last checkpoint. -/
def insertCache (s : State α) (a : α) (account : AccountEntry) : State α :=
  let oldValue := s.cache.lookup a
  { s with
    cache := s.cache.insert a account
    checkpoints :=
      if account.isDirty then
        match s.checkpoints with
        | [] => []
        | checkpoint :: rest => orInsert checkpoint a oldValue :: rest
      else s.checkpoints }

/-- `note_cache`: record the cached entry of `a` in the last checkpoint. -/
def noteCache (s : State α) (a : α) : State α :=
  match s.checkpoints with
  | [] => s
  | checkpoint :: rest =>
    { s with checkpoints := orInsert checkpoint a ((s.cache.lookup a).map AccountEntry.cloneDirty) :: rest }

/-! ## Queries -/

/-- The backend's state trie, or its error. -/
def trieOp (s : State α) : StateOp α (α → Option Account) :=
  match s.db.trie with
  | .error e => throw e
  | .ok trie => pure trie

/-- `ensure_cached`: the local cache, then the shared cache, then the trie, whose account is
cached. -/
def ensureCached {β : Type} (a : α) (checkNull : Bool) (f : Option Account → β) : StateOp α β := do
  let s ← get
  match s.cache.lookup a with
  | some maybeAcc => pure (f maybeAcc.account)
  | none =>
    match s.db.cachedAccount a with
    | some acc => pure (f acc)
    | none =>
      if checkNull && s.db.isKnownNull a then pure (f none)
      else
        let trie ← s.trieOp
        set (s.insertCache a (.newClean (trie a)))
        pure (f (trie a))

/-- `exists`. -/
def «exists» (a : α) : StateOp α Bool := ensureCached a false Option.isSome

/-- `exists_and_not_empty`. -/
def existsAndNotEmpty (a : α) : StateOp α Bool :=
  ensureCached a false fun acc ↦ acc.any fun acc ↦ !acc.isEmpty

/-- `balance`. -/
def balance (a : α) : StateOp α ℕ := ensureCached a true fun acc ↦ (acc.map Account.balance).getD 0

/-- `nonce`. -/
def nonce (a : α) : StateOp α ℕ := do
  let s ← get
  ensureCached a true fun acc ↦ (acc.map Account.nonce).getD s.accountStartNonce

/-- `code`. -/
def code (a : α) : StateOp α (Option Bytes) := ensureCached a true fun acc ↦ acc.bind Account.code

/-- `has_storage`: the storage root is known, as it is when no write is pending, and is not that
of the empty trie; an error reads as no storage. -/
def hasStorage (a : α) : StateOp α Bool :=
  tryCatch
    (ensureCached a true fun acc ↦
      acc.any fun acc ↦ acc.storageChanges.entries.isEmpty && !acc.storage.entries.isEmpty)
    fun _ ↦ pure false

/-- `invoke_state_trie`: read the account from the trie, whose creation is `expect`ed, and cache
it. -/
def invokeStateTrie (a : α) (key : Bytes) : StateOp α (Option Bytes) := do
  let s ← get
  match s.db.trie with
  | .error _ => abort
  | .ok trie =>
    let maybeAcc := trie a
    set (s.insertCache a (.newClean maybeAcc))
    pure (maybeAcc.bind (·.storageAt key))

/-- `storage_at`. -/
def storageAt (a : α) (key : Bytes) : StateOp α (Option Bytes) := do
  let s ← get
  match s.cache.lookup a with
  | some maybeAcc => pure (maybeAcc.account.bind (·.storageAt key))
  | none => if s.db.isKnownNull a then pure none else invokeStateTrie a key

/-! ## Mutations -/

/-- The first half of `require_or_from`: load an account that is not cached yet. -/
def loadAccount (a : α) : StateOp α Unit := do
  let s ← get
  match s.db.cachedAccount a with
  | some acc => set (s.insertCache a (.newCleanCached acc))
  | none =>
    if !s.db.isKnownNull a then
      let trie ← s.trieOp
      set (s.insertCache a (.newClean (trie a)))
    else set (s.insertCache a (.newClean none))

/-- `require_or_from`, with the caller's change `f` of the account it returns (`none` is a panic
of that change): load, record the entry in the last checkpoint, fill a missing account with
`default`, change it and mark the entry dirty. -/
def requireOrFrom (a : α) (default : Account) (f : Account → Option Account) : StateOp α Unit := do
  if ((← get).cache.lookup a).isNone then loadAccount a
  modify (·.noteCache a)
  let s ← get
  match s.cache.lookup a with
  | some entry =>
    match f (entry.account.getD default) with
    | some account => set { s with cache := s.cache.insert a { account := some account, state := .dirty } }
    | none => abort
  | none => abort

/-- `require`: a missing account is created empty. -/
def require (a : α) (f : Account → Option Account) : StateOp α Unit := do
  requireOrFrom a (Account.newBasic 0 (← get).accountStartNonce) f

/-- `touch`. -/
def touch (a : α) : StateOp α Unit := require a some

/-- `add_balance`, returning the cleanup mode with the accounts it touched. -/
def addBalance (a : α) (incr : ℕ) (cleanupMode : CleanupMode α) : StateOp α (CleanupMode α) := do
  let create ←
    if incr ≠ 0 then pure true
    else if cleanupMode = .forceCreate then do pure !(← «exists» a)
    else pure false
  if create then
    require a fun acc ↦ some (acc.addBalance incr)
    pure cleanupMode
  else
    match cleanupMode with
    | .trackTouched set =>
      if ← «exists» a then
        touch a
        pure (.trackTouched (set.insert a))
      else pure cleanupMode
    | _ => pure cleanupMode

/-- `sub_balance`, returning the cleanup mode with the accounts it touched. -/
def subBalance (a : α) (decr : ℕ) (cleanupMode : CleanupMode α) : StateOp α (CleanupMode α) := do
  let change ← if decr ≠ 0 then pure true else do pure !(← «exists» a)
  if change then require a fun acc ↦ acc.subBalance decr
  match cleanupMode with
  | .trackTouched set => pure (.trackTouched (set.insert a))
  | _ => pure cleanupMode

/-- `transfer_balance`. -/
def transferBalance (source dest : α) (value : ℕ) (cleanupMode : CleanupMode α) :
    StateOp α (CleanupMode α) := do
  let cleanupMode ← subBalance source value cleanupMode
  addBalance dest value cleanupMode

/-- `inc_nonce`. -/
def incNonce (a : α) : StateOp α Unit := require a fun acc ↦ some acc.incNonce

/-- `set_storage`. -/
def setStorage (a : α) (key value : Bytes) : StateOp α Unit :=
  require a fun acc ↦ some (acc.setStorage key value)

/-- `init_code`: a missing account is created as a contract. -/
def initCode (a : α) (code : Bytes) : StateOp α Unit := do
  requireOrFrom a (Account.newContract 0 (← get).accountStartNonce) fun acc ↦ some (acc.initCode code)

/-- `new_contract`. -/
def newContract (s : State α) (contract : α) (balance nonceOffset : ℕ) : State α :=
  s.insertCache contract (.newDirty (some (Account.newContract balance (s.accountStartNonce + nonceOffset))))

/-- `kill_account`. -/
def killAccount (s : State α) (account : α) : State α := s.insertCache account (.newDirty none)

end State

end AionR
