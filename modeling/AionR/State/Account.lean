import Mathlib.Data.List.AList
import AionR.Lib.BigEndian

/-!
# Accounts and the entries of the state cache

`AionVMAccount` (`src/core/src/state/account/account.rs`) and `AccountEntry`
(`src/core/src/state/account_state.rs`), with the fields that the state's queries, its mutations
and its checkpoints read: balance, nonce, code, the storage trie under `storage_root`, the
uncommitted storage writes `storage_changes`, and the account type, which decides how a write of
zeros is tagged.

## Storage

`storage_at` looks in `storage_changes` first, then in the LRU `storage_cache`, then in the trie
under `storage_root`, and the cache only ever holds values read from that trie or committed into
it. The model keeps the trie's contents as the map `storage` and reads it directly, so the cache
is not kept; `clone_basic` starts the copy with an empty cache, and `overwrite_with` copies it.

## Machine integers

Balances and nonces are `U256`; they are natural numbers here, and an addition that would pass
`2²⁵⁶` (which panics in the source) is not modelled.
-/

namespace AionR

/-- `KeyTag`: one entry of `storage_changes`. -/
inductive KeyTag where
  | remove
  | dirty (value : Bytes)
  | clean (value : Bytes)
  deriving DecidableEq, Repr

/-- `KeyTag::get`. -/
def KeyTag.get : KeyTag → Option Bytes
  | .remove => none
  | .dirty v => some v
  | .clean v => some v

/-- `AccType`. -/
inductive AccType where
  | fvm
  | avm
  deriving DecidableEq, Repr

/-- `AionVMAccount`, with the storage trie under `storage_root` as the map `storage`. -/
structure Account where
  balance : ℕ
  nonce : ℕ
  storage : AList (fun _ : Bytes ↦ Bytes)
  storageChanges : AList (fun _ : Bytes ↦ KeyTag)
  codeCache : Bytes
  accountType : AccType

namespace Account

/-- `AionVMAccount::new_contract`. -/
def newContract (balance nonce : ℕ) : Account :=
  { balance, nonce, storage := ∅, storageChanges := ∅, codeCache := [], accountType := .fvm }

/-- `AionVMAccount::new_basic`. It differs from `new_contract` only in `code_size`, which is not
kept. -/
def newBasic (balance nonce : ℕ) : Account :=
  { balance, nonce, storage := ∅, storageChanges := ∅, codeCache := [], accountType := .fvm }

/-- `clone_basic`: everything but the storage writes (and the storage cache). -/
def cloneBasic (a : Account) : Account := { a with storageChanges := ∅ }

/-- `clone_dirty`: `clone_basic` with the storage writes and the code. -/
def cloneDirty (a : Account) : Account :=
  { a.cloneBasic with storageChanges := a.storageChanges, codeCache := a.codeCache }

/-- `AionVMAccount::overwrite_with`. -/
def overwriteWith (a other : Account) : Account :=
  { a with
    balance := other.balance
    nonce := other.nonce
    storage := other.storage
    codeCache := other.codeCache
    accountType := other.accountType
    storageChanges := other.storageChanges }

/-- `code()`: the code, or nothing when it is empty. -/
def code (a : Account) : Option Bytes := if a.codeCache.isEmpty then none else some a.codeCache

/-- `is_null`: no balance, no nonce and no code. -/
def isNull (a : Account) : Bool := a.balance == 0 && a.nonce == 0 && a.codeCache.isEmpty

/-- `is_empty`: null, with an empty storage trie. -/
def isEmpty (a : Account) : Bool := a.isNull && a.storage.entries.isEmpty

/-- `inc_nonce`. -/
def incNonce (a : Account) : Account := { a with nonce := a.nonce + 1 }

/-- `add_balance`. -/
def addBalance (a : Account) (x : ℕ) : Account := { a with balance := a.balance + x }

/-- `sub_balance`, which asserts that the balance covers `x`: `none` is the panic. -/
def subBalance (a : Account) (x : ℕ) : Option Account :=
  if a.balance ≥ x then some { a with balance := a.balance - x } else none

/-- `init_code`. -/
def initCode (a : Account) (code : Bytes) : Account := { a with codeCache := code }

/-- `gen_tag` of `set_storage`: on the FastVM a value of zeros removes the key. -/
def genTag (value : Bytes) (vmId : AccType) : KeyTag :=
  if vmId = .avm then .dirty value
  else if value.any (· ≠ 0) then .dirty value
  else .remove

/-- `set_storage`. -/
def setStorage (a : Account) (key value : Bytes) : Account :=
  { a with storageChanges := a.storageChanges.insert key (genTag value a.accountType) }

/-- `storage_at`: the uncommitted write of `key` if there is one, else the trie's value. -/
def storageAt (a : Account) (key : Bytes) : Option Bytes :=
  match a.storageChanges.lookup key with
  | some tag => tag.get
  | none => a.storage.lookup key

@[simp] theorem cloneDirty_eq (a : Account) : a.cloneDirty = a := rfl

@[simp] theorem overwriteWith_eq (a other : Account) : a.overwriteWith other = other := rfl

end Account

/-- `AccountState`. -/
inductive AccountState where
  | cleanFresh
  | cleanCached
  | dirty
  | committed
  deriving DecidableEq, Repr

/-- `AccountEntry`: a cached account, or the knowledge that there is none, with its state. The
balance before modification (`old_balance`) is written but never read, and is not kept. -/
structure AccountEntry where
  account : Option Account
  state : AccountState

namespace AccountEntry

/-- `is_dirty`. -/
def isDirty (e : AccountEntry) : Bool := e.state == .dirty

/-- `clone_dirty`. -/
def cloneDirty (e : AccountEntry) : AccountEntry :=
  { account := e.account.map Account.cloneDirty, state := e.state }

/-- `new_dirty`. -/
def newDirty (account : Option Account) : AccountEntry := { account, state := .dirty }

/-- `new_clean`. -/
def newClean (account : Option Account) : AccountEntry := { account, state := .cleanFresh }

/-- `new_clean_cached`. -/
def newCleanCached (account : Option Account) : AccountEntry := { account, state := .cleanCached }

/-- `AccountEntry::overwrite_with`: take the other entry's state, and its account when it has
none; an account it has is copied into ours only if we have one. -/
def overwriteWith (e other : AccountEntry) : AccountEntry :=
  { state := other.state
    account :=
      match other.account with
      | some acc =>
        match e.account with
        | some ours => some (ours.overwriteWith acc)
        | none => none
      | none => none }

@[simp] theorem cloneDirty_eq (e : AccountEntry) : e.cloneDirty = e := by
  obtain ⟨_ | acc, state⟩ := e <;> rfl

@[simp] theorem isDirty_newDirty (account : Option Account) : (newDirty account).isDirty = true := rfl

@[simp] theorem isDirty_newClean (account : Option Account) : (newClean account).isDirty = false := rfl

@[simp] theorem isDirty_newCleanCached (account : Option Account) :
    (newCleanCached account).isDirty = false := rfl

/-- Overwriting takes the other entry's account unless it has one and we do not. -/
theorem overwriteWith_account (e other : AccountEntry) :
    (e.overwriteWith other).account = if e.account.isNone then none else other.account := by
  rcases ho : other.account with _ | acc <;> rcases he : e.account with _ | ours <;>
    simp [overwriteWith, ho, he]

@[simp] theorem overwriteWith_state (e other : AccountEntry) :
    (e.overwriteWith other).state = other.state := rfl

end AccountEntry

end AionR
