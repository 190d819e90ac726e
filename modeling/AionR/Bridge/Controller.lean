import AionR.Bridge.Utilities
import AionR.Executive
import AionR.Lib.ExceptState

/-!
# The bridge controller

`BridgeController` (`src/core/src/precompiled/atb/bridge_controller.rs`) is the logic of the token
bridge: an owner, a relayer and a ring of members. The owner names the ring once
(`ring_initialize`, which locks it) and then adds and removes members one at a time; the relayer
submits bundles of transfers, which `process_bundles` pays out of the contract's balance when
enough signatures of ring members over the bundle hash come with them, and records under that
hash the transaction that paid it, so that a bundle already paid is acknowledged and not paid
again.

## The world

The bridge's storage (`BridgeStorageConnector`, `bridge_strg_conn.rs`) is a record with one field
per slot. The two maps, whose slots sit at a Blake2b of the map's byte and the key, are functions
of the key, which is how the connector reads them as long as those slots do not collide. An `i32`
slot is an `Int32`: the connector stores its four big-endian bytes and reads them back, and the
arithmetic on it wraps, as in a release build. Beside the storage are the balances and nonces the
controller reads and writes through `BuiltinExt`.

A controller function runs in `BridgeM`: it changes the world, may return an `ErrCode`, keeping
the changes made before it as an early `return Err` does, and may panic (`none`). Logs are left
out: no modelled function reads them, and `emit_distributed`, the one emitter that can fail, keeps
its check.

## Cryptography

Blake2b and Ed25519 verification are parameters (`Crypto`); nothing below depends on what they
compute.
-/

namespace AionR

/-- The hash functions the bridge calls: Blake2b, and Ed25519 verification of a signature of a
message under a public key. -/
structure Crypto where
  blake2b : Bytes → Vector UInt8 32
  /-- `verify(message, public, signature)`. -/
  verify : Vector UInt8 32 → Vector UInt8 32 → Bytes → Bool

/-- `ErrCode`. -/
inductive ErrCode where
  | notOwner
  | notNewOwner
  | ringLocked
  | ringNotLocked
  | ringMemberExists
  | ringMemberNotExists
  | notRingMember
  | notEnoughSignatures
  | invalidSignatureBounds
  | invalidTransfer
  | notRelayer
  | processed
  | uncaughtError
  deriving DecidableEq, Repr

/-- The zero hash, `H256::from_slice(&vec![0; WORD_LENGTH])`. -/
def zeroH256 : Vector UInt8 32 := Vector.replicate 32 0

/-- `BridgeStorageConnector`: the bridge's storage slots. -/
structure Connector where
  owner : AccountAddress
  newOwner : AccountAddress
  memberCount : Int32
  minThresh : Int32
  ringLocked : Bool
  relayer : AccountAddress
  initialized : Bool
  /-- `bundle_map`: for each bundle hash, the transaction that paid it, or zero. -/
  bundle : Vector UInt8 32 → Vector UInt8 32
  /-- `active_map`: the ring members. -/
  activeMember : AccountAddress → Bool

/-- The storage of a contract that was never written: every slot reads as zero. -/
def Connector.empty : Connector where
  owner := zeroH256
  newOwner := zeroH256
  memberCount := 0
  minThresh := 0
  ringLocked := false
  relayer := zeroH256
  initialized := false
  bundle := fun _ ↦ zeroH256
  activeMember := fun _ ↦ false

/-- The bridge's storage with the balances and nonces of the accounts. -/
structure BridgeWorld where
  connector : Connector
  balance : AccountAddress → ℕ
  nonce : AccountAddress → ℕ

/-- A step of the bridge: it changes the world, may return an error and may panic (`none`). -/
abbrev BridgeM (α : Type) := ExceptT ErrCode (StateT BridgeWorld Option) α

namespace BridgeM

/-- A panic. -/
def abort {α : Type} : BridgeM α := ExceptT.lift (StateT.lift none)

/-- The value of an `Option` the source unwraps, or a panic. -/
def ofOption {α : Type} : Option α → BridgeM α
  | some a => pure a
  | none => abort

/-- The storage as it is now. -/
def connector : BridgeM Connector := do return (← get).connector

/-- A write to the storage. -/
def modifyConnector (f : Connector → Connector) : BridgeM Unit :=
  modify fun w ↦ { w with connector := f w.connector }

end BridgeM

open BridgeM

namespace Connector

/-- `set_owner`. -/
def setOwner (a : AccountAddress) : BridgeM Unit := modifyConnector fun c ↦ { c with owner := a }

/-- `set_new_owner`. -/
def setNewOwner (a : AccountAddress) : BridgeM Unit :=
  modifyConnector fun c ↦ { c with newOwner := a }

/-- `set_relayer`. -/
def setRelayer (a : AccountAddress) : BridgeM Unit :=
  modifyConnector fun c ↦ { c with relayer := a }

/-- `set_member_count`. -/
def setMemberCount (n : Int32) : BridgeM Unit :=
  modifyConnector fun c ↦ { c with memberCount := n }

/-- `set_min_thresh`. -/
def setMinThresh (n : Int32) : BridgeM Unit := modifyConnector fun c ↦ { c with minThresh := n }

/-- `set_ring_locked`. -/
def setRingLocked (b : Bool) : BridgeM Unit := modifyConnector fun c ↦ { c with ringLocked := b }

/-- `set_initialized`. -/
def setInitialized (b : Bool) : BridgeM Unit :=
  modifyConnector fun c ↦ { c with initialized := b }

/-- `set_active_member`. -/
def setActiveMember (key : AccountAddress) (b : Bool) : BridgeM Unit :=
  modifyConnector fun c ↦ { c with activeMember := Function.update c.activeMember key b }

/-- `set_bundle`. -/
def setBundle (key value : Vector UInt8 32) : BridgeM Unit :=
  modifyConnector fun c ↦ { c with bundle := Function.update c.bundle key value }

end Connector

open Connector

/-- `inc_nonce`. -/
def incNonce (a : AccountAddress) : BridgeM Unit :=
  modify fun w ↦ { w with nonce := Function.update w.nonce a (w.nonce a + 1) }

/-- `transfer_balance`: take the value from the source, then give it to the destination. -/
def transferBalance (source dest : AccountAddress) (value : ℕ) : BridgeM Unit :=
  modify fun w ↦
    let balance := Function.update w.balance source (w.balance source - value)
    { w with balance := Function.update balance dest (balance dest + value) }

/-- `U256::from(&[u8])`: a big-endian number of at most 32 bytes; a longer slice panics. -/
def u256FromSlice (bytes : Bytes) : Option ℕ :=
  if bytes.length ≤ 32 then some (fromBigEndian bytes) else none

/-- `Ed25519Signature::from(Vec<u8>)`: 96 bytes, the public key and the signature; any other
length panics in `copy_from_slice`. -/
def ed25519SignatureFrom (bytes : Bytes) : Option (Vector UInt8 96) :=
  if h : bytes.length = 96 then some ⟨bytes.toArray, by simpa using h⟩ else none

/-- `get_public`: the first 32 bytes of a signature. -/
def getPublic (signature : Vector UInt8 96) : Vector UInt8 32 :=
  Vector.ofFn fun i ↦ signature[i.val]

/-- `public_to_address_ed25519`: the Blake2b of the public key, with its first byte replaced by
`0xa0`. -/
def publicToAddressEd25519 (blake2b : Bytes → Vector UInt8 32) (publicKey : Vector UInt8 32) :
    AccountAddress :=
  let hash := blake2b publicKey.toList
  Vector.ofFn fun i ↦ if i.val = 0 then 0xa0 else hash.get i

/-- `threshold_ratio`: two thirds of the members, at least one. -/
def thresholdRatio (input : Int32) : Int32 := max (input * 2 / 3) 1

namespace BridgeController

variable (crypto : Crypto) (contractAddress ownerAddress : AccountAddress)
  [BigIntBytes] {Buffer : Type} [ByteBufferApi Buffer]

/-- `initialize`: the first call makes the configured owner the owner. -/
def initializeOnce : BridgeM Unit := do
  if !(← connector).initialized then
    setOwner ownerAddress
    setInitialized true

/-- `is_owner`. -/
def isOwner (address : AccountAddress) : BridgeM Bool := return (← connector).owner == address

/-- `is_new_owner`. -/
def isNewOwner (address : AccountAddress) : BridgeM Bool :=
  return (← connector).newOwner == address

/-- `set_new_owner`. -/
def setNewOwner (caller newOwner : AccountAddress) : BridgeM Unit := do
  if !(← isOwner caller) then throw .notOwner
  Connector.setNewOwner newOwner

/-- `accept_ownership`. -/
def acceptOwnership (caller : AccountAddress) : BridgeM Unit := do
  if !(← isNewOwner caller) then throw .notNewOwner
  setOwner caller
  Connector.setNewOwner zeroH256

/-- `is_relayer`. -/
def isRelayer (caller : AccountAddress) : BridgeM Bool := return (← connector).relayer == caller

/-- `set_relayer`. -/
def setRelayer (caller newOwner : AccountAddress) : BridgeM Unit := do
  if !(← isOwner caller) then throw .notOwner
  Connector.setRelayer newOwner

/-- `is_ring_locked`. -/
def isRingLocked : BridgeM Bool := return (← connector).ringLocked

/-- `is_ring_member`. -/
def isRingMember (address : AccountAddress) : BridgeM Bool :=
  return (← connector).activeMember address

/-- `ring_initialize`: the member count and threshold come from the length of the list, which may
name an address twice. -/
def ringInitialize (caller : AccountAddress) (members : List AccountAddress) : BridgeM Unit := do
  if !(← isOwner caller) then throw .notOwner
  if (← isRingLocked) then throw .ringLocked
  let thresh := thresholdRatio (Int32.ofNat members.length)
  setMemberCount (Int32.ofNat members.length)
  setMinThresh thresh
  members.forM fun m ↦ setActiveMember m true
  setRingLocked true

/-- `ring_add_member`. -/
def ringAddMember (caller address : AccountAddress) : BridgeM Unit := do
  if !(← isOwner caller) then throw .notOwner
  if !(← isRingLocked) then throw .ringNotLocked
  if (← isRingMember address) then throw .ringMemberExists
  let memberCount := (← connector).memberCount + 1
  let thresh := thresholdRatio memberCount
  setActiveMember address true
  setMemberCount memberCount
  setMinThresh thresh

/-- `ring_remove_member`. -/
def ringRemoveMember (caller address : AccountAddress) : BridgeM Unit := do
  if !(← isOwner caller) then throw .notOwner
  if !(← isRingLocked) then throw .ringNotLocked
  if !(← isRingMember address) then throw .ringMemberNotExists
  let memberCount := (← connector).memberCount - 1
  let thresh := thresholdRatio memberCount
  setActiveMember address false
  setMemberCount memberCount
  setMinThresh thresh

/-- `is_with_signature_bounds`. -/
def isWithSignatureBounds (signatureLength : Int32) : BridgeM Bool := do
  let c ← connector
  return decide (signatureLength ≥ c.minThresh) && decide (signatureLength ≤ c.memberCount)

/-- `bundle_processed`: a transaction is recorded under the hash. -/
def bundleProcessed (hash : Vector UInt8 32) : BridgeM Bool :=
  return (← connector).bundle hash != zeroH256

/-- The signature loop of `process_bundles`: `signed` counts the signatures that verify against
the hash under a public key whose address is an active member, each signature on its own. -/
def countSigned (hash : Vector UInt8 32) (signed : Int32) : List Bytes → BridgeM Int32
  | [] => return signed
  | sigBytes :: signatures => do
    let signature ← ofOption (ed25519SignatureFrom sigBytes)
    let publicKey := getPublic signature
    let address := publicToAddressEd25519 crypto.blake2b publicKey
    let valid := crypto.verify publicKey hash (signature.toList.drop 32) &&
      (← connector).activeMember address
    countSigned hash (if valid then signed + 1 else signed) signatures

/-- `emit_distributed`: the log needs the value padded to 32 bytes. -/
def emitDistributed (value : ℤ) : BridgeM Bool :=
  return (pad (BigIntBytes.toSignedBytesBe value) 32).isSome

/-- `transfer`: pay `value` from the contract, counting a nonce of the contract. -/
def transfer (recipient : AccountAddress) (value : ℤ) : BridgeM ExecutionResult := do
  let valueU256 ← ofOption (u256FromSlice (BigIntBytes.toSignedBytesBe value))
  if (← get).balance contractAddress < valueU256 then throw .invalidTransfer
  incNonce contractAddress
  transferBalance contractAddress recipient valueU256
  return { gasLeft := 0, statusCode := .success, returnData := [], exception := "" }

/-- The transfer loop of `process_bundles`: a zero value or a failed transfer ends it with an
error, after the transfers before it were made. -/
def processTransfers :
    List BridgeTransfer → List ExecutionResult → BridgeM (List ExecutionResult)
  | [], results => return results
  | b :: transfers, results => do
    if b.txValue = 0 then throw .invalidTransfer
    let result ← transfer contractAddress b.recipient b.txValue
    if !(← emitDistributed b.txValue) then throw .invalidTransfer
    processTransfers transfers (results ++ [result])

/-- `process_bundles`. -/
def processBundles (caller transactionHash sourceBlockHash : Vector UInt8 32)
    (transfers : List BridgeTransfer) (signatures : List Bytes) :
    BridgeM (List ExecutionResult) := do
  if !(← isRingLocked) then throw .ringNotLocked
  if !(← isRelayer caller) then throw .notRelayer
  if !(← isWithSignatureBounds (Int32.ofNat signatures.length)) then
    throw .invalidSignatureBounds
  let hash := computeBundleHash crypto.blake2b sourceBlockHash transfers
  -- a bundle already paid is acknowledged without paying it again
  if (← bundleProcessed hash) then return []
  let signed ← countSigned crypto hash 0 signatures
  let minThresh := (← connector).minThresh
  if signed < minThresh then throw .notEnoughSignatures
  let results ← processTransfers contractAddress transfers []
  setBundle hash transactionHash
  return results

end BridgeController

end AionR

namespace AionR

open BridgeM Connector ExceptState

/-! ## What a step of the controller leaves alone -/

/-- The world outside the bundles' payment is unchanged: the balances, the nonces and the record
of paid bundles, the three things only `process_bundles` writes. -/
def Untouched (w w' : BridgeWorld) : Prop :=
  w'.balance = w.balance ∧ w'.nonce = w.nonce ∧ w'.connector.bundle = w.connector.bundle

instance : IsPreorder BridgeWorld Untouched where
  refl _ := ⟨rfl, rfl, rfl⟩
  trans _ _ _ h₁ h₂ :=
    ⟨h₂.1.trans h₁.1, h₂.2.1.trans h₁.2.1, h₂.2.2.trans h₁.2.2⟩

/-- The storage and the balances are unchanged: the steps of `process_bundles` that only pay. -/
def SameStorage (w w' : BridgeWorld) : Prop := w'.connector = w.connector

instance : IsPreorder BridgeWorld SameStorage where
  refl _ := rfl
  trans _ _ _ h₁ h₂ := h₂.trans h₁

@[simp] theorem run_connector (w : BridgeWorld) : connector.run.run w = some (.ok w.connector, w) :=
  rfl

section Reads

variable {R : BridgeWorld → BridgeWorld → Prop} [IsPreorder BridgeWorld R]

theorem moves_connector : Moves R connector := moves_bind moves_get fun _ ↦ moves_pure _

theorem moves_ofOption {α : Type} (o : Option α) : Moves R (ofOption o) := by
  cases o with
  | some a => exact moves_pure a
  | none => exact moves_lift_none

/-- A read of the storage. -/
theorem moves_read {α : Type} (g : Connector → α) :
    Moves R (do return g (← connector) : BridgeM α) :=
  moves_bind moves_connector fun _ ↦ moves_pure _

end Reads

/-- A write to a slot other than the bundle map. -/
theorem moves_modifyConnector {f : Connector → Connector} (hf : ∀ c, (f c).bundle = c.bundle) :
    Moves Untouched (modifyConnector f) :=
  moves_modify fun w ↦ ⟨rfl, rfl, hf w.connector⟩

namespace BridgeController

variable (crypto : Crypto) (contractAddress ownerAddress : AccountAddress)

theorem moves_initializeOnce : Moves Untouched (initializeOnce ownerAddress) :=
  moves_bind moves_connector fun _ ↦ moves_ite
    (moves_bind (moves_modifyConnector fun _ ↦ rfl) fun _ ↦ moves_modifyConnector fun _ ↦ rfl)
    (moves_pure _)

theorem moves_isOwner (a : AccountAddress) : Moves Untouched (isOwner a) := moves_read _

theorem moves_isNewOwner (a : AccountAddress) : Moves Untouched (isNewOwner a) := moves_read _

theorem moves_isRingLocked : Moves Untouched isRingLocked := moves_read _

theorem moves_isRingMember (a : AccountAddress) : Moves Untouched (isRingMember a) := moves_read _

/-- The owner's functions write slots other than the bundle map. -/
theorem moves_setNewOwner (caller newOwner : AccountAddress) :
    Moves Untouched (setNewOwner caller newOwner) :=
  moves_bind (moves_isOwner caller) fun _ ↦
    moves_ite (moves_throw _) (moves_modifyConnector fun _ ↦ rfl)

theorem moves_acceptOwnership (caller : AccountAddress) :
    Moves Untouched (acceptOwnership caller) :=
  moves_bind (moves_isNewOwner caller) fun _ ↦ moves_ite (moves_throw _)
    (moves_bind (moves_modifyConnector fun _ ↦ rfl) fun _ ↦ moves_modifyConnector fun _ ↦ rfl)

theorem moves_setRelayer (caller relayer : AccountAddress) :
    Moves Untouched (setRelayer caller relayer) :=
  moves_bind (moves_isOwner caller) fun _ ↦
    moves_ite (moves_throw _) (moves_modifyConnector fun _ ↦ rfl)

theorem moves_ringInitialize (caller : AccountAddress) (members : List AccountAddress) :
    Moves Untouched (ringInitialize caller members) :=
  moves_bind (moves_isOwner caller) fun _ ↦ moves_ite (moves_throw _) <|
    moves_bind moves_isRingLocked fun _ ↦ moves_ite (moves_throw _) <|
      moves_bind (moves_modifyConnector fun _ ↦ rfl) fun _ ↦
        moves_bind (moves_modifyConnector fun _ ↦ rfl) fun _ ↦
          moves_bind (moves_forM fun _ ↦ moves_modifyConnector fun _ ↦ rfl) fun _ ↦
            moves_modifyConnector fun _ ↦ rfl

/-- Adding and removing a member write the member's flag, the count and the threshold. -/
theorem moves_ringAddMember (caller address : AccountAddress) :
    Moves Untouched (ringAddMember caller address) :=
  moves_bind (moves_isOwner caller) fun _ ↦ moves_ite (moves_throw _) <|
    moves_bind moves_isRingLocked fun _ ↦ moves_ite (moves_throw _) <|
      moves_bind (moves_isRingMember address) fun _ ↦ moves_ite (moves_throw _) <|
        moves_bind moves_connector fun _ ↦
          moves_bind (moves_modifyConnector fun _ ↦ rfl) fun _ ↦
            moves_bind (moves_modifyConnector fun _ ↦ rfl) fun _ ↦
              moves_modifyConnector fun _ ↦ rfl

theorem moves_ringRemoveMember (caller address : AccountAddress) :
    Moves Untouched (ringRemoveMember caller address) :=
  moves_bind (moves_isOwner caller) fun _ ↦ moves_ite (moves_throw _) <|
    moves_bind moves_isRingLocked fun _ ↦ moves_ite (moves_throw _) <|
      moves_bind (moves_isRingMember address) fun _ ↦ moves_ite (moves_throw _) <|
        moves_bind moves_connector fun _ ↦
          moves_bind (moves_modifyConnector fun _ ↦ rfl) fun _ ↦
            moves_bind (moves_modifyConnector fun _ ↦ rfl) fun _ ↦
              moves_modifyConnector fun _ ↦ rfl


/-! ## Paying a bundle -/

/-- The signature loop only reads. -/
theorem moves_countSigned (hash : Vector UInt8 32) :
    ∀ (signed : Int32) (signatures : List Bytes),
      Moves (· = ·) (countSigned crypto hash signed signatures)
  | _, [] => moves_pure _
  | _, _ :: signatures => moves_bind (moves_ofOption _) fun _ ↦ moves_bind moves_connector
      fun _ ↦ moves_countSigned hash _ signatures

@[simp] theorem run_isRingLocked (w : BridgeWorld) :
    isRingLocked.run.run w = some (.ok w.connector.ringLocked, w) := rfl

@[simp] theorem run_isRelayer (caller : AccountAddress) (w : BridgeWorld) :
    (isRelayer caller).run.run w = some (.ok (w.connector.relayer == caller), w) := rfl

@[simp] theorem run_isWithSignatureBounds (n : Int32) (w : BridgeWorld) :
    (isWithSignatureBounds n).run.run w = some (.ok (decide (n ≥ w.connector.minThresh) &&
      decide (n ≤ w.connector.memberCount)), w) := rfl

@[simp] theorem run_bundleProcessed (hash : Vector UInt8 32) (w : BridgeWorld) :
    (bundleProcessed hash).run.run w = some (.ok (w.connector.bundle hash != zeroH256), w) := rfl

/-! The payments and `process_bundles` call the crates. -/

variable [BigIntBytes] {Buffer : Type} [ByteBufferApi Buffer]

/-- A payment moves balances and nonces and leaves the storage alone. -/
theorem moves_transfer (recipient : AccountAddress) (value : ℤ) :
    Moves SameStorage (transfer contractAddress recipient value) :=
  moves_bind (moves_ofOption _) fun _ ↦ moves_bind moves_get fun _ ↦
    moves_ite (moves_throw _) <| moves_bind (moves_modify fun _ ↦ rfl) fun _ ↦
      moves_bind (moves_modify fun _ ↦ rfl) fun _ ↦ moves_pure _

theorem moves_processTransfers :
    ∀ (transfers : List BridgeTransfer) (results : List ExecutionResult),
      Moves SameStorage (processTransfers contractAddress transfers results)
  | [], _ => moves_pure _
  | b :: transfers, _ => moves_ite (moves_throw _) <|
      moves_bind (moves_transfer contractAddress b.recipient b.txValue) fun _ ↦
        moves_bind (moves_pure _) fun _ ↦ moves_ite (moves_throw _) <|
          moves_processTransfers transfers _

/-- What `process_bundles` can do. It either leaves the balances, the nonces and the record of paid
bundles as they were, and then returns a success only for a bundle already recorded; or it found
the bundle's hash unrecorded, and a success records the calling transaction under it. -/
theorem processBundles_spec {caller transactionHash sourceBlockHash : Vector UInt8 32}
    {transfers : List BridgeTransfer} {signatures : List Bytes} {w w' : BridgeWorld}
    {r : Except ErrCode (List ExecutionResult)}
    (h : (processBundles crypto contractAddress caller transactionHash sourceBlockHash transfers
      signatures).run.run w = some (r, w')) :
    let hash := computeBundleHash crypto.blake2b sourceBlockHash transfers
    (Untouched w w' ∧ ∀ results, r = .ok results → w.connector.bundle hash ≠ zeroH256) ∨
      (w.connector.bundle hash = zeroH256 ∧ ∀ results, r = .ok results →
        w'.connector.bundle = Function.update w.connector.bundle hash transactionHash) := by
  intro hash
  -- a guard that throws leaves the world as it was
  have hguard : ∀ (e : ErrCode) (f : Unit → BridgeM (List ExecutionResult)),
      (throw e >>= f).run.run w = some (r, w') →
      (Untouched w w' ∧
        ∀ results, r = .ok results → w.connector.bundle hash ≠ zeroH256) := by
    intro e f hthrow
    rw [run_bind, run_throw] at hthrow
    cases hthrow
    exact ⟨Std.Refl.refl w, fun _ h ↦ by cases h⟩
  unfold processBundles at h
  rw [run_bind, run_isRingLocked, Option.bind_some] at h
  dsimp only at h
  split at h
  · exact .inl (hguard _ _ h)
  rw [run_bind, run_isRelayer, Option.bind_some] at h
  dsimp only at h
  split at h
  · exact .inl (hguard _ _ h)
  rw [run_bind, run_isWithSignatureBounds, Option.bind_some] at h
  dsimp only at h
  split at h
  · exact .inl (hguard _ _ h)
  rw [run_bind, run_bundleProcessed, Option.bind_some] at h
  dsimp only at h
  split at h
  case isTrue hprocessed =>
    rw [run_pure] at h
    cases h
    exact .inl ⟨Std.Refl.refl w, fun _ _ ↦ by simpa using hprocessed⟩
  case isFalse hfresh =>
  -- a fresh bundle: the signatures are counted, the transfers paid, and the hash recorded
  have hzero : w.connector.bundle hash = zeroH256 := by simpa using hfresh
  refine .inr ⟨hzero, fun results hr ↦ ?_⟩
  subst hr
  obtain ⟨⟨counted, w₁⟩, hcount, h⟩ := run_bind_eq_some h
  obtain rfl : w = w₁ := moves_countSigned crypto hash 0 signatures w _ hcount
  cases counted with
  | error e => cases h
  | ok signed =>
  dsimp only at h
  rw [run_bind, run_connector, Option.bind_some] at h
  dsimp only at h
  split at h
  · rw [run_bind, run_throw] at h
    cases h
  obtain ⟨⟨paid, w₂⟩, htransfers, h⟩ := run_bind_eq_some h
  have hstorage : SameStorage w w₂ :=
    moves_processTransfers contractAddress transfers [] w _ htransfers
  cases paid with
  | error e => cases h
  | ok paid =>
  simp only [setBundle, modifyConnector, run_bind, run_modify, Option.bind_some, run_pure] at h
  cases h
  show Function.update w₂.connector.bundle hash transactionHash = _
  rw [hstorage]

end BridgeController

end AionR
