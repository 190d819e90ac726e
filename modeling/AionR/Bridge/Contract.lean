import AionR.Bridge.Controller

/-!
# The token bridge contract

`TokenBridgeContract::execute` (`src/core/src/precompiled/atb/token_bridge_contract.rs`) reads the
function selector of a call, checks the sender, parses the arguments with the deserializer and
calls the controller, turning its `ErrCode` into a failure with a message. The executive runs it
as a builtin (`Executive::call`, `src/core/src/executor/fvm_exec.rs`): a call whose gas covers
the cost runs `execute`, and a result other than success reverts the world to the checkpoint
taken before the call.

## Selectors

`BridgeFuncSig::from_hash` looks the four bytes up in a table of Keccak-256 prefixes of the
functions' signatures; the table here holds the prefixes that the module's own test
(`verify_hash`) asserts.

## What is left out

The logs, as in the controller; the gas the contract charges is its constant cost.
-/

namespace AionR

/-- `BridgeFuncSig`. -/
inductive BridgeFuncSig where
  | changeOwner
  | acceptOwnership
  | initializeRing
  | addRingMember
  | removeRingMember
  | setRelayer
  | submitBundle
  | owner
  | newOwner
  | actionMap
  | ringMap
  | ringLocked
  | minThresh
  | memberCount
  | relayer
  deriving DecidableEq, Repr

namespace BridgeFuncSig

/-- The selectors of the functions. -/
def hashes : List (Bytes × BridgeFuncSig) :=
  [([0xa6, 0xf9, 0xda, 0xe1], .changeOwner), ([0x79, 0xba, 0x50, 0x97], .acceptOwnership),
    ([0x16, 0x64, 0x50, 0x0e], .initializeRing), ([0x06, 0xc8, 0xdc, 0xde], .addRingMember),
    ([0x67, 0xa3, 0x91, 0x4e], .removeRingMember), ([0x65, 0x48, 0xe9, 0xbc], .setRelayer),
    ([0x46, 0xd1, 0xcc, 0x29], .submitBundle), ([0x8d, 0xa5, 0xcb, 0x5b], .owner),
    ([0xd4, 0xee, 0x1d, 0x90], .newOwner), ([0x18, 0xed, 0x91, 0x2f], .actionMap),
    ([0xb2, 0x2f, 0xce, 0x40], .ringMap), ([0x1a, 0x28, 0x6d, 0x59], .ringLocked),
    ([0x6c, 0x44, 0xb2, 0x27], .minThresh), ([0x11, 0xae, 0xe3, 0x80], .memberCount),
    ([0x84, 0x06, 0xc0, 0x79], .relayer)]

/-- `from_hash`. -/
def fromHash (selector : Bytes) : Option BridgeFuncSig :=
  (hashes.find? (·.1 == selector)).map (·.2)

end BridgeFuncSig

/-- A step of the contract: it changes the world and may panic (`none`). -/
abbrev ContractM (α : Type) := StateT BridgeWorld Option α

namespace ContractM

/-- A panic. -/
def abort {α : Type} : ContractM α := StateT.lift none

/-- The value of an `Option` the source unwraps, or a panic. -/
def ofOption {α : Type} : Option α → ContractM α
  | some a => pure a
  | none => abort

/-- The value of a deserializer's computation, or its panic. -/
def ofChecked {α : Type} : Checked α → ContractM α
  | .ok a => pure a
  | .error _ => abort

end ContractM

open ContractM

/-- `H256::from(&[u8])`: 32 bytes; any other length panics. -/
def h256From (bytes : Bytes) : Option (Vector UInt8 32) :=
  if h : bytes.length = 32 then some ⟨bytes.toArray, by simpa using h⟩ else none

namespace TokenBridgeContract

/-- `succeed`. -/
def succeed (returnData : Bytes) : ExecutionResult :=
  { gasLeft := 0, statusCode := .success, returnData, exception := "" }

/-- `fail`. -/
def fail (errMsg : String) : ExecutionResult := ExecutionResult.failure errMsg

/-- A controller function's `Result`: success without data, or a failure with the arm's message.
The world keeps whatever the controller changed before an error. -/
def ofController {α : Type} (op : BridgeM α) (errMsg : String) : ContractM ExecutionResult := do
  match ← op.run with
  | .ok _ => return succeed []
  | .error _ => return fail errMsg

/-- The arms that take one address from the owner (`ChangeOwner`, `AddRingMember`,
`RemoveRingMember`, `SetRelayer`): check the sender, parse the address and call the controller,
each with its own messages. -/
def ownerAddressCall (op : AccountAddress → AccountAddress → BridgeM Unit)
    (senderMsg opMsg parseMsg : String) (owner sender : AccountAddress) (input : Bytes) :
    ContractM ExecutionResult := do
  if sender ≠ owner then return fail senderMsg
  match ← ofChecked (parseAddressFromCall input) with
  | some address => ofController (op sender (← ofOption (h256From address))) opMsg
  | none => return fail parseMsg

variable (crypto : Crypto) (contractAddress ownerAddress : AccountAddress)
  [BigIntBytes] {Buffer : Type} [ByteBufferApi Buffer]

/-- The `ChangeOwner` arm. -/
def changeOwner (owner sender : AccountAddress) (input : Bytes) : ContractM ExecutionResult :=
  ownerAddressCall BridgeController.setNewOwner "invalid sender" "set new owner failed."
    "parse address from call input failed." owner sender input

/-- The `AddRingMember` arm. -/
def addRingMember (owner sender : AccountAddress) (input : Bytes) : ContractM ExecutionResult :=
  ownerAddressCall BridgeController.ringAddMember "invalid sender" "ring add member failed."
    "failed to parse address from call input." owner sender input

/-- The `RemoveRingMember` arm. -/
def removeRingMember (owner sender : AccountAddress) (input : Bytes) :
    ContractM ExecutionResult :=
  ownerAddressCall BridgeController.ringRemoveMember "invalid sender." "remove ring member failed."
    "failed to parse address from calfailed to parse address from call." owner sender input

/-- The `SetRelayer` arm. -/
def setRelayer (owner sender : AccountAddress) (input : Bytes) : ContractM ExecutionResult :=
  ownerAddressCall BridgeController.setRelayer "invalid sender" "set relayer failed."
    "parse address from call failed." owner sender input

/-- The `InitializeRing` arm. -/
def initializeRing (owner sender : AccountAddress) (input : Bytes) : ContractM ExecutionResult := do
  if sender ≠ owner then return fail "invalid sender"
  match ← ofChecked (parseAddressList input) with
  | some addressList =>
    let members ← ofOption (addressList.mapM h256From)
    ofController (BridgeController.ringInitialize sender members) "initialize ring failed."
  | none => return fail "parse address list failed."

/-- The `SubmitBundle` arm: the relayer's bundle, paid by `process_bundles`. -/
def submitBundle (relayer sender txHash : AccountAddress) (input : Bytes) :
    ContractM ExecutionResult := do
  if sender ≠ relayer then return fail "invalid relayer"
  match ← ofChecked (parseBundleRequest input) with
  | some bundleRequests =>
    let sourceBlockHash ← ofOption (h256From bundleRequests.blockHash)
    ofController (BridgeController.processBundles crypto contractAddress sender txHash
      sourceBlockHash bundleRequests.bundles bundleRequests.signatures) "process bundle failed."
  | none => return fail "parse bundle request failed."

/-- The getters: the word a read-only function returns. -/
def getter (sig : BridgeFuncSig) (input : Bytes) : ContractM ExecutionResult := do
  let c := (← get).connector
  match sig with
  | .owner => return succeed (orDefaultDWord (some c.owner.toList))
  | .newOwner => return succeed (orDefaultDWord (some c.newOwner.toList))
  | .ringLocked => return succeed (orDefaultDWord (some (booleanToResultBytes c.ringLocked)))
  | .minThresh => return succeed (orDefaultDWord (intToResultBytes c.minThresh.toInt))
  | .memberCount => return succeed (orDefaultDWord (intToResultBytes c.memberCount.toInt))
  | .ringMap =>
    match ← ofChecked (parseAddressFromCall input) with
    | some address2 =>
      let key ← ofOption (h256From address2)
      return succeed (orDefaultDWord (some (booleanToResultBytes (c.activeMember key))))
    | none => return fail "address is empty"
  | .actionMap =>
    match ← ofChecked (parseDoubleWordFromCall input) with
    | some bundleHash =>
      let key ← ofOption (h256From bundleHash)
      return succeed (orDefaultDWord (some (c.bundle key).toList))
    | none => return fail "bundle_hash is empty"
  | _ => return succeed (orDefaultDWord (some c.relayer.toList))

/-- `execute`: initialize on the first call, then dispatch on the selector. -/
def execute (sender txHash : AccountAddress) (input : Bytes) : ContractM ExecutionResult := do
  let _ ← (BridgeController.initializeOnce ownerAddress).run
  -- the fallback: a call without data succeeds
  if input.length = 0 then return succeed []
  let owner := (← get).connector.owner
  let relayer := (← get).connector.relayer
  match getSignature input with
  | none => return fail "signature is none."
  | some signature =>
    match BridgeFuncSig.fromHash (signature.take 4) with
    | none => return fail "signature is invalid"
    | some .changeOwner => changeOwner owner sender input
    | some .acceptOwnership =>
      ofController (BridgeController.acceptOwnership sender) "accept ownership failed."
    | some .initializeRing => initializeRing owner sender input
    | some .addRingMember => addRingMember owner sender input
    | some .removeRingMember => removeRingMember owner sender input
    | some .setRelayer => setRelayer owner sender input
    | some .submitBundle => submitBundle crypto contractAddress relayer sender txHash input
    | some sig => getter sig input

end TokenBridgeContract

/-- A call of the bridge: its sender, the hash of its transaction, the gas it was given and its
data. -/
structure BridgeCall where
  sender : AccountAddress
  txHash : Vector UInt8 32
  gas : ℕ
  input : Bytes

/-- `cost`: every call of the bridge costs 21000 gas. -/
def bridgeCost : ℕ := 21000

/-- The builtin branch of `Executive::call` for the bridge: a call whose gas covers the cost runs
`execute`; a result other than success, or too little gas, reverts to the world before the call. -/
def bridgeStep [BigIntBytes] {Buffer : Type} [ByteBufferApi Buffer] (crypto : Crypto)
    (contractAddress ownerAddress : AccountAddress) (c : BridgeCall) (w : BridgeWorld) :
    Option (ExecutionResult × BridgeWorld) :=
  if bridgeCost ≤ c.gas then
    match (TokenBridgeContract.execute crypto contractAddress ownerAddress c.sender c.txHash
      c.input).run w with
    | some (result, w') =>
      if result.statusCode = .success then some ({ result with gasLeft := c.gas - bridgeCost }, w')
      else some (result, w)
    | none => none
  else some (ExecutionResult.failure "Not enough gas to execute precompiled contract.", w)

/-- A run of calls; `none` when one of them panics. -/
def bridgeRun [BigIntBytes] {Buffer : Type} [ByteBufferApi Buffer] (crypto : Crypto)
    (contractAddress ownerAddress : AccountAddress) : List BridgeCall → BridgeWorld → Option BridgeWorld
  | [], w => some w
  | c :: calls, w => do
    let (_, w') ← bridgeStep crypto contractAddress ownerAddress c w
    bridgeRun crypto contractAddress ownerAddress calls w'

end AionR

namespace AionR

open BridgeM ExceptState ContractM

/-! ## What a call changes -/

/-- The hash `process_bundles` computes for a call's bundle request, when the request parses. -/
def bundleHashOf [BigIntBytes] {Buffer : Type} [ByteBufferApi Buffer] (crypto : Crypto)
    (input : Bytes) : Option (Vector UInt8 32) :=
  match parseBundleRequest input with
  | .ok (some bundleRequests) => (h256From bundleRequests.blockHash).map fun sourceBlockHash ↦
      computeBundleHash crypto.blake2b sourceBlockHash bundleRequests.bundles
  | _ => none

/-- The bundle hash of a `SubmitBundle` call. -/
def submittedBundleHash [BigIntBytes] {Buffer : Type} [ByteBufferApi Buffer] (crypto : Crypto)
    (input : Bytes) : Option (Vector UInt8 32) :=
  match getSignature input with
  | some signature =>
    if BridgeFuncSig.fromHash (signature.take 4) = some .submitBundle then bundleHashOf crypto input
    else none
  | none => none

section Frames

variable {R : BridgeWorld → BridgeWorld → Prop} [IsPreorder BridgeWorld R]

theorem stateMoves_ofOption {α : Type} (o : Option α) : StateMoves R (ContractM.ofOption o) := by
  cases o with
  | some a => exact stateMoves_pure a
  | none => exact stateMoves_lift_none

theorem stateMoves_ofChecked {α : Type} (x : Checked α) : StateMoves R (ofChecked x) := by
  cases x with
  | ok a => exact stateMoves_pure a
  | error e => exact stateMoves_lift_none

namespace TokenBridgeContract

/-- A controller function run by an arm moves the world as the function does. -/
theorem stateMoves_ofController {α : Type} {op : BridgeM α} (hop : Moves R op) (errMsg : String) :
    StateMoves R (ofController op errMsg) :=
  stateMoves_bind hop.run fun r ↦ by
    cases r with
    | ok _ => exact stateMoves_pure _
    | error _ => exact stateMoves_pure _

theorem stateMoves_ownerAddressCall {op : AccountAddress → AccountAddress → BridgeM Unit}
    (hop : ∀ a b, Moves R (op a b)) (senderMsg opMsg parseMsg : String)
    (owner sender : AccountAddress) (input : Bytes) :
    StateMoves R (ownerAddressCall op senderMsg opMsg parseMsg owner sender input) :=
  stateMoves_ite (stateMoves_pure _) <| stateMoves_bind (stateMoves_ofChecked _) fun o ↦ by
    cases o with
    | some address =>
      exact stateMoves_bind (stateMoves_ofOption _) fun _ ↦ stateMoves_ofController (hop _ _) _
    | none => exact stateMoves_pure _

end TokenBridgeContract

end Frames

namespace TokenBridgeContract

variable (crypto : Crypto) (contractAddress ownerAddress : AccountAddress)

/-! The arms other than `SubmitBundle` leave the balances, the nonces and the paid bundles. -/

theorem moves_changeOwner (owner sender : AccountAddress) (input : Bytes) :
    StateMoves Untouched (changeOwner owner sender input) :=
  stateMoves_ownerAddressCall BridgeController.moves_setNewOwner _ _ _ owner sender input

theorem moves_addRingMember (owner sender : AccountAddress) (input : Bytes) :
    StateMoves Untouched (addRingMember owner sender input) :=
  stateMoves_ownerAddressCall BridgeController.moves_ringAddMember _ _ _ owner sender input

theorem moves_removeRingMember (owner sender : AccountAddress) (input : Bytes) :
    StateMoves Untouched (removeRingMember owner sender input) :=
  stateMoves_ownerAddressCall BridgeController.moves_ringRemoveMember _ _ _ owner sender input

theorem moves_setRelayer (owner sender : AccountAddress) (input : Bytes) :
    StateMoves Untouched (setRelayer owner sender input) :=
  stateMoves_ownerAddressCall BridgeController.moves_setRelayer _ _ _ owner sender input

theorem moves_initializeRing (owner sender : AccountAddress) (input : Bytes) :
    StateMoves Untouched (initializeRing owner sender input) :=
  stateMoves_ite (stateMoves_pure _) <| stateMoves_bind (stateMoves_ofChecked _) fun o ↦ by
    cases o with
    | some addressList =>
      exact stateMoves_bind (stateMoves_ofOption _) fun members ↦
        stateMoves_ofController (BridgeController.moves_ringInitialize sender members) _
    | none => exact stateMoves_pure _

/-! The getters, `SubmitBundle` and `execute` call the crates. -/

variable [BigIntBytes] {Buffer : Type} [ByteBufferApi Buffer]

theorem moves_getter (sig : BridgeFuncSig) (input : Bytes) :
    StateMoves Untouched (getter sig input) :=
  stateMoves_bind stateMoves_get fun _ ↦ by
    -- two getters parse a key from the call; the others return a slot
    cases sig
    case ringMap | actionMap =>
      exact stateMoves_bind (stateMoves_ofChecked _) fun o ↦ by
        cases o with
        | some _ => exact stateMoves_bind (stateMoves_ofOption _) fun _ ↦ stateMoves_pure _
        | none => exact stateMoves_pure _
    all_goals exact stateMoves_pure _

/-- What the `SubmitBundle` arm can do: leave the payments alone, succeeding only for a bundle
already recorded, or find its bundle unrecorded and, on success, record the call's transaction
under it. -/
theorem submitBundle_spec {relayer sender txHash : AccountAddress} {input : Bytes}
    {w w' : BridgeWorld} {r : ExecutionResult}
    (h : (submitBundle crypto contractAddress relayer sender txHash input).run w = some (r, w')) :
    (Untouched w w' ∧ (r.statusCode = .success → ∀ hash,
        bundleHashOf crypto input = some hash → w.connector.bundle hash ≠ zeroH256)) ∨
      (∃ hash, bundleHashOf crypto input = some hash ∧ w.connector.bundle hash = zeroH256 ∧
        (r.statusCode = .success →
          w'.connector.bundle = Function.update w.connector.bundle hash txHash)) := by
  -- a failure is returned without touching the world
  have hfail : ∀ msg, (pure (fail msg) : ContractM ExecutionResult).run w = some (r, w') →
      Untouched w w' ∧ (r.statusCode = .success → ∀ hash,
        bundleHashOf crypto input = some hash → w.connector.bundle hash ≠ zeroH256) := by
    intro msg hpure
    cases hpure
    exact ⟨Std.Refl.refl w, fun hs ↦ by cases hs⟩
  unfold submitBundle at h
  split at h
  · exact .inl (hfail _ h)
  rw [StateT.run_bind] at h
  cases hparse : parseBundleRequest input with
  | error e =>
    rw [hparse] at h
    cases h
  | ok result =>
  rw [hparse] at h
  cases result with
  | none => exact .inl (hfail _ h)
  | some bundleRequests =>
  change (some (some bundleRequests, w) >>= _) = _ at h
  rw [Option.bind_eq_bind, Option.bind_some] at h
  dsimp only at h
  cases hblock : h256From bundleRequests.blockHash with
  | none =>
    rw [hblock] at h
    cases h
  | some sourceBlockHash =>
  rw [hblock, StateT.run_bind] at h
  change (some (sourceBlockHash, w) >>= _) = _ at h
  rw [Option.bind_eq_bind, Option.bind_some] at h
  dsimp only at h
  have hhash : bundleHashOf crypto input =
      some (computeBundleHash crypto.blake2b sourceBlockHash bundleRequests.bundles) := by
    rw [bundleHashOf, hparse]
    simp only [hblock, Option.map_some]
  rw [ofController, StateT.run_bind] at h
  obtain ⟨⟨res, w₁⟩, hop, h⟩ := Option.bind_eq_some_iff.mp h
  -- the controller's error is a failure, its success a success without data
  have hstatus : r.statusCode = .success → ∃ results, res = .ok results := by
    cases res with
    | ok results => exact fun _ ↦ ⟨results, rfl⟩
    | error e =>
      cases h
      exact fun hs ↦ by cases hs
  have hworld : w' = w₁ := by
    cases res <;> (cases h; rfl)
  subst hworld
  rcases BridgeController.processBundles_spec crypto contractAddress hop with
    ⟨huntouched, hrecorded⟩ | ⟨hzero, hrecord⟩
  · refine .inl ⟨huntouched, fun hs hash hh ↦ ?_⟩
    obtain ⟨results, rfl⟩ := hstatus hs
    rw [hhash] at hh
    cases hh
    exact hrecorded results rfl
  · refine .inr ⟨_, hhash, hzero, fun hs ↦ ?_⟩
    obtain ⟨results, rfl⟩ := hstatus hs
    exact hrecord results rfl

/-- What a call of the bridge does to the payments: it leaves balances, nonces and paid bundles
alone, and succeeds with a bundle only if that bundle was paid before; or it submits a bundle
not yet paid and, when it succeeds, records it under the call's transaction hash. -/
theorem execute_spec {sender txHash : AccountAddress} {input : Bytes} {w w' : BridgeWorld}
    {r : ExecutionResult}
    (h : (execute crypto contractAddress ownerAddress sender txHash input).run w = some (r, w')) :
    (Untouched w w' ∧ (r.statusCode = .success → ∀ hash,
        submittedBundleHash crypto input = some hash → w.connector.bundle hash ≠ zeroH256)) ∨
      (∃ hash, submittedBundleHash crypto input = some hash ∧
        w.connector.bundle hash = zeroH256 ∧ (r.statusCode = .success →
          w'.connector.bundle = Function.update w.connector.bundle hash txHash)) := by
  unfold execute at h
  rw [StateT.run_bind] at h
  obtain ⟨⟨_, w₁⟩, hinit, h⟩ := Option.bind_eq_some_iff.mp h
  have hu₁ : Untouched w w₁ :=
    (BridgeController.moves_initializeOnce ownerAddress).run w _ hinit
  -- an arm other than `SubmitBundle` leaves the payments alone
  have hother : ∀ x : ContractM ExecutionResult, StateMoves Untouched x →
      x.run w₁ = some (r, w') → submittedBundleHash crypto input = none →
      Untouched w w' ∧ (r.statusCode = .success → ∀ hash,
        submittedBundleHash crypto input = some hash → w.connector.bundle hash ≠ zeroH256) := by
    intro x hx hrun hnone
    refine ⟨IsTrans.trans _ _ _ hu₁ (hx w₁ _ hrun), fun _ hash hh ↦ ?_⟩
    rw [hnone] at hh
    cases hh
  dsimp only at h
  split at h
  · refine .inl (hother _ (stateMoves_pure _) h ?_)
    rw [submittedBundleHash, getSignature, if_pos (by omega)]
  rw [StateT.run_bind] at h
  change (some (w₁, w₁) >>= _) = _ at h
  rw [Option.bind_eq_bind, Option.bind_some, StateT.run_bind] at h
  change (some (w₁, w₁) >>= _) = _ at h
  rw [Option.bind_eq_bind, Option.bind_some] at h
  dsimp only at h
  cases hsig : getSignature input with
  | none =>
    rw [hsig] at h
    exact .inl (hother _ (stateMoves_pure _) h (by rw [submittedBundleHash, hsig]))
  | some signature =>
  rw [hsig] at h
  dsimp only at h
  cases hsel : BridgeFuncSig.fromHash (signature.take 4) with
  | none =>
    rw [hsel] at h
    exact .inl (hother _ (stateMoves_pure _) h (by simp [submittedBundleHash, hsig, hsel]))
  | some sig =>
  rw [hsel] at h
  have hnone : sig ≠ .submitBundle → submittedBundleHash crypto input = none := fun hne ↦ by
    simp [submittedBundleHash, hsig, hsel, hne]
  cases sig
  case submitBundle =>
    have hsubmitted : submittedBundleHash crypto input = bundleHashOf crypto input := by
      simp [submittedBundleHash, hsig, hsel]
    -- the initialisation before the arm leaves the record of paid bundles as it was
    have hbundle : w₁.connector.bundle = w.connector.bundle := hu₁.2.2
    rcases submitBundle_spec crypto contractAddress h with
      ⟨hu, hrecorded⟩ | ⟨hash, hh, hzero, hrecord⟩
    · refine .inl ⟨IsTrans.trans _ _ _ hu₁ hu, fun hs hash hh ↦ ?_⟩
      rw [← hbundle]
      exact hrecorded hs hash (hsubmitted ▸ hh)
    · refine .inr ⟨hash, hsubmitted ▸ hh, hbundle ▸ hzero, fun hs ↦ ?_⟩
      rw [hrecord hs, hbundle]
  case changeOwner =>
    exact .inl (hother _ (moves_changeOwner _ _ _) h (hnone (by decide)))
  case acceptOwnership =>
    exact .inl (hother _ (stateMoves_ofController (BridgeController.moves_acceptOwnership _) _) h
      (hnone (by decide)))
  case initializeRing =>
    exact .inl (hother _ (moves_initializeRing _ _ _) h (hnone (by decide)))
  case addRingMember =>
    exact .inl (hother _ (moves_addRingMember _ _ _) h (hnone (by decide)))
  case removeRingMember =>
    exact .inl (hother _ (moves_removeRingMember _ _ _) h (hnone (by decide)))
  case setRelayer =>
    exact .inl (hother _ (moves_setRelayer _ _ _) h (hnone (by decide)))
  all_goals exact .inl (hother _ (moves_getter _ _) h (hnone (by decide)))

end TokenBridgeContract

section Step

variable (crypto : Crypto) (contractAddress ownerAddress : AccountAddress)
  [BigIntBytes] {Buffer : Type} [ByteBufferApi Buffer]

/-! A call as the executive makes it: a call that does not succeed is reverted. -/

/-- `execute_spec` for a call under the executive. -/
theorem bridgeStep_spec {c : BridgeCall} {w w' : BridgeWorld} {r : ExecutionResult}
    (h : bridgeStep crypto contractAddress ownerAddress c w = some (r, w')) :
    (Untouched w w' ∧ (r.statusCode = .success → ∀ hash,
        submittedBundleHash crypto c.input = some hash → w.connector.bundle hash ≠ zeroH256)) ∨
      (∃ hash, submittedBundleHash crypto c.input = some hash ∧
        w.connector.bundle hash = zeroH256 ∧ r.statusCode = .success ∧
          w'.connector.bundle = Function.update w.connector.bundle hash c.txHash) := by
  unfold bridgeStep at h
  split at h
  case isFalse =>
    cases h
    exact .inl ⟨Std.Refl.refl w, fun hs ↦ by cases hs⟩
  split at h
  case h_2 => cases h
  case h_1 result w₁ hexec =>
  split at h
  case isTrue hsuccess =>
    obtain ⟨rfl, rfl⟩ := Prod.mk.inj (Option.some.inj h)
    rcases TokenBridgeContract.execute_spec crypto contractAddress ownerAddress hexec with
      ⟨hu, hrecorded⟩ | ⟨hash, hh, hzero, hrecord⟩
    · exact .inl ⟨hu, fun _ ↦ hrecorded hsuccess⟩
    · exact .inr ⟨hash, hh, hzero, hsuccess, hrecord hsuccess⟩
  case isFalse hfailure =>
    cases h
    exact .inl ⟨Std.Refl.refl w, fun hs ↦ absurd hs hfailure⟩

/-- A call that does not succeed leaves the world as it found it. -/
theorem bridgeStep_failure {c : BridgeCall} {w w' : BridgeWorld} {r : ExecutionResult}
    (h : bridgeStep crypto contractAddress ownerAddress c w = some (r, w'))
    (hr : r.statusCode ≠ .success) : w' = w := by
  unfold bridgeStep at h
  split at h
  case isFalse => exact (Prod.mk.inj (Option.some.inj h)).2.symm
  split at h
  case h_2 => cases h
  case h_1 result w₁ hexec =>
  split at h
  case isTrue hsuccess =>
    obtain ⟨rfl, rfl⟩ := Prod.mk.inj (Option.some.inj h)
    exact absurd hsuccess hr
  case isFalse => exact (Prod.mk.inj (Option.some.inj h)).2.symm

/-- A bundle recorded as paid stays recorded, under the same transaction, after any call. -/
theorem bridgeStep_keeps_recorded {c : BridgeCall} {w w' : BridgeWorld} {r : ExecutionResult}
    (h : bridgeStep crypto contractAddress ownerAddress c w = some (r, w'))
    {hash : Vector UInt8 32} (hrec : w.connector.bundle hash ≠ zeroH256) :
    w'.connector.bundle hash = w.connector.bundle hash := by
  rcases bridgeStep_spec crypto contractAddress ownerAddress h with
    ⟨hu, -⟩ | ⟨hash', -, hzero, -, hrecord⟩
  · rw [hu.2.2]
  · have hne : hash ≠ hash' := fun heq ↦ hrec (heq ▸ hzero)
    rw [hrecord, Function.update_of_ne hne]

/-- ... and after any run of calls. -/
theorem bridgeRun_keeps_recorded :
    ∀ {calls : List BridgeCall} {w w' : BridgeWorld},
      bridgeRun crypto contractAddress ownerAddress calls w = some w' →
      ∀ {hash : Vector UInt8 32}, w.connector.bundle hash ≠ zeroH256 →
        w'.connector.bundle hash = w.connector.bundle hash
  | [], w, w', h, _, _ => by
    cases h
    rfl
  | c :: calls, w, w', h, hash, hrec => by
    obtain ⟨⟨r, w₁⟩, hstep, hrun⟩ := Option.bind_eq_some_iff.mp h
    have h₁ := bridgeStep_keeps_recorded crypto contractAddress ownerAddress hstep hrec
    rw [bridgeRun_keeps_recorded hrun (h₁ ▸ hrec), h₁]

/-- A successful payment under a non-zero transaction hash records its bundle as paid. -/
theorem bridgeStep_records {c : BridgeCall} {w w' : BridgeWorld} {r : ExecutionResult}
    (h : bridgeStep crypto contractAddress ownerAddress c w = some (r, w'))
    {hash : Vector UInt8 32} (hh : submittedBundleHash crypto c.input = some hash)
    (hs : r.statusCode = .success) (htx : c.txHash ≠ zeroH256) :
    w'.connector.bundle hash ≠ zeroH256 := by
  rcases bridgeStep_spec crypto contractAddress ownerAddress h with
    ⟨hu, hrecorded⟩ | ⟨hash', hh', -, -, hrecord⟩
  · rw [hu.2.2]
    exact hrecorded hs hash hh
  · obtain rfl : hash = hash' := Option.some.inj (hh.symm.trans hh')
    rwa [hrecord, Function.update_self]

/-- A call that submits a bundle already recorded as paid moves no balance and no nonce. -/
theorem bridgeStep_of_recorded {c : BridgeCall} {w w' : BridgeWorld} {r : ExecutionResult}
    (h : bridgeStep crypto contractAddress ownerAddress c w = some (r, w'))
    {hash : Vector UInt8 32} (hh : submittedBundleHash crypto c.input = some hash)
    (hrec : w.connector.bundle hash ≠ zeroH256) :
    w'.balance = w.balance ∧ w'.nonce = w.nonce := by
  rcases bridgeStep_spec crypto contractAddress ownerAddress h with
    ⟨hu, -⟩ | ⟨hash', hh', hzero, -, -⟩
  · exact ⟨hu.1, hu.2.1⟩
  · obtain rfl : hash = hash' := Option.some.inj (hh.symm.trans hh')
    exact absurd hzero hrec

/-- Only a successful submission of a bundle not yet paid moves balances or nonces, and it
records the bundle under its transaction. -/
theorem bridgeStep_pays_fresh {c : BridgeCall} {w w' : BridgeWorld} {r : ExecutionResult}
    (h : bridgeStep crypto contractAddress ownerAddress c w = some (r, w'))
    (hpaid : w'.balance ≠ w.balance ∨ w'.nonce ≠ w.nonce) :
    ∃ hash, submittedBundleHash crypto c.input = some hash ∧
      w.connector.bundle hash = zeroH256 ∧ r.statusCode = .success ∧
      w'.connector.bundle hash = c.txHash := by
  rcases bridgeStep_spec crypto contractAddress ownerAddress h with
    ⟨hu, -⟩ | ⟨hash, hh, hzero, hs, hrecord⟩
  · exact hpaid.elim (absurd hu.1) (absurd hu.2.1)
  · exact ⟨hash, hh, hzero, hs, by rw [hrecord, Function.update_self]⟩

theorem bridgeRun_pays_bundle_once :
    (∀ (c : BridgeCall) (w w' : BridgeWorld) (r : ExecutionResult),
      bridgeStep crypto contractAddress ownerAddress c w = some (r, w') →
        r.statusCode ≠ .success → w' = w) ∧
    ∀ (c : BridgeCall) (hash : Vector UInt8 32) (w w' : BridgeWorld) (r : ExecutionResult),
      bridgeStep crypto contractAddress ownerAddress c w = some (r, w') →
      submittedBundleHash crypto c.input = some hash → r.statusCode = .success →
      c.txHash ≠ zeroH256 →
      ∀ (calls : List BridgeCall) (c' : BridgeCall) (w₁ w₂ : BridgeWorld) (r' : ExecutionResult),
        bridgeRun crypto contractAddress ownerAddress calls w' = some w₁ →
        bridgeStep crypto contractAddress ownerAddress c' w₁ = some (r', w₂) →
        submittedBundleHash crypto c'.input = some hash →
        w₂.balance = w₁.balance ∧ w₂.nonce = w₁.nonce := by
  refine ⟨fun c w w' r h hr ↦ bridgeStep_failure crypto contractAddress ownerAddress h hr,
    fun c hash w w' r h hh hs htx calls c' w₁ w₂ r' hrun h' hh' ↦ ?_⟩
  -- the paying call records the bundle, and no later call clears the record
  have hrec : w'.connector.bundle hash ≠ zeroH256 :=
    bridgeStep_records crypto contractAddress ownerAddress h hh hs htx
  have hrec₁ : w₁.connector.bundle hash ≠ zeroH256 := by
    rw [bridgeRun_keeps_recorded crypto contractAddress ownerAddress hrun hrec]
    exact hrec
  exact bridgeStep_of_recorded crypto contractAddress ownerAddress h' hh' hrec₁

end Step

end AionR

namespace AionR

/-! ## A run with one signer

The runs use the implementations of the crates. -/

attribute [local instance] bigIntBytes byteBufferCrate

/-- The call data of a function with the selector, the fixed arguments `head` and the dynamic
lists after them: one meta word per list with the list's position (counted after the selector),
then each list as its length word and its elements. -/
def abiCall (selector head : Bytes) (lists : List (List Bytes)) : Bytes :=
  let bodies := lists.map fun l ↦ toBigEndian 16 l.length ++ l.flatten
  let positions := bodies.foldl (fun ps b ↦ ps ++ [ps.getLast?.getD 0 + b.length])
    [head.length + 16 * lists.length]
  selector ++ head ++ (positions.take lists.length).flatMap (toBigEndian 16) ++ bodies.flatten

/-- A signature scheme for the runs below: Blake2b is the first 32 bytes of its input, and a
signature of a message under a key is the key followed by the message. -/
def traceCrypto : Crypto where
  blake2b bytes := Vector.ofFn fun i ↦ bytes.getD i 0
  verify publicKey message signature := signature == publicKey.toList ++ message.toList

/-- A user address `0xa0 b b … b`, which is also its own Ed25519 public key under
`traceCrypto`. -/
def traceKey (b : UInt8) : Vector UInt8 32 := Vector.ofFn fun i ↦ if i.val = 0 then 0xa0 else b

/-- The bridge of the runs: contract `0x00…02`, configured owner `0xa0 01…`. -/
def traceContract : AccountAddress := Vector.replicate 32 2

def traceOwner : AccountAddress := traceKey 1

/-- An uninitialised bridge holding 10 of the currency. -/
def traceWorld : BridgeWorld where
  connector := Connector.empty
  balance a := if a = traceContract then 10 else 0
  nonce _ := 0

/-- The owner names the ring `0xa0 11…`, `0xa0 22…`, `0xa0 33…` and the relayer
`0xa0 05…`. -/
def ringSetup : List BridgeCall :=
  [{ sender := traceOwner, txHash := Vector.replicate 32 1, gas := bridgeCost,
      input := abiCall [0x16, 0x64, 0x50, 0x0e] []
        [[(traceKey 0x11).toList, (traceKey 0x22).toList, (traceKey 0x33).toList]] },
    { sender := traceOwner, txHash := Vector.replicate 32 2, gas := bridgeCost,
      input := [0x65, 0x48, 0xe9, 0xbc] ++ (traceKey 5).toList }]

/-- The relayer submits a bundle of one transfer of 1 to `0xa0 77…`, with block hash `0x09…`
and the given signatures. -/
def traceSubmit (signatures : List Bytes) : BridgeCall where
  sender := traceKey 5
  txHash := Vector.replicate 32 3
  gas := bridgeCost
  input := abiCall [0x46, 0xd1, 0xcc, 0x29] (List.replicate 32 9)
    [[List.replicate 32 4], [(traceKey 0x77).toList], [toBigEndian 16 1],
      signatures.map (·.take 32), signatures.map fun s ↦ (s.drop 32).take 32,
      signatures.map (·.drop 64)]

/-- The signature by the key `0xa0 b…` of the bundle hash of `traceSubmit`, which is its block
hash under `traceCrypto`. -/
def traceSignature (b : UInt8) : Bytes :=
  (traceKey b).toList ++ (traceKey b).toList ++ List.replicate 32 9

theorem submitBundle_counts_one_signer_twice :
    ((bridgeRun traceCrypto traceContract traceOwner ringSetup traceWorld).bind
      (bridgeStep traceCrypto traceContract traceOwner
        (traceSubmit [traceSignature 0x11, traceSignature 0x44]))).map
        (fun p ↦ (p.1.statusCode, p.2.balance (traceKey 0x77), p.2.connector.minThresh)) =
      some (.failure, 0, 2) ∧
    ((bridgeRun traceCrypto traceContract traceOwner ringSetup traceWorld).bind
      (bridgeStep traceCrypto traceContract traceOwner
        (traceSubmit [traceSignature 0x11, traceSignature 0x11]))).map
        (fun p ↦ (p.1.statusCode, p.2.balance (traceKey 0x77), p.2.connector.minThresh)) =
      some (.success, 1, 2) := by
  decide +kernel

/-! ## A bundle paid twice -/

/-- A payment of 1 to `0xa0 77…` signed by two of the three members, under the transaction
hash `0x03…`. -/
def tracePayment : BridgeCall := traceSubmit [traceSignature 0x11, traceSignature 0x22]

/-- The bridge after `ringSetup`. -/
def ringWorld : BridgeWorld :=
  (bridgeRun traceCrypto traceContract traceOwner ringSetup traceWorld).getD traceWorld

/-- A call made in the runs: what it returns and the world it leaves. -/
def traceStep (c : BridgeCall) (w : BridgeWorld) : ExecutionResult × BridgeWorld :=
  (bridgeStep traceCrypto traceContract traceOwner c w).getD (.failure "", w)

theorem bridgeStep_eq_traceStep {c : BridgeCall} {w : BridgeWorld}
    (h : (bridgeStep traceCrypto traceContract traceOwner c w).isSome) :
    bridgeStep traceCrypto traceContract traceOwner c w =
      some ((traceStep c w).1, (traceStep c w).2) :=
  (Option.getD_of_ne_none (Option.ne_none_iff_isSome.mpr h) _).symm

/-- `set_bundle` under a zero transaction hash records nothing: the payment records its bundle
under its own transaction hash, which `bundle_processed` reads as unpaid, and the same payment
made again pays again. -/
theorem bridgeRun_pays_zero_txHash_twice :
    (traceStep { tracePayment with txHash := zeroH256 } ringWorld).2.connector.bundle
        (Vector.replicate 32 9) = zeroH256 ∧
      (bridgeRun traceCrypto traceContract traceOwner
        (ringSetup ++ [{ tracePayment with txHash := zeroH256 },
          { tracePayment with txHash := zeroH256 }]) traceWorld).map
        (fun w ↦ w.balance (traceKey 0x77)) = some 2 := by
  -- the payment moves a balance, so it is a fresh payment that records its transaction hash
  have hpaid : (traceStep { tracePayment with txHash := zeroH256 } ringWorld).2.balance ≠
      ringWorld.balance := fun heq ↦ absurd (congrFun heq (traceKey 0x77)) (by decide +kernel)
  obtain ⟨hash, hh, -, -, hrecord⟩ := bridgeStep_pays_fresh traceCrypto traceContract traceOwner
    (bridgeStep_eq_traceStep (by decide +kernel)) (.inl hpaid)
  have hhash : hash = Vector.replicate 32 9 := Option.some.inj (hh.symm.trans
    (by decide +kernel : submittedBundleHash traceCrypto tracePayment.input =
      some (Vector.replicate 32 9)))
  subst hhash
  exact ⟨hrecord, by decide +kernel⟩

theorem tracePayment_replay_pays_nothing :
    (traceStep tracePayment ringWorld).1.statusCode = .success ∧
      (traceStep tracePayment ringWorld).2.balance (traceKey 0x77) = 1 ∧
      (traceStep tracePayment (traceStep tracePayment ringWorld).2).2.balance =
        (traceStep tracePayment ringWorld).2.balance ∧
      (traceStep tracePayment (traceStep tracePayment ringWorld).2).2.nonce =
        (traceStep tracePayment ringWorld).2.nonce := by
  have hs : (traceStep tracePayment ringWorld).1.statusCode = .success := by decide +kernel
  refine ⟨hs, by decide +kernel, ?_⟩
  exact (bridgeRun_pays_bundle_once traceCrypto traceContract traceOwner).2 tracePayment
    (Vector.replicate 32 9) ringWorld (traceStep tracePayment ringWorld).2
    (traceStep tracePayment ringWorld).1 (bridgeStep_eq_traceStep (by decide +kernel))
    (by decide +kernel) hs (by decide +kernel) [] tracePayment (traceStep tracePayment ringWorld).2
    (traceStep tracePayment (traceStep tracePayment ringWorld).2).2
    (traceStep tracePayment (traceStep tracePayment ringWorld).2).1 rfl
    (bridgeStep_eq_traceStep (by decide +kernel)) (by decide +kernel)

end AionR
