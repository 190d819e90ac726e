import AionR.State.Machine
import AionR.Transaction

/-!
# Executing a transaction on the FastVM

`Executive` (`src/core/src/executor/fvm_exec.rs`): `transact` checks a transaction against the
state, takes a checkpoint, charges the sender the nonce and the whole gas limit, runs the call or
the creation, and `finalize` refunds the gas left, pays the block author and performs the
suicides. `call` and `create` take a checkpoint of their own, which `enact_result` discards when
the code succeeded and reverts otherwise.

## The VM and the builtins

The FastVM and the precompiled contracts are parameters: each is any function from its
parameters and the state to a result, a new state and a substate. Whatever they do to the state,
nested calls included, is theirs.

## What is left out

The AVM fields of `ActionParams` and `ExecutionResult` (state root, invokable hashes, the
transaction hashes), the call type and the static flag, which only the VM reads; the code hash
the parameters carry, whose lookup is kept but whose value only the VM reads; the set of touched
accounts, written through `CleanupMode::TrackTouched` and never read; the thread that runs a VM
at the depth threshold, which runs the same code; and the VM lock.
-/

namespace AionR

/-- An account address (`Address = H256`). -/
abbrev AccountAddress := Vector UInt8 32

/-- `GAS_CREATE_MIN`. -/
def gasCreateMin : ℕ := 200000

/-- `GAS_CREATE_MAX`. -/
def gasCreateMax : ℕ := 5000000

/-- `GAS_TX_DATA_ZERO`. -/
def gasTxDataZero : ℕ := 4

/-- `GAS_TX_DATA_NONZERO`. -/
def gasTxDataNonzero : ℕ := 64

/-- `GAS_CALL_MIN`. -/
def gasCallMin : ℕ := 21000

/-- `GAS_CALL_MAX`. -/
def gasCallMax : ℕ := 2000000

namespace Transaction

/-- `gas_required_before_unity`. -/
def gasRequiredBeforeUnity (t : Transaction) : ℕ :=
  match t.action with
  | .create => gasCreateMin
  | .call _ => gasCallMin

/-- `gas_required`: the base cost of the action and a cost for each byte of data. -/
def gasRequired (t : Transaction) : ℕ :=
  t.data.foldl (fun g b ↦ g + if b = 0 then gasTxDataZero else gasTxDataNonzero)
    ((match t.action with
      | .create => gasCreateMin
      | .call _ => 0) + gasCallMin)

end Transaction

/-- `contract_address`: the Blake2b hash of the RLP list of sender and nonce, with its first byte
replaced by `0xa0`. -/
def contractAddress (blake2b : Bytes → Vector UInt8 32) (sender : AccountAddress) (nonce : ℕ) :
    AccountAddress :=
  let origin := blake2b (RlpItem.list [.ofHash sender, .ofU256 nonce]).encode
  Vector.ofFn fun i ↦ if i.val = 0 then 0xa0 else origin.get i

/-- `ExecStatus`. -/
inductive ExecStatus where
  | success
  | outOfGas
  | revert
  | failure
  | rejected
  | fatal
  deriving DecidableEq, Repr

/-- `ExecutionResult` of the FastVM. -/
structure ExecutionResult where
  gasLeft : ℕ
  statusCode : ExecStatus
  returnData : Bytes
  exception : String
  deriving DecidableEq, Repr

/-- The result of an early `Failure` return, with its message. -/
def ExecutionResult.failure (exception : String) : ExecutionResult :=
  { gasLeft := 0, statusCode := .failure, returnData := [], exception }

/-- `ActionValue`. -/
inductive ActionValue where
  | transfer (value : ℕ)
  | apparent (value : ℕ)
  deriving DecidableEq, Repr

/-- `ActionParams`, with the fields `call` and `create` read. -/
structure ActionParams where
  codeAddress : AccountAddress
  address : AccountAddress
  sender : AccountAddress
  gas : ℕ
  gasPrice : ℕ
  value : ActionValue
  code : Option Bytes
  data : Option Bytes
  deriving DecidableEq, Repr

/-- `LogEntry`. -/
structure LogEntry where
  address : AccountAddress
  topics : List (Vector UInt8 32)
  data : Bytes
  deriving DecidableEq, Repr

/-- `Substate`, without the touched accounts. -/
structure Substate where
  suicides : List AccountAddress
  logs : List LogEntry
  sstoreClearsCount : ℕ
  contractsCreated : List AccountAddress
  deriving DecidableEq, Repr

namespace Substate

/-- `Substate::new`. -/
def new : Substate := { suicides := [], logs := [], sstoreClearsCount := 0, contractsCreated := [] }

/-- `accrue`: the suicides are a set. -/
def accrue (s t : Substate) : Substate :=
  { suicides := t.suicides.foldl (fun acc a ↦ acc.insert a) s.suicides
    logs := s.logs ++ t.logs
    sstoreClearsCount := s.sstoreClearsCount + t.sstoreClearsCount
    contractsCreated := s.contractsCreated ++ t.contractsCreated }

end Substate

/-- `ExecutionError`. A trie error becomes `Internal` with its message; here it keeps the error. -/
inductive ExecutionError where
  | notEnoughBaseGas (required got : ℕ)
  | exceedMaxGasLimit (max got : ℕ)
  | blockGasLimitReached (gasLimit gasUsed gas : ℕ)
  | invalidNonce (expected got : ℕ)
  | notEnoughCash (required got : ℕ)
  | internal (e : TrieError)
  deriving DecidableEq, Repr

/-- `Executed`, with the fields `finalize` fills from the execution. -/
structure Executed where
  exception : String
  gas : ℕ
  gasUsed : ℕ
  refunded : ℕ
  cumulativeGasUsed : ℕ
  logs : List LogEntry
  contractsCreated : List AccountAddress
  output : Bytes
  transactionFee : ℕ
  deriving DecidableEq, Repr

/-- `EnvInfo`. -/
structure EnvInfo where
  number : ℕ
  author : AccountAddress
  gasUsed : ℕ
  gasLimit : ℕ

/-- An execution step of the executive: it changes the state; `none` is a panic. -/
abbrev ExecM (β : Type) := StateT (State AccountAddress) Option β

/-- A precompiled contract. -/
structure Builtin where
  cost : Bytes → ℕ
  isActive : ℕ → Bool
  /-- `execute`, given the sender and the address, over the state and an unconfirmed substate. -/
  execute : AccountAddress → AccountAddress → Bytes → Substate → ExecM (ExecutionResult × Substate)

/-- The parts of `EthereumMachine` the executive reads. -/
structure Machine where
  builtin : AccountAddress → ℕ → Option Builtin
  unityUpdate : Option ℕ
  monetaryPolicyUpdate : Option ℕ

/-- The FastVM: `exec_vm` at a depth, over the state and an unconfirmed substate. -/
abbrev Vm := ℕ → ActionParams → Substate → ExecM (ExecutionResult × Substate)

/-- A panic of the executive. -/
def ExecM.abort {β : Type} : ExecM β := StateT.lift none

/-- A state operation whose `Err` becomes an `ExecutionError`, as `?` converts it. -/
def liftTrie {β : Type} (op : StateOp AccountAddress β) : ExceptT ExecutionError ExecM β :=
  ExceptT.adapt ExecutionError.internal op

namespace Executive

variable (vm : Vm) (machine : Machine) (info : EnvInfo) (depth : ℕ)

/-- `enact_result`: keep the changes of a success, revert all others. -/
def enactResult (result : ExecutionResult) (substate unSubstate : Substate) : ExecM Substate :=
  if result.statusCode = .success then do
    modify State.discardCheckpoint
    pure (substate.accrue unSubstate)
  else do
    modify State.revertToCheckpoint
    pure substate

/-- The builtin branch of `call`: create the builtin's account if it does not exist, then run it
if the gas covers its cost. -/
def callBuiltin (builtin : Builtin) (params : ActionParams) (substate : Substate) :
    ExecM (ExecutionResult × Substate) := do
  -- `exists(..).is_ok() && !exists(..).unwrap()`
  if (← (State.exists params.codeAddress).run).toBool then
    match ← (State.exists params.codeAddress).run with
    | .ok e => if !e then modify fun s ↦ s.newContract params.codeAddress 0 0
    | .error _ => ExecM.abort
  if !builtin.isActive info.number then ExecM.abort
  let data := params.data.getD []
  let cost := builtin.cost data
  if cost ≤ params.gas then
    let (result, unSubstate) ← builtin.execute params.sender params.address data Substate.new
    if result.statusCode = .success then
      let result := { result with gasLeft := params.gas - cost }
      let substate ← enactResult result substate unSubstate
      pure (result, substate)
    else
      modify State.revertToCheckpoint
      pure (result, substate)
  else
    modify State.revertToCheckpoint
    pure (ExecutionResult.failure "Not enough gas to execute precompiled contract.", substate)

/-- `call`. -/
def call (params : ActionParams) (substate : Substate) : ExecM (ExecutionResult × Substate) := do
  modify State.checkpoint
  -- a nested call moves the value first, and fails without touching the checkpoint
  if depth ≥ 1 then
    if let .transfer val := params.value then
      if let .error _ ← (State.transferBalance params.sender params.address val (.trackTouched [])).run then
        return (ExecutionResult.failure "Error in balance transfer", substate)
  let (res, substate) ←
    match machine.builtin params.codeAddress info.number with
    | some builtin => callBuiltin info builtin params substate
    | none =>
      if params.code.isSome then do
        let (result, unSubstate) ← vm depth params Substate.new
        let substate ← enactResult result substate unSubstate
        pure (result, substate)
      else do
        modify State.discardCheckpoint
        pure ({ gasLeft := params.gas, statusCode := .success, returnData := [], exception := "" },
          substate)
  -- the transaction's own call moves the value after the code succeeded
  if depth = 0 ∧ res.statusCode = .success then
    if let .transfer val := params.value then
      if let .error _ ← (State.transferBalance params.sender params.address val (.trackTouched [])).run then
        return (ExecutionResult.failure "Error in balance transfer", substate)
  pure (res, substate)

/-- `create`. -/
def create (params : ActionParams) (substate : Substate) : ExecM (ExecutionResult × Substate) := do
  -- an address in use can take a contract only if it has no code, nonce or storage (AKI-83)
  if ((← (State.existsAndNotEmpty params.address).run).toOption.getD true) then
    let code := (← (State.code params.address).run).toOption.getD none
    let nonce := (← (State.nonce params.address).run).toOption.getD 0
    let hasStorage := (← (State.hasStorage params.address).run).toOption.getD false
    let aion040Fork := machine.monetaryPolicyUpdate.any fun v ↦ info.number ≥ v
    if !aion040Fork || code.isSome || nonce ≠ 0 || hasStorage then
      return (ExecutionResult.failure
        "Contract creation address already exists, or checking contract existance failed.", substate)
  modify State.checkpoint
  let nonceOffset := (← (State.nonce params.address).run).toOption.getD 0
  let prevBal := (← (State.balance params.address).run).toOption.getD 0
  match params.value with
  | .transfer val =>
    -- a failed transfer returns without touching the checkpoint
    if let .error _ ← (State.subBalance params.sender val (.trackTouched [])).run then
      return (ExecutionResult.failure "Error in balance transfer", substate)
    modify fun s ↦ s.newContract params.address (val + prevBal) nonceOffset
  | .apparent _ => modify fun s ↦ s.newContract params.address prevBal nonceOffset
  let (res, unSubstate) ← vm depth params Substate.new
  let substate ← enactResult res substate unSubstate
  pure (res, substate)

/-- `finalize`: refund the gas left to the sender and pay the rest to the author, unless the block
cannot take the gas used. -/
def finalize (t : Transaction) (sender : AccountAddress) (substate : Substate) (result : ExecutionResult) :
    ExceptT ExecutionError ExecM Executed := do
  let gasLeft :=
    match result.statusCode with
    | .success | .revert => result.gasLeft
    | _ => 0
  -- `t.gas - gas_left` is a `U256` subtraction, which panics below zero
  if gasLeft > t.gas then ExceptT.lift ExecM.abort
  let rejected := t.gas - gasLeft + info.gasUsed > info.gasLimit
  if rejected then
    modify State.revertToCheckpoint
    throw (.blockGasLimitReached info.gasLimit (info.gasUsed + t.gas - gasLeft) t.gas)
  let gasUsed := t.gas - gasLeft
  let refundValue := gasLeft * t.gasPrice
  let feesValue := gasUsed * t.gasPrice
  let _ ← liftTrie (State.addBalance sender refundValue .noEmpty)
  let _ ← liftTrie (State.addBalance info.author feesValue (.trackTouched []))
  for address in substate.suicides do
    modify fun s ↦ s.killAccount address
  modify State.discardCheckpoint
  pure
    { exception := result.exception
      gas := t.gas
      gasUsed
      refunded := gasLeft
      cumulativeGasUsed := info.gasUsed + gasUsed
      logs := substate.logs
      contractsCreated := substate.contractsCreated
      output := result.returnData
      transactionFee := feesValue }

/-- `transact`, for the transaction `t` signed by `sender`. -/
def transact (blake2b : Bytes → Vector UInt8 32) (t : Transaction) (sender : AccountAddress)
    (checkNonce isLocalCall isBuildingBlock : Bool) : ExceptT ExecutionError ExecM Executed := do
  let nonce ← liftTrie (State.nonce sender)
  -- 1. the nonce
  if checkNonce ∧ t.nonce ≠ nonce then throw (.invalidNonce nonce t.nonce)
  -- 2. the gas limit
  let baseGasRequired := t.gasRequired
  let gasRequiredAgainstRejection :=
    match machine.unityUpdate with
    | some forkNumber => if info.number > forkNumber then t.gasRequired else t.gasRequiredBeforeUnity
    | none => t.gasRequiredBeforeUnity
  if t.gas < gasRequiredAgainstRejection then
    throw (.notEnoughBaseGas gasRequiredAgainstRejection t.gas)
  let maxGasLimit :=
    match t.action with
    | .create => gasCreateMax
    | .call _ => gasCallMax
  if !isLocalCall ∧ t.gas > maxGasLimit then throw (.exceedMaxGasLimit maxGasLimit t.gas)
  if isBuildingBlock ∧ info.gasUsed + t.gas > info.gasLimit then
    throw (.blockGasLimitReached info.gasLimit info.gasUsed t.gas)
  -- 3. the balance
  let balance ← liftTrie (State.balance sender)
  let gasCost := t.gas * t.gasPrice
  let totalCost := t.value + gasCost
  if balance < totalCost then throw (.notEnoughCash totalCost balance)
  let initGas := if t.gas < baseGasRequired then 0 else t.gas - baseGasRequired
  -- the transaction's checkpoint, which `finalize` discards or reverts
  modify State.checkpoint
  liftTrie (State.incNonce sender)
  let _ ← liftTrie (State.subBalance sender gasCost (.trackTouched []))
  let (result, substate) ←
    match t.action with
    | .create =>
      let newAddress := contractAddress blake2b sender nonce
      ExceptT.lift <| create vm machine info depth
        { codeAddress := newAddress, address := newAddress, sender, gas := initGas,
          gasPrice := t.gasPrice, value := .transfer t.value, code := some t.data, data := none }
        Substate.new
    | .call address => do
      let code ← liftTrie (State.code address)
      -- `code_hash`: its lookup, whose value only the VM reads
      let _ ← liftTrie (State.ensureCached address true fun _ ↦ ())
      ExceptT.lift <| call vm machine info depth
        { codeAddress := address, address, sender, gas := initGas, gasPrice := t.gasPrice,
          value := .transfer t.value, code, data := some t.data }
        Substate.new
  finalize info t sender substate result

end Executive

/-! ## An error after the transaction's checkpoint

`transact` takes its checkpoint before `inc_nonce(..)?`, `sub_balance(..)?` and, for a call,
`code(..)?`, and only `finalize` discards or reverts it. When one of those returns `Err`, `?`
returns it with the checkpoint still on the stack and the nonce and gas charge still applied. It
happens when the state root is missing from the database and the recipient is not cached: the
sender below is in the shared cache, so every check before the checkpoint passes, and the first
trie read is the recipient's code. -/

/-- A sender in the shared cache, with a balance. -/
def cachedSender : AccountAddress := Vector.replicate 32 1

/-- A recipient cached nowhere. -/
def uncachedRecipient : AccountAddress := Vector.replicate 32 2

/-- A backend whose state root is not in the database, with `cachedSender` in its shared cache. -/
def prunedBackend : Backend AccountAddress :=
  { trie := .error .invalidStateRoot
    cachedAccount := fun a ↦ if a = cachedSender then some (some (Account.newBasic 1000000 0)) else none
    isKnownNull := fun _ ↦ false }

/-- A state over `prunedBackend` with nothing cached and no checkpoint. -/
def prunedState : State AccountAddress :=
  { db := prunedBackend, cache := ∅, checkpoints := [], accountStartNonce := 0 }

/-- A plain call of `uncachedRecipient`, with the least gas a call takes. -/
def plainCall : Transaction :=
  { nonce := 0, nonceBytes := [], gasPrice := 1, gasPriceBytes := [], gas := 21000, gasBytes := [],
    action := .call uncachedRecipient, value := 0, valueBytes := [], data := [], transactionType := 1,
    beacon := none }

/-- A machine with no precompiled contracts and no forks. -/
def noBuiltins : Machine := { builtin := fun _ _ ↦ none, unityUpdate := none, monetaryPolicyUpdate := none }

/-- A block with room for the call. -/
def blockInfo : EnvInfo := { number := 1, author := cachedSender, gasUsed := 0, gasLimit := 15000000 }

/-- **The transaction's checkpoint outlives an error.** Whatever the VM, `transact` returns the
trie error with one more checkpoint on the stack than it started with. -/
theorem transact_error_leaves_checkpoint (vm : Vm) (blake2b : Bytes → Vector UInt8 32) :
    ∃ s, (Executive.transact vm noBuiltins blockInfo 0 blake2b plainCall cachedSender true false false).run.run
        prunedState = some (.error (.internal .invalidStateRoot), s) ∧
      s.checkpoints.length = prunedState.checkpoints.length + 1 :=
  ⟨_, rfl, rfl⟩

/-- **An error keeps the nonce and the gas charge.** Whatever the VM, `transact` returns the trie
error after it has raised the sender's nonce from 0 to 1 and taken the 21000 gas from its
balance. -/
theorem transact_error_keeps_charges (vm : Vm) (blake2b : Bytes → Vector UInt8 32) :
    (State.nonce cachedSender).run.run' prunedState = some (.ok 0) ∧
      (State.balance cachedSender).run.run' prunedState = some (.ok 1000000) ∧
      ∃ s, (Executive.transact vm noBuiltins blockInfo 0 blake2b plainCall cachedSender true false false).run.run
          prunedState = some (.error (.internal .invalidStateRoot), s) ∧
        (State.nonce cachedSender).run.run' s = some (.ok 1) ∧
        (State.balance cachedSender).run.run' s = some (.ok 979000) :=
  ⟨rfl, rfl, _, rfl, rfl, rfl⟩

end AionR
