import AionR.TransactionQueue.Set

/-!
# The transaction queue

`TransactionQueue` keeps every transaction it knows in `by_hash`, ranks the ones that can go into
a block in `current` and the ones waiting for a lower nonce in `future`, and remembers in
`last_nonces` the highest nonce of each sender in `current`. Each public operation (`add`,
`cull`, `remove`, `penalize`, `remove_old`, `clear`) is a composition of the private helpers
below, translated one for one.

## What is left out

The list of local transactions and their statuses (`local_transactions`) is written to by the
helpers but never read by them, so it is not kept; nor are the removal reason of `remove`, which
only selects the status recorded there, and the `debug!`/`trace!` logging.

## Iteration order

Where the source iterates a `HashMap` (the nonces of one sender, the senders of `remove_old`) the
model takes the order of its association list.
-/

namespace AionR

/-- `AccountDetails`: what the nonce and balance oracle reports for a sender. -/
structure AccountDetails where
  nonce : ℕ
  balance : ℕ
  deriving DecidableEq, Repr

/-- `transaction::ImportResult`. -/
inductive ImportResult where
  | current
  | future
  deriving DecidableEq, Repr

/-- The `transaction::Error` values that the queue returns. -/
inductive ImportError where
  | alreadyImported
  | old
  | tooCheapToReplace
  | limitReached
  deriving DecidableEq, Repr

/-- `DEFAULT_QUEUING_PERIOD`. -/
def defaultQueuingPeriod : ℕ := 128

/-- `GAS_PRICE_BUMP_SHIFT`. -/
def gasPriceBumpShift : ℕ := 3

/-- `u64::max_value()`, the block number and timestamp of `top_transactions`. -/
def u64Max : ℕ := 2 ^ 64 - 1

/-- `U256::max_value()`. -/
def u256Max : ℕ := 2 ^ 256 - 1

/-- `TransactionQueue`, without the list of local transactions. -/
structure TransactionQueue where
  strategy : PrioritizationStrategy
  maxTimeInQueue : ℕ
  current : TransactionSet
  future : TransactionSet
  byHash : ByHash
  lastNonces : AList (fun _ : Address ↦ ℕ)

namespace TransactionSet

/-- The nonces of one sender's cells: the keys of `by_address.row(sender)`. -/
def rowNonces (s : TransactionSet) (sender : Address) : List ℕ :=
  s.byAddress.entries.filterMap fun e ↦ if e.1.1 = sender then some e.1.2 else none

/-- The sum of both sets' sizes, compared with `by_hash` by the queue's `assert_eq!`. -/
def size (s : TransactionSet) : ℕ := s.byPriority.length

end TransactionSet

/-- `check_too_cheap`. -/
def checkTooCheap (isIn : Bool) : Except ImportError Unit :=
  if isIn then .ok () else .error .tooCheapToReplace

/-- `check_if_removed`: the import fails when a nonce of its sender at or below its own was
dropped because of the limit. -/
def checkIfRemoved (sender : Address) (nonce : ℕ) (dropped : AList (fun _ : Address ↦ ℕ)) :
    Except ImportError Unit :=
  match dropped.lookup sender with
  | some least => if least ≤ nonce then .error .limitReached else .ok ()
  | none => .ok ()

namespace TransactionQueue

/-- `TransactionQueue::with_limits`. -/
def withLimits (strategy : PrioritizationStrategy) (memoryLimit : ℕ) : TransactionQueue where
  strategy := strategy
  maxTimeInQueue := defaultQueuingPeriod
  current := TransactionSet.empty memoryLimit
  future := TransactionSet.empty memoryLimit
  byHash := ∅
  lastNonces := ∅

/-- The `assert_eq!` that the queue repeats after each change: both sets together hold as many
orders as `by_hash` holds transactions. -/
def sizesAgree (q : TransactionQueue) : Bool :=
  q.future.size + q.current.size == q.byHash.entries.length

/-- `replace_orders`: two orders compete for one cell. The old one stays unless the new one bids
at least `old + old >> 3`; the loser's transaction leaves `by_hash` (an `expect`). -/
def replaceOrders (address : Address) (nonce : ℕ) (old order : TransactionOrder)
    (set : TransactionSet) (byHash : ByHash) : Option (TransactionSet × ByHash × Bool) := do
  let minRequired := old.gasPrice + old.gasPrice / 2 ^ gasPriceBumpShift
  if order.gasPrice < minRequired then
    -- put the old order back; what this second insert returns is ignored
    let (set, _) ← set.insert address nonce old
    guard (byHash.lookup order.hash).isSome
    some (set, byHash.erase order.hash, false)
  else
    guard (byHash.lookup old.hash).isSome
    some (set, byHash.erase old.hash, true)

/-- `replace_transaction`: add the transaction to `by_hash` (asserting its hash is new) and its
order to the set, settling a displaced order with `replace_orders`. -/
def replaceTransaction (tx : VerifiedTransaction) (baseNonce : ℕ)
    (strategy : PrioritizationStrategy) (set : TransactionSet) (byHash : ByHash) :
    Option (TransactionSet × ByHash × Bool) := do
  let order := TransactionOrder.forTransaction tx baseNonce strategy
  guard (byHash.lookup tx.hash).isNone
  let byHash := byHash.insert tx.hash tx
  match ← set.insert tx.sender tx.nonce order with
  | (set, some old) => replaceOrders tx.sender tx.nonce old order set byHash
  | (set, none) => some (set, byHash, true)

/-- The loop of `update_future`: re-insert each of the sender's future orders with its height
over `currentNonce`, or remove it from the queue when its nonce is below. -/
def updateFutureCells (sender : Address) (currentNonce : ℕ) :
    TransactionQueue → List ℕ → Option TransactionQueue
  | q, [] => some q
  | q, k :: ks => do
    let (future, some order) ← q.future.drop sender k | none
    if currentNonce ≤ k then
      let (future, _) ← future.insert sender k (order.updateHeight k currentNonce)
      updateFutureCells sender currentNonce { q with future } ks
    else
      guard (q.byHash.lookup order.hash).isSome
      updateFutureCells sender currentNonce { q with future, byHash := q.byHash.erase order.hash } ks

/-- `update_future`. -/
def updateFuture (q : TransactionQueue) (sender : Address) (currentNonce : ℕ) :
    Option TransactionQueue :=
  updateFutureCells sender currentNonce q (q.future.rowNonces sender)

/-- The loop of `move_all_to_future`: each of the sender's current orders goes to `future` (settling
a collision there with `replace_orders`) or, below `currentNonce`, leaves the queue. -/
def moveAllToFutureCells (sender : Address) (currentNonce : ℕ) :
    TransactionQueue → List ℕ → Option TransactionQueue
  | q, [] => some q
  | q, k :: ks => do
    let (current, some order) ← q.current.drop sender k | none
    if currentNonce ≤ k then
      let order := order.updateHeight k currentNonce
      match ← q.future.insert sender k order with
      | (future, some old) =>
        let (future, byHash, _) ← replaceOrders sender k old order future q.byHash
        moveAllToFutureCells sender currentNonce { q with current, future, byHash } ks
      | (future, none) =>
        moveAllToFutureCells sender currentNonce { q with current, future } ks
    else
      guard (q.byHash.lookup order.hash).isSome
      moveAllToFutureCells sender currentNonce
        { q with current, byHash := q.byHash.erase order.hash } ks

/-- `move_all_to_future`, which ends by enforcing the limit of `future` (and ignores which nonces
that drops). -/
def moveAllToFuture (q : TransactionQueue) (sender : Address) (currentNonce : ℕ) :
    Option TransactionQueue := do
  let q ← moveAllToFutureCells sender currentNonce q (q.current.rowNonces sender)
  let (future, byHash, _) ← q.future.enforceLimit q.byHash
  some { q with future, byHash }

/-- One promotion of `move_matching_future_to_current`: take the order at `(address, nonce)` out
of every index of `future` directly (the results of those removals are ignored) and insert it in
`current` with its height over `firstNonce`. -/
def promote (q : TransactionQueue) (address : Address) (nonce firstNonce : ℕ)
    (order : TransactionOrder) : Option TransactionQueue := do
  let future : TransactionSet := { q.future with
    byAddress := q.future.byAddress.erase (address, nonce)
    byPriority := (priorityRemove order q.future.byPriority).getD q.future.byPriority
    byGasPrice := (q.future.byGasPrice.remove order.gasPrice order.hash).1
    memoryUsage := q.future.memoryUsage - order.memoryUsage }
  let order := order.updateHeight nonce firstNonce
  match ← q.current.insert address nonce order with
  | (current, some old) =>
    let (current, byHash, _) ← replaceOrders address nonce old order current q.byHash
    some { q with future, current, byHash }
  | (current, none) => some { q with future, current }

/-- The `while let` of `move_matching_future_to_current`, promoting consecutive nonces from
`nonce` on. Each round empties a cell of `future`, so `fuel` (the number of cells) is never what
stops it. Returns the last nonce promoted. -/
def promoteRun (address : Address) (firstNonce : ℕ) :
    ℕ → TransactionQueue → ℕ → Option ℕ → Option (TransactionQueue × Option ℕ)
  | 0, q, _, last => some (q, last)
  | fuel + 1, q, nonce, last =>
    match q.future.byAddress.lookup (address, nonce) with
    | none => some (q, last)
    | some order => do
      let q ← q.promote address nonce firstNonce order
      promoteRun address firstNonce fuel q (nonce + 1) (some nonce)

/-- `move_matching_future_to_current`: promote the run of future nonces that starts at
`currentNonce`, and record its last nonce in `last_nonces`. Nothing happens when the sender has
no future row. -/
def moveMatchingFutureToCurrent (q : TransactionQueue) (address : Address)
    (currentNonce firstNonce : ℕ) : Option TransactionQueue := do
  if q.future.rowNonces address = [] then return q
  let (q, last) ← promoteRun address firstNonce q.future.byAddress.entries.length q currentNonce none
  match last with
  | some x => some { q with lastNonces := q.lastNonces.insert address x }
  | none => some q

/-- The loop of `mark_transactions_local` over one set: each non-local order of the sender is
taken out and put back with origin `Local`. -/
def markLocalCells (sender : Address) : TransactionSet → List ℕ → Option TransactionSet
  | s, [] => some s
  | s, k :: ks => do
    let (s, some order) ← s.drop sender k | none
    let (s, _) ← s.insert sender k { order with origin := .«local» }
    markLocalCells sender s ks

/-- The nonces of the sender's non-local orders in a set. -/
def nonLocalNonces (s : TransactionSet) (sender : Address) : List ℕ :=
  s.byAddress.entries.filterMap fun e ↦
    if e.1.1 = sender ∧ !e.2.origin.isLocal then some e.1.2 else none

/-- `mark_transactions_local`. -/
def markTransactionsLocal (q : TransactionQueue) (sender : Address) : Option TransactionQueue := do
  let current ← markLocalCells sender q.current (nonLocalNonces q.current sender)
  let future ← markLocalCells sender q.future (nonLocalNonces q.future sender)
  some { q with current, future }

/-- `update_last_nonces`: for each sender that lost transactions to the limit, rewind its last
nonce to just below the lowest one dropped. -/
def updateLastNonces (q : TransactionQueue) (removed : AList (fun _ : Address ↦ ℕ)) :
    TransactionQueue :=
  { q with lastNonces := removed.entries.foldl (fun acc e ↦
      if e.2 = 0 then acc.erase e.1 else acc.insert e.1 (e.2 - 1)) q.lastNonces }

/-- A result of the queue together with the queue it leaves. -/
abbrev Outcome := Except ImportError ImportResult × TransactionQueue

/-- The branch of `import_tx` for a transaction with a gap before it: it goes to `future`. -/
def importToFuture (q : TransactionQueue) (tx : VerifiedTransaction) (stateNonce : ℕ) :
    Option Outcome := do
  let (future, byHash, isIn) ← replaceTransaction tx stateNonce q.strategy q.future q.byHash
  let q := { q with future, byHash }
  if !isIn then return (.error .tooCheapToReplace, q)
  let (future, byHash, removed) ← q.future.enforceLimit q.byHash
  let q := { q with future, byHash }
  match checkIfRemoved tx.sender tx.nonce removed with
  | .error e => some (.error e, q)
  | .ok () => some (.ok .future, q)

/-- The branch of `import_tx` for a transaction without a gap: it goes to `current`, after
promoting what it may connect. -/
def importToCurrent (q : TransactionQueue) (tx : VerifiedTransaction) (stateNonce : ℕ) :
    Option Outcome := do
  let address := tx.sender
  let nonce := tx.nonce
  let q ← q.moveMatchingFutureToCurrent address nonce stateNonce
  let q ← q.moveMatchingFutureToCurrent address (nonce + 1) stateNonce
  let (current, byHash, isIn) ← replaceTransaction tx stateNonce q.strategy q.current q.byHash
  let q := { q with current, byHash }
  if !isIn then return (.error .tooCheapToReplace, q)
  let newMax := ((q.lastNonces.lookup address).map (max nonce)).getD nonce
  let q := { q with lastNonces := q.lastNonces.insert address newMax }
  let (current, byHash, removed) ← q.current.enforceLimit q.byHash
  let q := updateLastNonces { q with current, byHash } removed
  match checkIfRemoved address nonce removed with
  | .error e => some (.error e, q)
  | .ok () => some (.ok .current, q)

/-- `import_tx`. -/
def importTx (q : TransactionQueue) (tx : VerifiedTransaction) (stateNonce : ℕ) :
    Option Outcome := do
  if (q.byHash.lookup tx.hash).isSome then return (.error .alreadyImported, q)
  if tx.nonce < stateNonce then return (.error .old, q)
  let q ← q.updateFuture tx.sender stateNonce
  let q ← q.moveMatchingFutureToCurrent tx.sender stateNonce stateNonce
  let nextNonce := ((q.lastNonces.lookup tx.sender).map (· + 1)).getD stateNonce
  let q ← if tx.origin.isLocal then q.markTransactionsLocal tx.sender else some q
  if nextNonce < tx.nonce then q.importToFuture tx stateNonce
  else q.importToCurrent tx stateNonce

/-- `add` (through `add_internal`): import with the sender's state nonce, then assert the sizes. -/
def add (q : TransactionQueue) (tx : VerifiedTransaction)
    (fetchAccount : Address → AccountDetails) : Option Outcome := do
  let (result, q) ← q.importTx tx (fetchAccount tx.sender).nonce
  guard q.sizesAgree
  some (result, q)

/-- `cull_internal`: move all of the sender's transactions to `future` (dropping those below
`clientNonce`) and promote the run that starts at `clientNonce`. -/
def cullInternal (q : TransactionQueue) (sender : Address) (clientNonce : ℕ) :
    Option TransactionQueue := do
  let q := { q with lastNonces := q.lastNonces.erase sender }
  let q ← q.updateFuture sender clientNonce
  let q ← q.moveAllToFuture sender clientNonce
  let q ← q.moveMatchingFutureToCurrent sender clientNonce clientNonce
  guard q.sizesAgree
  some q

/-- `cull`: act only if the sender has a current nonce below `clientNonce` or a future nonce at
or below it. -/
def cull (q : TransactionQueue) (sender : Address) (clientNonce : ℕ) : Option TransactionQueue :=
  if (q.current.rowNonces sender).any (· < clientNonce) ||
      (q.future.rowNonces sender).any (· ≤ clientNonce) then
    q.cullInternal sender clientNonce
  else some q

/-- `remove`: take a transaction out by hash. Out of `future` the sender's future heights are
recomputed and a run promoted; out of `current` the sender is culled at its state nonce. -/
def remove (q : TransactionQueue) (hash : H256) (fetchAccount : Address → AccountDetails) :
    Option TransactionQueue := do
  guard q.sizesAgree
  let some tx := q.byHash.lookup hash | some q
  let q := { q with byHash := q.byHash.erase hash }
  let currentNonce := (fetchAccount tx.sender).nonce
  match ← q.future.drop tx.sender tx.nonce with
  | (future, some _) =>
    let q ← { q with future }.updateFuture tx.sender currentNonce
    let q ← q.moveMatchingFutureToCurrent tx.sender currentNonce currentNonce
    guard q.sizesAgree
    some q
  | (future, none) =>
    let q := { q with future }
    match ← q.current.drop tx.sender tx.nonce with
    | (current, some _) =>
      let q ← { q with current }.cullInternal tx.sender currentNonce
      guard q.sizesAgree
      some q
    | (current, none) => some { q with current }

/-- The loop of `penalize` over one set: each of the sender's orders is taken out and put back
with one more penalty. -/
def penalizeCells (sender : Address) : TransactionSet → List ℕ → Option TransactionSet
  | s, [] => some s
  | s, k :: ks => do
    let (s, some order) ← s.drop sender k | none
    let (s, _) ← s.insert sender k order.penalize
    penalizeCells sender s ks

/-- `penalize`: lower the priority of every transaction of the sender of a non-local
transaction. -/
def penalize (q : TransactionQueue) (hash : H256) : Option TransactionQueue := do
  let some tx := q.byHash.lookup hash | some q
  if tx.origin.isLocal then return q
  let current ← penalizeCells tx.sender q.current (q.current.rowNonces tx.sender)
  let future ← penalizeCells tx.sender q.future (q.future.rowNonces tx.sender)
  some { q with current, future }

/-- `clear`. -/
def clear (q : TransactionQueue) : TransactionQueue :=
  { q with current := q.current.clear, future := q.future.clear, byHash := ∅, lastNonces := ∅ }

/-- The senders of `remove_old`, each once, current rows first. -/
def senders (q : TransactionQueue) : List Address :=
  ((q.current.byAddress.entries.map (·.1.1)) ++ (q.future.byAddress.entries.map (·.1.1))).dedup

/-- Whether `remove_old` finds a transaction invalid: it has waited longer than
`max_time_in_queue`, or longer than an eighth of it and costs more than its sender's balance. -/
def isStale (q : TransactionQueue) (senders : List Address)
    (fetchAccount : Address → AccountDetails) (currentTime : ℕ) (tx : VerifiedTransaction) : Bool :=
  let timeDiff := currentTime - tx.insertionTime
  !tx.origin.isLocal &&
    (q.maxTimeInQueue < timeDiff ||
      (q.maxTimeInQueue / 2 ^ 3 < timeDiff && tx.sender ∈ senders &&
        (fetchAccount tx.sender).balance < tx.cost))

/-- Cull each sender in turn. -/
def cullAll (fetchAccount : Address → AccountDetails) :
    TransactionQueue → List Address → Option TransactionQueue
  | q, [] => some q
  | q, s :: ss => do cullAll fetchAccount (← q.cull s (fetchAccount s).nonce) ss

/-- Remove each hash in turn. -/
def removeAll (fetchAccount : Address → AccountDetails) :
    TransactionQueue → List H256 → Option TransactionQueue
  | q, [] => some q
  | q, h :: hs => do removeAll fetchAccount (← q.remove h fetchAccount) hs

/-- `remove_old`: cull every sender at its state nonce, then remove the stale transactions. -/
def removeOld (q : TransactionQueue) (fetchAccount : Address → AccountDetails)
    (currentTime : ℕ) : Option TransactionQueue := do
  let senders := q.senders
  let q ← cullAll fetchAccount q senders
  let invalid := (q.byHash.entries.filter fun e ↦
    q.isStale senders fetchAccount currentTime e.2).map (·.1)
  removeAll fetchAccount q invalid

/-- Whether a pending transaction must wait: its condition names a later block or time. -/
def Condition.delays (bestBlock bestTimestamp : ℕ) : Option Condition → Bool
  | some (.number n) => bestBlock < n
  | some (.timestamp t) => bestTimestamp < t
  | none => false

/-- `filter_pending_transaction`: the current transactions in priority order, each looked up in
`by_hash` (an `expect`), leaving out every sender from its first delayed transaction on. -/
def filterPending (q : TransactionQueue) (bestBlock bestTimestamp : ℕ) :
    List Address → List TransactionOrder → Option (List VerifiedTransaction)
  | _, [] => some []
  | delayed, t :: ts => do
    let tx ← q.byHash.lookup t.hash
    if tx.sender ∈ delayed then q.filterPending bestBlock bestTimestamp delayed ts
    else if Condition.delays bestBlock bestTimestamp tx.condition then
      q.filterPending bestBlock bestTimestamp (tx.sender :: delayed) ts
    else (tx :: ·) <$> q.filterPending bestBlock bestTimestamp delayed ts

/-- `top_transactions`: the pending transactions at the largest block number and time. -/
def topTransactions (q : TransactionQueue) : Option (List VerifiedTransaction) :=
  q.filterPending u64Max u64Max [] q.current.byPriority

/-- `future_transactions`: the future transactions in priority order (each an `expect`). -/
def futureTransactions (q : TransactionQueue) : Option (List VerifiedTransaction) :=
  q.future.byPriority.mapM fun t ↦ q.byHash.lookup t.hash

/-- `last_nonce`. -/
def lastNonce (q : TransactionQueue) (address : Address) : Option ℕ :=
  q.lastNonces.lookup address

/-- `find`. -/
def find (q : TransactionQueue) (hash : H256) : Option VerifiedTransaction :=
  q.byHash.lookup hash

end TransactionQueue

end AionR
