import AionR.TransactionQueue.Order

/-!
# Transaction sets

A `TransactionSet` holds the orders of one half of the queue (`current` or `future`) three times
over: sorted by priority (`by_priority`, a `BTreeSet`), by sender and nonce (`by_address`, a
`Table`), and by gas price (`by_gas_price`, a multimap). The three indexes are kept in step by
`insert` and `drop`, which check that they still have equal sizes with `assert!`.

## Representation

* `by_priority` is the list of its orders in ascending `cmp` order, which is the order in which
  the `BTreeSet` iterates them. Insertion and removal walk the list the way a search walks the
  tree: stop at the first order that is not smaller.
* `by_address` is an `AList` keyed by `(sender, nonce)`, the cells of the `Table`. Rows are never
  left empty (`Table::remove` and `clear_if_empty` drop them), so a row is absent exactly when the
  sender has no cell.
* `by_gas_price` maps a gas price to the list of hashes in its `HashSet`.

An `assert!` or `expect` that fails is a panic; every operation that contains one returns an
`Option`, `none` being the panic.
-/

namespace AionR

/-! ## The priority list -/

/-- `BTreeSet::insert` on the ascending priority list; `none` when an equal order is present. -/
def priorityInsert (o : TransactionOrder) : List TransactionOrder → Option (List TransactionOrder)
  | [] => some [o]
  | x :: xs =>
    match o.cmp x with
    | .lt => some (o :: x :: xs)
    | .eq => none
    | .gt => (priorityInsert o xs).map (x :: ·)

/-- `BTreeSet::remove` on the ascending priority list; `none` when no equal order is present. -/
def priorityRemove (o : TransactionOrder) : List TransactionOrder → Option (List TransactionOrder)
  | [] => none
  | x :: xs =>
    match o.cmp x with
    | .lt => none
    | .eq => some xs
    | .gt => (priorityRemove o xs).map (x :: ·)

/-! ## The gas price multimap -/

/-- `GasPriceQueue`: each gas price with the hashes of the orders at that price. -/
abbrev GasPriceQueue := AList (fun _ : ℕ ↦ List H256)

namespace GasPriceQueue

/-- `GasPriceQueue::insert`: add the hash under its gas price; `true` if it was not there. -/
def insert (q : GasPriceQueue) (gasPrice : ℕ) (hash : H256) : GasPriceQueue × Bool :=
  let hashes := (q.lookup gasPrice).getD []
  if hash ∈ hashes then (AList.insert gasPrice hashes q, false)
  else (AList.insert gasPrice (hash :: hashes) q, true)

/-- `GasPriceQueue::remove`: take the hash out of its gas price's set, and drop the price when
the hash was the last one there. `false` when the hash was not under that price. -/
def remove (q : GasPriceQueue) (gasPrice : ℕ) (hash : H256) : GasPriceQueue × Bool :=
  match q.lookup gasPrice with
  | none => (q, false)
  | some hashes =>
    if hashes.length ≠ 1 then
      if hash ∈ hashes then (AList.insert gasPrice (hashes.erase hash) q, true) else (q, false)
    else if hashes = [hash] then (AList.erase gasPrice q, true)
    else (q, false)

/-- The number of hashes held, `values().map(|v| v.len()).fold(0, +)`. -/
def size (q : GasPriceQueue) : ℕ := (q.entries.map fun e ↦ e.2.length).sum

end GasPriceQueue

/-! ## Transaction sets -/

/-- The `(sender, nonce)` cells of a `Table<Address, U256, TransactionOrder>`. -/
abbrev ByAddress := AList (fun _ : Address × ℕ ↦ TransactionOrder)

/-- `TransactionSet`. -/
structure TransactionSet where
  byPriority : List TransactionOrder
  byAddress : ByAddress
  byGasPrice : GasPriceQueue
  memoryLimit : ℕ
  memoryUsage : ℕ

/-- All transactions of the queue by hash (`by_hash`). -/
abbrev ByHash := AList (fun _ : H256 ↦ VerifiedTransaction)

namespace TransactionSet

/-- An empty set with the given memory limit, as `TransactionQueue::with_limits` builds it. -/
def empty (memoryLimit : ℕ) : TransactionSet :=
  ⟨[], ∅, ∅, memoryLimit, 0⟩

/-- The two `assert_eq!` that close `insert` and `drop`: the priority list and the gas price
multimap have as many entries as the table has cells. -/
def sizesAgree (s : TransactionSet) : Bool :=
  s.byPriority.length == s.byAddress.entries.length &&
    s.byGasPrice.size == s.byAddress.entries.length

/-- `TransactionSet::insert`. When an equal order is already in `by_priority` nothing changes and
the new order itself is returned, as if it had been replaced. Otherwise the order takes the cell
`(sender, nonce)`, and the order it displaces (if any) is removed from the other two indexes. -/
def insert (s : TransactionSet) (sender : Address) (nonce : ℕ) (order : TransactionOrder) :
    Option (TransactionSet × Option TransactionOrder) := do
  let some byPriority := priorityInsert order s.byPriority | some (s, some order)
  let replaced := s.byAddress.lookup (sender, nonce)
  let byAddress := s.byAddress.insert (sender, nonce) order
  let (byPriority, byGasPrice, memoryUsage) ← match replaced with
    | none => some (byPriority, s.byGasPrice, s.memoryUsage)
    | some old => do
      let byPriority ← priorityRemove old byPriority
      let (byGasPrice, removed) := s.byGasPrice.remove old.gasPrice old.hash
      guard removed
      some (byPriority, byGasPrice, s.memoryUsage - old.memoryUsage)
  let s' : TransactionSet := { s with
    byPriority, byAddress
    byGasPrice := (byGasPrice.insert order.gasPrice order.hash).1
    memoryUsage := memoryUsage + order.memoryUsage }
  guard s'.sizesAgree
  some (s', replaced)

/-- `TransactionSet::drop`: empty the cell `(sender, nonce)` and remove its order from the other
two indexes. -/
def drop (s : TransactionSet) (sender : Address) (nonce : ℕ) :
    Option (TransactionSet × Option TransactionOrder) := do
  match s.byAddress.lookup (sender, nonce) with
  | none =>
    guard s.sizesAgree
    some (s, none)
  | some order =>
    let (byGasPrice, removed) := s.byGasPrice.remove order.gasPrice order.hash
    guard removed
    let byPriority ← priorityRemove order s.byPriority
    let s' : TransactionSet := { s with
      byPriority, byGasPrice
      byAddress := s.byAddress.erase (sender, nonce)
      memoryUsage := s.memoryUsage - order.memoryUsage }
    guard s'.sizesAgree
    some (s', some order)

/-- `TransactionSet::clear`. -/
def clear (s : TransactionSet) : TransactionSet :=
  { s with byPriority := [], byAddress := ∅, byGasPrice := ∅, memoryUsage := 0 }

/-- The selection loop of `enforce_limit`: walk the orders from the lowest priority, skipping
local and retracted ones, and collect the `(sender, nonce)` of each until the running memory usage
is within the limit. The lookup in `by_hash` is an `expect`. -/
def collectToDrop (limit : ℕ) (byHash : ByHash) :
    ℕ → List TransactionOrder → Option (List (Address × ℕ))
  | _, [] => some []
  | usage, order :: rest =>
    if order.origin.isLocal || order.origin == .retractedBlock then
      collectToDrop limit byHash usage rest
    else do
      let usage := usage - order.memoryUsage
      let tx ← byHash.lookup order.hash
      if usage ≤ limit then some [(tx.sender, tx.nonce)]
      else ((tx.sender, tx.nonce) :: ·) <$> collectToDrop limit byHash usage rest

/-- The removal fold of `enforce_limit`: drop each collected cell (an `expect`), remove its
transaction from `by_hash` (an `expect`), and record the lowest dropped nonce of each sender. -/
def dropCollected : TransactionSet → ByHash → AList (fun _ : Address ↦ ℕ) → List (Address × ℕ) →
    Option (TransactionSet × ByHash × AList (fun _ : Address ↦ ℕ))
  | s, byHash, removed, [] => some (s, byHash, removed)
  | s, byHash, removed, (sender, nonce) :: rest => do
    let (s, some order) ← s.drop sender nonce | none
    guard (byHash.lookup order.hash).isSome
    let least := ((removed.lookup sender).map (min · nonce)).getD nonce
    dropCollected s (byHash.erase order.hash) (removed.insert sender least) rest

/-- `TransactionSet::enforce_limit`: when the memory usage is above the limit, drop external
transactions from the lowest priority up until it is not. Returns the lowest dropped nonce of
every sender that lost a transaction (the source's `Option` is always `Some`). -/
def enforceLimit (s : TransactionSet) (byHash : ByHash) :
    Option (TransactionSet × ByHash × AList (fun _ : Address ↦ ℕ)) := do
  if s.memoryUsage ≤ s.memoryLimit then return (s, byHash, ∅)
  let toDrop ← collectToDrop s.memoryLimit byHash s.memoryUsage s.byPriority.reverse
  dropCollected s byHash ∅ toDrop

end TransactionSet

end AionR
