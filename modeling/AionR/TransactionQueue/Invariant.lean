import AionR.TransactionQueue.Queue

/-!
# Runs of the queue and its representation invariant

The queue is a state machine whose steps are its public operations. `run` applies a list of them
from a starting queue, `none` standing for a panic somewhere along the way.

The representation invariant `Consistent` is what the `expect` messages of the source take for
granted: each set's three indexes describe the same orders, `by_hash` holds exactly the
transactions of those orders, and every cell points at a transaction with its own sender and
nonce, in one set only.

## The limit breaks it

`enforce_limit` never drops a local or retracted transaction, yet `import_tx` rewinds the
sender's `last_nonces` entry below the lowest nonce it did drop, as if every later nonce had gone
too. A retracted transaction left above the gap is then still in `current`, unseen by
`last_nonces`: a new transaction with the same nonce is filed in `future`, the cell is occupied
twice, and removing the retracted one by hash drops the wrong order. The last run below reaches a
queue whose `top_transactions` panics.
-/

namespace AionR

namespace TransactionQueue

/-- The public operations of the queue. `BanningTransactionQueue::ban_transaction` acts on the
queue only through `cull(sender, U256::max_value())`, which is `cull`. -/
inductive QueueOp where
  | add (tx : VerifiedTransaction) (fetchAccount : Address → AccountDetails)
  | cull (sender : Address) (clientNonce : ℕ)
  | remove (hash : H256) (fetchAccount : Address → AccountDetails)
  | penalize (hash : H256)
  | removeOld (fetchAccount : Address → AccountDetails) (currentTime : ℕ)
  | clear

/-- One operation; `none` is a panic. -/
def step (q : TransactionQueue) : QueueOp → Option TransactionQueue
  | .add tx fetchAccount => (q.add tx fetchAccount).map (·.2)
  | .cull sender clientNonce => q.cull sender clientNonce
  | .remove hash fetchAccount => q.remove hash fetchAccount
  | .penalize hash => q.penalize hash
  | .removeOld fetchAccount currentTime => q.removeOld fetchAccount currentTime
  | .clear => some q.clear

/-- A run of operations; `none` as soon as one of them panics. -/
def run (q : TransactionQueue) : List QueueOp → Option TransactionQueue
  | [] => some q
  | op :: ops => (q.step op).bind (run · ops)

@[simp] theorem run_nil (q : TransactionQueue) : q.run [] = some q := rfl

theorem run_cons (q : TransactionQueue) (op : QueueOp) (ops : List QueueOp) :
    q.run (op :: ops) = (q.step op).bind (run · ops) := rfl

theorem run_append (q : TransactionQueue) (ops ops' : List QueueOp) :
    q.run (ops ++ ops') = (q.run ops).bind (run · ops') := by
  induction ops generalizing q with
  | nil => rfl
  | cons op ops ih =>
    rw [List.cons_append, run_cons, run_cons, Option.bind_assoc]
    congr 1
    funext q'
    exact ih q'

end TransactionQueue

/-! ## The invariant -/

namespace TransactionSet

/-- The orders held in the cells of `by_address`. -/
def cellOrders (s : TransactionSet) : List TransactionOrder := s.byAddress.entries.map (·.2)

/-- The `(gas_price, hash)` pairs held by `by_gas_price`. -/
def gasPricePairs (s : TransactionSet) : List (ℕ × H256) :=
  s.byGasPrice.entries.flatMap fun e ↦ e.2.map (e.1, ·)

/-- The three indexes of a set agree: `by_priority` and `by_gas_price` hold exactly the orders of
the cells, and `memory_usage` is their total. -/
structure IndexesAgree (s : TransactionSet) : Prop where
  priority_perm : s.byPriority.Perm s.cellOrders
  gasPrice_perm : s.gasPricePairs.Perm (s.cellOrders.map fun o ↦ (o.gasPrice, o.hash))
  memoryUsage_eq : s.memoryUsage = (s.cellOrders.map (·.memoryUsage)).sum

instance (s : TransactionSet) : Decidable s.IndexesAgree :=
  decidable_of_iff (s.byPriority.Perm s.cellOrders ∧
      s.gasPricePairs.Perm (s.cellOrders.map fun o ↦ (o.gasPrice, o.hash)) ∧
      s.memoryUsage = (s.cellOrders.map (·.memoryUsage)).sum)
    ⟨fun ⟨h₁, h₂, h₃⟩ ↦ ⟨h₁, h₂, h₃⟩, fun ⟨h₁, h₂, h₃⟩ ↦ ⟨h₁, h₂, h₃⟩⟩

/-- Every cell's order names a transaction of `by_hash` with the cell's sender and nonce. -/
def CellsResolve (s : TransactionSet) (byHash : ByHash) : Prop :=
  ∀ e ∈ s.byAddress.entries, ∃ tx, byHash.lookup e.2.hash = some tx ∧
    tx.sender = e.1.1 ∧ tx.nonce = e.1.2

instance (s : TransactionSet) (byHash : ByHash) : Decidable (s.CellsResolve byHash) :=
  decidable_of_iff (∀ e ∈ s.byAddress.entries, (byHash.lookup e.2.hash).any
      (fun tx ↦ tx.sender = e.1.1 ∧ tx.nonce = e.1.2) = true) <| by
    refine forall₂_congr fun e _ ↦ ?_
    cases byHash.lookup e.2.hash <;> simp

theorem indexesAgree_empty (limit : ℕ) : (empty limit).IndexesAgree :=
  ⟨.refl _, .refl _, rfl⟩

end TransactionSet

namespace TransactionQueue

/-- The representation invariant of the queue. -/
structure Consistent (q : TransactionQueue) : Prop where
  current_agree : q.current.IndexesAgree
  future_agree : q.future.IndexesAgree
  /-- `by_hash` holds the hashes of both sets' orders, each once. -/
  byHash_perm : q.byHash.keys.Perm
    ((q.current.cellOrders ++ q.future.cellOrders).map (·.hash))
  /-- No cell is occupied in both sets. -/
  cells_disjoint : ∀ e ∈ q.current.byAddress.entries, e.1 ∉ q.future.byAddress
  current_resolve : q.current.CellsResolve q.byHash
  future_resolve : q.future.CellsResolve q.byHash

instance (q : TransactionQueue) : Decidable q.Consistent :=
  decidable_of_iff (q.current.IndexesAgree ∧ q.future.IndexesAgree ∧
      q.byHash.keys.Perm ((q.current.cellOrders ++ q.future.cellOrders).map (·.hash)) ∧
      (∀ e ∈ q.current.byAddress.entries, e.1 ∉ q.future.byAddress) ∧
      q.current.CellsResolve q.byHash ∧ q.future.CellsResolve q.byHash)
    ⟨fun ⟨h₁, h₂, h₃, h₄, h₅, h₆⟩ ↦ ⟨h₁, h₂, h₃, h₄, h₅, h₆⟩,
      fun ⟨h₁, h₂, h₃, h₄, h₅, h₆⟩ ↦ ⟨h₁, h₂, h₃, h₄, h₅, h₆⟩⟩

/-- The queue `with_limits` builds is consistent, whatever its limit and strategy. -/
theorem consistent_withLimits (strategy : PrioritizationStrategy) (memoryLimit : ℕ) :
    (withLimits strategy memoryLimit).Consistent where
  current_agree := TransactionSet.indexesAgree_empty _
  future_agree := TransactionSet.indexesAgree_empty _
  byHash_perm := .refl _
  cells_disjoint := by simp [withLimits, TransactionSet.empty]
  current_resolve := by simp [TransactionSet.CellsResolve, withLimits, TransactionSet.empty]
  future_resolve := by simp [TransactionSet.CellsResolve, withLimits, TransactionSet.empty]

/-! ## A run that breaks the invariant

Sender `7` has state nonce `5`; every transaction takes one unit of memory, and each set may hold
one. Importing the retracted nonce `6` over the external nonce `5` makes `enforce_limit` drop
nonce `5` only and rewinds `last_nonces` to `4`. -/

/-- A transaction of sender `7` with gas price `10`, one unit of gas and one byte of data. -/
def limitTraceTx (hash nonce insertionId : ℕ) (origin : TransactionOrigin) : VerifiedTransaction :=
  ⟨⟨hash, 7, nonce, 10, 1, 0, 1⟩, origin, none, 0, insertionId⟩

/-- The oracle of the run: every sender has nonce `5` and ample balance. -/
def limitTraceAccount : Address → AccountDetails := fun _ ↦ ⟨5, 1000000⟩

/-- External nonce `5`, retracted nonce `6`, then an external nonce `6` with another hash. -/
def limitTrace : List QueueOp :=
  [.add (limitTraceTx 1 5 0 .external) limitTraceAccount,
    .add (limitTraceTx 2 6 1 .retractedBlock) limitTraceAccount,
    .add (limitTraceTx 3 6 2 .external) limitTraceAccount]

theorem limitTrace_breaks_consistency : (withLimits .gasPriceOnly 1).Consistent ∧
    (∃ q ∈ (withLimits .gasPriceOnly 1).run limitTrace, ¬ q.Consistent) ∧
      ∃ q ∈ (withLimits .gasPriceOnly 1).run (limitTrace ++ [.remove 2 limitTraceAccount]),
        q.topTransactions = none :=
  ⟨consistent_withLimits _ _, by decide⟩

theorem limitTrace_lastNonce_behind_current :
    ∃ q ∈ (withLimits .gasPriceOnly 1).run (limitTrace.take 2),
      q.current.rowNonces 7 = [6] ∧ q.lastNonce 7 = some 4 := by
  decide

/-- The second import of `limitTrace` is refused with `LimitReached`, yet its transaction stays
queued: `check_if_removed` compares the nonce with the lowest nonce dropped from the sender, and
`enforce_limit` dropped the external nonce `5` but never the retracted nonce `6`. -/
theorem limitTrace_rejected_but_queued :
    ∃ q ∈ (withLimits .gasPriceOnly 1).run (limitTrace.take 1), q.find 2 = none ∧
      ∃ r ∈ q.add (limitTraceTx 2 6 1 .retractedBlock) limitTraceAccount,
        r.1 = .error .limitReached ∧ r.2.find 2 ≠ none := by
  decide

/-! ## The nonce order of `top_transactions`

`TransactionOrder::cmp` ranks the penalties and the origin before the nonce height
(`cmp_of_penalties_lt`, `cmp_of_origin_retractedBlock`), and `penalize` re-tags only the orders
queued at that moment. A later nonce of a sender, imported from a retracted block or imported
after the sender was penalized, then comes out of `top_transactions` before the earlier ones. -/

/-- The external nonce `5` of sender `7`, then its retracted nonce `6`. -/
def retractedTrace : List QueueOp :=
  [.add (limitTraceTx 1 5 0 .external) limitTraceAccount,
    .add (limitTraceTx 2 6 1 .retractedBlock) limitTraceAccount]

/-- The external nonce `5` of sender `7`, a penalty for it, then the external nonce `6`. -/
def penalizedTrace : List QueueOp :=
  [.add (limitTraceTx 1 5 0 .external) limitTraceAccount, .penalize 1,
    .add (limitTraceTx 2 6 1 .external) limitTraceAccount]

theorem topTransactions_nonce_inversion :
    (∃ q ∈ (withLimits .gasPriceOnly 8).run retractedTrace,
      q.topTransactions.map (·.map (·.nonce)) = some [6, 5]) ∧
    ∃ q ∈ (withLimits .gasPriceOnly 8).run penalizedTrace,
      q.topTransactions.map (·.map (·.nonce)) = some [6, 5] := by
  decide

end TransactionQueue

end AionR
