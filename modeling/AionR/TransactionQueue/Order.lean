import Mathlib.Data.List.AList
import Mathlib.Order.Basic
import AionR.Lib.U256

/-!
# Transactions and their priority order

The light-weight records the transaction queue keeps for every queued transaction
(`src/core/src/transaction/transaction_queue.rs`), and the order `TransactionOrder::cmp`
that the queue's priority sets are sorted by.

## Numbers

`U256` nonces, gas prices and gas limits are natural numbers here. The queue only subtracts a
nonce from a larger one (`nonce_height`, after the `Old` check) and adds one to a nonce, so the
`2²⁵⁶` bound never enters its logic; `usize` memory counters are natural numbers as well, with
truncated subtraction standing for `-=`. Hashes and addresses (`H256`) compare as the big-endian
numbers they spell, which is how `H256::cmp` orders them, so they are natural numbers too.

## The order

`cmp` compares penalties, origin, nonce height, the strategy's key, gas price (higher first),
insertion id and hash, each only when the ones before are equal. For a fixed strategy this is the
lexicographic comparison of seven keys (`lexCmp`), built from the core comparators `compareLex` and
`compareOn`, so it inherits their laws: `cmp_isLawfulOrder`.

## What a transaction carries

Of a signed transaction the queue reads its hash, sender, nonce, gas, gas price and value, and the
heap size of its data (`heap_size_of_children`, which the memory limit counts). `SignedTransaction`
keeps exactly these.
-/

namespace AionR

/-- An `H256` hash, compared as the big-endian number it spells. -/
abbrev H256 := ℕ

/-- An account address (`Address = H256`). -/
abbrev Address := ℕ

/-- Where a transaction came from (`TransactionOrigin`). -/
inductive TransactionOrigin where
  /-- Transaction coming from local RPC. -/
  | «local»
  /-- Transaction received from the network. -/
  | external
  /-- Transaction from a retracted block. -/
  | retractedBlock
  deriving DecidableEq, Repr

namespace TransactionOrigin

/-- `TransactionOrigin::cmp`: retracted transactions first, then local ones, then external ones. -/
def cmp (a b : TransactionOrigin) : Ordering :=
  if b = a then .eq
  else
    match a, b with
    | .retractedBlock, _ => .lt
    | _, .retractedBlock => .gt
    | .«local», _ => .lt
    | _, _ => .gt

/-- `TransactionOrigin::is_local`. -/
def isLocal (o : TransactionOrigin) : Bool := o == .«local»

end TransactionOrigin

/-- `PrioritizationStrategy`: how transactions of equal nonce height are ranked. -/
inductive PrioritizationStrategy where
  /-- Use only the gas price. -/
  | gasPriceOnly
  /-- Use the gas limit, then the gas price. -/
  | gasAndGasPrice
  /-- Use `gas_price - gas_factor`, then the gas price. -/
  | gasFactorAndGasPrice
  deriving DecidableEq, Repr

/-- The delay condition of a pending transaction (`transaction::Condition`). -/
inductive Condition where
  /-- Valid at this block number or later. -/
  | number (n : ℕ)
  /-- Valid at this unix time or later. -/
  | timestamp (t : ℕ)
  deriving DecidableEq, Repr

/-- The fields of a signed transaction that the queue reads. `heapSize` is
`heap_size_of_children`, the heap size of the transaction's data. -/
structure SignedTransaction where
  hash : H256
  sender : Address
  nonce : ℕ
  gasPrice : ℕ
  gas : ℕ
  value : ℕ
  heapSize : ℕ
  deriving DecidableEq, Repr

/-- `VerifiedTransaction`: a signed transaction with its origin, delay condition, insertion time
and insertion id. -/
structure VerifiedTransaction where
  transaction : SignedTransaction
  origin : TransactionOrigin
  condition : Option Condition
  insertionTime : ℕ
  insertionId : ℕ
  deriving DecidableEq, Repr

namespace VerifiedTransaction

variable (tx : VerifiedTransaction)

def hash : H256 := tx.transaction.hash

def sender : Address := tx.transaction.sender

def nonce : ℕ := tx.transaction.nonce

/-- `VerifiedTransaction::cost`: the value plus the whole gas payment. -/
def cost : ℕ := tx.transaction.value + tx.transaction.gasPrice * tx.transaction.gas

end VerifiedTransaction

/-- `TransactionOrder`: the record by which a queued transaction is ranked. -/
structure TransactionOrder where
  /-- The transaction's nonce minus the sender's expected nonce. -/
  nonceHeight : ℕ
  gasPrice : ℕ
  /-- `(gas >> 15) * 10_000_000_000`, used by `GasFactorAndGasPrice`. -/
  gasFactor : ℕ
  gas : ℕ
  memoryUsage : ℕ
  strategy : PrioritizationStrategy
  hash : H256
  insertionId : ℕ
  origin : TransactionOrigin
  penalties : ℕ
  deriving DecidableEq, Repr

namespace TransactionOrder

/-- `TransactionOrder::for_transaction`. -/
def forTransaction (tx : VerifiedTransaction) (baseNonce : ℕ) (strategy : PrioritizationStrategy) :
    TransactionOrder where
  nonceHeight := tx.nonce - baseNonce
  gasPrice := tx.transaction.gasPrice
  gasFactor := (tx.transaction.gas / 2 ^ 15) * 10000000000
  gas := tx.transaction.gas
  memoryUsage := tx.transaction.heapSize
  strategy := strategy
  hash := tx.hash
  insertionId := tx.insertionId
  origin := tx.origin
  penalties := 0

/-- `TransactionOrder::update_height`. -/
def updateHeight (o : TransactionOrder) (nonce baseNonce : ℕ) : TransactionOrder :=
  { o with nonceHeight := nonce - baseNonce }

/-- `TransactionOrder::penalize` (`saturating_add` never saturates on a natural number). -/
def penalize (o : TransactionOrder) : TransactionOrder :=
  { o with penalties := o.penalties + 1 }

/-- The tail of `TransactionOrder::cmp` shared by every strategy: higher gas price first, then
earlier insertion, then the hash. -/
def cmpTail (a b : TransactionOrder) : Ordering :=
  if a.gasPrice ≠ b.gasPrice then compare b.gasPrice a.gasPrice
  else if a.insertionId ≠ b.insertionId then compare a.insertionId b.insertionId
  else compare a.hash b.hash

/-- `TransactionOrder::cmp`. The strategy is read from the left operand only, as in the source. -/
def cmp (a b : TransactionOrder) : Ordering :=
  if a.penalties ≠ b.penalties then compare a.penalties b.penalties
  else if a.origin ≠ b.origin then a.origin.cmp b.origin
  else if a.nonceHeight ≠ b.nonceHeight then compare a.nonceHeight b.nonceHeight
  else
    match a.strategy with
    | .gasAndGasPrice => if a.gas ≠ b.gas then compare a.gas b.gas else cmpTail a b
    | .gasFactorAndGasPrice =>
      -- `(gp1 - g1) > (gp2 - g2)` is decided as `gp1 + g2 > gp2 + g1` to avoid underflow
      let fA := a.gasPrice + b.gasFactor
      let fB := b.gasPrice + a.gasFactor
      if fA ≠ fB then compare fB fA else cmpTail a b
    | .gasPriceOnly => cmpTail a b

-- Several proofs below unfold these at once: their equation lemmas are generated here, once.
section
attribute [local simp] TransactionOrder.cmp
end

/-- Fewer penalties rank first, whatever the nonce heights. -/
theorem cmp_of_penalties_lt {a b : TransactionOrder} (h : a.penalties < b.penalties) :
    a.cmp b = .lt := by
  rw [cmp, if_pos (Nat.ne_of_lt h)]
  exact compare_lt_iff_lt.mpr h

/-- Of two orders with as many penalties, a retracted one ranks first, whatever the nonce
heights: the origin is compared before the nonce height. -/
theorem cmp_of_origin_retractedBlock {a b : TransactionOrder} (hp : a.penalties = b.penalties)
    (ha : a.origin = .retractedBlock) (hb : b.origin ≠ .retractedBlock) : a.cmp b = .lt := by
  have hne : a.origin ≠ b.origin := ha ▸ Ne.symm hb
  rw [cmp, if_neg (not_not.mpr hp), if_pos hne, ha, TransactionOrigin.cmp, if_neg hb]

end TransactionOrder

/-! ## The order is lawful -/

namespace TransactionOrigin

/-- The place of an origin in `TransactionOrigin::cmp`. -/
def rank : TransactionOrigin → ℕ
  | .retractedBlock => 0
  | .«local» => 1
  | .external => 2

theorem cmp_eq_compare_rank (a b : TransactionOrigin) : a.cmp b = compare a.rank b.rank := by
  cases a <;> cases b <;> rfl

theorem rank_injective : Function.Injective rank := by
  intro a b h
  cases a <;> cases b <;> first | rfl | cases h

end TransactionOrigin

/-- A level of a lexicographic comparison: `if x ≠ y then c else o` is `c.then o` whenever the level
`c` reports `eq` exactly on `x = y`. -/
theorem ite_ne_eq_then {α : Type} [DecidableEq α] {x y : α} {c : Ordering} (o : Ordering)
    (h : c = .eq ↔ x = y) : (if x ≠ y then c else o) = c.then o := by
  by_cases hxy : x = y
  · rw [if_neg (not_not.mpr hxy), h.mpr hxy, Ordering.eq_then]
  · rw [if_pos hxy]
    cases c
    · rfl
    · exact absurd (h.mp rfl) hxy
    · rfl

/-- Comparing `q + r` with `p + t` compares `r - p` with `t - q`: the cross sums `cmp` adds to
avoid an underflow decide the order of the differences. -/
theorem compare_add_add (p q r t : ℕ) :
    compare (q + r) (p + t) = compare ((r : ℤ) - p) ((t : ℤ) - q) := by
  rcases lt_trichotomy (q + r) (p + t) with h | h | h
  · rw [compare_lt_iff_lt.mpr h, Int.compare_eq_lt.mpr (by omega)]
  · rw [compare_eq_iff_eq.mpr h, Int.compare_eq_eq.mpr (by omega)]
  · rw [compare_gt_iff_gt.mpr h, Int.compare_eq_gt.mpr (by omega)]

namespace TransactionOrder

/-- The comparison `cmp` makes at its strategy's level, as a comparison of keys: the gas limit, or
`gas_factor - gas_price`, or nothing. -/
def strategyCmp : PrioritizationStrategy → TransactionOrder → TransactionOrder → Ordering
  | .gasAndGasPrice => compareOn (·.gas)
  | .gasFactorAndGasPrice => compareOn fun o ↦ (o.gasFactor : ℤ) - o.gasPrice
  | .gasPriceOnly => compareOn fun _ ↦ (0 : ℕ)

instance (s : PrioritizationStrategy) : Std.TransCmp (strategyCmp s) := by
  cases s <;> (unfold strategyCmp; infer_instance)

/-- `cmp` for orders of strategy `s`, as the lexicographic comparison of seven keys. -/
def lexCmp (s : PrioritizationStrategy) : TransactionOrder → TransactionOrder → Ordering :=
  compareLex (compareOn (·.penalties)) <| compareLex (compareOn (·.origin.rank)) <|
    compareLex (compareOn (·.nonceHeight)) <| compareLex (strategyCmp s) <|
      compareLex (fun a b ↦ compareOn (·.gasPrice) b a) <|
        compareLex (compareOn (·.insertionId)) (compareOn (·.hash))

instance (s : PrioritizationStrategy) : Std.TransCmp (lexCmp s) := by
  unfold lexCmp
  infer_instance

theorem cmpTail_eq (a b : TransactionOrder) :
    a.cmpTail b = ((compare b.gasPrice a.gasPrice).then
      ((compare a.insertionId b.insertionId).then (compare a.hash b.hash))) := by
  rw [cmpTail, ite_ne_eq_then _ (compare_eq_iff_eq.trans eq_comm),
    ite_ne_eq_then _ compare_eq_iff_eq]

/-- `cmp` is the lexicographic comparison of the keys of its left operand's strategy. -/
theorem cmp_eq_lexCmp {s : PrioritizationStrategy} {a : TransactionOrder} (hs : a.strategy = s)
    (b : TransactionOrder) : a.cmp b = lexCmp s a b := by
  have horigin : a.origin.cmp b.origin = .eq ↔ a.origin = b.origin := by
    rw [TransactionOrigin.cmp_eq_compare_rank, compare_eq_iff_eq]
    exact TransactionOrigin.rank_injective.eq_iff
  rw [cmp, ite_ne_eq_then _ compare_eq_iff_eq, ite_ne_eq_then _ horigin,
    ite_ne_eq_then _ compare_eq_iff_eq, TransactionOrigin.cmp_eq_compare_rank, hs]
  simp only [lexCmp, compareLex, compareOn]
  cases s with
  | gasAndGasPrice =>
    rw [ite_ne_eq_then _ compare_eq_iff_eq, cmpTail_eq]
    rfl
  | gasFactorAndGasPrice =>
    dsimp only
    rw [ite_ne_eq_then _ ((compare_eq_iff_eq).trans eq_comm), cmpTail_eq, compare_add_add]
    rfl
  | gasPriceOnly =>
    rw [cmpTail_eq]
    rfl

/-- **`TransactionOrder::cmp` is a lawful total order** on the orders of one strategy: oriented and
transitive (`Std.TransCmp`), reflexive, and antisymmetric for the equality it induces. Orders it
finds equal have one hash. Under `GasFactorAndGasPrice` it ranks by `gas_price - gas_factor`,
larger first, and the `U256` sums it computes for that do not overflow below `2¹²⁸`. -/
theorem cmp_isLawfulOrder (s : PrioritizationStrategy) :
    Std.TransCmp (fun a b : {o : TransactionOrder // o.strategy = s} ↦ a.1.cmp b.1) ∧
      (∀ a : TransactionOrder, a.cmp a = .eq) ∧
      (∀ a b : TransactionOrder, a.strategy = s → b.strategy = s →
        (a.cmp b).isLE → (b.cmp a).isLE → a.cmp b = .eq) ∧
      (∀ a b : TransactionOrder, a.cmp b = .eq → a.hash = b.hash) ∧
      (∀ a b : TransactionOrder, a.strategy = .gasFactorAndGasPrice →
        a.penalties = b.penalties → a.origin = b.origin → a.nonceHeight = b.nonceHeight →
        (a.gasPrice : ℤ) - a.gasFactor ≠ b.gasPrice - b.gasFactor →
        a.cmp b = compare ((b.gasPrice : ℤ) - b.gasFactor) (a.gasPrice - a.gasFactor)) ∧
      (∀ a b : TransactionOrder, a.gasPrice < 2 ^ 128 → b.gasFactor < 2 ^ 128 →
        addU256 a.gasPrice b.gasFactor = .ok (a.gasPrice + b.gasFactor)) := by
  -- on one strategy `cmp` is `lexCmp`, which is lawful by construction
  have htrans : Std.TransCmp (fun a b : {o : TransactionOrder // o.strategy = s} ↦ a.1.cmp b.1) :=
    { eq_swap := fun {a b} ↦ by
        rw [cmp_eq_lexCmp a.2, cmp_eq_lexCmp b.2]
        exact Std.OrientedCmp.eq_swap
      isLE_trans := fun {a b c} hab hbc ↦ by
        rw [cmp_eq_lexCmp a.2] at hab ⊢
        rw [cmp_eq_lexCmp b.2] at hbc
        exact Std.TransCmp.isLE_trans hab hbc }
  refine ⟨htrans, fun a ↦ ?_, fun a b ha hb hab hba ↦ ?_, fun a b h ↦ ?_, ?_, ?_⟩
  · rw [cmp_eq_lexCmp rfl]
    exact Std.ReflCmp.compare_self
  · rw [cmp_eq_lexCmp ha] at hab ⊢
    rw [cmp_eq_lexCmp hb] at hba
    exact Std.OrientedCmp.isLE_antisymm hab hba
  · -- the hash is the last key compared
    rw [cmp_eq_lexCmp rfl] at h
    simp only [lexCmp, compareLex_eq_eq, compareOn] at h
    exact compare_eq_iff_eq.mp h.2.2.2.2.2.2
  · intro a b ha hp ho hn hne
    have hsums : a.gasPrice + b.gasFactor ≠ b.gasPrice + a.gasFactor := by omega
    rw [cmp, if_neg (not_not.mpr hp), if_neg (not_not.mpr ho), if_neg (not_not.mpr hn), ha]
    dsimp only
    rw [if_pos hsums, Nat.add_comm b.gasPrice, Nat.add_comm a.gasPrice, compare_add_add]
  · intro a b ha hb
    rw [addU256, if_pos (by omega)]


/-- Of two orders alike up to their gas, the one with the larger `gas_price - gas_factor` ranks
first under `GasFactorAndGasPrice`, although its gas price is lower. -/
theorem cmp_ranks_net_gas_price :
    (⟨0, 5, 1, 0, 0, .gasFactorAndGasPrice, 1, 0, .external, 0⟩ : TransactionOrder).cmp
      ⟨0, 6, 3, 0, 0, .gasFactorAndGasPrice, 2, 1, .external, 0⟩ = .lt :=
  ((cmp_isLawfulOrder .gasFactorAndGasPrice).2.2.2.2.1
    ⟨0, 5, 1, 0, 0, .gasFactorAndGasPrice, 1, 0, .external, 0⟩
    ⟨0, 6, 3, 0, 0, .gasFactorAndGasPrice, 2, 1, .external, 0⟩ rfl rfl rfl rfl (by decide)).trans
    (by decide)

end TransactionOrder

end AionR
