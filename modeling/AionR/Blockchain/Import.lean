import AionR.Blockchain.Provider
import AionR.Lib.U256
import AionR.Lib.Except

/-!
# Importing a block into the chain

`BlockChain::insert_block` and `commit` (`src/core/src/blockchain/blockchain.rs`). A block is
stored with its details. When its total difficulty beats the best block's, `tree_route` finds
the way from the best block to the new block's parent. The blocks on the old side are retracted
and those on the new side enacted: the canonical index `block_hashes` gets the enacted blocks
from the common ancestor up, and the transaction index drops the retracted transactions and
adds the enacted ones. The updates wait in pending caches until `commit`.

## Model

The extras are maps from keys to values, read as `read_with_cache` returns them: the database
under its caches, as they stand after the batch of the last import has been written. The pending
caches are maps too, and `commit` lays them over the committed ones. Receipts, blooms, the
headers and the cache manager are left out: nothing here reads them. A panic returns
`Except String` with its message.

`tree_route` walks parent links in three loops that end on a well-formed chain, where every
parent is one height lower. Each walk is a structural recursion on a fuel: the first two on the
height they start from, the third on the common height plus one. A walk that runs out of fuel,
which only happens on a chain that is not well-formed, returns `None`. On such a chain the code
would keep looping.

## Main results

* `treeRoute_sound`: `tree_route` returns the walks down from both ends to a common ancestor.
* `treeRoute_deepest_common_ancestor`: on a block tree, `tree_route` returns a route between any
  two held blocks, through their deepest common ancestor.
* `importBlock_cases`: what one import does, the one lemma the invariants of
  `Blockchain.Canonical` read.
* A reorganisation to a heavier, shorter branch leaves the heights above the new best block in
  the canonical index: `prepare_block_hashes_update` writes heights and never removes one.
-/

namespace AionR

/-- `TransactionAddress`. -/
structure TransactionAddress where
  blockHash : Vector UInt8 32
  index : ℕ
  deriving DecidableEq, Repr

/-- `BestBlock`, without the block's bytes and timestamp, which nothing here reads. -/
structure BestBlock where
  hash : Vector UInt8 32
  number : ℕ
  totalDifficulty : ℕ
  deriving DecidableEq, Repr

/-- `BranchBecomingCanonChainData`. -/
structure BranchBecomingCanonChainData where
  ancestor : Vector UInt8 32
  enacted : List (Vector UInt8 32)
  retracted : List (Vector UInt8 32)
  deriving DecidableEq, Repr

/-- `BlockLocation`. -/
inductive BlockLocation where
  | canonChain
  | branch
  | branchBecomingCanonChain (data : BranchBecomingCanonChainData)
  deriving DecidableEq, Repr

/-- `BlockInfo`. -/
structure BlockInfo where
  hash : Vector UInt8 32
  number : ℕ
  totalDifficulty : ℕ
  location : BlockLocation
  deriving DecidableEq, Repr

/-- `TreeRoute`. -/
structure TreeRoute where
  blocks : List (Vector UInt8 32)
  ancestor : Vector UInt8 32
  index : ℕ
  deriving DecidableEq, Repr

/-- `ImportRoute`. -/
structure ImportRoute where
  retracted : List (Vector UInt8 32)
  enacted : List (Vector UInt8 32)
  omitted : List (Vector UInt8 32)
  deriving DecidableEq, Repr

/-- `ImportRoute::from(info)`. -/
def ImportRoute.ofInfo (info : BlockInfo) : ImportRoute :=
  match info.location with
  | .canonChain => ⟨[], [info.hash], []⟩
  | .branch => ⟨[], [], [info.hash]⟩
  | .branchBecomingCanonChain data => ⟨data.retracted, data.enacted ++ [info.hash], []⟩

/-- What `insert_block` reads of a block's bytes: the header's hash, parent, number and
difficulty, and the hashes of the transactions. -/
structure BlockView where
  hash : Vector UInt8 32
  parentHash : Vector UInt8 32
  number : ℕ
  difficulty : ℕ
  transactionHashes : List (Vector UInt8 32)
  deriving DecidableEq, Repr

/-- `ExtrasUpdate`, the parts `prepare_update` puts in the pending caches. -/
structure ExtrasUpdate where
  blockHashes : List (ℕ × Vector UInt8 32)
  blockDetails : List (Vector UInt8 32 × BlockDetails)
  transactionsAddresses : List (Vector UInt8 32 × Option TransactionAddress)
  info : BlockInfo

/-- `BlockChain`: the extras, the transaction hashes of the stored bodies, the best block, and
the updates pending until `commit`. -/
structure BlockChain where
  blockDetails : Vector UInt8 32 → Option BlockDetails
  blockHashes : ℕ → Option (Vector UInt8 32)
  transactionAddresses : Vector UInt8 32 → Option TransactionAddress
  blockBodies : Vector UInt8 32 → Option (List (Vector UInt8 32))
  bestBlock : BestBlock
  pendingBestBlock : Option BestBlock
  pendingBlockHashes : ℕ → Option (Vector UInt8 32)
  pendingBlockDetails : Vector UInt8 32 → Option BlockDetails
  pendingTransactionAddresses : Vector UInt8 32 → Option (Option TransactionAddress)

namespace BlockChain

/-- `BlockChain::new` on an empty database: the genesis block alone, and the best block. -/
def new (genesis : BlockView) : BlockChain where
  blockDetails h :=
    if h = genesis.hash then some ⟨genesis.number, genesis.difficulty, genesis.parentHash, []⟩
    else none
  blockHashes n := if n = genesis.number then some genesis.hash else none
  transactionAddresses _ := none
  blockBodies h := if h = genesis.hash then some genesis.transactionHashes else none
  bestBlock := ⟨genesis.hash, genesis.number, genesis.difficulty⟩
  pendingBestBlock := none
  pendingBlockHashes _ := none
  pendingBlockDetails _ := none
  pendingTransactionAddresses _ := none

variable (bc : BlockChain)

/-- The chain as verification reads it. -/
def toProvider : BlockProvider := ⟨bc.blockDetails, bc.blockHashes⟩

@[simp] theorem toProvider_blockDetails : bc.toProvider.blockDetails = bc.blockDetails := rfl

/-- `block_number`. -/
def blockNumber (hash : Vector UInt8 32) : Option ℕ := (bc.blockDetails hash).map (·.number)

/-- `is_known_child`. -/
def isKnownChild (parent hash : Vector UInt8 32) : Bool :=
  match bc.blockDetails parent with
  | some details => details.children.contains hash
  | none => false

/-- The first two loops of `tree_route`: go back from `current` while it is higher than
`target`, collecting the blocks left behind. -/
def climb : ℕ → Vector UInt8 32 → BlockDetails → ℕ → List (Vector UInt8 32) →
    Option (Vector UInt8 32 × BlockDetails × List (Vector UInt8 32))
  | fuel, current, details, target, branch =>
    if details.number > target then
      match fuel with
      | 0 => none
      | fuel + 1 => do
        let parentDetails ← bc.blockDetails details.parent
        climb fuel details.parent parentDetails target (branch ++ [current])
    else some (current, details, branch)

/-- The third loop of `tree_route`: go back on both sides until they meet. -/
def meet : ℕ → Vector UInt8 32 × BlockDetails × List (Vector UInt8 32) →
    Vector UInt8 32 × BlockDetails × List (Vector UInt8 32) →
    Option (Vector UInt8 32 × List (Vector UInt8 32) × List (Vector UInt8 32))
  | fuel, (currentFrom, fromDetails, fromBranch), (currentTo, toDetails, toBranch) =>
    if currentFrom ≠ currentTo then
      match fuel with
      | 0 => none
      | fuel + 1 => do
        let fromDetails' ← bc.blockDetails fromDetails.parent
        let toDetails' ← bc.blockDetails toDetails.parent
        meet fuel (fromDetails.parent, fromDetails', fromBranch ++ [currentFrom])
          (toDetails.parent, toDetails', toBranch ++ [currentTo])
    else some (currentFrom, fromBranch, toBranch)

/-- `tree_route`: the blocks from `from` back to the common ancestor, then on from it to `to`;
`index` counts the first part. -/
def treeRoute (from' to' : Vector UInt8 32) : Option TreeRoute := do
  let fromDetails ← bc.blockDetails from'
  let toDetails ← bc.blockDetails to'
  let (currentFrom, fromDetails, fromBranch) ←
    bc.climb fromDetails.number from' fromDetails toDetails.number []
  let (currentTo, toDetails, toBranch) ←
    bc.climb toDetails.number to' toDetails fromDetails.number []
  -- `assert_eq!` of the two heights; the one caller panics on `None` as well
  if fromDetails.number ≠ toDetails.number then none
  let (ancestor, fromBranch, toBranch) ←
    bc.meet (fromDetails.number + 1) (currentFrom, fromDetails, fromBranch)
      (currentTo, toDetails, toBranch)
  return ⟨fromBranch ++ toBranch.reverse, ancestor, fromBranch.length⟩

/-- `block_info`: the new block's total difficulty and where it lands. -/
def blockInfo (block : BlockView) : Except String BlockInfo := do
  let parentDetails ← match bc.blockDetails block.parentHash with
    | some details => pure details
    | none => throw "Invalid parent hash"
  let totalDifficulty ← addU256 parentDetails.totalDifficulty block.difficulty
  if totalDifficulty > bc.bestBlock.totalDifficulty then
    let route ← match bc.treeRoute bc.bestBlock.hash block.parentHash with
      | some route => pure route
      | none => throw "blocks being imported always within recent history; qed"
    if block.number ≠ parentDetails.number + 1 then
      throw "assertion failed: number == parent_details.number + 1"
    let location := match route.blocks with
      | [] => BlockLocation.canonChain
      | _ => .branchBecomingCanonChain
          ⟨route.ancestor, route.blocks.drop route.index, route.blocks.take route.index⟩
    return ⟨block.hash, block.number, totalDifficulty, location⟩
  else return ⟨block.hash, block.number, totalDifficulty, .branch⟩

/-- `prepare_block_hashes_update`: the enacted blocks from the ancestor's height up, then the new
block. Nothing is removed. -/
def prepareBlockHashesUpdate (block : BlockView) (info : BlockInfo) :
    Except String (List (ℕ × Vector UInt8 32)) :=
  match info.location with
  | .branch => pure []
  | .canonChain => pure [(block.number, info.hash)]
  | .branchBecomingCanonChain data => do
    let ancestorNumber ← match bc.blockNumber data.ancestor with
      | some n => pure n
      | none => throw "Block number of ancestor is always in DB"
    let startNumber := ancestorNumber + 1
    return data.enacted.mapIdx (fun index hash ↦ (startNumber + index, hash)) ++
      [(block.number, info.hash)]

/-- `prepare_block_details_update`: the parent gains a child, and the block gets its details. -/
def prepareBlockDetailsUpdate (block : BlockView) (info : BlockInfo) :
    Except String (List (Vector UInt8 32 × BlockDetails)) := do
  let parentDetails ← match bc.blockDetails block.parentHash with
    | some details => pure details
    | none => throw "Invalid parent hash"
  let parentDetails := { parentDetails with children := parentDetails.children ++ [info.hash] }
  return [(block.parentHash, parentDetails),
    (info.hash, ⟨block.number, info.totalDifficulty, block.parentHash, []⟩)]

/-- The transaction addresses of the block `hash`. -/
def addressesOf (hash : Vector UInt8 32) (transactionHashes : List (Vector UInt8 32)) :
    List (Vector UInt8 32 × Option TransactionAddress) :=
  transactionHashes.mapIdx fun index txHash ↦ (txHash, some ⟨hash, index⟩)

/-- `prepare_transaction_addresses_update`: the retracted transactions removed, then the enacted
ones and the new block's added, later entries overriding earlier ones. -/
def prepareTransactionAddressesUpdate (block : BlockView) (info : BlockInfo) :
    Except String (List (Vector UInt8 32 × Option TransactionAddress)) :=
  match info.location with
  | .canonChain => pure (addressesOf info.hash block.transactionHashes)
  | .branchBecomingCanonChain data => do
    let retracted ← data.retracted.mapM fun hash ↦
      match bc.blockBodies hash with
      | some body => pure (body.map fun txHash ↦ (txHash, none))
      | none => throw "Retracted block must be in database."
    let addresses ← data.enacted.mapM fun hash ↦
      match bc.blockBodies hash with
      | some body => pure (addressesOf hash body)
      | none => throw "Enacted block must be in database."
    return retracted.flatten ++ addresses.flatten ++ addressesOf info.hash block.transactionHashes
  | .branch => pure []

/-- `prepare_update`: the pending best block and the pending caches, overwritten key by key. -/
def prepareUpdate (update : ExtrasUpdate) (isBest : Bool) : BlockChain :=
  { bc with
    pendingBestBlock :=
      if isBest ∧ update.info.location ≠ .branch then
        some ⟨update.info.hash, update.info.number, update.info.totalDifficulty⟩
      else bc.pendingBestBlock
    pendingBlockDetails := update.blockDetails.foldl (fun m entry ↦
      Function.update m entry.1 (some entry.2)) bc.pendingBlockDetails
    pendingBlockHashes := update.blockHashes.foldl (fun m entry ↦
      Function.update m entry.1 (some entry.2)) bc.pendingBlockHashes
    pendingTransactionAddresses := update.transactionsAddresses.foldl (fun m entry ↦
      Function.update m entry.1 (some entry.2)) bc.pendingTransactionAddresses }

/-- `insert_block`: nothing for a known child; otherwise the body is stored and the extras
prepared. -/
def insertBlock (block : BlockView) : Except String (BlockChain × ImportRoute) :=
  if bc.isKnownChild block.parentHash block.hash then pure (bc, ⟨[], [], []⟩)
  else if bc.pendingBestBlock.isSome then
    throw "assertion failed: self.pending_best_block.read().is_none()"
  else do
    let info ← bc.blockInfo block
    let blockHashes ← bc.prepareBlockHashesUpdate block info
    let blockDetails ← bc.prepareBlockDetailsUpdate block info
    let transactionsAddresses ← bc.prepareTransactionAddressesUpdate block info
    let bc := bc.prepareUpdate ⟨blockHashes, blockDetails, transactionsAddresses, info⟩ true
    return ({ bc with
      blockBodies := Function.update bc.blockBodies block.hash (some block.transactionHashes) },
      ImportRoute.ofInfo info)

/-- `commit`: the pending best block and caches become the committed ones. -/
def commit : BlockChain :=
  { bc with
    bestBlock := bc.pendingBestBlock.getD bc.bestBlock
    pendingBestBlock := none
    blockHashes := fun n ↦ (bc.pendingBlockHashes n).or (bc.blockHashes n)
    blockDetails := fun h ↦ (bc.pendingBlockDetails h).or (bc.blockDetails h)
    transactionAddresses := fun h ↦
      match bc.pendingTransactionAddresses h with
      | some address => address
      | none => bc.transactionAddresses h
    pendingBlockHashes := fun _ ↦ none
    pendingBlockDetails := fun _ ↦ none
    pendingTransactionAddresses := fun _ ↦ none }

/-- An import as the client makes it: `insert_block`, then `commit`. -/
def importBlock (block : BlockView) : Except String BlockChain := do
  let (bc, _) ← bc.insertBlock block
  return bc.commit

/-- A run of imports. -/
def importBlocks : List BlockView → BlockChain → Except String BlockChain
  | [], bc => pure bc
  | block :: blocks, bc => do
    let bc ← bc.importBlock block
    importBlocks blocks bc

/-! ## What `tree_route` returns -/

/-- The first two loops of `tree_route` stop at a block no higher than the target, and add the
walk down to it to the blocks collected before. -/
theorem climb_sound :
    ∀ (fuel : ℕ) {current result : Vector UInt8 32} {details resultDetails : BlockDetails}
      {target : ℕ} {branch branch' : List (Vector UInt8 32)},
      bc.blockDetails current = some details →
      bc.climb fuel current details target branch = some (result, resultDetails, branch') →
      ∃ l, branch' = branch ++ l ∧ bc.toProvider.DownPath current l result ∧
        bc.blockDetails result = some resultDetails ∧ resultDetails.number ≤ target := by
  intro fuel
  induction fuel with
  | zero =>
    intro current result details resultDetails target branch branch' hcurrent h
    unfold climb at h
    split_ifs at h with hgt
    cases h
    exact ⟨[], (List.append_nil _).symm, .nil _, hcurrent, Nat.le_of_not_lt hgt⟩
  | succ fuel ih =>
    intro current result details resultDetails target branch branch' hcurrent h
    unfold climb at h
    split_ifs at h with hgt
    · -- one step down to the parent, which joins the walk
      obtain ⟨parentDetails, hparent, h⟩ := Option.bind_eq_some_iff.mp h
      obtain ⟨l, rfl, hpath, hresult, hle⟩ := ih hparent h
      exact ⟨current :: l, by rw [List.append_assoc, List.singleton_append], .cons hcurrent hpath,
        hresult, hle⟩
    · cases h
      exact ⟨[], (List.append_nil _).symm, .nil _, hcurrent, Nat.le_of_not_lt hgt⟩

/-- The third loop of `tree_route` stops at a block both walks reach, and adds each walk down to
the blocks its side collected before. -/
theorem meet_sound :
    ∀ (fuel : ℕ) {currentFrom currentTo ancestor : Vector UInt8 32}
      {fromDetails toDetails : BlockDetails}
      {fromBranch toBranch fromBranch' toBranch' : List (Vector UInt8 32)},
      bc.blockDetails currentFrom = some fromDetails →
      bc.blockDetails currentTo = some toDetails →
      bc.meet fuel (currentFrom, fromDetails, fromBranch) (currentTo, toDetails, toBranch) =
        some (ancestor, fromBranch', toBranch') →
      ∃ lf lt, fromBranch' = fromBranch ++ lf ∧ toBranch' = toBranch ++ lt ∧
        bc.toProvider.DownPath currentFrom lf ancestor ∧
        bc.toProvider.DownPath currentTo lt ancestor ∧ ∃ da, bc.blockDetails ancestor = some da := by
  intro fuel
  induction fuel with
  | zero =>
    intro currentFrom currentTo ancestor fromDetails toDetails fromBranch toBranch fromBranch'
      toBranch' hfrom hto h
    unfold meet at h
    split_ifs at h with hne
    cases h
    obtain rfl : currentFrom = currentTo := not_not.mp hne
    exact ⟨[], [], (List.append_nil _).symm, (List.append_nil _).symm, .nil _, .nil _, _, hfrom⟩
  | succ fuel ih =>
    intro currentFrom currentTo ancestor fromDetails toDetails fromBranch toBranch fromBranch'
      toBranch' hfrom hto h
    unfold meet at h
    split_ifs at h with hne
    · -- both sides step down to their parents
      obtain ⟨fromDetails', hfrom', h⟩ := Option.bind_eq_some_iff.mp h
      obtain ⟨toDetails', hto', h⟩ := Option.bind_eq_some_iff.mp h
      obtain ⟨lf, lt, rfl, rfl, hpf, hpt, hanc⟩ := ih hfrom' hto' h
      refine ⟨currentFrom :: lf, currentTo :: lt, ?_, ?_, .cons hfrom hpf, .cons hto hpt, hanc⟩
      · rw [List.append_assoc, List.singleton_append]
      · rw [List.append_assoc, List.singleton_append]
    · cases h
      obtain rfl : currentFrom = currentTo := not_not.mp hne
      exact ⟨[], [], (List.append_nil _).symm, (List.append_nil _).symm, .nil _, .nil _, _, hfrom⟩

/-- What a route returned by `tree_route` is made of: both ends are held, the first two loops bring
them to one height, and the third loop meets. -/
theorem treeRoute_eq_some {from' to' : Vector UInt8 32} {route : TreeRoute}
    (h : bc.treeRoute from' to' = some route) :
    ∃ fromDetails toDetails currentFrom fromDetails' fromBranch currentTo toDetails' toBranch
      ancestor fromBranch' toBranch',
      bc.blockDetails from' = some fromDetails ∧ bc.blockDetails to' = some toDetails ∧
      bc.climb fromDetails.number from' fromDetails toDetails.number [] =
        some (currentFrom, fromDetails', fromBranch) ∧
      bc.climb toDetails.number to' toDetails fromDetails'.number [] =
        some (currentTo, toDetails', toBranch) ∧
      fromDetails'.number = toDetails'.number ∧
      bc.meet (fromDetails'.number + 1) (currentFrom, fromDetails', fromBranch)
        (currentTo, toDetails', toBranch) = some (ancestor, fromBranch', toBranch') ∧
      route = ⟨fromBranch' ++ toBranch'.reverse, ancestor, fromBranch'.length⟩ := by
  unfold treeRoute at h
  obtain ⟨fromDetails, hfrom, h⟩ := Option.bind_eq_some_iff.mp h
  obtain ⟨toDetails, hto, h⟩ := Option.bind_eq_some_iff.mp h
  obtain ⟨⟨currentFrom, fromDetails', fromBranch⟩, hclimbFrom, h⟩ := Option.bind_eq_some_iff.mp h
  obtain ⟨⟨currentTo, toDetails', toBranch⟩, hclimbTo, h⟩ := Option.bind_eq_some_iff.mp h
  dsimp only at h
  split_ifs at h with hne
  · simp at h
  obtain ⟨⟨ancestor, fromBranch', toBranch'⟩, hmeet, h⟩ := Option.bind_eq_some_iff.mp h
  cases h
  exact ⟨_, _, _, _, _, _, _, _, _, _, _, hfrom, hto, hclimbFrom, hclimbTo, not_not.mp hne, hmeet,
    rfl⟩

/-- `tree_route` returns the walks down from both ends to a common ancestor the chain holds:
the blocks of the first walk, then those of the second from the bottom up. -/
theorem treeRoute_sound {from' to' : Vector UInt8 32} {route : TreeRoute}
    (h : bc.treeRoute from' to' = some route) :
    ∃ lf lt, route = ⟨lf ++ lt.reverse, route.ancestor, lf.length⟩ ∧
      bc.toProvider.DownPath from' lf route.ancestor ∧
      bc.toProvider.DownPath to' lt route.ancestor ∧
      ∃ da, bc.blockDetails route.ancestor = some da := by
  obtain ⟨fromDetails, toDetails, currentFrom, fromDetails', fromBranch, currentTo, toDetails',
    toBranch, ancestor, fromBranch', toBranch', hfrom, hto, hclimbFrom, hclimbTo, -, hmeet,
    rfl⟩ := bc.treeRoute_eq_some h
  -- the walks of the first two loops, continued by those of the third
  obtain ⟨lf₁, rfl, hpf₁, hcf, -⟩ := bc.climb_sound _ hfrom hclimbFrom
  obtain ⟨lt₁, rfl, hpt₁, hct, -⟩ := bc.climb_sound _ hto hclimbTo
  obtain ⟨lf₂, lt₂, rfl, rfl, hpf₂, hpt₂, hanc⟩ := bc.meet_sound _ hcf hct hmeet
  exact ⟨_, _, rfl, hpf₁.append _ hpf₂, hpt₁.append _ hpt₂, hanc⟩

/-! ## `tree_route` on a block tree

On a block tree (`BlockProvider.IsTree`) the three loops of `tree_route` never miss a parent and
their fuel suffices, so a route is returned for any two held blocks. The third loop stops at the
first pair of equal blocks, and a common ancestor is never left behind on the way down: the route's
ancestor is the deepest common ancestor of the two ends.
-/

section Tree

variable {bc}

/-- On a block tree, the first two loops of `tree_route` run to the end when the fuel covers the
height they start from, and stop at the lower of that height and the target. -/
theorem climb_eq_some (htree : bc.toProvider.IsTree) :
    ∀ (fuel : ℕ) {current : Vector UInt8 32} {details : BlockDetails} (target : ℕ)
      (branch : List (Vector UInt8 32)),
      bc.blockDetails current = some details → details.number ≤ fuel →
      ∃ result resultDetails branch',
        bc.climb fuel current details target branch = some (result, resultDetails, branch') ∧
        resultDetails.number = min details.number target := by
  intro fuel
  induction fuel with
  | zero =>
    intro current details target branch _ hfuel
    refine ⟨current, details, branch, ?_, by omega⟩
    unfold climb
    rw [if_neg (by omega)]
  | succ fuel ih =>
    intro current details target branch hcurrent hfuel
    unfold climb
    split_ifs with hgt
    · -- the parent is held one height lower, and the walk goes on from it
      obtain ⟨parentDetails, hparent, hnumber⟩ := htree.parent _ hcurrent (by omega)
      obtain ⟨result, resultDetails, branch', hr, hrnumber⟩ :=
        ih target (branch ++ [current]) hparent (by omega)
      refine ⟨result, resultDetails, branch', ?_, by omega⟩
      rw [toProvider_blockDetails] at hparent
      dsimp only
      rw [hparent]
      exact hr
    · exact ⟨current, details, branch, rfl, by omega⟩

/-- A walk of the first two loops keeps every ancestor of its start that is not above the target:
such an ancestor is never the block the walk leaves. -/
theorem climb_ancestor :
    ∀ (fuel : ℕ) {current c : Vector UInt8 32} {details : BlockDetails} {target : ℕ}
      {branch : List (Vector UInt8 32)} {r : Vector UInt8 32 × BlockDetails × List (Vector UInt8 32)},
      bc.blockDetails current = some details → bc.toProvider.Ancestor c current →
      (∀ dc, bc.blockDetails c = some dc → dc.number ≤ target) →
      bc.climb fuel current details target branch = some r → bc.toProvider.Ancestor c r.1 := by
  intro fuel
  induction fuel with
  | zero =>
    intro current c details target branch r _ hc _ h
    unfold climb at h
    split_ifs at h
    cases h
    exact hc
  | succ fuel ih =>
    intro current c details target branch r hcurrent hc hlow h
    unfold climb at h
    split_ifs at h with hgt
    · obtain ⟨parentDetails, hparent, h⟩ := Option.bind_eq_some_iff.mp h
      -- `c` is not the block left behind, which is above the target
      have hne : c ≠ current := by
        rintro rfl
        exact absurd (hlow details hcurrent) (by omega)
      exact ih hparent (hc.parent_of_ne _ hne hcurrent) hlow h
    · cases h
      exact hc

/-- On a block tree, the third loop of `tree_route` runs to the end from two held blocks of one
height when the fuel is above that height: two blocks of height 0 are the root. -/
theorem meet_eq_some (htree : bc.toProvider.IsTree) :
    ∀ (fuel : ℕ) {currentFrom currentTo : Vector UInt8 32} {fromDetails toDetails : BlockDetails}
      (fromBranch toBranch : List (Vector UInt8 32)),
      bc.blockDetails currentFrom = some fromDetails → bc.blockDetails currentTo = some toDetails →
      fromDetails.number = toDetails.number → fromDetails.number < fuel →
      ∃ r, bc.meet fuel (currentFrom, fromDetails, fromBranch) (currentTo, toDetails, toBranch) =
        some r := by
  intro fuel
  induction fuel with
  | zero =>
    intro _ _ _ _ _ _ _ _ _ hfuel
    exact absurd hfuel (Nat.not_lt_zero _)
  | succ fuel ih =>
    intro currentFrom currentTo fromDetails toDetails fromBranch toBranch hfrom hto hnumber hfuel
    unfold meet
    split_ifs with hne
    · -- two blocks of one height that differ are above the root, and both parents are held
      have hpos : 0 < fromDetails.number := by
        by_contra hzero
        exact hne (htree.root_unique _ _ _ _ hfrom hto (by omega) (by omega))
      obtain ⟨fromDetails', hfrom', hnf⟩ := htree.parent _ hfrom hpos
      obtain ⟨toDetails', hto', hnt⟩ := htree.parent _ hto (by omega)
      rw [toProvider_blockDetails] at hfrom' hto'
      dsimp only
      rw [hfrom', hto']
      exact ih _ _ hfrom' hto' (by omega) (by omega)
    · exact ⟨_, rfl⟩

/-- On a chain numbered by height, the third loop of `tree_route` stops at a block that every common
ancestor of its two starting blocks, of one height, goes through. -/
theorem meet_deepest (hparents : bc.toProvider.ParentsNumbered) :
    ∀ (fuel : ℕ) {currentFrom currentTo c : Vector UInt8 32} {fromDetails toDetails : BlockDetails}
      {fromBranch toBranch : List (Vector UInt8 32)}
      {r : Vector UInt8 32 × List (Vector UInt8 32) × List (Vector UInt8 32)},
      bc.blockDetails currentFrom = some fromDetails → bc.blockDetails currentTo = some toDetails →
      fromDetails.number = toDetails.number →
      bc.toProvider.Ancestor c currentFrom → bc.toProvider.Ancestor c currentTo →
      bc.meet fuel (currentFrom, fromDetails, fromBranch) (currentTo, toDetails, toBranch) =
        some r →
      bc.toProvider.Ancestor c r.1 := by
  intro fuel
  induction fuel with
  | zero =>
    intro currentFrom currentTo c fromDetails toDetails fromBranch toBranch r _ _ _ hcf _ h
    unfold meet at h
    split_ifs at h
    cases h
    exact hcf
  | succ fuel ih =>
    intro currentFrom currentTo c fromDetails toDetails fromBranch toBranch r hfrom hto hnumber
      hcf hct h
    unfold meet at h
    split_ifs at h with hne
    · obtain ⟨fromDetails', hfrom', h⟩ := Option.bind_eq_some_iff.mp h
      obtain ⟨toDetails', hto', h⟩ := Option.bind_eq_some_iff.mp h
      -- `c` is neither block: one would be an ancestor of the other at its own height
      have hneFrom : c ≠ currentFrom := by
        rintro rfl
        exact hne (hct.eq_of_number_eq _ hparents hfrom hto hnumber)
      have hneTo : c ≠ currentTo := by
        rintro rfl
        exact hne (hcf.eq_of_number_eq _ hparents hto hfrom hnumber.symm).symm
      have hnf := hparents _ _ _ hfrom hfrom'
      have hnt := hparents _ _ _ hto hto'
      exact ih hfrom' hto' (by omega) (hcf.parent_of_ne _ hneFrom hfrom)
        (hct.parent_of_ne _ hneTo hto) h
    · cases h
      exact hcf

/-- On a chain numbered by height, every common ancestor of the two ends of a route is an ancestor
of the route's common ancestor. -/
theorem treeRoute_deepest (hparents : bc.toProvider.ParentsNumbered)
    {from' to' c : Vector UInt8 32} {route : TreeRoute} (h : bc.treeRoute from' to' = some route)
    (hcf : bc.toProvider.Ancestor c from') (hct : bc.toProvider.Ancestor c to') :
    bc.toProvider.Ancestor c route.ancestor := by
  obtain ⟨fromDetails, toDetails, currentFrom, fromDetails', fromBranch, currentTo, toDetails',
    toBranch, ancestor, fromBranch', toBranch', hfrom, hto, hclimbFrom, hclimbTo, hnumber, hmeet,
    rfl⟩ := bc.treeRoute_eq_some h
  obtain ⟨-, -, -, hcurrentFrom, -⟩ := bc.climb_sound _ hfrom hclimbFrom
  obtain ⟨-, -, -, hcurrentTo, -⟩ := bc.climb_sound _ hto hclimbTo
  -- the walks down keep `c`, which is no higher than either end
  have hcFrom : bc.toProvider.Ancestor c currentFrom :=
    climb_ancestor _ hfrom hcf
      (fun dc hdc ↦ hct.number_le _ (fun hh hd ↦ hparents _ _ _ hh hd) hdc hto) hclimbFrom
  have hcTo : bc.toProvider.Ancestor c currentTo :=
    climb_ancestor _ hto hct
      (fun dc hdc ↦ hcFrom.number_le _ (fun hh hd ↦ hparents _ _ _ hh hd) hdc hcurrentFrom)
      hclimbTo
  exact meet_deepest hparents _ hcurrentFrom hcurrentTo hnumber hcFrom hcTo hmeet

/-- On a block tree, `tree_route` returns a route between any two held blocks. -/
theorem treeRoute_isSome (htree : bc.toProvider.IsTree) {from' to' : Vector UInt8 32}
    {df dt : BlockDetails} (hfrom : bc.blockDetails from' = some df)
    (hto : bc.blockDetails to' = some dt) :
    ∃ route, bc.treeRoute from' to' = some route := by
  obtain ⟨currentFrom, fromDetails, fromBranch, hclimbFrom, hnf⟩ :=
    climb_eq_some htree df.number dt.number [] hfrom (Nat.le_refl _)
  obtain ⟨currentTo, toDetails, toBranch, hclimbTo, hnt⟩ :=
    climb_eq_some htree dt.number fromDetails.number [] hto (Nat.le_refl _)
  have hnumber : fromDetails.number = toDetails.number := by omega
  obtain ⟨-, -, -, hcurrentFrom, -⟩ := bc.climb_sound _ hfrom hclimbFrom
  obtain ⟨-, -, -, hcurrentTo, -⟩ := bc.climb_sound _ hto hclimbTo
  obtain ⟨⟨ancestor, fromBranch', toBranch'⟩, hmeet⟩ :=
    meet_eq_some htree (fromDetails.number + 1) fromBranch toBranch hcurrentFrom hcurrentTo hnumber
      (Nat.lt_succ_self _)
  refine ⟨⟨fromBranch' ++ toBranch'.reverse, ancestor, fromBranch'.length⟩, ?_⟩
  unfold treeRoute
  simp only [hfrom, hto, hclimbFrom, hclimbTo, Option.bind_eq_bind, Option.bind_some]
  rw [if_neg (not_not.mpr hnumber), hmeet]
  rfl

end Tree

/-- On a block tree, `tree_route` between two held blocks returns their deepest common ancestor,
the walk down from `from` to it, then the walk up from it to `to`; the route is empty exactly when
the two blocks are one. -/
theorem treeRoute_deepest_common_ancestor {bc : BlockChain} (htree : bc.toProvider.IsTree)
    {from' to' : Vector UInt8 32} {df dt : BlockDetails} (hfrom : bc.blockDetails from' = some df)
    (hto : bc.blockDetails to' = some dt) :
    ∃ route, bc.treeRoute from' to' = some route ∧
      bc.toProvider.Ancestor route.ancestor from' ∧ bc.toProvider.Ancestor route.ancestor to' ∧
      (∀ c, bc.toProvider.Ancestor c from' → bc.toProvider.Ancestor c to' →
        bc.toProvider.Ancestor c route.ancestor) ∧
      bc.toProvider.DownPath from' (route.blocks.take route.index) route.ancestor ∧
      bc.toProvider.DownPath to' (route.blocks.drop route.index).reverse route.ancestor ∧
      (route.blocks = [] ↔ from' = to') := by
  obtain ⟨route, hroute⟩ := treeRoute_isSome htree hfrom hto
  obtain ⟨lf, lt, hshape, hpf, hpt, da, hda⟩ := bc.treeRoute_sound hroute
  have hblocks : route.blocks = lf ++ lt.reverse := congrArg TreeRoute.blocks hshape
  have hindex : route.index = lf.length := congrArg TreeRoute.index hshape
  have hdeep := fun c ↦ treeRoute_deepest (c := c) htree.parentsNumbered hroute
  refine ⟨route, hroute, hpf.ancestor, hpt.ancestor, hdeep, ?_, ?_, ?_⟩
  · rwa [hblocks, hindex, List.take_left]
  · rwa [hblocks, hindex, List.drop_left, List.reverse_reverse]
  · rw [hblocks, List.append_eq_nil_iff, List.reverse_eq_nil_iff]
    constructor
    · -- both walks are empty: each end is the ancestor
      rintro ⟨rfl, rfl⟩
      exact (hpf.eq_of_nil _).trans (hpt.eq_of_nil _).symm
    · -- a block is its own deepest common ancestor, and the walks from it to itself are empty
      rintro rfl
      have hle := (hdeep from' (.refl _) (.refl _)).number_le _
        (fun hh hd ↦ htree.parentsNumbered _ _ _ hh hd) hfrom hda
      have hlf := hpf.number_add_length _ htree.parentsNumbered hda hfrom
      have hlt := hpt.number_add_length _ htree.parentsNumbered hda hfrom
      exact ⟨List.eq_nil_of_length_eq_zero (by omega), List.eq_nil_of_length_eq_zero (by omega)⟩

/-- A root `0` at height 0, whose parent `9` is not held, and its two children `1` and `2`. -/
def forkTree : BlockChain :=
  { new ⟨Vector.replicate 32 0, Vector.replicate 32 9, 0, 1, []⟩ with
    blockDetails := fun h ↦
      if h = Vector.replicate 32 0 then
        some ⟨0, 1, Vector.replicate 32 9, [Vector.replicate 32 1, Vector.replicate 32 2]⟩
      else if h = Vector.replicate 32 1 ∨ h = Vector.replicate 32 2 then
        some ⟨1, 2, Vector.replicate 32 0, []⟩
      else none }

theorem forkTree_isTree : forkTree.toProvider.IsTree where
  parentsNumbered h d d' hd hd' := by
    simp only [forkTree, toProvider_blockDetails] at hd hd'
    split_ifs at hd with h0 h12 <;> cases hd
    · simp at hd'
    · simp at hd'
      obtain rfl := hd'
      rfl
  parent_held h d hd hpos := by
    simp only [forkTree, toProvider_blockDetails] at hd ⊢
    split_ifs at hd with h0 h12 <;> cases hd
    · exact absurd hpos (Nat.lt_irrefl 0)
    · simp
  root_unique h h' d d' hd hd' hzero hzero' := by
    -- only the root is at height 0
    have hroot : ∀ k dk, forkTree.toProvider.blockDetails k = some dk → dk.number = 0 →
        k = Vector.replicate 32 0 := by
      intro k dk hk hk0
      simp only [forkTree, toProvider_blockDetails] at hk
      split_ifs at hk with h0 <;> cases hk
      · exact h0
      · exact absurd hk0 Nat.one_ne_zero
    exact (hroot h d hd hzero).trans (hroot h' d' hd' hzero').symm

example : forkTree.treeRoute (Vector.replicate 32 1) (Vector.replicate 32 2) =
    some ⟨[Vector.replicate 32 1, Vector.replicate 32 2], Vector.replicate 32 0, 1⟩ := by
  decide

theorem treeRoute_deepest_common_ancestor_forkTree :
    forkTree.toProvider.IsTree ∧
      ∃ route, forkTree.treeRoute (Vector.replicate 32 1) (Vector.replicate 32 2) = some route ∧
        forkTree.toProvider.Ancestor route.ancestor (Vector.replicate 32 1) ∧
        forkTree.toProvider.Ancestor route.ancestor (Vector.replicate 32 2) ∧
        (∀ c, forkTree.toProvider.Ancestor c (Vector.replicate 32 1) →
          forkTree.toProvider.Ancestor c (Vector.replicate 32 2) →
          forkTree.toProvider.Ancestor c route.ancestor) ∧
        forkTree.toProvider.DownPath (Vector.replicate 32 1) (route.blocks.take route.index)
          route.ancestor ∧
        forkTree.toProvider.DownPath (Vector.replicate 32 2) (route.blocks.drop route.index).reverse
          route.ancestor ∧
        (route.blocks = [] ↔ Vector.replicate 32 1 = (Vector.replicate 32 2 : Vector UInt8 32)) :=
  ⟨forkTree_isTree, @treeRoute_deepest_common_ancestor forkTree forkTree_isTree _ _
    ⟨1, 2, Vector.replicate 32 0, []⟩ ⟨1, 2, Vector.replicate 32 0, []⟩ (by decide) (by decide)⟩

/-! ## What one import does -/

@[simp] theorem commit_bestBlock : bc.commit.bestBlock = bc.pendingBestBlock.getD bc.bestBlock :=
  rfl

@[simp] theorem commit_blockDetails (hash : Vector UInt8 32) :
    bc.commit.blockDetails hash = (bc.pendingBlockDetails hash).or (bc.blockDetails hash) := rfl

@[simp] theorem commit_pendingBestBlock : bc.commit.pendingBestBlock = none := rfl

@[simp] theorem commit_pendingBlockDetails (hash : Vector UInt8 32) :
    bc.commit.pendingBlockDetails hash = none := rfl

/-- An import is an insertion followed by a commit. -/
theorem importBlock_eq_ok {block : BlockView} {bc' : BlockChain} :
    bc.importBlock block = .ok bc' ↔
      ∃ inserted route,
        bc.insertBlock block = .ok (inserted, route) ∧ bc' = inserted.commit := by
  unfold importBlock
  rw [except_bind_eq_ok]
  constructor
  · rintro ⟨⟨inserted, route⟩, hinsert, hcommit⟩
    exact ⟨inserted, route, hinsert, (Except.ok.inj hcommit).symm⟩
  · rintro ⟨inserted, route, hinsert, rfl⟩
    exact ⟨(inserted, route), hinsert, rfl⟩

/-- What `block_info` computes: the total difficulty on top of the parent's, and a location
other than a branch exactly when that beats the best block. -/
theorem blockInfo_eq_ok {block : BlockView} {info : BlockInfo} (h : bc.blockInfo block = .ok info) :
    ∃ parentDetails, bc.blockDetails block.parentHash = some parentDetails ∧
      info.hash = block.hash ∧ info.number = block.number ∧
      info.totalDifficulty = parentDetails.totalDifficulty + block.difficulty ∧
      (info.location = .branch ↔ info.totalDifficulty ≤ bc.bestBlock.totalDifficulty) ∧
      (info.location ≠ .branch → block.number = parentDetails.number + 1 ∧
        ∃ route, bc.treeRoute bc.bestBlock.hash block.parentHash = some route ∧
          ((route.blocks = [] ∧ info.location = .canonChain) ∨
            (route.blocks ≠ [] ∧ info.location = .branchBecomingCanonChain
              ⟨route.ancestor, route.blocks.drop route.index, route.blocks.take route.index⟩))) := by
  unfold blockInfo at h
  dsimp only at h
  split at h
  case h_2 => simp only [except_throw_eq, except_error_bind, reduceCtorEq] at h
  rename_i parentDetails hparent
  simp only [except_pure_eq, except_ok_bind] at h
  obtain ⟨totalDifficulty, hadd, h⟩ := except_bind_eq_ok.mp h
  obtain ⟨-, rfl⟩ := addU256_eq_ok hadd
  refine ⟨parentDetails, hparent, ?_⟩
  split at h
  case isTrue hbest =>
    -- a new best block: the route was found and the location is canonical or a reorganisation
    split at h
    case h_2 => simp only [except_throw_eq, except_error_bind, reduceCtorEq] at h
    rename_i route hroute
    split at h
    · simp only [except_throw_eq, except_error_bind, reduceCtorEq] at h
    rename_i hnumber
    cases h
    refine ⟨rfl, rfl, rfl, ?_, fun _ ↦ ⟨not_not.mp hnumber, route, hroute, ?_⟩⟩
    · constructor
      · intro hloc
        split at hloc <;> cases hloc
      · intro hle
        exact absurd hbest (Nat.not_lt.mpr hle)
    · -- the location is read from the route
      cases hblocks : route.blocks with
      | nil => exact .inl ⟨rfl, rfl⟩
      | cons x xs => exact .inr ⟨List.cons_ne_nil x xs, rfl⟩
  case isFalse hbest =>
    cases h
    exact ⟨rfl, rfl, rfl, iff_of_true rfl (Nat.not_lt.mp hbest), fun hloc ↦ absurd rfl hloc⟩

/-- What `prepare_block_hashes_update` writes: nothing for a branch, the block alone on the
canonical chain, and for a reorganisation the enacted blocks numbered from above the ancestor,
then the block. -/
theorem prepareBlockHashesUpdate_eq_ok {block : BlockView} {info : BlockInfo}
    {hashes : List (ℕ × Vector UInt8 32)}
    (h : bc.prepareBlockHashesUpdate block info = .ok hashes) :
    (info.location = .branch → hashes = []) ∧
    (info.location = .canonChain → hashes = [(block.number, info.hash)]) ∧
    ∀ data, info.location = .branchBecomingCanonChain data →
      ∃ ancestorDetails, bc.blockDetails data.ancestor = some ancestorDetails ∧
        hashes = data.enacted.mapIdx (fun index hash ↦ (ancestorDetails.number + 1 + index, hash))
          ++ [(block.number, info.hash)] := by
  unfold prepareBlockHashesUpdate at h
  split at h
  case h_1 hloc =>
    refine ⟨fun _ ↦ (Except.ok.inj h).symm, fun hc ↦ ?_, fun data hc ↦ ?_⟩ <;>
      rw [hloc] at hc <;> cases hc
  case h_2 hloc =>
    refine ⟨fun hc ↦ ?_, fun _ ↦ (Except.ok.inj h).symm, fun data hc ↦ ?_⟩ <;>
      rw [hloc] at hc <;> cases hc
  case h_3 data hloc =>
    refine ⟨fun hc ↦ ?_, fun hc ↦ ?_, fun data' hc ↦ ?_⟩ <;> rw [hloc] at hc <;> cases hc
    dsimp only at h
    split at h
    case h_2 => simp only [except_throw_eq, except_error_bind, reduceCtorEq] at h
    rename_i ancestorNumber hnumber
    obtain ⟨ancestorDetails, hancestor, rfl⟩ := Option.map_eq_some_iff.mp hnumber
    simp only [except_pure_eq, except_ok_bind] at h
    exact ⟨ancestorDetails, hancestor, (Except.ok.inj h).symm⟩

/-- What `prepare_block_details_update` writes: the parent with one more child, and the new
block's details. -/
theorem prepareBlockDetailsUpdate_eq_ok {block : BlockView} {info : BlockInfo}
    {updates : List (Vector UInt8 32 × BlockDetails)}
    (h : bc.prepareBlockDetailsUpdate block info = .ok updates) :
    ∃ parentDetails, bc.blockDetails block.parentHash = some parentDetails ∧
      updates = [(block.parentHash,
          { parentDetails with children := parentDetails.children ++ [info.hash] }),
        (info.hash, ⟨block.number, info.totalDifficulty, block.parentHash, []⟩)] := by
  unfold prepareBlockDetailsUpdate at h
  dsimp only at h
  split at h
  case h_2 => simp only [except_throw_eq, except_error_bind, reduceCtorEq] at h
  rename_i parentDetails hparent
  simp only [except_pure_eq, except_ok_bind] at h
  exact ⟨parentDetails, hparent, (Except.ok.inj h).symm⟩

/-- `insert_block` either returns a known child as it is, or prepares every update from a chain
with nothing pending and stores the body. -/
theorem insertBlock_eq_ok {block : BlockView} {bc' : BlockChain} {route : ImportRoute}
    (h : bc.insertBlock block = .ok (bc', route)) :
    bc' = bc ∨ ∃ info hashes details addresses,
      bc.pendingBestBlock = none ∧ bc.blockInfo block = .ok info ∧
      bc.prepareBlockHashesUpdate block info = .ok hashes ∧
      bc.prepareBlockDetailsUpdate block info = .ok details ∧
      bc.prepareTransactionAddressesUpdate block info = .ok addresses ∧
      bc' = { bc.prepareUpdate ⟨hashes, details, addresses, info⟩ true with
        blockBodies :=
          Function.update bc.blockBodies block.hash (some block.transactionHashes) } := by
  unfold insertBlock at h
  dsimp only at h
  split at h
  · exact .inl (Prod.mk.inj (Except.ok.inj h).symm).1
  split at h
  · cases h
  rename_i hpending
  obtain ⟨info, hinfo, h⟩ := except_bind_eq_ok.mp h
  obtain ⟨hashes, hhashes, h⟩ := except_bind_eq_ok.mp h
  obtain ⟨details, hdetails, h⟩ := except_bind_eq_ok.mp h
  obtain ⟨addresses, haddresses, h⟩ := except_bind_eq_ok.mp h
  refine .inr ⟨info, hashes, details, addresses, Option.not_isSome_iff_eq_none.mp hpending, hinfo,
    hhashes, hdetails, haddresses, ?_⟩
  exact (Prod.mk.inj (Except.ok.inj h).symm).1

/-- Committing an update from a chain with no pending details lays the update's two entries, the
later one on top, over the committed details. -/
theorem commit_prepareUpdate_blockDetails {hashes : List (ℕ × Vector UInt8 32)}
    {addresses : List (Vector UInt8 32 × Option TransactionAddress)} {info : BlockInfo}
    {isBest : Bool} {bodies : Vector UInt8 32 → Option (List (Vector UInt8 32))}
    {parentHash hash : Vector UInt8 32} {parentDetails details : BlockDetails}
    (hpending : ∀ k, bc.pendingBlockDetails k = none) (k : Vector UInt8 32) :
    ({ bc.prepareUpdate
        ⟨hashes, [(parentHash, parentDetails), (hash, details)], addresses, info⟩ isBest with
        blockBodies := bodies }).commit.blockDetails k =
      if k = hash then some details
      else if k = parentHash then some parentDetails else bc.blockDetails k := by
  simp only [commit_blockDetails, prepareUpdate, List.foldl_cons, List.foldl_nil,
    Function.update_apply, hpending]
  split_ifs <;> simp

/-- Committing an update from a chain with no pending best block makes the updated block the
best one unless it lands on a branch. -/
theorem commit_prepareUpdate_bestBlock {u : ExtrasUpdate}
    {bodies : Vector UInt8 32 → Option (List (Vector UInt8 32))}
    (hpending : bc.pendingBestBlock = none) :
    ({ bc.prepareUpdate u true with blockBodies := bodies }).commit.bestBlock =
      if u.info.location = .branch then bc.bestBlock
      else ⟨u.info.hash, u.info.number, u.info.totalDifficulty⟩ := by
  by_cases hbranch : u.info.location = .branch <;> simp [prepareUpdate, hpending, hbranch]

/-- The best block after an import weighs the more of the old best block and the new block. -/
theorem bestAfter_totalDifficulty {best : BestBlock} {info : BlockInfo}
    (hloc : info.location = .branch ↔ info.totalDifficulty ≤ best.totalDifficulty) :
    (if info.location = .branch then best
      else ⟨info.hash, info.number, info.totalDifficulty⟩ : BestBlock).totalDifficulty =
      max best.totalDifficulty info.totalDifficulty := by
  split_ifs with hbranch
  · exact (Nat.max_eq_left (hloc.mp hbranch)).symm
  · exact (Nat.max_eq_right (Nat.le_of_lt (Nat.lt_of_not_le (mt hloc.mpr hbranch)))).symm

/-- What one import does: a known child commits nothing new; any other block commits the
prepared update, whose details are the parent with one more child and the new block's, which
weighs its parent's total difficulty plus its own and lands on a branch exactly when that does
not beat the best block. -/
theorem importBlock_cases {block : BlockView} {bc' : BlockChain}
    (h : bc.importBlock block = .ok bc') :
    bc' = bc.commit ∨ ∃ (info : BlockInfo) (parentDetails : BlockDetails)
      (hashes : List (ℕ × Vector UInt8 32))
      (addresses : List (Vector UInt8 32 × Option TransactionAddress)),
      bc.pendingBestBlock = none ∧ bc.blockDetails block.parentHash = some parentDetails ∧
      info.hash = block.hash ∧ info.number = block.number ∧
      info.totalDifficulty = parentDetails.totalDifficulty + block.difficulty ∧
      (info.location = .branch ↔ info.totalDifficulty ≤ bc.bestBlock.totalDifficulty) ∧
      (info.location ≠ .branch → block.number = parentDetails.number + 1 ∧
        ∃ route, bc.treeRoute bc.bestBlock.hash block.parentHash = some route ∧
          ((route.blocks = [] ∧ info.location = .canonChain) ∨
            (route.blocks ≠ [] ∧ info.location = .branchBecomingCanonChain
              ⟨route.ancestor, route.blocks.drop route.index, route.blocks.take route.index⟩))) ∧
      bc.prepareBlockHashesUpdate block info = .ok hashes ∧
      bc' = ({ bc.prepareUpdate ⟨hashes, [(block.parentHash,
          { parentDetails with children := parentDetails.children ++ [info.hash] }),
          (info.hash, ⟨block.number, info.totalDifficulty, block.parentHash, []⟩)],
          addresses, info⟩ true with
        blockBodies := Function.update bc.blockBodies block.hash
          (some block.transactionHashes) }).commit := by
  obtain ⟨inserted, route, hinsert, rfl⟩ := (importBlock_eq_ok bc).mp h
  rcases bc.insertBlock_eq_ok hinsert with rfl |
    ⟨info, hashes, details, addresses, hpending, hinfo, hhashes, hdetails, -, rfl⟩
  · exact .inl rfl
  obtain ⟨parentDetails, hparent, hhash, hnumber, htd, hloc, hroute⟩ := bc.blockInfo_eq_ok hinfo
  obtain ⟨parentDetails', hparent', rfl⟩ := bc.prepareBlockDetailsUpdate_eq_ok hdetails
  -- `block_info` and `prepare_block_details_update` read the same parent
  obtain rfl : parentDetails = parentDetails' := Option.some.inj (hparent.symm.trans hparent')
  exact .inr ⟨info, parentDetails, hashes, addresses, hpending, hparent, hhash, hnumber, htd,
    hloc, hroute, hhashes, rfl⟩


@[simp] theorem commit_blockHashes (n : ℕ) :
    bc.commit.blockHashes n = (bc.pendingBlockHashes n).or (bc.blockHashes n) := rfl

/-- Committing an update from a chain with no pending heights lays the update's heights, written
one after the other, over the index. -/
theorem commit_prepareUpdate_blockHashes {u : ExtrasUpdate} {isBest : Bool}
    {bodies : Vector UInt8 32 → Option (List (Vector UInt8 32))}
    (hpending : ∀ n, bc.pendingBlockHashes n = none) (n : ℕ) :
    ({ bc.prepareUpdate u isBest with blockBodies := bodies }).commit.blockHashes n =
      (u.blockHashes.foldl (fun (m : ℕ → Option (Vector UInt8 32)) e ↦
        Function.update m e.1 (some e.2)) (fun _ ↦ none) n).or (bc.blockHashes n) := by
  have hnone : bc.pendingBlockHashes = fun _ ↦ none := funext hpending
  rw [commit_blockHashes, prepareUpdate, hnone]

/-- An import stores no block other than the imported one. -/
theorem importBlock_blockDetails_eq_none {block : BlockView} {bc' : BlockChain}
    (hpending : ∀ hash, bc.pendingBlockDetails hash = none) (h : bc.importBlock block = .ok bc')
    {hash : Vector UInt8 32} (hne : hash ≠ block.hash) (hnone : bc.blockDetails hash = none) :
    bc'.blockDetails hash = none := by
  rcases bc.importBlock_cases h with rfl |
    ⟨info, parentDetails, hashes, addresses, -, hparent, hhash, -, -, -, -, -, rfl⟩
  · rw [commit_blockDetails, hpending, Option.none_or, hnone]
  -- the parent is stored, so it is not `hash`
  have hparent_ne : hash ≠ block.parentHash := by
    rintro rfl
    rw [hnone] at hparent
    cases hparent
  rw [commit_prepareUpdate_blockDetails bc hpending, hhash, if_neg hne, if_neg hparent_ne, hnone]

/-- An import keeps the height, the parent and the total difficulty of every other block the
chain held; only the parent's list of children grows. -/
theorem importBlock_keeps_details {block : BlockView} {bc' : BlockChain}
    (hpending : ∀ hash, bc.pendingBlockDetails hash = none) (h : bc.importBlock block = .ok bc')
    {hash : Vector UInt8 32} {details : BlockDetails} (hne : hash ≠ block.hash)
    (hdetails : bc.blockDetails hash = some details) :
    ∃ details', bc'.blockDetails hash = some details' ∧ details'.number = details.number ∧
      details'.parent = details.parent ∧ details'.totalDifficulty = details.totalDifficulty := by
  rcases bc.importBlock_cases h with rfl |
    ⟨info, parentDetails, hashes, addresses, -, hparent, hhash, -, -, -, -, -, rfl⟩
  · rw [commit_blockDetails, hpending, Option.none_or]
    exact ⟨details, hdetails, rfl, rfl, rfl⟩
  rw [commit_prepareUpdate_blockDetails bc hpending, hhash, if_neg hne]
  split_ifs with hparent_eq
  · -- the parent: only its children change
    rw [hparent_eq, hparent] at hdetails
    cases hdetails
    exact ⟨_, rfl, rfl, rfl, rfl⟩
  · exact ⟨details, hdetails, rfl, rfl, rfl⟩

/-- The blocks still to come after an import stay new, when the hashes of a run are distinct. -/
theorem importBlock_keeps_fresh {block : BlockView} {blocks : List BlockView} {bc' : BlockChain}
    (hpending : ∀ hash, bc.pendingBlockDetails hash = none) (h : bc.importBlock block = .ok bc')
    (hnodup : block.hash ∉ blocks.map (·.hash))
    (hfresh : ∀ later ∈ block :: blocks, bc.blockDetails later.hash = none) :
    ∀ later ∈ blocks, bc'.blockDetails later.hash = none := fun later hlater ↦
  bc.importBlock_blockDetails_eq_none hpending h
    (ne_of_mem_of_not_mem (List.mem_map_of_mem hlater) hnodup)
    (hfresh later (List.mem_cons_of_mem block hlater))

end BlockChain

/-! ## A reorganisation to a shorter chain -/

/-- The trace's block `id` on the block `parent`. -/
def viewOf (id parent : UInt8) (number difficulty : ℕ)
    (transactionHashes : List (Vector UInt8 32)) : BlockView :=
  ⟨Vector.replicate 32 id, Vector.replicate 32 parent, number, difficulty, transactionHashes⟩

/-- Three light blocks on the genesis block `0`, the last with the transaction `0x33`, then a
heavy block `0x11` on the genesis block. -/
def reorgImports : List BlockView :=
  [viewOf 1 0 1 1 [], viewOf 2 1 2 1 [], viewOf 3 2 3 1 [Vector.replicate 32 0x33],
    viewOf 0x11 0 1 10 []]

/-- The chain after the trace's imports, each committed. -/
def reorgChain : Except String BlockChain :=
  BlockChain.importBlocks reorgImports (.new (viewOf 0 0xff 0 1 []))

theorem importBlocks_keeps_stale_heights :
    reorgChain.map (·.bestBlock) = .ok ⟨Vector.replicate 32 0x11, 1, 11⟩ ∧
    reorgChain.map (fun bc ↦ (bc.blockHashes 2, bc.blockHashes 3)) =
      .ok (some (Vector.replicate 32 2), some (Vector.replicate 32 3)) ∧
    reorgChain.map (·.toProvider.beaconList (Vector.replicate 32 2)) = .ok (some 2) ∧
    reorgChain.map (·.transactionAddresses (Vector.replicate 32 0x33)) = .ok none := by
  decide +kernel

end AionR
