import Mathlib.Data.List.GetD
import AionR.Bloomchain.Group

/-!
# The log blooms of the block chain

`BlockChain` (`src/core/src/blockchain/blockchain.rs`) indexes the log blooms of its canonical
chain in a `BloomGroupChain` of three levels of sixteen (`blooms_config`), stored in the extras
column of the database and cached in `blocks_blooms`. `prepare_block_blooms_update` computes the
groups an imported block changes: none for a branch, the block's bloom accrued at every level for a
block extending the canonical chain, and for a branch becoming the canonical chain the blooms of
the new branch from the ancestor on, replacing those of the old one up to the old best block.
`prepare_update` writes them; `blocks_with_bloom` searches them.

## Model

`BlockChainBlooms` holds the fields of `BlockChain` the blooms go through: the column, the cache,
and the best block's number with the pending one. An import is `insert_block`, its batch written,
then `commit`. Of the block it reads the number, the header's log bloom, and where the block lands;
for a branch becoming the canonical chain, the ancestor's number and the enacted blocks' log blooms,
which the source looks up by hash. A read through `read_with_cache` brings a stored group into the
cache, and the cache manager evicts groups from it; both are events of a run.

The canonical chain a run leaves is a list of log blooms by number, from the genesis block's
default bloom (`spec.rs` gives the genesis header `Bloom::default()`). An import the block tree can
make is `Admissible`: a block extending the canonical chain is the next number, and a branch
becoming the canonical chain leaves it at an ancestor on it, with the enacted blocks numbered on
from there (what `block_info` and `tree_route` give on a tree, `Import.lean`).

## Main results

* `Indexes`: the state stores the canonical chain's blooms, level 0 by number and every level above
  covering them, with the cache agreeing with the column.
* `Indexes.step`, `Indexes.run`: every admissible import, read and eviction keeps it, without a
  panic.
* `Indexes.blocksWithBloom`: in such a state, `blocks_with_bloom` of a nonzero bloom returns exactly
  the numbers of the range up to the best block whose canonical bloom contains it, in order.
-/

namespace AionR

/-- `blooms_config`: `LOG_BLOOMS_LEVELS` levels of `LOG_BLOOMS_ELEMENTS_PER_INDEX`. -/
def bloomsConfig : Config := ⟨3, 16⟩

/-- What `prepare_block_blooms_update` reads of a block's `BlockLocation`: for a branch becoming
the canonical chain, the number of the ancestor and the log blooms of the enacted blocks. -/
inductive BloomLocation where
  | canonChain
  | branch
  | branchBecomingCanonChain (ancestorNumber : ℕ) (enacted : List Bloom)
  deriving DecidableEq, Repr

/-- What the blooms of an import read of the block: its number, its header's log bloom, and where
it lands. -/
structure BloomInfo where
  number : ℕ
  logBloom : Bloom
  location : BloomLocation
  deriving DecidableEq, Repr

/-- The log blooms of the canonical chain by number, once the block is imported: a block on the
canonical chain comes after it, and a branch becoming the canonical chain follows the ancestor. -/
def BloomInfo.canonAfter (info : BloomInfo) (canon : List Bloom) : List Bloom :=
  match info.location with
  | .branch => canon
  | .canonChain => canon ++ [info.logBloom]
  | .branchBecomingCanonChain ancestorNumber enacted =>
    canon.take (ancestorNumber + 1) ++ enacted ++ [info.logBloom]

/-- An import the block tree makes of a block: one on the canonical chain is the next number, and
a branch becoming the canonical chain leaves it at an ancestor on it, the enacted blocks and then
the block numbered on from there. -/
def BloomInfo.Admissible (info : BloomInfo) (canon : List Bloom) : Prop :=
  match info.location with
  | .branch => True
  | .canonChain => info.number = canon.length
  | .branchBecomingCanonChain ancestorNumber enacted =>
    ancestorNumber < canon.length ∧ info.number = ancestorNumber + enacted.length + 1

/-- The fields of `BlockChain` the log blooms go through. -/
structure BlockChainBlooms where
  /-- The blooms in the extras column, by group. -/
  db : GroupPosition → Option BloomGroup
  /-- The `blocks_blooms` cache. -/
  blocksBlooms : AList fun _ : GroupPosition ↦ BloomGroup
  bestBlockNumber : ℕ
  pendingBestBlockNumber : Option ℕ

namespace BlockChainBlooms

variable (s : BlockChainBlooms)

/-- `BlockChain::new` over an empty database: the genesis block is the best block, and no bloom is
stored. -/
def new : BlockChainBlooms := ⟨fun _ ↦ none, ∅, 0, none⟩

/-- `blooms_at`, through `read_with_cache`: the cached group, else the stored one, which then
enters the cache. -/
def bloomsAt (position : GroupPosition) : Option BloomGroup × BlockChainBlooms :=
  match s.blocksBlooms.lookup position with
  | some group => (some group, s)
  | none =>
    match s.db position with
    | some group => (some group, { s with blocksBlooms := s.blocksBlooms.insert position group })
    | none => (none, s)

/-- The `BloomGroupChain` over the chain, reading through `blooms_at`. -/
def bloomGroupChain : BloomGroupChain := ⟨bloomsConfig, fun position ↦ (s.bloomsAt position).1⟩

/-- `blocks_with_bloom`. -/
def blocksWithBloom (bloom : Bloom) (fromBlock toBlock : ℕ) : Option (List ℕ) :=
  s.bloomGroupChain.withBloom fromBlock toBlock bloom

/-- `prepare_block_blooms_update`: the groups the import changes. -/
def prepareBlockBloomsUpdate (info : BloomInfo) :
    Option (AList fun _ : GroupPosition ↦ BloomGroup) :=
  match info.location with
  | .branch => some ∅
  | .canonChain =>
    if info.logBloom.isZero then some ∅
    else s.bloomGroupChain.insert info.number info.logBloom
  | .branchBecomingCanonChain ancestorNumber enacted =>
    let startNumber := ancestorNumber + 1
    s.bloomGroupChain.replace startNumber s.bestBlockNumber (enacted ++ [info.logBloom])

/-- A group of the update on the canonical chain: accrued into the cached group, or cached as it
is, and written. -/
def accrueEntry (entry : Sigma fun _ : GroupPosition ↦ BloomGroup) : BlockChainBlooms :=
  match s.blocksBlooms.lookup entry.1 with
  | some cached =>
    let group := cached.accrueBloomGroup entry.2
    { s with
      blocksBlooms := s.blocksBlooms.insert entry.1 group
      db := Function.update s.db entry.1 (some group) }
  | none =>
    { s with
      blocksBlooms := s.blocksBlooms.insert entry.1 entry.2
      db := Function.update s.db entry.1 (some entry.2) }

/-- The blooms part of `prepare_update`, its batch written: a branch becoming the canonical chain
puts its groups in place of the whole cache and writes them; on the canonical chain each group
accrues into the cache. The block becomes the pending best block unless it is on a branch. -/
def prepareUpdate (info : BloomInfo) (blocksBlooms : AList fun _ : GroupPosition ↦ BloomGroup)
    (isBest : Bool) : BlockChainBlooms :=
  let s := match info.location with
    | .branch => s
    | .branchBecomingCanonChain _ _ =>
      { s with
        blocksBlooms := blocksBlooms
        db := blocksBlooms.entries.foldl (fun (db : GroupPosition → Option BloomGroup)
          (entry : Sigma fun _ : GroupPosition ↦ BloomGroup) ↦
          Function.update db entry.1 (some entry.2)) s.db }
    | .canonChain => blocksBlooms.entries.foldl accrueEntry s
  { s with
    pendingBestBlockNumber :=
      if isBest ∧ info.location ≠ BloomLocation.branch then some info.number
      else s.pendingBestBlockNumber }

/-- `insert_block`, for the blooms: the `assert!` that no best block is pending, then the update. -/
def insertBlock (info : BloomInfo) : Option BlockChainBlooms :=
  if s.pendingBestBlockNumber.isSome then none
  else do
    let blocksBlooms ← s.prepareBlockBloomsUpdate info
    return s.prepareUpdate info blocksBlooms true

/-- `commit`: the pending best block becomes the best block. -/
def commit : BlockChainBlooms :=
  { s with
    bestBlockNumber := s.pendingBestBlockNumber.getD s.bestBlockNumber
    pendingBestBlockNumber := none }

/-- The cache manager's `collect_garbage` on the blooms cache: the groups it picks leave it. -/
def collectGarbage (positions : List GroupPosition) : BlockChainBlooms :=
  { s with
    blocksBlooms := positions.foldl (fun cache position ↦ cache.erase position) s.blocksBlooms }

/-- What happens to the blooms between two queries. -/
inductive Event where
  /-- `insert_block`, its batch written, then `commit`. -/
  | importBlock (info : BloomInfo)
  /-- A read through `blooms_at`. -/
  | bloomsAt (position : GroupPosition)
  /-- An eviction from the cache. -/
  | collectGarbage (positions : List GroupPosition)

/-- One event; a panic is `none`. -/
def step : Event → Option BlockChainBlooms
  | .importBlock info => (s.insertBlock info).map commit
  | .bloomsAt position => some (s.bloomsAt position).2
  | .collectGarbage positions => some (s.collectGarbage positions)

/-- A run of events. -/
def run : List Event → BlockChainBlooms → Option BlockChainBlooms
  | [], state => some state
  | event :: events, state => (state.step event).bind (run events)

/-! ## The canonical chain -/

/-- The canonical chain after an event; only imports change it. -/
def Event.canonAfter : Event → List Bloom → List Bloom
  | .importBlock info, canon => info.canonAfter canon
  | .bloomsAt _, canon => canon
  | .collectGarbage _, canon => canon

/-- An event the block tree makes; reads and evictions always can be. -/
def Event.Admissible : Event → List Bloom → Prop
  | .importBlock info, canon => info.Admissible canon
  | .bloomsAt _, _ => True
  | .collectGarbage _, _ => True

/-- The canonical chain after a run. -/
def canonAfter (canon : List Bloom) (events : List Event) : List Bloom :=
  events.foldl (fun canon event ↦ event.canonAfter canon) canon

/-- A run of events the block tree makes, from the canonical chain `canon`. -/
def Admissible : List Bloom → List Event → Prop
  | _, [] => True
  | canon, event :: events => event.Admissible canon ∧ Admissible (event.canonAfter canon) events

/-! ## The invariant -/

/-- The manager `Manager::new` builds for `blooms_config`. -/
def bloomsManager : Manager := ⟨16, [1, 16, 256]⟩

theorem new_bloomsConfig (db : Position → Option Bloom) :
    BloomChain.new bloomsConfig db = some ⟨bloomsManager, db⟩ := rfl

theorem regular_bloomsManager : bloomsManager.Regular :=
  @Manager.regular_of_new 16 3 bloomsManager (by decide) rfl

theorem elementsPerIndex_pos : 0 < bloomsConfig.elementsPerIndex := by decide

/-- Each cached group is the stored one. -/
def CacheAgrees : Prop :=
  ∀ g group, s.blocksBlooms.lookup g = some group → s.db g = some group

/-- The stored blooms as the bridge reads them. -/
def view : Position → Option Bloom := (BloomGroupChain.mk bloomsConfig s.db).bridge.bloomAt

/-- The state stores the log blooms of the canonical chain `canon`. -/
structure Indexes (canon : List Bloom) : Prop where
  cacheAgrees : s.CacheAgrees
  /-- Each stored group holds sixteen blooms. -/
  groupsSized : BloomGroupChain.GroupsSized bloomsConfig.elementsPerIndex s.db
  /-- No best block is pending between imports. -/
  pending_eq : s.pendingBestBlockNumber = none
  /-- The best block is the last of the canonical chain. -/
  best_eq : s.bestBlockNumber + 1 = canon.length
  /-- Level 0 holds the canonical bloom of each number; a missing one reads as the default
  bloom. -/
  levelZero : ∀ n, (s.view ⟨0, n⟩).getD Bloom.default = canon.getD n Bloom.default
  /-- The levels above cover level 0. -/
  covering : BloomChain.Covering bloomsManager s.view

variable {s}

/-- Through a cache that agrees with the column, `blooms_at` reads the column. -/
theorem bloomsAt_fst (h : s.CacheAgrees) (g : GroupPosition) : (s.bloomsAt g).1 = s.db g := by
  unfold bloomsAt
  cases hcache : s.blocksBlooms.lookup g with
  | some group => exact (h g group hcache).symm
  | none =>
    cases hdb : s.db g with
    | some group => rfl
    | none => rfl

theorem bloomGroupChain_eq (h : s.CacheAgrees) :
    s.bloomGroupChain = BloomGroupChain.mk bloomsConfig s.db := by
  unfold bloomGroupChain
  congr 1
  funext g
  exact bloomsAt_fst h g

/-- The invariant reads only the column and the best block, given a cache that agrees. -/
theorem Indexes.of_eq {s' : BlockChainBlooms} {canon : List Bloom} (hinv : s.Indexes canon)
    (hcache : s'.CacheAgrees) (hdb : s'.db = s.db) (hbest : s'.bestBlockNumber = s.bestBlockNumber)
    (hpending : s'.pendingBestBlockNumber = s.pendingBestBlockNumber) : s'.Indexes canon where
  cacheAgrees := hcache
  groupsSized := hdb ▸ hinv.groupsSized
  pending_eq := hpending ▸ hinv.pending_eq
  best_eq := hbest ▸ hinv.best_eq
  levelZero := by unfold view; rw [hdb]; exact hinv.levelZero
  covering := by unfold view; rw [hdb]; exact hinv.covering

/-- A read through `blooms_at` caches a stored group. -/
theorem cacheAgrees_bloomsAt (h : s.CacheAgrees) (g : GroupPosition) :
    (s.bloomsAt g).2.CacheAgrees := by
  unfold bloomsAt
  cases hcache : s.blocksBlooms.lookup g with
  | some group => exact h
  | none =>
    cases hdb : s.db g with
    | none => exact h
    | some group =>
      intro g' group' hg'
      by_cases hg : g' = g
      · subst hg
        rw [AList.lookup_insert, Option.some.injEq] at hg'
        rw [← hg', hdb]
      · rw [AList.lookup_insert_ne hg] at hg'
        exact h g' group' hg'

/-- Groups written over the column, and over a cache that agrees with it or in its place, leave a
cache that agrees. -/
theorem cacheAgrees_of_write {s' : BlockChainBlooms}
    {result : AList fun _ : GroupPosition ↦ BloomGroup} {kept : GroupPosition → Option BloomGroup}
    (hkept : ∀ g group, kept g = some group → s.db g = some group)
    (hcache : ∀ g, s'.blocksBlooms.lookup g = (result.lookup g).or (kept g))
    (hdb : s'.db = fun g ↦ (result.lookup g).or (s.db g)) : s'.CacheAgrees := by
  intro g group hg
  rw [hcache g, Option.or_eq_some_iff] at hg
  rw [hdb]
  dsimp only
  rw [Option.or_eq_some_iff]
  rcases hg with hwritten | ⟨hnone, hold⟩
  · exact .inl hwritten
  · exact .inr ⟨hnone, hkept g group hold⟩

/-- Evictions leave the cache agreeing. -/
theorem cacheAgrees_collectGarbage (h : s.CacheAgrees) (positions : List GroupPosition) :
    (s.collectGarbage positions).CacheAgrees := by
  unfold collectGarbage CacheAgrees
  dsimp only
  induction positions generalizing s with
  | nil => exact h
  | cons g positions ih =>
    rw [List.foldl_cons]
    refine ih (s := { s with blocksBlooms := s.blocksBlooms.erase g }) ?_
    intro g' group hg'
    by_cases hg : g' = g
    · subst hg
      rw [AList.lookup_erase] at hg'
      cases hg'
    · rw [AList.lookup_erase_ne hg] at hg'
      exact h g' group hg'

/-! ## The canonical chain by number -/

/-- Appending a block leaves the blooms of the other numbers. -/
theorem getD_append_singleton_of_ne {canon : List Bloom} {bloom : Bloom} {n : ℕ}
    (hn : n ≠ canon.length) :
    (canon ++ [bloom]).getD n Bloom.default = canon.getD n Bloom.default := by
  rcases Nat.lt_or_gt_of_ne hn with hlt | hgt
  · exact List.getD_append _ _ _ _ hlt
  · rw [List.getD_eq_default _ _ (by simp only [List.length_append, List.length_singleton]; omega),
      List.getD_eq_default _ _ (by omega)]

/-- Appending a block puts its bloom at the next number. -/
theorem getD_append_singleton_self (canon : List Bloom) (bloom : Bloom) :
    (canon ++ [bloom]).getD canon.length Bloom.default = bloom := by
  rw [List.getD_append_right _ _ _ _ (Nat.le_refl _), Nat.sub_self]
  rfl

/-- Level 0 once `replace` has run from the ancestor's child to the old best block reads the old
chain up to the ancestor, then the new blooms. -/
theorem getD_replacedLevelZero {view : Position → Option Bloom} {canon blooms : List Bloom}
    {ancestorNumber : ℕ} (hview : ∀ n, (view ⟨0, n⟩).getD Bloom.default = canon.getD n Bloom.default)
    (hancestor : ancestorNumber < canon.length) (n : ℕ) :
    ((BloomChain.replacedLevelZero (ancestorNumber + 1) (canon.length - 1) blooms n).or
        (view ⟨0, n⟩)).getD Bloom.default =
      (canon.take (ancestorNumber + 1) ++ blooms).getD n Bloom.default := by
  have htake : (canon.take (ancestorNumber + 1)).length = ancestorNumber + 1 := by
    rw [List.length_take]
    omega
  unfold BloomChain.replacedLevelZero
  by_cases hstart : ancestorNumber + 1 ≤ n
  · rw [if_pos hstart, List.getD_append_right _ _ _ _ (by omega), htake]
    by_cases hnew : n - (ancestorNumber + 1) < blooms.length
    · -- a bloom of the new branch
      rw [List.getElem?_eq_getElem hnew, Option.some_or, Option.some_or, Option.getD_some,
        List.getD_eq_getElem]
    · rw [List.getElem?_eq_none (by omega), Option.none_or, List.getD_eq_default _ _ (by omega)]
      split_ifs with hend
      · -- reset up to the old best block
        rfl
      · -- past the old best block, where nothing was stored
        rw [Option.none_or, hview, List.getD_eq_default _ _ (by omega)]
  · -- below the fork the chain is unchanged
    rw [if_neg hstart, Option.none_or, hview, List.getD_append _ _ _ _ (by omega),
      List.getD_eq_getElem?_getD, List.getD_eq_getElem?_getD, List.getElem?_take,
      if_pos (by omega)]

/-! ## An import -/

variable {canon : List Bloom}

-- Several proofs below unfold these at once: their equation lemmas are generated here, once.
section
attribute [local simp] prepareBlockBloomsUpdate
end

theorem insertBlock_eq (hpending : s.pendingBestBlockNumber = none) {info : BloomInfo}
    {update : AList fun _ : GroupPosition ↦ BloomGroup}
    (h : s.prepareBlockBloomsUpdate info = some update) :
    s.insertBlock info = some (s.prepareUpdate info update true) := by
  rw [insertBlock, hpending, Option.isSome_none, if_neg Bool.false_ne_true, h]
  rfl

/-- Groups accrued into the cache, each covering the group cached there, are written as they
are. -/
theorem foldl_accrueEntry :
    ∀ {es : List (Sigma fun _ : GroupPosition ↦ BloomGroup)} (s : BlockChainBlooms), es.NodupKeys →
      (∀ e ∈ es, ∀ cached, s.blocksBlooms.lookup e.1 = some cached →
        cached.accrueBloomGroup e.2 = e.2) →
      (es.foldl accrueEntry s).db = (fun g ↦ (es.dlookup g).or (s.db g)) ∧
      (∀ g, (es.foldl accrueEntry s).blocksBlooms.lookup g =
        (es.dlookup g).or (s.blocksBlooms.lookup g)) ∧
      (es.foldl accrueEntry s).bestBlockNumber = s.bestBlockNumber ∧
      (es.foldl accrueEntry s).pendingBestBlockNumber = s.pendingBestBlockNumber := by
  intro es
  induction es with
  | nil => intro s _ _; exact ⟨rfl, fun _ ↦ rfl, rfl, rfl⟩
  | cons e es ih =>
    intro s hes hcovers
    obtain ⟨he, hes'⟩ := List.nodupKeys_cons.mp hes
    have hother : ∀ e' ∈ es, e'.1 ≠ e.1 := fun e' he' heq ↦ he (heq ▸ List.mem_keys_of_mem he')
    -- the first group is written as it is
    have hfirst : s.accrueEntry e = { s with
        blocksBlooms := s.blocksBlooms.insert e.1 e.2
        db := Function.update s.db e.1 (some e.2) } := by
      unfold accrueEntry
      cases hcached : s.blocksBlooms.lookup e.1 with
      | none => rfl
      | some cached =>
        dsimp only
        rw [hcovers e List.mem_cons_self cached hcached]
    rw [List.foldl_cons, hfirst]
    obtain ⟨hdb, hlookup, hbest, hpending⟩ := ih { s with
        blocksBlooms := s.blocksBlooms.insert e.1 e.2
        db := Function.update s.db e.1 (some e.2) } hes' fun e' he' cached hcached ↦
      hcovers e' (List.mem_cons_of_mem e he') cached
        (by rwa [AList.lookup_insert_ne (hother e' he')] at hcached)
    refine ⟨?_, fun g ↦ ?_, hbest, hpending⟩
    · rw [hdb]
      funext g
      exact dlookup_or_update he s.db g
    · rw [hlookup g]
      dsimp only
      rw [lookup_insert_eq_update]
      exact dlookup_or_update he _ g

/-- A state whose column is the column of `s` with the groups `group_blooms` built from `written`
stored over it stores the chain `canon'` that the written blooms laid over the old ones give. -/
theorem Indexes.of_write {s' : BlockChainBlooms} {canon' : List Bloom}
    (hdb : BloomGroupChain.GroupsSized bloomsConfig.elementsPerIndex s.db)
    {written : AList fun _ : Position ↦ Bloom} {result : AList fun _ : GroupPosition ↦ BloomGroup}
    (hresult : (BloomGroupChain.mk bloomsConfig s.db).Grouped written.entries result)
    (hwrite : s'.db = fun g ↦ (result.lookup g).or (s.db g)) (hcache : s'.CacheAgrees)
    (hpending : s'.pendingBestBlockNumber = none) (hbest : s'.bestBlockNumber + 1 = canon'.length)
    (hlevelZero : ∀ n, (BloomChain.overlay written s.view ⟨0, n⟩).getD Bloom.default =
      canon'.getD n Bloom.default)
    (hcovering : BloomChain.Covering bloomsManager (BloomChain.overlay written s.view)) :
    s'.Indexes canon' := by
  have hk := elementsPerIndex_pos
  have hreads : BloomChain.ReadsAs s'.view (BloomChain.overlay written s.view) := by
    unfold view
    rw [hwrite]
    exact BloomGroupChain.readsAs_write hk hdb hresult
  exact {
    cacheAgrees := hcache
    groupsSized := hwrite ▸ BloomGroupChain.groupsSized_write hdb hresult
    pending_eq := hpending
    best_eq := hbest
    levelZero := fun n ↦ (BloomChain.getD_of_readsAs hreads ⟨0, n⟩).trans (hlevelZero n)
    covering := BloomChain.Covering.of_readsAs hreads hcovering }

/-- `commit` after `prepare_update` of a block on a branch: nothing changes. -/
theorem commit_prepareUpdate_branch (hpending : s.pendingBestBlockNumber = none) {info : BloomInfo}
    (hloc : info.location = .branch) (update : AList fun _ : GroupPosition ↦ BloomGroup) :
    (s.prepareUpdate info update true).commit = s := by
  simp only [prepareUpdate, commit, hloc, ne_eq, not_true_eq_false, and_false, if_false, hpending,
    Option.getD_none]
  rw [← hpending]

/-- `commit` after `prepare_update` of a block on the canonical chain: the groups accrued, and the
block the best block. -/
theorem commit_prepareUpdate_canonChain {info : BloomInfo} (hloc : info.location = .canonChain)
    (update : AList fun _ : GroupPosition ↦ BloomGroup) :
    (s.prepareUpdate info update true).commit =
      { update.entries.foldl accrueEntry s with
        bestBlockNumber := info.number
        pendingBestBlockNumber := none } := by
  simp [prepareUpdate, commit, hloc]

/-- `commit` after `prepare_update` of a branch becoming the canonical chain: the groups in place
of the cache and written, and the block the best block. -/
theorem commit_prepareUpdate_branchBecomingCanonChain {info : BloomInfo} {ancestorNumber : ℕ}
    {enacted : List Bloom} (hloc : info.location = .branchBecomingCanonChain ancestorNumber enacted)
    (update : AList fun _ : GroupPosition ↦ BloomGroup) :
    (s.prepareUpdate info update true).commit =
      { s with
        blocksBlooms := update
        db := update.entries.foldl (fun (db : GroupPosition → Option BloomGroup)
          (entry : Sigma fun _ : GroupPosition ↦ BloomGroup) ↦
          Function.update db entry.1 (some entry.2)) s.db
        bestBlockNumber := info.number
        pendingBestBlockNumber := none } := by
  simp [prepareUpdate, commit, hloc]

/-- An import on a branch changes nothing. -/
theorem Indexes.importBlock_branch (hinv : s.Indexes canon) {info : BloomInfo}
    (hloc : info.location = .branch) : (s.insertBlock info).map commit = some s := by
  have hupdate : s.prepareBlockBloomsUpdate info = some ∅ := by
    rw [prepareBlockBloomsUpdate, hloc]
  rw [insertBlock_eq hinv.pending_eq hupdate, Option.map_some,
    commit_prepareUpdate_branch hinv.pending_eq hloc]

/-- An import of a zero bloom on the canonical chain writes nothing; the block becomes the best
block. -/
theorem Indexes.importBlock_zero (hinv : s.Indexes canon) {info : BloomInfo}
    (hloc : info.location = .canonChain) (hnumber : info.number = canon.length)
    (hzero : info.logBloom.isZero = true) :
    ∃ s', (s.insertBlock info).map commit = some s' ∧ s'.Indexes (canon ++ [info.logBloom]) := by
  have hupdate : s.prepareBlockBloomsUpdate info = some ∅ := by
    rw [prepareBlockBloomsUpdate, hloc]
    exact if_pos hzero
  refine ⟨_, by rw [insertBlock_eq hinv.pending_eq hupdate]; rfl, ?_⟩
  rw [commit_prepareUpdate_canonChain hloc]
  have hdefault := Bloom.eq_default_of_isZero hzero
  exact {
    cacheAgrees := hinv.cacheAgrees
    groupsSized := hinv.groupsSized
    pending_eq := rfl
    best_eq := by rw [List.length_append, List.length_singleton, hnumber]
    levelZero := fun n ↦ by
      change (s.view ⟨0, n⟩).getD Bloom.default = _
      rw [hinv.levelZero n]
      by_cases hn : n = canon.length
      · -- the new number reads the default bloom, which is the block's
        rw [hn, List.getD_eq_default _ _ (Nat.le_refl _), getD_append_singleton_self, hdefault]
      · rw [getD_append_singleton_of_ne hn]
    covering := hinv.covering }

/-- An import of a nonzero bloom on the canonical chain accrues it on every level; the block
becomes the best block. -/
theorem Indexes.importBlock_accrue (hinv : s.Indexes canon) {info : BloomInfo}
    (hloc : info.location = .canonChain) (hnumber : info.number = canon.length)
    (hzero : info.logBloom.isZero = false) :
    ∃ s', (s.insertBlock info).map commit = some s' ∧ s'.Indexes (canon ++ [info.logBloom]) := by
  have hk := elementsPerIndex_pos
  have hm := regular_bloomsManager
  -- the blooms `BloomChain::insert` writes, and their groups
  let written := (BloomChain.mk bloomsManager s.view).insert info.number info.logBloom
  obtain ⟨result, hresult, hgrouped⟩ := BloomGroupChain.groupBlooms_eq_some
    (c := BloomGroupChain.mk bloomsConfig s.db) hk hinv.groupsSized written
  have hupdate : s.prepareBlockBloomsUpdate info = some result := by
    rw [prepareBlockBloomsUpdate, hloc]
    dsimp only
    rw [if_neg (by rw [hzero]; exact Bool.false_ne_true), bloomGroupChain_eq hinv.cacheAgrees]
    exact hresult
  -- each group accrues into the cached one as it is: the written blooms only grow
  have haccrue : ∀ e ∈ result.entries, ∀ cached, s.blocksBlooms.lookup e.1 = some cached →
      cached.accrueBloomGroup e.2 = e.2 := by
    intro e he cached hcached
    have hlookup : result.lookup e.1 = some e.2 := AList.mem_lookup_iff.mpr he
    rw [hgrouped e.1] at hlookup
    split_ifs at hlookup
    · rw [Option.some.injEq] at hlookup
      rw [← hlookup]
      exact BloomGroupChain.accrueBloomGroup_filledGroup hk hinv.groupsSized
        (fun p x y hx hy ↦ BloomChain.covers_of_lookup_insert (c := BloomChain.mk bloomsManager s.view)
          info.number info.logBloom hm hx hy)
        (hinv.cacheAgrees _ _ hcached)
  obtain ⟨hdb, hcache, -, -⟩ := foldl_accrueEntry s result.nodupKeys haccrue
  refine ⟨_, by rw [insertBlock_eq hinv.pending_eq hupdate]; rfl, ?_⟩
  rw [commit_prepareUpdate_canonChain hloc]
  have hdb' : ({ result.entries.foldl accrueEntry s with
      bestBlockNumber := info.number
      pendingBestBlockNumber := none } : BlockChainBlooms).db =
      fun g ↦ (result.lookup g).or (s.db g) := hdb
  apply Indexes.of_write hinv.groupsSized hgrouped hdb'
  · -- the cache holds the written groups over the old ones, as the column does
    exact cacheAgrees_of_write hinv.cacheAgrees hcache hdb'
  · rfl
  · rw [List.length_append, List.length_singleton, hnumber]
  · -- level 0: the new number holds the block's bloom, over the default it read before
    intro n
    rw [BloomChain.overlay_insert_zero (c := BloomChain.mk bloomsManager s.view) info.number
      info.logBloom hm n]
    split_ifs with hn
    · have hold : (s.view ⟨0, info.number⟩).getD Bloom.default = Bloom.default := by
        rw [hinv.levelZero, hnumber, List.getD_eq_default _ _ (Nat.le_refl _)]
      rw [hn, Option.getD_some, BloomChain.accrued_of_getD_default info.logBloom hold, hnumber,
        getD_append_singleton_self]
    · rw [getD_append_singleton_of_ne (hnumber ▸ hn)]
      exact hinv.levelZero n
  · exact BloomChain.covering_insert (c := BloomChain.mk bloomsManager s.view) info.number
      info.logBloom hm hinv.covering

/-- An import of a branch becoming the canonical chain replaces the blooms from the ancestor's
child to the old best block; the block becomes the best block. -/
theorem Indexes.importBlock_branchBecomingCanonChain (hinv : s.Indexes canon) {info : BloomInfo}
    {ancestorNumber : ℕ} {enacted : List Bloom}
    (hloc : info.location = .branchBecomingCanonChain ancestorNumber enacted)
    (hancestor : ancestorNumber < canon.length)
    (hnumber : info.number = ancestorNumber + enacted.length + 1) :
    ∃ s', (s.insertBlock info).map commit = some s' ∧
      s'.Indexes (canon.take (ancestorNumber + 1) ++ enacted ++ [info.logBloom]) := by
  have hk := elementsPerIndex_pos
  have hm := regular_bloomsManager
  have hbest : s.bestBlockNumber = canon.length - 1 := by
    have := hinv.best_eq
    omega
  -- the blooms `BloomChain::replace` writes, and their groups
  let written := (BloomChain.mk bloomsManager s.view).replace (ancestorNumber + 1)
    s.bestBlockNumber (enacted ++ [info.logBloom])
  obtain ⟨result, hresult, hgrouped⟩ := BloomGroupChain.groupBlooms_eq_some
    (c := BloomGroupChain.mk bloomsConfig s.db) hk hinv.groupsSized written
  have hupdate : s.prepareBlockBloomsUpdate info = some result := by
    rw [prepareBlockBloomsUpdate, hloc]
    dsimp only
    rw [bloomGroupChain_eq hinv.cacheAgrees]
    exact hresult
  refine ⟨_, by rw [insertBlock_eq hinv.pending_eq hupdate]; rfl, ?_⟩
  rw [commit_prepareUpdate_branchBecomingCanonChain hloc]
  have hdb := foldl_update_eq result.nodupKeys s.db
  apply Indexes.of_write hinv.groupsSized hgrouped hdb
  · -- the cache is the written groups, with nothing kept
    exact cacheAgrees_of_write (fun _ _ h ↦ by cases h) (fun _ ↦ Option.or_none.symm) hdb
  · rfl
  · change info.number + 1 = _
    rw [List.length_append, List.length_append, List.length_take, List.length_singleton,
      Nat.min_eq_left (by omega), hnumber]
    omega
  · intro n
    rw [BloomChain.overlay_replace_zero (c := BloomChain.mk bloomsManager s.view) _ _ _ hm n, hbest,
      List.append_assoc]
    exact getD_replacedLevelZero hinv.levelZero hancestor n
  · exact BloomChain.covering_replace (c := BloomChain.mk bloomsManager s.view) _ _ _ hm
      hinv.covering

/-- Every import the block tree makes keeps the invariant, without a panic. -/
theorem Indexes.importBlock (hinv : s.Indexes canon) {info : BloomInfo}
    (hadm : info.Admissible canon) :
    ∃ s', (s.insertBlock info).map commit = some s' ∧ s'.Indexes (info.canonAfter canon) := by
  unfold BloomInfo.Admissible at hadm
  unfold BloomInfo.canonAfter
  split at hadm
  · rename_i hloc
    exact ⟨s, hinv.importBlock_branch hloc, hinv⟩
  · rename_i hloc
    cases hzero : info.logBloom.isZero
    · exact hinv.importBlock_accrue hloc hadm hzero
    · exact hinv.importBlock_zero hloc hadm hzero
  · rename_i ancestorNumber enacted hloc
    exact hinv.importBlock_branchBecomingCanonChain hloc hadm.1 hadm.2

/-- A read through `blooms_at` only caches a stored group. -/
theorem bloomsAt_snd (g : GroupPosition) :
    ∃ cache, (s.bloomsAt g).2 = { s with blocksBlooms := cache } := by
  unfold bloomsAt
  cases s.blocksBlooms.lookup g with
  | some group => exact ⟨s.blocksBlooms, rfl⟩
  | none =>
    cases s.db g with
    | some group => exact ⟨_, rfl⟩
    | none => exact ⟨s.blocksBlooms, rfl⟩

/-- One event the block tree makes keeps the invariant, without a panic. -/
theorem Indexes.step (hinv : s.Indexes canon) {event : Event} (hadm : event.Admissible canon) :
    ∃ s', s.step event = some s' ∧ s'.Indexes (event.canonAfter canon) := by
  cases event with
  | importBlock info => exact hinv.importBlock hadm
  | bloomsAt g =>
    obtain ⟨cache, hcache⟩ := bloomsAt_snd g
    refine ⟨_, rfl, hinv.of_eq (cacheAgrees_bloomsAt hinv.cacheAgrees g) ?_ ?_ ?_⟩ <;> rw [hcache]
  | collectGarbage positions =>
    exact ⟨_, rfl, hinv.of_eq (cacheAgrees_collectGarbage hinv.cacheAgrees positions) rfl rfl rfl⟩

/-- Every run the block tree makes keeps the invariant, without a panic; by induction on the run,
from `Indexes.step`. -/
theorem Indexes.run : ∀ {events : List Event} {s : BlockChainBlooms} {canon : List Bloom},
    s.Indexes canon → Admissible canon events →
      ∃ s', BlockChainBlooms.run events s = some s' ∧ s'.Indexes (canonAfter canon events)
  | [], s, _, hinv, _ => ⟨s, rfl, hinv⟩
  | _ :: _, _, _, hinv, hadm => by
    obtain ⟨s', hstep, hinv'⟩ := hinv.step hadm.1
    obtain ⟨s'', hrun, hinv''⟩ := hinv'.run hadm.2
    exact ⟨s'', by rw [BlockChainBlooms.run, hstep, Option.bind_some, hrun], hinv''⟩

/-- A new chain stores the genesis block's default bloom. -/
theorem new_indexes : new.Indexes [Bloom.default] where
  cacheAgrees _ _ h := by cases h
  groupsSized _ _ h := by cases h
  pending_eq := rfl
  best_eq := rfl
  levelZero n := by
    cases n with
    | zero => rfl
    | succ n => rfl
  covering _ _ h := by cases h

/-- The search keeps a number when its canonical bloom, up to the best block, contains the
bloom. -/
theorem Indexes.levelZeroContains (hinv : s.Indexes canon) {bloom : Bloom}
    (hbloom : bloom ≠ Bloom.default) (n : ℕ) :
    (BloomChain.mk bloomsManager s.view).levelZeroContains bloom n =
      (decide (n ≤ s.bestBlockNumber) && (canon.getD n Bloom.default).containsBloom bloom) := by
  have hlevel := hinv.levelZero n
  have hbest := hinv.best_eq
  unfold BloomChain.levelZeroContains
  dsimp only
  by_cases hn : n ≤ s.bestBlockNumber
  · rw [decide_eq_true hn, Bool.true_and, ← hlevel]
    cases s.view ⟨0, n⟩ with
    | some x => rfl
    | none => exact (Bloom.containsBloom_default hbloom).symm
  · -- past the best block level 0 holds nothing but the default bloom
    rw [decide_eq_false hn, Bool.false_and]
    rw [List.getD_eq_default _ _ (by omega)] at hlevel
    cases hview : s.view ⟨0, n⟩ with
    | none => rfl
    | some x =>
      rw [hview, Option.getD_some] at hlevel
      rw [hlevel]
      exact Bloom.containsBloom_default hbloom

/-- In a state that stores the canonical chain, `blocks_with_bloom` of a nonzero bloom returns
exactly the numbers of the range, up to the best block, whose canonical bloom contains it, in
increasing order. -/
theorem Indexes.blocksWithBloom (hinv : s.Indexes canon) {bloom : Bloom}
    (hbloom : bloom ≠ Bloom.default) (fromBlock toBlock : ℕ) :
    s.blocksWithBloom bloom fromBlock toBlock =
      some ((List.range' fromBlock (toBlock + 1 - fromBlock)).filter fun n ↦
        decide (n ≤ s.bestBlockNumber) && (canon.getD n Bloom.default).containsBloom bloom) := by
  unfold BlockChainBlooms.blocksWithBloom
  rw [bloomGroupChain_eq hinv.cacheAgrees]
  change (BloomChain.new bloomsConfig s.view).bind
    (fun bloomChain ↦ some (bloomChain.withBloom fromBlock toBlock bloom)) = _
  rw [new_bloomsConfig, Option.bind_some, BloomChain.withBloom_eq_filter regular_bloomsManager
    (BloomChain.Covering.ancestorsContain (c := BloomChain.mk bloomsManager s.view) hinv.covering
      hbloom)]
  exact congrArg some (List.filter_congr fun n _ ↦ hinv.levelZeroContains hbloom n)

/-! ## `blocks_with_bloom` after a run -/

/-- After every run the block tree makes from a new chain, which never panics, the best block is the
last of the canonical chain, and `blocks_with_bloom` of a nonzero bloom returns exactly the numbers
of the range, up to the best block, whose bloom on the canonical chain contains it, in increasing
order. -/
theorem blocksWithBloom_eq_canonical {events : List Event}
    (hadm : Admissible [Bloom.default] events) {bloom : Bloom} (hbloom : bloom ≠ Bloom.default)
    (fromBlock toBlock : ℕ) :
    ∃ s, run events new = some s ∧
      s.bestBlockNumber + 1 = (canonAfter [Bloom.default] events).length ∧
      s.blocksWithBloom bloom fromBlock toBlock =
        some ((List.range' fromBlock (toBlock + 1 - fromBlock)).filter fun n ↦
          decide (n ≤ s.bestBlockNumber) &&
            ((canonAfter [Bloom.default] events).getD n Bloom.default).containsBloom bloom) := by
  obtain ⟨s, hrun, hinv⟩ := new_indexes.run hadm
  exact ⟨s, hrun, hinv.best_eq, hinv.blocksWithBloom hbloom fromBlock toBlock⟩

/-- A bloom with every bit set. -/
def fullBloom : Bloom := Vector.replicate 256 255

/-- Two blocks on the canonical chain, the second with a zero bloom, then a branch from the genesis
block becoming the canonical chain with the full bloom at number 2. -/
def bloomReorg : List Event :=
  [.importBlock ⟨1, fullBloom, .canonChain⟩, .importBlock ⟨2, Bloom.default, .canonChain⟩,
    .importBlock ⟨2, fullBloom, .branchBecomingCanonChain 0 [Bloom.default]⟩]

theorem blocksWithBloom_eq_canonical_bloomReorg :
    Admissible [Bloom.default] bloomReorg ∧ fullBloom ≠ Bloom.default ∧
      ∃ s, run bloomReorg new = some s ∧
        s.bestBlockNumber + 1 = (canonAfter [Bloom.default] bloomReorg).length ∧
        s.blocksWithBloom fullBloom 0 5 =
          some ((List.range' 0 (5 + 1 - 0)).filter fun n ↦
            decide (n ≤ s.bestBlockNumber) &&
              ((canonAfter [Bloom.default] bloomReorg).getD n Bloom.default).containsBloom
                fullBloom) := by
  have hadm : Admissible [Bloom.default] bloomReorg := ⟨rfl, rfl, ⟨by decide, rfl⟩, trivial⟩
  have hfull : fullBloom ≠ Bloom.default := fun h ↦ by
    have hbyte := congrArg (fun bloom : Bloom ↦ bloom[0]) h
    simp [fullBloom, Bloom.default] at hbyte
  exact ⟨hadm, hfull, blocksWithBloom_eq_canonical hadm hfull 0 5⟩

end BlockChainBlooms

end AionR
