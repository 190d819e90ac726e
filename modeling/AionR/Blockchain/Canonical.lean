import AionR.Blockchain.Import
import AionR.Lib.Writes

/-!
# What every run of imports keeps

Invariants of `BlockChain` over whole runs of `insert_block` each followed by `commit`, from a new
chain. Each is a structure of the facts it keeps, proved of `BlockChain::new`, carried by one import
through `importBlock_cases`, and then by induction over the run.

* `BestIsHeaviest`: the best block is stored with its total difficulty, and no stored block is
  heavier (`importBlocks_new_bestIsHeaviest`).
* `Indexed`: at every height up to the best block's, the canonical index names the best block's
  ancestor there (`importBlocks_new_indexed`). It rests on the walks `tree_route` returns
  (`treeRoute_sound`) and on the heights of the blocks: each block is one height above its parent.
  So up to the best block, `block_hash` and `beacon_list` say exactly which blocks are canonical
  (`Indexed.blockHashes_eq_some_iff`, `Indexed.beaconList_eq_some_iff`). Above the best block the
  index may still hold heights of a retracted longer chain, as the trace at the end of
  `Blockchain.Import` shows.

Every run here imports blocks of distinct hashes: a block's hash names its header, parent
included.
-/

namespace AionR

namespace BlockChain

variable (bc : BlockChain)

/-! ## The best block is the heaviest -/

/-- The best block is stored with its total difficulty, no stored block is heavier, and nothing
is pending. -/
structure BestIsHeaviest (bc : BlockChain) : Prop where
  best_stored : ∃ details, bc.blockDetails bc.bestBlock.hash = some details ∧
    details.totalDifficulty = bc.bestBlock.totalDifficulty
  le_best : ∀ hash details, bc.blockDetails hash = some details →
    details.totalDifficulty ≤ bc.bestBlock.totalDifficulty
  no_pending_best : bc.pendingBestBlock = none
  no_pending_details : ∀ hash, bc.pendingBlockDetails hash = none

theorem new_bestIsHeaviest (genesis : BlockView) : (new genesis).BestIsHeaviest where
  best_stored := ⟨_, if_pos rfl, rfl⟩
  le_best hash details h := by
    simp only [new] at h
    split_ifs at h
    cases h
    exact Nat.le_refl _
  no_pending_best := rfl
  no_pending_details _ := rfl

/-- A commit with nothing pending changes nothing the invariant reads. -/
theorem BestIsHeaviest.commit {bc : BlockChain} (hinv : bc.BestIsHeaviest) :
    bc.commit.BestIsHeaviest := by
  have hdetails : ∀ hash, bc.commit.blockDetails hash = bc.blockDetails hash := fun hash ↦ by
    rw [commit_blockDetails, hinv.no_pending_details, Option.none_or]
  have hbest : bc.commit.bestBlock = bc.bestBlock := by
    rw [commit_bestBlock, hinv.no_pending_best, Option.getD_none]
  refine ⟨?_, fun hash details h ↦ ?_, rfl, fun _ ↦ rfl⟩
  · rw [hbest, hdetails]
    exact hinv.best_stored
  · rw [hbest]
    exact hinv.le_best hash details (by rwa [← hdetails])

/-- One import of a block with a new hash keeps the best block the heaviest. The new block
weighs its parent's total difficulty plus its own; it becomes the best block exactly when that
beats the best block, and the parent keeps its total difficulty. -/
theorem importBlock_bestIsHeaviest {block : BlockView} {bc' : BlockChain}
    (hinv : bc.BestIsHeaviest) (hfresh : bc.blockDetails block.hash = none)
    (h : bc.importBlock block = .ok bc') : bc'.BestIsHeaviest := by
  rcases bc.importBlock_cases h with rfl |
    ⟨info, parentDetails, hashes, addresses, -, hparent, hhash, -, -, hloc, -, -, rfl⟩
  · exact hinv.commit
  refine ⟨?_, fun hash details h ↦ ?_, rfl, fun _ ↦ rfl⟩
  · rw [commit_prepareUpdate_bestBlock bc hinv.no_pending_best]
    by_cases hbranch : info.location = .branch
    · -- the old best block stays, and keeps its total difficulty even when it is the parent
      obtain ⟨best, hstored, hweight⟩ := hinv.best_stored
      have hne : bc.bestBlock.hash ≠ block.hash := by
        rintro heq
        rw [heq, hfresh] at hstored
        cases hstored
      obtain ⟨best', hstored', -, -, hweight'⟩ :=
        bc.importBlock_keeps_details hinv.no_pending_details h hne hstored
      rw [if_pos hbranch]
      exact ⟨best', hstored', hweight'.trans hweight⟩
    · rw [if_neg hbranch, commit_prepareUpdate_blockDetails bc hinv.no_pending_details, if_pos rfl]
      exact ⟨_, rfl, rfl⟩
  · rw [commit_prepareUpdate_blockDetails bc hinv.no_pending_details] at h
    rw [commit_prepareUpdate_bestBlock bc hinv.no_pending_best, bestAfter_totalDifficulty hloc]
    split_ifs at h
    · cases h
      exact Nat.le_max_right _ _
    · cases h
      -- the parent gained a child and kept its total difficulty
      exact Nat.le_trans (hinv.le_best _ parentDetails hparent) (Nat.le_max_left _ _)
    · exact Nat.le_trans (hinv.le_best _ _ h) (Nat.le_max_left _ _)

/-- Over a run of imports of blocks with new hashes, the best block stays the heaviest. -/
theorem importBlocks_bestIsHeaviest :
    ∀ {blocks : List BlockView} {bc bc' : BlockChain}, bc.BestIsHeaviest →
      (blocks.map (·.hash)).Nodup → (∀ block ∈ blocks, bc.blockDetails block.hash = none) →
      importBlocks blocks bc = .ok bc' → bc'.BestIsHeaviest
  | [], _, _, hinv, _, _, h => by
    cases h
    exact hinv
  | block :: blocks, bc, bc', hinv, hnodup, hfresh, h => by
    obtain ⟨bc₁, himport, hrest⟩ := except_bind_eq_ok.mp h
    rw [List.map_cons, List.nodup_cons] at hnodup
    have hinv₁ := bc.importBlock_bestIsHeaviest hinv (hfresh block List.mem_cons_self) himport
    exact importBlocks_bestIsHeaviest hinv₁ hnodup.2
      (bc.importBlock_keeps_fresh hinv.no_pending_details himport hnodup.1 hfresh) hrest

/-- From a new chain, after any run of imports of blocks with hashes of their own, the best block
is stored with its total difficulty, and no stored block is heavier. -/
theorem importBlocks_new_bestIsHeaviest {genesis : BlockView} {blocks : List BlockView}
    {bc : BlockChain} (hnodup : ((genesis :: blocks).map (·.hash)).Nodup)
    (h : importBlocks blocks (new genesis) = .ok bc) : bc.BestIsHeaviest := by
  rw [List.map_cons, List.nodup_cons] at hnodup
  refine importBlocks_bestIsHeaviest (new_bestIsHeaviest genesis) hnodup.2
    (fun block hblock ↦ ?_) h
  -- a new chain stores the genesis block alone
  exact if_neg (ne_of_mem_of_not_mem (List.mem_map_of_mem hblock) hnodup.1)

/-! ## The canonical index up to the best block -/

/-- Each block of `views` is one height above the block of `views` it names as parent. -/
def NumberedViews (views : List BlockView) : Prop :=
  ∀ view ∈ views, ∀ parent ∈ views, parent.hash = view.parentHash →
    view.number = parent.number + 1

/-- The chain holds blocks of `views` only, with their heights and parents; the canonical index
names, at every height up to the best block's, the best block's ancestor there; and nothing is
pending. -/
structure Indexed (views : List BlockView) (bc : BlockChain) : Prop where
  stored_view : ∀ hash details, bc.blockDetails hash = some details →
    ∃ view ∈ views, view.hash = hash ∧ details.number = view.number ∧
      details.parent = view.parentHash
  best_number : ∃ details, bc.blockDetails bc.bestBlock.hash = some details ∧
    details.number = bc.bestBlock.number
  canon : ∀ n ≤ bc.bestBlock.number, ∃ hash details, bc.blockHashes n = some hash ∧
    bc.blockDetails hash = some details ∧ details.number = n ∧
    bc.toProvider.Ancestor hash bc.bestBlock.hash
  no_pending_best : bc.pendingBestBlock = none
  no_pending_hashes : ∀ n, bc.pendingBlockHashes n = none
  no_pending_details : ∀ hash, bc.pendingBlockDetails hash = none

/-- A chain of blocks of numbered views is numbered by height. -/
theorem Indexed.parentsNumbered {views : List BlockView} {bc : BlockChain}
    (hviews : NumberedViews views) (hinv : bc.Indexed views) : bc.toProvider.ParentsNumbered := by
  intro hash details details' hdetails hparent
  obtain ⟨view, hview, rfl, hnumber, hparentHash⟩ := hinv.stored_view _ _ hdetails
  obtain ⟨parent, hparentView, hhash, hnumber', -⟩ := hinv.stored_view _ _ hparent
  have := hviews view hview parent hparentView (hhash.trans hparentHash)
  omega

theorem new_indexed {genesis : BlockView} {views : List BlockView} (hgenesis : genesis ∈ views)
    (hzero : genesis.number = 0) : (new genesis).Indexed views where
  stored_view hash details h := by
    simp only [new] at h
    split_ifs at h with hhash
    cases h
    exact ⟨genesis, hgenesis, hhash.symm, rfl, rfl⟩
  best_number := ⟨_, if_pos rfl, rfl⟩
  canon n hn := by
    -- the genesis block is the only height, at zero
    have hn : n = genesis.number := by
      change n ≤ genesis.number at hn
      omega
    exact ⟨genesis.hash, _, if_pos hn, if_pos rfl, hn.symm, .refl _⟩
  no_pending_best := rfl
  no_pending_hashes _ := rfl
  no_pending_details _ := rfl

/-- A commit with nothing pending changes nothing the invariant reads. -/
theorem Indexed.commit {views : List BlockView} {bc : BlockChain} (hinv : bc.Indexed views) :
    bc.commit.Indexed views := by
  have hdetails : bc.commit.blockDetails = bc.blockDetails := funext fun hash ↦ by
    rw [commit_blockDetails, hinv.no_pending_details, Option.none_or]
  have hhashes : bc.commit.blockHashes = bc.blockHashes := funext fun n ↦ by
    rw [commit_blockHashes, hinv.no_pending_hashes, Option.none_or]
  have hbest : bc.commit.bestBlock = bc.bestBlock := by
    rw [commit_bestBlock, hinv.no_pending_best, Option.getD_none]
  have hprovider : bc.commit.toProvider = bc.toProvider := by
    rw [toProvider, toProvider, hdetails, hhashes]
  refine ⟨?_, ?_, ?_, rfl, fun _ ↦ rfl, fun _ ↦ rfl⟩
  · rw [hdetails]
    exact hinv.stored_view
  · rw [hdetails, hbest]
    exact hinv.best_number
  · rw [hdetails, hhashes, hbest, hprovider]
    exact hinv.canon

/-- The canonical index after a block becomes the best one, from the walks of `tree_route`: the
heights up to the common ancestor of the old best block and the new block's parent keep the old
index; above it the walk down from the parent, read from the bottom, fills the heights up to the
parent's; the new block takes its own height. Each of them names the new block's ancestor at
that height. -/
theorem canon_after_import {views : List BlockView} {bc' : BlockChain} {block : BlockView}
    {ancestor : Vector UInt8 32} {lf lt : List (Vector UInt8 32)}
    {ancestorDetails parentDetails : BlockDetails} {totalDifficulty : ℕ}
    (hparents : bc.toProvider.ParentsNumbered) (hinv : bc.Indexed views)
    (hold : ∀ hash details, bc.blockDetails hash = some details → ∃ details',
      bc'.blockDetails hash = some details' ∧ details'.number = details.number ∧
        details'.parent = details.parent)
    (hnew : bc'.blockDetails block.hash =
      some ⟨block.number, totalDifficulty, block.parentHash, []⟩)
    (hparent : bc.blockDetails block.parentHash = some parentDetails)
    (hnumber : block.number = parentDetails.number + 1)
    (hfrom : bc.toProvider.DownPath bc.bestBlock.hash lf ancestor)
    (hto : bc.toProvider.DownPath block.parentHash lt ancestor)
    (hancestor : bc.blockDetails ancestor = some ancestorDetails)
    (hindex : ∀ n, bc'.blockHashes n =
      (((lt.reverse.mapIdx fun i hash ↦ (ancestorDetails.number + 1 + i, hash)) ++
        [(block.number, block.hash)]).foldl (fun (m : ℕ → Option (Vector UInt8 32)) e ↦
          Function.update m e.1 (some e.2)) (fun _ ↦ none) n).or (bc.blockHashes n)) :
    ∀ n ≤ block.number, ∃ hash details, bc'.blockHashes n = some hash ∧
      bc'.blockDetails hash = some details ∧ details.number = n ∧
      bc'.toProvider.Ancestor hash block.hash := by
  -- ancestry in the old chain carries over, and the new block extends its parent's
  have hmono : ∀ {x y}, bc.toProvider.Ancestor x y → bc'.toProvider.Ancestor x y :=
    fun h ↦ h.mono _ fun hash details hd ↦
      (hold hash details hd).imp fun _ hd' ↦ ⟨hd'.1, hd'.2.2⟩
  have hextend : ∀ {x}, bc.toProvider.Ancestor x block.parentHash →
      bc'.toProvider.Ancestor x block.hash :=
    fun hx ↦ .parent hnew (hmono hx)
  obtain ⟨bestDetails, hbest, hbestNumber⟩ := hinv.best_number
  have hlenTo := hto.number_add_length _ hparents hancestor hparent
  have hlenFrom := hfrom.number_add_length _ hparents hancestor hbest
  intro n hn
  rw [hindex n, List.foldl_append, List.foldl_cons, List.foldl_nil]
  dsimp only
  by_cases htop : n = block.number
  · -- the new block at its own height
    subst htop
    rw [Function.update_self, Option.some_or]
    exact ⟨block.hash, _, rfl, hnew, rfl, .refl _⟩
  rw [Function.update_of_ne htop, foldl_update_mapIdx_apply]
  by_cases hlow : ancestorDetails.number + 1 ≤ n
  · -- above the ancestor: the walk from the parent, read from the bottom
    have hj : n - (ancestorDetails.number + 1) < lt.reverse.length := by
      rw [List.length_reverse]
      omega
    obtain ⟨d, hd, hdNumber, hdAncestor⟩ := hto.getElem_reverse _ hparents hancestor hparent _ hj
    obtain ⟨d', hd', hd'Number, -⟩ := hold _ _ hd
    rw [if_pos hlow, List.getElem?_eq_getElem hj, Option.some_or, Option.some_or]
    exact ⟨_, d', rfl, hd', by omega, hextend hdAncestor⟩
  · -- up to the ancestor: the old index, whose block lies below the ancestor
    obtain ⟨hash, d, hhash, hd, hdNumber, hdAncestor⟩ := hinv.canon n (by omega)
    have hbelow : bc.toProvider.Ancestor hash ancestor :=
      hdAncestor.of_number_le _ hparents (hfrom.ancestor _) hd hancestor (by omega)
    obtain ⟨d', hd', hd'Number, -⟩ := hold _ _ hd
    rw [if_neg hlow, Option.none_or, hhash]
    exact ⟨hash, d', rfl, hd', by omega, hextend (hbelow.trans _ (hto.ancestor _))⟩

/-- The index update of a new best block, read through the route: above the common ancestor of
the old best block and the parent, the walk down from the parent, from the bottom, then the block. -/
theorem hashes_of_route {block : BlockView} {info : BlockInfo}
    {hashes : List (ℕ × Vector UInt8 32)} {route : TreeRoute} (hhash : info.hash = block.hash)
    (hhashes : bc.prepareBlockHashesUpdate block info = .ok hashes)
    (hroute : bc.treeRoute bc.bestBlock.hash block.parentHash = some route)
    (hcases : (route.blocks = [] ∧ info.location = .canonChain) ∨
      (route.blocks ≠ [] ∧ info.location = .branchBecomingCanonChain
        ⟨route.ancestor, route.blocks.drop route.index, route.blocks.take route.index⟩)) :
    ∃ lf lt ancestorDetails, bc.toProvider.DownPath bc.bestBlock.hash lf route.ancestor ∧
      bc.toProvider.DownPath block.parentHash lt route.ancestor ∧
      bc.blockDetails route.ancestor = some ancestorDetails ∧
      hashes = (lt.reverse.mapIdx fun i hash ↦ (ancestorDetails.number + 1 + i, hash)) ++
        [(block.number, block.hash)] := by
  obtain ⟨lf, lt, hshape, hfrom, hto, ancestorDetails, hancestor⟩ := bc.treeRoute_sound hroute
  obtain ⟨-, hcanon, hreorg⟩ := bc.prepareBlockHashesUpdate_eq_ok hhashes
  refine ⟨lf, lt, ancestorDetails, hfrom, hto, hancestor, ?_⟩
  rcases hcases with ⟨hempty, hloc⟩ | ⟨-, hloc⟩
  · -- an empty route: both walks are empty and the block alone is written
    rw [hshape] at hempty
    obtain ⟨-, hlt⟩ := List.append_eq_nil_iff.mp hempty
    rw [List.reverse_eq_nil_iff.mp hlt, hcanon hloc, hhash]
    rfl
  · -- a reorganisation: the enacted blocks are the second walk from the bottom
    obtain ⟨ancestorDetails', hancestor', rfl⟩ := hreorg _ hloc
    obtain rfl : ancestorDetails' = ancestorDetails :=
      Option.some.inj (hancestor'.symm.trans hancestor)
    have henacted : route.blocks.drop route.index = lt.reverse := by
      rw [hshape]
      exact List.drop_left
    dsimp only
    rw [henacted, hhash]

/-- One import of a block of numbered views with a new hash keeps the index canonical up to the
best block. -/
theorem importBlock_indexed {views : List BlockView} {block : BlockView} {bc' : BlockChain}
    (hviews : NumberedViews views) (hinv : bc.Indexed views) (hblock : block ∈ views)
    (hfresh : bc.blockDetails block.hash = none) (h : bc.importBlock block = .ok bc') :
    bc'.Indexed views := by
  have hparents := hinv.parentsNumbered hviews
  -- every block the chain held keeps its height and parent
  have hold : ∀ hash details, bc.blockDetails hash = some details → ∃ details',
      bc'.blockDetails hash = some details' ∧ details'.number = details.number ∧
        details'.parent = details.parent := by
    intro hash details hd
    have hne : hash ≠ block.hash := by
      rintro rfl
      rw [hfresh] at hd
      cases hd
    obtain ⟨details', hd', hnumber, hparent, -⟩ :=
      bc.importBlock_keeps_details hinv.no_pending_details h hne hd
    exact ⟨details', hd', hnumber, hparent⟩
  have hmono : ∀ {x y}, bc.toProvider.Ancestor x y → bc'.toProvider.Ancestor x y :=
    fun hxy ↦ hxy.mono _ fun hash details hd ↦
      (hold hash details hd).imp fun _ hd' ↦ ⟨hd'.1, hd'.2.2⟩
  rcases bc.importBlock_cases h with rfl | ⟨info, parentDetails, hashes, addresses, -, hparent,
    hhash, hinfoNumber, -, -, hroute, hhashes, hbc'⟩
  · exact hinv.commit
  have hdetails := fun hash ↦ hbc' ▸ commit_prepareUpdate_blockDetails bc
    hinv.no_pending_details hash
  have hnew : bc'.blockDetails block.hash =
      some ⟨block.number, info.totalDifficulty, block.parentHash, []⟩ := by
    rw [hdetails, if_pos hhash.symm]
  have hbest : bc'.bestBlock = if info.location = .branch then bc.bestBlock
      else ⟨info.hash, info.number, info.totalDifficulty⟩ := by
    rw [hbc', commit_prepareUpdate_bestBlock bc hinv.no_pending_best]
  have hindex : ∀ n, bc'.blockHashes n = (hashes.foldl (fun (m : ℕ → Option (Vector UInt8 32)) e ↦
      Function.update m e.1 (some e.2)) (fun _ ↦ none) n).or (bc.blockHashes n) := fun n ↦ by
    rw [hbc', commit_prepareUpdate_blockHashes bc hinv.no_pending_hashes]
  refine ⟨fun hash details hd ↦ ?_, ?_, ?_, by rw [hbc']; rfl, fun _ ↦ by rw [hbc']; rfl,
    fun _ ↦ by rw [hbc']; rfl⟩
  · -- the chain holds the new block, the parent and the blocks it held, all of `views`
    rw [hdetails] at hd
    split_ifs at hd with hnewHash hparentHash
    · cases hd
      exact ⟨block, hblock, (hnewHash.trans hhash).symm, rfl, rfl⟩
    · cases hd
      obtain ⟨view, hview, hviewHash, hnumber, hparentOf⟩ := hinv.stored_view _ _ hparent
      exact ⟨view, hview, hviewHash.trans hparentHash.symm, hnumber, hparentOf⟩
    · exact hinv.stored_view _ _ hd
  · rw [hbest]
    split_ifs with hbranch
    · obtain ⟨details, hd, hnumber⟩ := hinv.best_number
      obtain ⟨details', hd', hnumber', -⟩ := hold _ _ hd
      exact ⟨details', hd', hnumber'.trans hnumber⟩
    · exact ⟨_, hhash ▸ hnew, hinfoNumber.symm⟩
  · intro n hn
    rw [hbest] at hn ⊢
    split_ifs at hn ⊢ with hbranch
    · -- a branch: the index and the best block stay
      obtain ⟨hash, details, hhashN, hd, hnumber, hancestor⟩ := hinv.canon n hn
      obtain ⟨details', hd', hnumber', -⟩ := hold _ _ hd
      have hempty : hashes = [] := (bc.prepareBlockHashesUpdate_eq_ok hhashes).1 hbranch
      refine ⟨hash, details', ?_, hd', hnumber'.trans hnumber, hmono hancestor⟩
      rw [hindex, hempty]
      exact hhashN
    · -- a new best block: the index is read through the route
      obtain ⟨hnumber, route, hrouteEq, hcases⟩ := hroute hbranch
      obtain ⟨lf, lt, ancestorDetails, hfrom, hto, hancestor, rfl⟩ :=
        bc.hashes_of_route hhash hhashes hrouteEq hcases
      rw [hhash]
      exact bc.canon_after_import hparents hinv hold hnew hparent hnumber hfrom hto hancestor
        hindex n (hinfoNumber ▸ hn)

/-- Over a run of imports of blocks of numbered views with hashes of their own, the index stays
canonical up to the best block. -/
theorem importBlocks_indexed {views : List BlockView} (hviews : NumberedViews views) :
    ∀ {blocks : List BlockView} {bc bc' : BlockChain}, bc.Indexed views →
      (∀ block ∈ blocks, block ∈ views) → (blocks.map (·.hash)).Nodup →
      (∀ block ∈ blocks, bc.blockDetails block.hash = none) →
      importBlocks blocks bc = .ok bc' → bc'.Indexed views
  | [], _, _, hinv, _, _, _, h => by
    cases h
    exact hinv
  | block :: blocks, bc, bc', hinv, hviewsOf, hnodup, hfresh, h => by
    obtain ⟨bc₁, himport, hrest⟩ := except_bind_eq_ok.mp h
    rw [List.map_cons, List.nodup_cons] at hnodup
    have hinv₁ := bc.importBlock_indexed hviews hinv (hviewsOf block List.mem_cons_self)
      (hfresh block List.mem_cons_self) himport
    exact importBlocks_indexed hviews hinv₁
      (fun later hlater ↦ hviewsOf later (List.mem_cons_of_mem block hlater)) hnodup.2
      (bc.importBlock_keeps_fresh hinv.no_pending_details himport hnodup.1 hfresh) hrest

/-- From a new chain with its genesis block at height zero, after any run of imports of blocks
with hashes of their own, each one height above the block it names as parent, the index is
canonical up to the best block. -/
theorem importBlocks_new_indexed {genesis : BlockView} {blocks : List BlockView}
    {bc : BlockChain} (hzero : genesis.number = 0)
    (hnodup : ((genesis :: blocks).map (·.hash)).Nodup)
    (hviews : NumberedViews (genesis :: blocks))
    (h : importBlocks blocks (new genesis) = .ok bc) : bc.Indexed (genesis :: blocks) := by
  rw [List.map_cons, List.nodup_cons] at hnodup
  refine importBlocks_indexed hviews (new_indexed List.mem_cons_self hzero)
    (fun block hblock ↦ List.mem_cons_of_mem genesis hblock) hnodup.2 (fun block hblock ↦ ?_) h
  -- a new chain stores the genesis block alone
  exact if_neg (ne_of_mem_of_not_mem (List.mem_map_of_mem hblock) hnodup.1)

/-- Up to the best block's height, the index names a block exactly when it is the best block's
ancestor at that height. -/
theorem Indexed.blockHashes_eq_some_iff {views : List BlockView} {bc : BlockChain}
    (hviews : NumberedViews views) (hinv : bc.Indexed views) {n : ℕ}
    (hn : n ≤ bc.bestBlock.number) {hash : Vector UInt8 32} :
    bc.blockHashes n = some hash ↔ ∃ details, bc.blockDetails hash = some details ∧
      details.number = n ∧ bc.toProvider.Ancestor hash bc.bestBlock.hash := by
  obtain ⟨canonical, d, hindex, hd, hnumber, hancestor⟩ := hinv.canon n hn
  rw [hindex, Option.some.injEq]
  constructor
  · rintro rfl
    exact ⟨d, hd, hnumber, hancestor⟩
  · rintro ⟨details, hdetails, hdetailsNumber, hhash⟩
    -- two ancestors of the best block at one height are one block
    have hparents := hinv.parentsNumbered hviews
    have hbelow := hhash.of_number_le _ hparents hancestor hdetails hd (by omega)
    exact (hbelow.eq_of_number_eq _ hparents hdetails hd (by omega)).symm

/-- Up to the best block's height, `beacon_list` finds a block exactly when it is an ancestor of
the best block. -/
theorem Indexed.beaconList_eq_some_iff {views : List BlockView} {bc : BlockChain}
    (hviews : NumberedViews views) (hinv : bc.Indexed views) {hash : Vector UInt8 32}
    {details : BlockDetails} (hdetails : bc.blockDetails hash = some details)
    (hn : details.number ≤ bc.bestBlock.number) :
    bc.toProvider.beaconList hash = some details.number ↔
      bc.toProvider.Ancestor hash bc.bestBlock.hash := by
  rw [BlockProvider.beaconList_eq_some]
  constructor
  · rintro ⟨-, -, -, hindex⟩
    obtain ⟨-, -, -, hancestor⟩ := (hinv.blockHashes_eq_some_iff hviews hn).mp hindex
    exact hancestor
  · intro hancestor
    exact ⟨details, hdetails, rfl,
      (hinv.blockHashes_eq_some_iff hviews hn).mpr ⟨details, hdetails, rfl, hancestor⟩⟩

end BlockChain

end AionR
