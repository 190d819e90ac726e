import Mathlib.Data.List.AList
import AionR.Lib.ByteSet
import AionR.Lib.Kary

/-!
# The bloom chain

`BloomChain` (`src/util/bloomchain/src/chain.rs`, `position/manager.rs`) indexes the log blooms
of a chain's blocks in a hierarchy of levels. Level 0 holds the bloom of each block number. The
bloom of level `l` at index `i` stands for the `index_size ^ l` numbers from `i * index_size ^ l`
and is meant to cover the blooms of its `index_size` children. `with_bloom` searches from the top
level down, pruning a node whose bloom does not contain the one searched for; `insert` accrues a
block's bloom at every level; `replace` writes the blooms of a new branch at level 0, resets the
rest of an old range, and recomputes the levels above the new blooms from their children.

## Model

`Bloom` is ethbloom's 256 bytes, read as a set of bits (`Lib.ByteSet`). The database is the
function `bloom_at` reads, and the maps the writers return are association lists. Numbers are
naturals: `usize` arithmetic agrees with them on the block numbers of a chain, far below `2 ^ 64`.
`Manager::new` panics without a level; that is `none` here.

## Main results

* `Manager.new_eq_some`: the level sizes are the powers of the index size.
* `withBloom_eq_filter`: over a database whose every level-0 bloom is covered by the blooms of
  its ancestors, `with_bloom` returns exactly the numbers of the interval whose level-0 bloom
  contains the one searched for, in increasing order.
-/

namespace AionR

/-- `ethbloom::Bloom`. -/
abbrev Bloom := Vector UInt8 256

namespace Bloom

/-- `Bloom::default`: no bit set. -/
def default : Bloom := Vector.replicate 256 0

/-- `is_zero`: every byte is zero. -/
def isZero (self : Bloom) : Bool := self.toList.all (· == 0)

/-- `contains_bloom`: each byte of `bloom` is kept under the mask of the same byte of `self`. -/
def containsBloom (self bloom : Bloom) : Bool :=
  (List.finRange 256).all fun i ↦ (self[i] &&& bloom[i]) == bloom[i]

/-- `accrue_bloom`: the bytewise or. -/
def accrueBloom (self bloom : Bloom) : Bloom := ByteSet.union self bloom

theorem containsBloom_iff {self bloom : Bloom} : self.containsBloom bloom ↔ ByteSet.Covers self bloom := by
  simp only [containsBloom, List.all_eq_true, List.mem_finRange, true_implies, beq_iff_eq,
    ByteSet.Covers]
  constructor
  · intro h i hi
    exact h ⟨i, hi⟩
  · intro h i
    exact h i i.isLt

/-- A zero bloom is the default one. -/
theorem eq_default_of_isZero {self : Bloom} (h : self.isZero = true) : self = default := by
  apply Vector.ext
  intro i hi
  have hzero := List.all_eq_true.mp h self[i] (by simp)
  simpa [default] using hzero

/-- The default bloom contains no other bloom. -/
theorem containsBloom_default {bloom : Bloom} (h : bloom ≠ default) :
    default.containsBloom bloom = false := by
  by_contra hcontains
  rw [Bool.not_eq_false] at hcontains
  exact h (ByteSet.eq_zero_of_zero_covers (containsBloom_iff.mp hcontains))

end Bloom

/-- `position::Position`: a level and an index on it. -/
structure Position where
  level : ℕ
  index : ℕ
  deriving DecidableEq, Repr

/-- `Config`: the number of levels and the number of children of a node. -/
structure Config where
  levels : ℕ
  elementsPerIndex : ℕ
  deriving DecidableEq, Repr

/-- `position::Manager`. -/
structure Manager where
  indexSize : ℕ
  levelSizes : List ℕ
  deriving DecidableEq, Repr

namespace Manager

/-- `Manager::new`: the level sizes `1, index_size, index_size ^ 2, …`, one per level. -/
def new (indexSize levels : ℕ) : Option Manager :=
  if levels = 0 then none
  else some ⟨indexSize, List.scanl (fun acc _ ↦ acc * indexSize) 1 (List.replicate (levels - 1) ())⟩

variable (m : Manager)

/-- `level_size`, which indexes the sizes unchecked. -/
def levelSize (level : ℕ) : ℕ := m.levelSizes[level]!

/-- `position`: the node of `level` above a block number. -/
def position (blockNumber level : ℕ) : Position := ⟨level, blockNumber / m.levelSize level⟩

/-- `lower_level_positions`: the children of a node, in order. -/
def lowerLevelPositions (index : Position) : List Position :=
  if index.level = 0 then []
  else (List.range m.indexSize).map fun i ↦ ⟨index.level - 1, m.indexSize * index.index + i⟩

/-- `levels`. -/
def levels : ℕ := m.levelSizes.length

/-- `max_level`. -/
def maxLevel : ℕ := m.levelSizes.length - 1

/-- A scan from `acc` that multiplies by `k` at each step: `acc` times the powers of `k`. -/
theorem scanl_mul_replicate (k : ℕ) : ∀ n acc : ℕ,
    List.scanl (fun acc _ ↦ acc * k) acc (List.replicate n ()) =
      (List.range (n + 1)).map fun i ↦ acc * k ^ i := by
  intro n
  induction n with
  | zero => intro acc; simp
  | succ n ih =>
    intro acc
    rw [List.replicate_succ, List.scanl_cons, ih]
    conv_rhs => rw [List.range_succ_eq_map]
    simp [Nat.pow_succ, Nat.mul_assoc, Nat.mul_comm k]

/-- With a level, the level sizes are the powers of the index size. -/
theorem new_eq_some {indexSize levels : ℕ} (h : 0 < levels) :
    new indexSize levels = some ⟨indexSize, (List.range levels).map (indexSize ^ ·)⟩ := by
  rw [new, if_neg (Nat.pos_iff_ne_zero.mp h), scanl_mul_replicate, Nat.sub_add_cancel h]
  simp

/-- The managers `Manager::new` builds over a positive index size. -/
structure Regular : Prop where
  indexSize_pos : 0 < m.indexSize
  levels_pos : 0 < m.levels
  levelSizes_eq : m.levelSizes = (List.range m.levels).map (m.indexSize ^ ·)

theorem regular_of_new {indexSize levels : ℕ} {m : Manager} (hk : 0 < indexSize)
    (h : new indexSize levels = some m) : m.Regular := by
  have hlevels : 0 < levels := by
    rcases Nat.eq_zero_or_pos levels with rfl | hpos
    · simp [new] at h
    · exact hpos
  rw [new_eq_some hlevels, Option.some.injEq] at h
  subst h
  exact ⟨hk, by simp [Manager.levels, hlevels], by simp [Manager.levels]⟩

variable {m}

theorem Regular.levelSize_eq (hm : m.Regular) {level : ℕ} (h : level < m.levels) :
    m.levelSize level = m.indexSize ^ level := by
  rw [levelSize, hm.levelSizes_eq]
  simp [h]

theorem Regular.position_eq (hm : m.Regular) {level : ℕ} (h : level < m.levels) (n : ℕ) :
    m.position n level = ⟨level, n / m.indexSize ^ level⟩ := by
  rw [position, hm.levelSize_eq h]

theorem lowerLevelPositions_succ (level index : ℕ) :
    m.lowerLevelPositions ⟨level + 1, index⟩ =
      (List.range' (m.indexSize * index) m.indexSize).map fun i ↦ ⟨level, i⟩ := by
  simp [lowerLevelPositions, List.range'_eq_map_range, Nat.add_comm]

/-- The node below a node of level `level + 1` on the way down to a number. -/
theorem mem_lowerLevelPositions_div (hk : 0 < m.indexSize) (n level : ℕ) :
    (⟨level, n / m.indexSize ^ level⟩ : Position) ∈
      m.lowerLevelPositions ⟨level + 1, n / m.indexSize ^ (level + 1)⟩ := by
  rw [lowerLevelPositions_succ]
  refine List.mem_map.mpr ⟨n / m.indexSize ^ level, List.mem_range'_1.mpr ?_, rfl⟩
  rw [Nat.pow_succ, ← Nat.div_div_eq_div_mul]
  have hdiv := Nat.div_add_mod (n / m.indexSize ^ level) m.indexSize
  have hmod := Nat.mod_lt (n / m.indexSize ^ level) hk
  omega

theorem level_of_mem_lowerLevelPositions {index p : Position}
    (h : p ∈ m.lowerLevelPositions index) : p.level + 1 = index.level := by
  unfold lowerLevelPositions at h
  split_ifs at h with h0
  · exact absurd h List.not_mem_nil
  · obtain ⟨i, -, rfl⟩ := List.mem_map.mp h
    exact Nat.sub_add_cancel (Nat.pos_iff_ne_zero.mpr h0)

end Manager

/-- `BloomChain`: the positions, and the database `bloom_at` reads. -/
structure BloomChain where
  positioner : Manager
  db : Position → Option Bloom

namespace BloomChain

/-- `BloomChain::new`. -/
def new (config : Config) (db : Position → Option Bloom) : Option BloomChain :=
  (Manager.new config.elementsPerIndex config.levels).map fun positioner ↦ ⟨positioner, db⟩

variable (c : BloomChain)

/-- `blocks`: the numbers under the node of `level` above `offset` whose level-0 bloom contains
`bloom`, through nodes whose blooms all contain it and, below the top, inside the window of the
range. -/
def blocks (rangeStart rangeEnd : ℕ) (bloom : Bloom) : ℕ → ℕ → Option (List ℕ)
  | level, offset =>
    let index := c.positioner.position offset level
    match c.db index with
    | none => none
    | some levelBloom =>
      match level with
      | 0 => if levelBloom.containsBloom bloom then some [offset] else none
      | level + 1 =>
        if !levelBloom.containsBloom bloom then none
        else
          let levelSize := c.positioner.levelSize level
          let fromPosition := c.positioner.position rangeStart level
          let toPosition := c.positioner.position rangeEnd level
          some ((((c.positioner.lowerLevelPositions index).filter fun li ↦
              fromPosition.index ≤ li.index ∧ li.index ≤ toPosition.index).map fun li ↦
              li.index * levelSize).filterMap fun off ↦ blocks rangeStart rangeEnd bloom level off).flatten

/-- `insert`: the block's bloom accrued at every level. -/
def insert (number : ℕ) (bloom : Bloom) : AList (fun _ : Position ↦ Bloom) :=
  (List.range c.positioner.levels).foldl (fun result level ↦
    let position := c.positioner.position number level
    let newBloom := match c.db position with
      | some oldBloom => oldBloom.accrueBloom bloom
      | none => bloom
    result.insert position newBloom) ∅

/-- The bloom `replace` gives a node above level 0: the union of its children, read from the
blooms written so far before the database. -/
def unionOfChildren (result : AList (fun _ : Position ↦ Bloom)) (index : Position) : Bloom :=
  ((c.positioner.lowerLevelPositions index).filterMap fun index ↦
    (result.lookup index).or (c.db index)).foldl Bloom.accrueBloom Bloom.default

/-- The first two loops of `replace`: the new blooms at level 0 from `range.start`, then the
default bloom on the rest of the range up to `range.end`. -/
def resetLevelZero (rangeStart rangeEnd : ℕ) (blooms : List Bloom) :
    AList (fun _ : Position ↦ Bloom) :=
  -- insert all new blooms at level 0
  let result := blooms.zipIdx.foldl (fun result bi ↦
    result.insert (c.positioner.position (rangeStart + bi.2) 0) bi.1) ∅
  -- reset the rest of blooms
  (List.range' (rangeStart + blooms.length)
      (rangeEnd + 1 - (rangeStart + blooms.length))).foldl (fun result resetNumber ↦
    result.insert (c.positioner.position resetNumber 0) Bloom.default) result

/-- One pass of the third loop of `replace`: the node of `level` above each of the `count` new
blooms becomes the union of its children. -/
def replaceLevel (rangeStart count : ℕ) (result : AList (fun _ : Position ↦ Bloom)) (level : ℕ) :
    AList (fun _ : Position ↦ Bloom) :=
  (List.range count).foldl (fun result i ↦
    let index := c.positioner.position (rangeStart + i) level
    result.insert index (c.unionOfChildren result index)) result

/-- `replace`: the level-0 blooms of the range, then the levels above the new blooms, from the
bottom up. -/
def replace (rangeStart rangeEnd : ℕ) (blooms : List Bloom) : AList (fun _ : Position ↦ Bloom) :=
  (List.range' 1 (c.positioner.levels - 1)).foldl (c.replaceLevel rangeStart blooms.length)
    (c.resetLevelZero rangeStart rangeEnd blooms)

/-- `with_bloom`: the search from every node of the top level in the window of the range. -/
def withBloom (rangeStart rangeEnd : ℕ) (bloom : Bloom) : List ℕ :=
  let maxLevel := c.positioner.maxLevel
  let levelSize := c.positioner.levelSize maxLevel
  let fromPosition := c.positioner.position rangeStart maxLevel
  let toPosition := c.positioner.position rangeEnd maxLevel
  (List.range' fromPosition.index (toPosition.index + 1 - fromPosition.index)).foldl
    (fun result index ↦
      match c.blocks rangeStart rangeEnd bloom maxLevel (levelSize * index) with
      | some blocks => result ++ blocks
      | none => result) []

/-- Whether the level-0 bloom of a number contains `bloom`. -/
def levelZeroContains (bloom : Bloom) (n : ℕ) : Bool :=
  match c.db ⟨0, n⟩ with
  | some levelBloom => levelBloom.containsBloom bloom
  | none => false

/-- Every number whose level-0 bloom contains `bloom` has, on every level, a bloom that
contains it above. -/
def AncestorsContain (bloom : Bloom) : Prop :=
  ∀ n, c.levelZeroContains bloom n = true → ∀ level < c.positioner.levels,
    ∃ y, c.db ⟨level, n / c.positioner.indexSize ^ level⟩ = some y ∧ y.containsBloom bloom

/-- Collecting the lists of a search, skipping the missing ones. -/
theorem foldl_append_getD {α : Type} (f : α → Option (List ℕ)) :
    ∀ (l : List α) (init : List ℕ),
      l.foldl (fun result x ↦
        match f x with
        | some blocks => result ++ blocks
        | none => result) init = init ++ l.flatMap fun x ↦ (f x).getD [] := by
  intro l
  induction l with
  | nil => intro init; simp
  | cons x l ih =>
    intro init
    rw [List.foldl_cons, ih, List.flatMap_cons, ← List.append_assoc]
    cases f x <;> simp

/-! ## What `with_bloom` returns -/

section Search

variable {c} (hm : c.positioner.Regular) {rangeStart rangeEnd : ℕ} {bloom : Bloom}
include hm

/-- The numbers the search keeps: in the range, with a level-0 bloom containing `bloom`. -/
def Found (c : BloomChain) (rangeStart rangeEnd : ℕ) (bloom : Bloom) (n : ℕ) : Bool :=
  c.levelZeroContains bloom n && decide (rangeStart ≤ n ∧ n ≤ rangeEnd)

omit hm in
theorem found_range {n : ℕ} (h : Found c rangeStart rangeEnd bloom n = true) :
    rangeStart ≤ n ∧ n ≤ rangeEnd := by
  simp only [Found, Bool.and_eq_true, decide_eq_true_eq] at h
  exact h.2

/-- On level 0 a number is returned when its bloom contains `bloom`, with no check of the
range: the level above makes it. -/
theorem blocks_zero (j : ℕ) :
    (c.blocks rangeStart rangeEnd bloom 0 j).getD [] =
      if c.levelZeroContains bloom j then [j] else [] := by
  rw [blocks, hm.position_eq hm.levels_pos, Nat.pow_zero, Nat.div_one]
  unfold levelZeroContains
  cases c.db ⟨0, j⟩ with
  | none => rfl
  | some levelBloom =>
    by_cases hc : levelBloom.containsBloom bloom
    · simp [hc]
    · simp [hc]

/-- A node whose bloom is missing or lacks `bloom` has no number the search keeps. -/
theorem filter_leaves_eq_nil (hfinds : c.AncestorsContain bloom) {level i : ℕ}
    (hl : level < c.positioner.levels)
    (hnode : ∀ y, c.db ⟨level, i⟩ = some y → y.containsBloom bloom = false) :
    (Kary.leaves c.positioner.indexSize level i).filter (Found c rangeStart rangeEnd bloom) =
      [] := by
  rw [List.filter_eq_nil_iff]
  intro n hn hfound
  simp only [Found, Bool.and_eq_true] at hfound
  obtain ⟨y, hy, hcontains⟩ := hfinds n hfound.1 level hl
  rw [(Kary.mem_leaves hm.indexSize_pos).mp hn] at hy
  rw [hnode y hy] at hcontains
  exact Bool.false_ne_true hcontains

/-- One level of the descent: a node whose bloom contains `bloom` returns what its children in
the window of the range return, and those are the numbers under it that the search keeps. -/
theorem blocks_succ (hfinds : c.AncestorsContain bloom) {level : ℕ}
    (hl : level + 1 < c.positioner.levels) (i : ℕ)
    (hchildren : ∀ j, rangeStart / c.positioner.indexSize ^ level ≤ j →
      j ≤ rangeEnd / c.positioner.indexSize ^ level →
      (c.blocks rangeStart rangeEnd bloom level (j * c.positioner.indexSize ^ level)).getD [] =
        (Kary.leaves c.positioner.indexSize level j).filter (Found c rangeStart rangeEnd bloom)) :
    (c.blocks rangeStart rangeEnd bloom (level + 1)
        (i * c.positioner.indexSize ^ (level + 1))).getD [] =
      (Kary.leaves c.positioner.indexSize (level + 1) i).filter
        (Found c rangeStart rangeEnd bloom) := by
  have hk := hm.indexSize_pos
  have hpow : 0 < c.positioner.indexSize ^ (level + 1) := Nat.pow_pos hk
  rw [blocks, hm.position_eq hl, Nat.mul_div_cancel _ hpow]
  cases hdb : c.db ⟨level + 1, i⟩ with
  | none =>
    rw [filter_leaves_eq_nil hm hfinds hl fun y hy ↦ absurd (hdb.symm.trans hy) (by simp)]
    rfl
  | some levelBloom =>
    by_cases hc : levelBloom.containsBloom bloom
    · -- the descent into the children in the window
      simp only [hc, Bool.not_true, Bool.false_eq_true, if_false, Option.getD_some]
      rw [Manager.lowerLevelPositions_succ, hm.position_eq (by omega), hm.position_eq (by omega),
        hm.levelSize_eq (by omega), List.filter_map, List.map_map, List.filterMap_map,
        Kary.flatten_filterMap, Kary.filter_leaves_succ hk (fun n hn ↦ found_range hn)]
      apply List.flatMap_congr
      intro j hj
      have hwindow := (List.mem_filter.mp hj).2
      simp only [Function.comp_apply, decide_eq_true_eq] at hwindow
      exact hchildren j hwindow.1 hwindow.2
    · simp only [hc, Bool.not_false, if_true, Option.getD_none]
      rw [filter_leaves_eq_nil hm hfinds hl fun y hy ↦ ?_]
      rw [hdb, Option.some.injEq] at hy
      rw [← hy]
      simpa using hc

/-- The descent from a node in the window of the range returns the numbers under it that the
search keeps. -/
theorem blocks_eq (hfinds : c.AncestorsContain bloom) :
    ∀ level < c.positioner.levels, ∀ i, rangeStart / c.positioner.indexSize ^ level ≤ i →
      i ≤ rangeEnd / c.positioner.indexSize ^ level →
      (c.blocks rangeStart rangeEnd bloom level (i * c.positioner.indexSize ^ level)).getD [] =
        (Kary.leaves c.positioner.indexSize level i).filter (Found c rangeStart rangeEnd bloom) := by
  intro level
  induction level with
  | zero =>
    intro _ i hlow hhigh
    rw [Nat.pow_zero, Nat.div_one] at hlow hhigh
    rw [Nat.pow_zero, Nat.mul_one, blocks_zero hm, Kary.leaves_zero, List.filter_singleton]
    simp [Found, hlow, hhigh]
  | succ level ih =>
    intro hl i _ _
    exact blocks_succ hm hfinds hl i fun j hlow hhigh ↦ ih (by omega) j hlow hhigh

/-- Over a database where every level-0 bloom that contains `bloom` has ancestors containing
it, `with_bloom` returns exactly the numbers of the range whose level-0 bloom contains `bloom`,
in increasing order. -/
theorem withBloom_eq_filter (hfinds : c.AncestorsContain bloom) :
    c.withBloom rangeStart rangeEnd bloom =
      (List.range' rangeStart (rangeEnd + 1 - rangeStart)).filter (c.levelZeroContains bloom) := by
  have hk := hm.indexSize_pos
  have htop : c.positioner.maxLevel < c.positioner.levels := by
    have := hm.levels_pos
    simp only [Manager.maxLevel, Manager.levels] at this ⊢
    omega
  rw [withBloom, hm.position_eq htop, hm.position_eq htop, hm.levelSize_eq htop, foldl_append_getD,
    List.nil_append, Kary.range'_eq_flatMap_leaves hk rangeStart rangeEnd c.positioner.maxLevel,
    List.filter_flatMap]
  apply List.flatMap_congr
  intro i hi
  obtain ⟨hlow, hhigh⟩ := List.mem_range'_1.mp hi
  dsimp only at hlow hhigh
  rw [Nat.mul_comm, blocks_eq hm hfinds _ htop i hlow (by omega), List.filter_filter]
  rfl

end Search

end BloomChain

end AionR
