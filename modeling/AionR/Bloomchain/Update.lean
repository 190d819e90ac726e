import AionR.Bloomchain.Chain
import AionR.Lib.AList

/-!
# What the bloom chain writes

`insert` and `replace` (`src/util/bloomchain/src/chain.rs`) return the blooms to write, position
by position; the caller lays them over the database. This module says what they return and what
the database then reads.

## The covering invariant

The search of `with_bloom` prunes a node whose bloom does not contain the bloom searched for. It
loses nothing as long as every level-0 bloom is covered, on every level, by the bloom of the node
above it (`Covering`); a zero bloom contains no nonzero bloom and needs no cover. Both writers
keep the invariant:

* `insert` accrues the block's bloom into the node above it on every level, so the nodes grow
  with their leaves (`covering_insert`).
* `replace` recomputes each node above a new bloom as the union of its children, read from the
  new blooms first. Every other node keeps its bloom; the leaves under it either keep theirs or
  are reset to the default bloom, which needs no cover (`covering_replace`).
-/

namespace AionR

namespace BloomChain

/-- The database as it reads once the blooms a writer returns are laid over it. -/
def overlay (written : AList fun _ : Position ↦ Bloom) (db : Position → Option Bloom) :
    Position → Option Bloom :=
  fun p ↦ (written.lookup p).or (db p)

/-- Every level-0 bloom other than the default one is covered, on every level, by the bloom of
the node above it. -/
def Covering (m : Manager) (db : Position → Option Bloom) : Prop :=
  ∀ n x, db ⟨0, n⟩ = some x → x ≠ Bloom.default → ∀ level < m.levels,
    ∃ y, db ⟨level, n / m.indexSize ^ level⟩ = some y ∧ ByteSet.Covers y x

variable {c : BloomChain}

/-- Under the covering invariant, the search of a nonzero bloom loses no number. -/
theorem Covering.ancestorsContain (hcover : Covering c.positioner c.db) {bloom : Bloom}
    (hbloom : bloom ≠ Bloom.default) : c.AncestorsContain bloom := by
  intro n hn level hl
  unfold levelZeroContains at hn
  cases h0 : c.db ⟨0, n⟩ with
  | none => simp [h0] at hn
  | some x =>
    simp only [h0] at hn
    have hcovers := Bloom.containsBloom_iff.mp hn
    -- a bloom that contains a nonzero bloom is not the default one
    have hx : x ≠ Bloom.default := by
      rintro rfl
      exact hbloom (ByteSet.eq_zero_of_zero_covers hcovers)
    obtain ⟨y, hy, hyx⟩ := hcover n x h0 hx level hl
    exact ⟨y, hy, Bloom.containsBloom_iff.mpr (hyx.trans hcovers)⟩

/-! ## What `insert` writes -/

section Insert

variable (number : ℕ) (bloom : Bloom)

/-- A bloom accrued to what a position holds, or the bloom alone. -/
def accrued (old : Option Bloom) (bloom : Bloom) : Bloom :=
  (old.map fun old ↦ old.accrueBloom bloom).getD bloom

theorem insert_eq :
    c.insert number bloom = (List.range c.positioner.levels).foldl (fun result level ↦
      result.insert (c.positioner.position number level)
        (accrued (c.db (c.positioner.position number level)) bloom)) ∅ := by
  unfold insert
  congr
  funext result level
  dsimp only
  cases c.db (c.positioner.position number level) <;> rfl

variable (hm : c.positioner.Regular)
include hm

/-- `insert` writes at the node of each level above the number. -/
theorem lookup_insert {level : ℕ} (hl : level < c.positioner.levels) :
    (c.insert number bloom).lookup ⟨level, number / c.positioner.indexSize ^ level⟩ =
      some (accrued (c.db ⟨level, number / c.positioner.indexSize ^ level⟩) bloom) := by
  have hpair : (List.range c.positioner.levels).Pairwise fun y z ↦
      c.positioner.position number y ≠ c.positioner.position number z :=
    List.nodup_range.imp fun hne heq ↦ hne (congrArg Position.level heq)
  rw [insert_eq, lookup_foldl_insert_of_mem (fun level ↦ c.positioner.position number level)
    (fun level ↦ accrued (c.db (c.positioner.position number level)) bloom) ∅ hpair
    (List.mem_range.mpr hl) (hm.position_eq hl number), hm.position_eq hl]

/-- `insert` writes nowhere else. -/
theorem lookup_insert_of_forall_ne {p : Position}
    (hp : ∀ level < c.positioner.levels, p ≠ ⟨level, number / c.positioner.indexSize ^ level⟩) :
    (c.insert number bloom).lookup p = none := by
  rw [insert_eq, lookup_foldl_insert_of_forall_ne]
  · rfl
  · intro level hl
    rw [hm.position_eq (List.mem_range.mp hl)]
    exact (hp level (List.mem_range.mp hl)).symm

-- Several proofs below unfold these at once: their equation lemmas are generated here, once.
section
attribute [local simp] BloomChain.overlay
end

/-- After `insert`, the level-0 bloom of the number is the bloom accrued to its old one. -/
theorem overlay_insert_zero (n : ℕ) :
    overlay (c.insert number bloom) c.db ⟨0, n⟩ =
      if n = number then some (accrued (c.db ⟨0, number⟩) bloom) else c.db ⟨0, n⟩ := by
  unfold overlay
  by_cases hn : n = number
  · subst hn
    have h := lookup_insert n bloom hm hm.levels_pos
    rw [Nat.pow_zero, Nat.div_one] at h
    rw [h, if_pos rfl, Option.some_or]
  · rw [lookup_insert_of_forall_ne number bloom hm, Option.none_or, if_neg hn]
    intro level _ heq
    obtain ⟨rfl, hindex⟩ := Position.mk.inj heq
    rw [Nat.pow_zero, Nat.div_one] at hindex
    exact hn hindex

omit hm in
/-- An accrued bloom covers the bloom accrued. -/
theorem covers_accrued_bloom (old : Option Bloom) : ByteSet.Covers (accrued old bloom) bloom := by
  cases old with
  | none => exact ByteSet.covers_refl bloom
  | some y => exact ByteSet.covers_union_right (ByteSet.covers_refl bloom)

omit hm in
/-- Accruing one bloom to a node and to a leaf under it keeps the node's cover of the leaf. -/
theorem covers_accrued {node leaf : Option Bloom}
    (h : ∀ x, leaf = some x → x ≠ Bloom.default → ∃ y, node = some y ∧ ByteSet.Covers y x) :
    ByteSet.Covers (accrued node bloom) (accrued leaf bloom) := by
  cases leaf with
  | none => exact covers_accrued_bloom bloom node
  | some x =>
    by_cases hx : x = Bloom.default
    · -- a default leaf adds nothing to the bloom
      subst hx
      change ByteSet.Covers _ (ByteSet.union Bloom.default bloom)
      rw [Bloom.default, ByteSet.zero_union]
      exact covers_accrued_bloom bloom node
    · obtain ⟨y, rfl, hyx⟩ := h x rfl hx
      exact ByteSet.covers_union (ByteSet.covers_union_left hyx)
        (ByteSet.covers_union_right (ByteSet.covers_refl bloom))

/-- `insert` keeps the covering invariant. -/
theorem covering_insert (hcover : Covering c.positioner c.db) :
    Covering c.positioner (overlay (c.insert number bloom) c.db) := by
  intro n x hx hne level hl
  by_cases habove : n / c.positioner.indexSize ^ level = number / c.positioner.indexSize ^ level
  · -- the node above `n` is the one `insert` accrues to
    have hwritten : overlay (c.insert number bloom) c.db ⟨level, n / c.positioner.indexSize ^ level⟩ =
        some (accrued (c.db ⟨level, number / c.positioner.indexSize ^ level⟩) bloom) := by
      unfold overlay
      rw [habove, lookup_insert number bloom hm hl, Option.some_or]
    refine ⟨_, hwritten, ?_⟩
    rw [overlay_insert_zero number bloom hm] at hx
    split_ifs at hx with hn
    · -- the number itself: its old leaf was covered by the old node
      cases hx
      exact covers_accrued bloom fun x0 hx0 hne0 ↦ hcover number x0 hx0 hne0 level hl
    · -- another leaf under the node: its old cover only grew
      obtain ⟨y, hy, hyx⟩ := hcover n x hx hne level hl
      rw [habove] at hy
      rw [hy]
      exact ByteSet.covers_union_left hyx
  · -- elsewhere nothing changes
    have hn : n ≠ number := fun h ↦ habove (congrArg (· / c.positioner.indexSize ^ level) h)
    rw [overlay_insert_zero number bloom hm, if_neg hn] at hx
    obtain ⟨y, hy, hyx⟩ := hcover n x hx hne level hl
    refine ⟨y, ?_, hyx⟩
    unfold overlay
    rw [lookup_insert_of_forall_ne number bloom hm, Option.none_or, hy]
    intro level' _ heq
    obtain ⟨rfl, hindex⟩ := Position.mk.inj heq
    exact habove hindex

/-- What `insert` writes covers what the position held. -/
theorem covers_of_lookup_insert {p : Position} {x y : Bloom}
    (hx : (c.insert number bloom).lookup p = some x) (hy : c.db p = some y) : ByteSet.Covers x y := by
  by_cases hp : ∃ level < c.positioner.levels, p = ⟨level, number / c.positioner.indexSize ^ level⟩
  · obtain ⟨level, hl, rfl⟩ := hp
    rw [lookup_insert number bloom hm hl, hy, Option.some.injEq] at hx
    rw [← hx]
    exact ByteSet.covers_union_left (ByteSet.covers_refl y)
  · simp only [not_exists, not_and] at hp
    rw [lookup_insert_of_forall_ne number bloom hm hp] at hx
    cases hx

omit hm in
/-- Accruing to what reads as the default bloom gives the bloom. -/
theorem accrued_of_getD_default {old : Option Bloom} (h : old.getD Bloom.default = Bloom.default) :
    accrued old bloom = bloom := by
  cases old with
  | none => rfl
  | some y =>
    rw [Option.getD_some] at h
    subst h
    change ByteSet.union Bloom.default bloom = bloom
    rw [Bloom.default, ByteSet.zero_union]

end Insert

/-! ## What `replace` writes -/

section Replace

variable (rangeStart rangeEnd : ℕ) (blooms : List Bloom)

/-- The level-0 bloom `replace` writes at a number: its new bloom, the default bloom on the rest
of the range, nothing outside. -/
def replacedLevelZero (n : ℕ) : Option Bloom :=
  if rangeStart ≤ n then
    blooms[n - rangeStart]?.or (if n ≤ rangeEnd then some Bloom.default else none)
  else none

/-- The union of the children depends only on what the children read. -/
theorem unionOfChildren_congr {result result' : AList fun _ : Position ↦ Bloom} {index : Position}
    (h : ∀ p ∈ c.positioner.lowerLevelPositions index, result.lookup p = result'.lookup p) :
    c.unionOfChildren result index = c.unionOfChildren result' index := by
  unfold unionOfChildren
  congr 1
  apply List.filterMap_congr
  intro p hp
  rw [h p hp]

/-- A node of `level` at `index` lies above one of the new blooms. -/
def AboveNew (k level index : ℕ) : Prop :=
  ∃ i < blooms.length, (rangeStart + i) / k ^ level = index

instance (k level index : ℕ) : Decidable (AboveNew rangeStart blooms k level index) :=
  inferInstanceAs (Decidable (∃ i < blooms.length, (rangeStart + i) / k ^ level = index))

/-- What `replace` has written once its passes have reached level `top`: the level-0 blooms of
the range, and on the levels up to `top` the union of the children at each node above a new
bloom. -/
def Replaced (top : ℕ) (result : AList fun _ : Position ↦ Bloom) : Prop :=
  ∀ p, result.lookup p =
    if p.level = 0 then replacedLevelZero rangeStart rangeEnd blooms p.index
    else if p.level ≤ top ∧ AboveNew rangeStart blooms c.positioner.indexSize p.level p.index
    then some (c.unionOfChildren result p) else none

variable (hm : c.positioner.Regular)
include hm

theorem position_zero (x : ℕ) : c.positioner.position x 0 = ⟨0, x⟩ := by
  rw [hm.position_eq hm.levels_pos, Nat.pow_zero, Nat.div_one]

/-- The first loop of `replace` writes each new bloom at its number. -/
theorem lookup_newBlooms (p : Position) :
    (blooms.zipIdx.foldl (fun (result : AList fun _ : Position ↦ Bloom) bi ↦
        result.insert (c.positioner.position (rangeStart + bi.2) 0) bi.1) ∅).lookup p =
      if p.level = 0 ∧ rangeStart ≤ p.index then blooms[p.index - rangeStart]? else none := by
  have hpair : blooms.zipIdx.Pairwise fun y z ↦
      c.positioner.position (rangeStart + y.2) 0 ≠ c.positioner.position (rangeStart + z.2) 0 := by
    have h : (blooms.zipIdx.map Prod.snd).Nodup := by
      rw [List.zipIdx_map_snd]
      exact List.nodup_range'
    rw [List.Nodup, List.pairwise_map] at h
    refine h.imp fun hne heq ↦ hne ?_
    rw [position_zero hm, position_zero hm] at heq
    exact Nat.add_left_cancel (Position.mk.inj heq).2
  by_cases hp : p.level = 0 ∧ rangeStart ≤ p.index ∧ p.index - rangeStart < blooms.length
  · obtain ⟨h0, hle, hlt⟩ := hp
    have hmem : (blooms[p.index - rangeStart], p.index - rangeStart) ∈ blooms.zipIdx :=
      List.mem_zipIdx_iff_getElem?.mpr (List.getElem?_eq_getElem hlt)
    have hkey : c.positioner.position (rangeStart + (p.index - rangeStart)) 0 = p := by
      rw [position_zero hm, Nat.add_sub_cancel' hle, ← h0]
    rw [lookup_foldl_insert_of_mem (fun bi : Bloom × ℕ ↦ c.positioner.position (rangeStart + bi.2) 0)
      (fun bi ↦ bi.1) ∅ hpair hmem hkey, if_pos ⟨h0, hle⟩, List.getElem?_eq_getElem hlt]
  · -- no new bloom is written at `p`
    rw [lookup_foldl_insert_of_forall_ne, AList.lookup_empty]
    · split_ifs with hp'
      · exact (List.getElem?_eq_none (by omega)).symm
      · rfl
    · rintro ⟨x, i⟩ hx heq
      obtain ⟨-, hi, -⟩ := List.mem_zipIdx hx
      rw [position_zero hm] at heq
      subst heq
      exact hp ⟨rfl, Nat.le_add_right _ _, by simpa using hi⟩

/-- The first two loops of `replace` write the level-0 blooms of the range. -/
theorem lookup_resetLevelZero (p : Position) :
    (c.resetLevelZero rangeStart rangeEnd blooms).lookup p =
      if p.level = 0 then replacedLevelZero rangeStart rangeEnd blooms p.index else none := by
  unfold resetLevelZero replacedLevelZero
  dsimp only
  by_cases hreset : p.level = 0 ∧ rangeStart + blooms.length ≤ p.index ∧ p.index ≤ rangeEnd
  · -- a number of the range past the new blooms is reset
    obtain ⟨h0, hle, hend⟩ := hreset
    have hpair : (List.range' (rangeStart + blooms.length)
        (rangeEnd + 1 - (rangeStart + blooms.length))).Pairwise fun y z ↦
        c.positioner.position y 0 ≠ c.positioner.position z 0 := by
      refine List.Pairwise.imp (fun hne heq ↦ hne ?_) (List.nodup_range' 1 Nat.one_pos)
      rw [position_zero hm, position_zero hm] at heq
      exact (Position.mk.inj heq).2
    have hkey : c.positioner.position p.index 0 = p := by rw [position_zero hm, ← h0]
    rw [lookup_foldl_insert_of_mem (fun n ↦ c.positioner.position n 0) (fun _ ↦ Bloom.default) _
      hpair (List.mem_range'_1.mpr ⟨hle, by omega⟩) hkey, if_pos h0, if_pos (by omega),
      List.getElem?_eq_none (by omega), Option.none_or, if_pos hend]
  · rw [lookup_foldl_insert_of_forall_ne, lookup_newBlooms rangeStart blooms hm]
    · by_cases h0 : p.level = 0
      · by_cases hle : rangeStart ≤ p.index
        · rw [if_pos ⟨h0, hle⟩, if_pos h0, if_pos hle]
          by_cases hlt : p.index - rangeStart < blooms.length
          · rw [List.getElem?_eq_getElem hlt, Option.some_or]
          · -- past the new blooms and past the range
            rw [List.getElem?_eq_none (by omega), Option.none_or, if_neg (by omega)]
        · rw [if_neg (fun h ↦ hle h.2), if_pos h0, if_neg hle]
      · rw [if_neg (fun h ↦ h0 h.1), if_neg h0]
    · intro n hn heq
      rw [position_zero hm] at heq
      subst heq
      obtain ⟨hle, hlt⟩ := List.mem_range'_1.mp hn
      exact hreset ⟨rfl, hle, show n ≤ rangeEnd by omega⟩

/-- One pass of the third loop writes the union of the children at the node of its level above
each new bloom, read from the blooms before the pass. -/
theorem lookup_foldl_replaceStep {level : ℕ} (hl : level < c.positioner.levels) :
    ∀ (is : List ℕ) (result : AList fun _ : Position ↦ Bloom) (p : Position),
      (is.foldl (fun result i ↦
        let index := c.positioner.position (rangeStart + i) level
        result.insert index (c.unionOfChildren result index)) result).lookup p =
        if p.level = level ∧ ∃ i ∈ is, (rangeStart + i) / c.positioner.indexSize ^ level = p.index
        then some (c.unionOfChildren result p) else result.lookup p := by
  intro is
  induction is with
  | nil => intro result p; simp
  | cons i is ih =>
    intro result p
    rw [List.foldl_cons, ih]
    dsimp only
    rw [hm.position_eq hl]
    -- the pass writes on its own level, and the children of its nodes are one level below
    have hunion : p.level = level → c.unionOfChildren (result.insert
        ⟨level, (rangeStart + i) / c.positioner.indexSize ^ level⟩
        (c.unionOfChildren result ⟨level, (rangeStart + i) / c.positioner.indexSize ^ level⟩)) p =
        c.unionOfChildren result p := by
      intro hp
      apply unionOfChildren_congr
      intro q hq
      have hq' := Manager.level_of_mem_lowerLevelPositions hq
      rw [AList.lookup_insert_ne]
      rintro rfl
      dsimp only at hq'
      omega
    by_cases hin : p.level = level ∧
        ∃ i' ∈ is, (rangeStart + i') / c.positioner.indexSize ^ level = p.index
    · obtain ⟨hp, i', hi', heq⟩ := hin
      rw [if_pos ⟨hp, i', hi', heq⟩, if_pos ⟨hp, i', List.mem_cons_of_mem i hi', heq⟩, hunion hp]
    · rw [if_neg hin]
      by_cases hnode : p = ⟨level, (rangeStart + i) / c.positioner.indexSize ^ level⟩
      · subst hnode
        rw [AList.lookup_insert, if_pos ⟨rfl, i, List.mem_cons_self, rfl⟩]
      · rw [AList.lookup_insert_ne hnode, if_neg]
        rintro ⟨hp, i', hi', heq⟩
        rcases List.mem_cons.mp hi' with rfl | hi'
        · obtain ⟨pl, pidx⟩ := p
          simp only [Position.mk.injEq] at hp heq hnode
          exact hnode ⟨hp, heq.symm⟩
        · exact hin ⟨hp, i', hi', heq⟩

/-- One pass of the third loop of `replace`, at a level above 0. -/
theorem lookup_replaceLevel {level : ℕ} (hl : level < c.positioner.levels)
    (result : AList fun _ : Position ↦ Bloom) (p : Position) :
    (c.replaceLevel rangeStart blooms.length result level).lookup p =
      if p.level = level ∧ AboveNew rangeStart blooms c.positioner.indexSize p.level p.index
      then some (c.unionOfChildren result p) else result.lookup p := by
  rw [replaceLevel, lookup_foldl_replaceStep rangeStart hm hl]
  by_cases hp : p.level = level
  · subst hp
    simp only [List.mem_range]
    rfl
  · rw [if_neg (fun h ↦ hp h.1), if_neg (fun h ↦ hp h.1)]

theorem replaced_resetLevelZero :
    Replaced rangeStart rangeEnd blooms (c := c) 0 (c.resetLevelZero rangeStart rangeEnd blooms) := by
  intro p
  rw [lookup_resetLevelZero rangeStart rangeEnd blooms hm]
  by_cases h0 : p.level = 0
  · rw [if_pos h0, if_pos h0]
  · rw [if_neg h0, if_neg h0, if_neg (fun h ↦ h0 (Nat.le_zero.mp h.1))]

/-- The pass of the next level keeps what the passes below wrote, and writes its own level. -/
theorem Replaced.replaceLevel {top : ℕ} {result : AList fun _ : Position ↦ Bloom}
    (h : Replaced rangeStart rangeEnd blooms (c := c) top result)
    (htop : top + 1 < c.positioner.levels) :
    Replaced rangeStart rangeEnd blooms (c := c) (top + 1)
      (c.replaceLevel rangeStart blooms.length result (top + 1)) := by
  -- the pass changes nothing off its level, so the unions below it read as before
  have hframe : ∀ q : Position, q.level ≠ top + 1 →
      (c.replaceLevel rangeStart blooms.length result (top + 1)).lookup q = result.lookup q := by
    intro q hq
    rw [lookup_replaceLevel rangeStart blooms hm htop,
      if_neg (fun h ↦ hq h.1)]
  have hunion : ∀ p : Position, p.level ≤ top + 1 →
      c.unionOfChildren (c.replaceLevel rangeStart blooms.length result (top + 1)) p =
        c.unionOfChildren result p := by
    intro p hp
    apply unionOfChildren_congr
    intro q hq
    have hq' := Manager.level_of_mem_lowerLevelPositions hq
    exact hframe q (by omega)
  intro p
  rw [lookup_replaceLevel rangeStart blooms hm htop]
  set above := AboveNew rangeStart blooms c.positioner.indexSize p.level p.index
  by_cases hlevel : p.level = top + 1
  · -- the pass's own level: written where above a new bloom, and empty before
    have h0 : p.level ≠ 0 := by omega
    by_cases habove : above
    · rw [if_pos ⟨hlevel, habove⟩, if_neg h0, if_pos ⟨Nat.le_of_eq hlevel, habove⟩,
        hunion p (Nat.le_of_eq hlevel)]
    · rw [if_neg (show ¬(p.level = top + 1 ∧ above) from fun h ↦ habove h.2), h p, if_neg h0,
        if_neg (show ¬(p.level ≤ top ∧ above) from fun h ↦ habove h.2), if_neg h0,
        if_neg (show ¬(p.level ≤ top + 1 ∧ above) from fun h ↦ habove h.2)]
  · -- the levels below keep what the earlier passes wrote
    rw [if_neg (show ¬(p.level = top + 1 ∧ above) from fun h ↦ hlevel h.1), h p]
    by_cases h0 : p.level = 0
    · rw [if_pos h0, if_pos h0]
    · rw [if_neg h0, if_neg h0]
      by_cases hlow : p.level ≤ top ∧ above
      · rw [if_pos hlow, if_pos ⟨Nat.le_succ_of_le hlow.1, hlow.2⟩, hunion p (by omega)]
      · rw [if_neg hlow, if_neg (show ¬(p.level ≤ top + 1 ∧ above) from
          fun h ↦ hlow ⟨by omega, h.2⟩)]

/-- `replace` writes the level-0 blooms of the range and, on every level above, the union of the
children at each node above a new bloom. -/
theorem replaced_replace :
    Replaced rangeStart rangeEnd blooms (c := c) (c.positioner.levels - 1)
      (c.replace rangeStart rangeEnd blooms) := by
  -- the passes of the levels from 1 to `top`
  have hpasses : ∀ top, top < c.positioner.levels →
      Replaced rangeStart rangeEnd blooms (c := c) top ((List.range' 1 top).foldl
        (c.replaceLevel rangeStart blooms.length) (c.resetLevelZero rangeStart rangeEnd blooms)) := by
    intro top
    induction top with
    | zero => intro _; exact replaced_resetLevelZero rangeStart rangeEnd blooms hm
    | succ top ih =>
      intro htop
      rw [List.range'_concat, List.foldl_append, List.foldl_cons, List.foldl_nil, Nat.one_mul,
        Nat.add_comm 1 top]
      exact (ih (by omega)).replaceLevel rangeStart rangeEnd blooms hm htop
  exact hpasses _ (Nat.sub_lt hm.levels_pos Nat.one_pos)

/-- After `replace`, a level-0 bloom is the one `replace` wrote, or else the old one. -/
theorem overlay_replace_zero (n : ℕ) :
    overlay (c.replace rangeStart rangeEnd blooms) c.db ⟨0, n⟩ =
      (replacedLevelZero rangeStart rangeEnd blooms n).or (c.db ⟨0, n⟩) := by
  unfold overlay
  rw [replaced_replace rangeStart rangeEnd blooms hm ⟨0, n⟩, if_pos rfl]

/-- After `replace`, a node above a new bloom is the union of its children. -/
theorem overlay_replace_of_aboveNew {level index : ℕ} (h0 : 0 < level)
    (hl : level < c.positioner.levels)
    (habove : AboveNew rangeStart blooms c.positioner.indexSize level index) :
    overlay (c.replace rangeStart rangeEnd blooms) c.db ⟨level, index⟩ =
      some (c.unionOfChildren (c.replace rangeStart rangeEnd blooms) ⟨level, index⟩) := by
  unfold overlay
  rw [replaced_replace rangeStart rangeEnd blooms hm ⟨level, index⟩,
    if_neg (Nat.pos_iff_ne_zero.mp h0),
    if_pos ⟨show level ≤ c.positioner.levels - 1 by omega, habove⟩, Option.some_or]

/-- After `replace`, any other node above level 0 keeps its bloom. -/
theorem overlay_replace_of_not_aboveNew {level index : ℕ} (h0 : 0 < level)
    (habove : ¬AboveNew rangeStart blooms c.positioner.indexSize level index) :
    overlay (c.replace rangeStart rangeEnd blooms) c.db ⟨level, index⟩ = c.db ⟨level, index⟩ := by
  unfold overlay
  rw [replaced_replace rangeStart rangeEnd blooms hm ⟨level, index⟩,
    if_neg (Nat.pos_iff_ne_zero.mp h0), if_neg (fun h ↦ habove h.2), Option.none_or]

omit hm in
/-- A number under no node above a new bloom is not a new number: `replace` resets it or leaves
it. -/
theorem replacedLevelZero_of_not_aboveNew {k level n : ℕ}
    (habove : ¬AboveNew rangeStart blooms k level (n / k ^ level)) :
    replacedLevelZero rangeStart rangeEnd blooms n = none ∨
      replacedLevelZero rangeStart rangeEnd blooms n = some Bloom.default := by
  unfold replacedLevelZero
  by_cases hle : rangeStart ≤ n
  · have hlt : ¬n - rangeStart < blooms.length := fun hlt ↦
      habove ⟨n - rangeStart, hlt, by rw [Nat.add_sub_cancel' hle]⟩
    rw [if_pos hle, List.getElem?_eq_none (by omega), Option.none_or]
    split_ifs
    · exact Or.inr rfl
    · exact Or.inl rfl
  · exact Or.inl (if_neg hle)

/-- `replace` keeps the covering invariant. -/
theorem covering_replace (hcover : Covering c.positioner c.db) :
    Covering c.positioner (overlay (c.replace rangeStart rangeEnd blooms) c.db) := by
  intro n x hx hne level hl
  induction level with
  | zero => exact ⟨x, by rw [Nat.pow_zero, Nat.div_one]; exact hx, ByteSet.covers_refl x⟩
  | succ level ih =>
    obtain ⟨y, hy, hyx⟩ := ih (by omega)
    by_cases habove : AboveNew rangeStart blooms c.positioner.indexSize (level + 1)
        (n / c.positioner.indexSize ^ (level + 1))
    · -- recomputed as the union of its children, one of which is the node below on the way
      refine ⟨_, overlay_replace_of_aboveNew rangeStart rangeEnd blooms hm (Nat.succ_pos level)
        hl habove, ByteSet.Covers.trans ?_ hyx⟩
      exact ByteSet.covers_foldl_union _ (List.mem_filterMap.mpr
        ⟨_, Manager.mem_lowerLevelPositions_div hm.indexSize_pos n level, hy⟩)
        (ByteSet.covers_refl y)
    · -- not recomputed: the leaf is neither new nor reset, and was covered before
      rw [overlay_replace_of_not_aboveNew rangeStart rangeEnd blooms hm (Nat.succ_pos level)
        habove]
      rw [overlay_replace_zero rangeStart rangeEnd blooms hm] at hx
      rcases replacedLevelZero_of_not_aboveNew rangeStart rangeEnd blooms habove with hnone | hreset
      · rw [hnone, Option.none_or] at hx
        exact hcover n x hx hne (level + 1) hl
      · rw [hreset, Option.some_or, Option.some.injEq] at hx
        exact absurd hx.symm hne

end Replace

end BloomChain

end AionR
