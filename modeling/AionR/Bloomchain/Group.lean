import AionR.Bloomchain.Update

/-!
# Bloom groups

`BloomGroupChain` (`src/util/bloomchain/src/group/`) stores the blooms of `BloomChain` in groups:
the blooms of `elements_per_index` consecutive indices of one level are one database entry, a
`BloomGroup` under a `GroupPosition`. `GroupDatabaseBridge` reads a single bloom out of its group
for the bloom chain, and `group_blooms` folds the blooms a writer returns into the groups to
write: the group built so far, else the stored one, else a new group of default blooms, with
each bloom set at its place.

## Model

The group database is the function `blooms_at` reads. The writers' hash maps are association
lists, iterated in the order of their entries; `group_blooms` gives the same groups in any order,
since no two entries share a place. The `assert_eq!` of a group's length and the indexing into
the group, which panic, are `none`.

## Main results

* `groupBlooms_eq_some`: over a database of full groups, `group_blooms` never panics, and returns
  for each group a written bloom falls in that group with the written blooms at their places.
* `readsAs_write`: once those groups are written, the bridge reads what the writer wrote over what
  it read before, except for default blooms at the other places of a new group.
* `Covering.of_readsAs`, `getD_of_readsAs`: such a read keeps the covering invariant and the
  level-0 blooms.
-/

namespace AionR

/-- `GroupPosition`: a level and the index of a group on it. -/
structure GroupPosition where
  level : ℕ
  index : ℕ
  deriving DecidableEq, Repr

/-- `BloomGroup`: the blooms of consecutive indices of a level. The client's `BloomGroup`
(`types/blooms/bloom_group.rs`), which it converts to and from this one, holds the same list. -/
@[ext] structure BloomGroup where
  blooms : List Bloom
  deriving DecidableEq, Repr

namespace BloomGroup

/-- `BloomGroup::new`: `size` default blooms. -/
def new (size : ℕ) : BloomGroup := ⟨List.replicate size Bloom.default⟩

/-- `accrue_bloom_group`: each bloom accrues the one at its place in `group`; those past the end
of `group` stay. -/
def accrueBloomGroup (self group : BloomGroup) : BloomGroup :=
  ⟨List.zipWith Bloom.accrueBloom self.blooms group.blooms ++ self.blooms.drop group.blooms.length⟩

/-- Accruing a group of as many blooms, each covering the one at its place, gives that group. -/
theorem accrueBloomGroup_of_covers {self group : BloomGroup}
    (hlen : self.blooms.length = group.blooms.length)
    (hcovers : ∀ i (h : i < self.blooms.length) (h' : i < group.blooms.length),
      ByteSet.Covers group.blooms[i] self.blooms[i]) :
    self.accrueBloomGroup group = group := by
  obtain ⟨blooms⟩ := self
  obtain ⟨blooms'⟩ := group
  simp only [accrueBloomGroup, BloomGroup.mk.injEq] at hlen hcovers ⊢
  rw [List.drop_eq_nil_of_le (Nat.le_of_eq hlen), List.append_nil]
  apply List.ext_getElem (by simp [hlen])
  intro i h h'
  rw [List.getElem_zipWith]
  exact ByteSet.union_of_covers (hcovers i (by simp at h; omega) h')

end BloomGroup

namespace BloomChain

/-- `view` reads what `spec` reads, except that it may hold the default bloom where `spec` holds
nothing. -/
def ReadsAs (view spec : Position → Option Bloom) : Prop :=
  ∀ p, view p = spec p ∨ spec p = none ∧ view p = some Bloom.default

variable {view spec : Position → Option Bloom}

/-- Such a read holds the same blooms, reading a missing one as the default bloom. -/
theorem getD_of_readsAs (h : ReadsAs view spec) (p : Position) :
    (view p).getD Bloom.default = (spec p).getD Bloom.default := by
  rcases h p with heq | ⟨hnone, hdefault⟩
  · rw [heq]
  · rw [hnone, hdefault]
    rfl

/-- Such a read keeps the covering invariant: a default leaf needs no cover, and every other
bloom reads as before. -/
theorem Covering.of_readsAs {m : Manager} (h : ReadsAs view spec) (hcover : Covering m spec) :
    Covering m view := by
  intro n x hx hne level hl
  have hspec : spec ⟨0, n⟩ = some x := by
    rcases h ⟨0, n⟩ with heq | ⟨-, hdefault⟩
    · rwa [← heq]
    · rw [hdefault, Option.some.injEq] at hx
      exact absurd hx.symm hne
  obtain ⟨y, hy, hyx⟩ := hcover n x hspec hne level hl
  refine ⟨y, ?_, hyx⟩
  rcases h ⟨level, n / m.indexSize ^ level⟩ with heq | ⟨hnone, -⟩
  · rw [heq, hy]
  · rw [hnone] at hy
    cases hy

end BloomChain

namespace Group

/-- `group::Position`: a group and a place in it. -/
structure Position where
  group : GroupPosition
  number : ℕ
  deriving DecidableEq, Repr

/-- `group::position::Manager`. -/
structure Manager where
  indexSize : ℕ
  deriving DecidableEq, Repr

namespace Manager

variable (m : Manager)

/-- `group_position`: the group a bloom's position falls in. -/
def groupPosition (pos : AionR.Position) : GroupPosition := ⟨pos.level, pos.index / m.indexSize⟩

/-- `position`: the group a bloom's position falls in, and its place there. -/
def position (pos : AionR.Position) : Position := ⟨m.groupPosition pos, pos.index % m.indexSize⟩

end Manager

end Group

/-- `GroupDatabaseBridge`: the bloom database over the group database. -/
structure GroupDatabaseBridge where
  positioner : Group.Manager
  db : GroupPosition → Option BloomGroup

namespace GroupDatabaseBridge

/-- `GroupDatabaseBridge::new`. -/
def new (config : Config) (db : GroupPosition → Option BloomGroup) : GroupDatabaseBridge :=
  ⟨⟨config.elementsPerIndex⟩, db⟩

/-- `bloom_at`: the bloom at its place in its group. -/
def bloomAt (self : GroupDatabaseBridge) (position : Position) : Option Bloom :=
  let position := self.positioner.position position
  (self.db position.group).bind fun group ↦ group.blooms[position.number]?

end GroupDatabaseBridge

/-- `BloomGroupChain`: the configuration and the group database. -/
structure BloomGroupChain where
  config : Config
  db : GroupPosition → Option BloomGroup

namespace BloomGroupChain

variable (c : BloomGroupChain)

/-- The bridge `BloomGroupChain::new` builds over the group database. -/
def bridge : GroupDatabaseBridge := GroupDatabaseBridge.new c.config c.db

/-- The bridge reads a bloom at its place in its group. -/
theorem bridge_bloomAt (p : Position) :
    c.bridge.bloomAt p = (c.db ⟨p.level, p.index / c.config.elementsPerIndex⟩).bind
      fun group ↦ group.blooms[p.index % c.config.elementsPerIndex]? := rfl

/-- The body of the fold of `group_blooms`: the bloom set at its place in its group, taken from
the groups built so far, else from the database, else new. -/
def groupBloom (acc : AList fun _ : GroupPosition ↦ BloomGroup)
    (entry : Sigma fun _ : Position ↦ Bloom) : Option (AList fun _ : GroupPosition ↦ BloomGroup) :=
  let position := (Group.Manager.mk c.config.elementsPerIndex).position entry.1
  let group := (acc.lookup position.group).getD
    ((c.db position.group).getD (BloomGroup.new c.config.elementsPerIndex))
  -- the `assert_eq!` of the group's length, then the indexing: both panic
  if c.config.elementsPerIndex = group.blooms.length ∧ position.number < group.blooms.length then
    some (acc.insert position.group ⟨group.blooms.set position.number entry.2⟩)
  else none

/-- `group_blooms`. -/
def groupBlooms (blooms : AList fun _ : Position ↦ Bloom) :
    Option (AList fun _ : GroupPosition ↦ BloomGroup) :=
  blooms.entries.foldlM c.groupBloom ∅

/-- `insert`: the groups of the blooms `BloomChain::insert` writes. -/
def insert (number : ℕ) (bloom : Bloom) : Option (AList fun _ : GroupPosition ↦ BloomGroup) := do
  let bloomChain ← BloomChain.new c.config c.bridge.bloomAt
  c.groupBlooms (bloomChain.insert number bloom)

/-- `replace`: the groups of the blooms `BloomChain::replace` writes. -/
def replace (rangeStart rangeEnd : ℕ) (blooms : List Bloom) :
    Option (AList fun _ : GroupPosition ↦ BloomGroup) := do
  let bloomChain ← BloomChain.new c.config c.bridge.bloomAt
  c.groupBlooms (bloomChain.replace rangeStart rangeEnd blooms)

/-- `with_bloom`. -/
def withBloom (rangeStart rangeEnd : ℕ) (bloom : Bloom) : Option (List ℕ) := do
  let bloomChain ← BloomChain.new c.config c.bridge.bloomAt
  return bloomChain.withBloom rangeStart rangeEnd bloom

/-- Every stored group holds `k` blooms. -/
def GroupsSized (k : ℕ) (db : GroupPosition → Option BloomGroup) : Prop :=
  ∀ g group, db g = some group → group.blooms.length = k

/-! ## What `group_blooms` returns -/

/-- The group `group_blooms` starts from at `g`: the stored one, or a new one. -/
def baseGroup (g : GroupPosition) : BloomGroup :=
  (c.db g).getD (BloomGroup.new c.config.elementsPerIndex)

/-- The group at `g` with the blooms of `written` at their places. -/
def filledGroup (written : List (Sigma fun _ : Position ↦ Bloom)) (g : GroupPosition) :
    BloomGroup :=
  ⟨(c.baseGroup g).blooms.mapIdx fun i bloom ↦
    (written.dlookup ⟨g.level, g.index * c.config.elementsPerIndex + i⟩).getD bloom⟩

/-- The groups the fold has built after the entries `ds`: the group of each of their blooms,
with their blooms at their places. -/
def Grouped (ds : List (Sigma fun _ : Position ↦ Bloom))
    (acc : AList fun _ : GroupPosition ↦ BloomGroup) : Prop :=
  ∀ g, acc.lookup g =
    if ∃ e ∈ ds, (⟨e.1.level, e.1.index / c.config.elementsPerIndex⟩ : GroupPosition) = g
    then some (c.filledGroup ds g) else none

variable {c}

-- Several proofs below unfold these at once: their equation lemmas are generated here, once.
section
attribute [local simp] filledGroup baseGroup
end

@[simp] theorem length_filledGroup (ds : List (Sigma fun _ : Position ↦ Bloom)) (g : GroupPosition) :
    (c.filledGroup ds g).blooms.length = (c.baseGroup g).blooms.length := by
  simp [filledGroup]

theorem length_baseGroup (hdb : GroupsSized c.config.elementsPerIndex c.db) (g : GroupPosition) :
    (c.baseGroup g).blooms.length = c.config.elementsPerIndex := by
  unfold baseGroup
  cases hg : c.db g with
  | none => simp [BloomGroup.new]
  | some group => exact hdb g group hg

section Fill

variable (hk : 0 < c.config.elementsPerIndex) (hdb : GroupsSized c.config.elementsPerIndex c.db)
include hk hdb

/-- A place of a group lies in the group. -/
theorem div_place {g : GroupPosition} {i : ℕ} (hi : i < (c.baseGroup g).blooms.length) :
    (g.index * c.config.elementsPerIndex + i) / c.config.elementsPerIndex = g.index := by
  rw [length_baseGroup hdb] at hi
  rw [Nat.add_comm, Nat.add_mul_div_right _ _ hk, Nat.div_eq_of_lt hi, Nat.zero_add]

/-- A group no written bloom falls in is the group the fold starts from. -/
theorem filledGroup_of_forall_ne {ds : List (Sigma fun _ : Position ↦ Bloom)} {g : GroupPosition}
    (h : ∀ e ∈ ds, (⟨e.1.level, e.1.index / c.config.elementsPerIndex⟩ : GroupPosition) ≠ g) :
    c.filledGroup ds g = c.baseGroup g := by
  apply BloomGroup.ext
  apply List.ext_getElem (by simp)
  intro i hi _
  simp only [filledGroup, List.getElem_mapIdx]
  -- the place `i` of `g` is no written position
  have hnone : ds.dlookup ⟨g.level, g.index * c.config.elementsPerIndex + i⟩ = none := by
    refine List.dlookup_eq_none.mpr fun hmem ↦ ?_
    obtain ⟨e, he, hkey⟩ := List.mem_map.mp hmem
    apply h e he
    rw [hkey, div_place hk hdb (by simpa using hi)]
  rw [hnone, Option.getD_none]

omit hk hdb in
/-- Setting a new bloom in its group. -/
theorem filledGroup_snoc_self {ds : List (Sigma fun _ : Position ↦ Bloom)}
    {e : Sigma fun _ : Position ↦ Bloom} (he : e.1 ∉ ds.keys) :
    c.filledGroup (ds ++ [e]) ⟨e.1.level, e.1.index / c.config.elementsPerIndex⟩ =
      ⟨(c.filledGroup ds ⟨e.1.level, e.1.index / c.config.elementsPerIndex⟩).blooms.set
        (e.1.index % c.config.elementsPerIndex) e.2⟩ := by
  unfold filledGroup
  congr 1
  apply List.ext_getElem (by simp)
  intro i hi _
  rw [List.getElem_mapIdx, List.getElem_set, List.getElem_mapIdx, List.dlookup_append]
  split_ifs with hnum
  · -- the new bloom's own place
    subst hnum
    have hkey : (⟨e.1.level, e.1.index / c.config.elementsPerIndex * c.config.elementsPerIndex +
        e.1.index % c.config.elementsPerIndex⟩ : Position) = e.1 := by
      rw [Nat.mul_comm, Nat.div_add_mod]
    rw [hkey, List.dlookup_eq_none.mpr he, Option.none_or, List.dlookup_cons_eq]
    rfl
  · -- another place: the new bloom is not there
    have hne : (⟨e.1.level, e.1.index / c.config.elementsPerIndex * c.config.elementsPerIndex + i⟩ :
        Position) ≠ e.1 := by
      intro heq
      have hindex := congrArg Position.index heq
      dsimp only at hindex
      have := Nat.div_add_mod e.1.index c.config.elementsPerIndex
      rw [Nat.mul_comm] at this
      exact hnum (by omega)
    rw [List.dlookup_cons_ne _ _ hne, List.dlookup_nil, Option.or_none]

/-- Setting a bloom leaves the other groups. -/
theorem filledGroup_snoc_of_ne {ds : List (Sigma fun _ : Position ↦ Bloom)}
    {e : Sigma fun _ : Position ↦ Bloom} {g : GroupPosition}
    (hne : (⟨e.1.level, e.1.index / c.config.elementsPerIndex⟩ : GroupPosition) ≠ g) :
    c.filledGroup (ds ++ [e]) g = c.filledGroup ds g := by
  unfold filledGroup
  congr 1
  apply List.ext_getElem (by simp)
  intro i hi _
  rw [List.getElem_mapIdx, List.getElem_mapIdx, List.dlookup_append]
  have hother : (⟨g.level, g.index * c.config.elementsPerIndex + i⟩ : Position) ≠ e.1 := by
    intro heq
    apply hne
    rw [← heq, div_place hk hdb (by simpa using hi)]
  rw [List.dlookup_cons_ne _ _ hother, List.dlookup_nil, Option.or_none]

/-- What the fold reads for a group: the group built so far, else the one it starts from. -/
theorem getD_lookup_of_grouped {ds : List (Sigma fun _ : Position ↦ Bloom)}
    {acc : AList fun _ : GroupPosition ↦ BloomGroup} (hacc : c.Grouped ds acc) (g : GroupPosition) :
    (acc.lookup g).getD (c.baseGroup g) = c.filledGroup ds g := by
  rw [hacc g]
  split_ifs with h
  · rfl
  · simp only [not_exists, not_and] at h
    exact (filledGroup_of_forall_ne hk hdb h).symm

/-- One step of the fold sets the bloom in its group, and never panics. -/
theorem groupBloom_eq {ds : List (Sigma fun _ : Position ↦ Bloom)}
    {acc : AList fun _ : GroupPosition ↦ BloomGroup} (hacc : c.Grouped ds acc)
    {e : Sigma fun _ : Position ↦ Bloom} (he : e.1 ∉ ds.keys) :
    c.groupBloom acc e = some (acc.insert ⟨e.1.level, e.1.index / c.config.elementsPerIndex⟩
      (c.filledGroup (ds ++ [e]) ⟨e.1.level, e.1.index / c.config.elementsPerIndex⟩)) := by
  have hgroup := getD_lookup_of_grouped hk hdb hacc ⟨e.1.level, e.1.index / c.config.elementsPerIndex⟩
  unfold groupBloom
  dsimp only [Group.Manager.position, Group.Manager.groupPosition]
  rw [baseGroup] at hgroup
  rw [hgroup, if_pos ⟨by rw [length_filledGroup, length_baseGroup hdb], by
    rw [length_filledGroup, length_baseGroup hdb]; exact Nat.mod_lt _ hk⟩,
    filledGroup_snoc_self he]

/-- After one step the groups built are those of the entries so far and the new one. -/
theorem Grouped.snoc {ds : List (Sigma fun _ : Position ↦ Bloom)}
    {acc : AList fun _ : GroupPosition ↦ BloomGroup} (hacc : c.Grouped ds acc)
    (e : Sigma fun _ : Position ↦ Bloom) :
    c.Grouped (ds ++ [e]) (acc.insert ⟨e.1.level, e.1.index / c.config.elementsPerIndex⟩
      (c.filledGroup (ds ++ [e]) ⟨e.1.level, e.1.index / c.config.elementsPerIndex⟩)) := by
  intro g
  by_cases hg : (⟨e.1.level, e.1.index / c.config.elementsPerIndex⟩ : GroupPosition) = g
  · subst hg
    rw [AList.lookup_insert, if_pos ⟨e, List.mem_append_right _ (List.mem_singleton_self e), rfl⟩]
  · rw [AList.lookup_insert_ne (Ne.symm hg), hacc g, filledGroup_snoc_of_ne hk hdb hg]
    -- the new bloom is not in `g`, so `g` has a bloom among the new entries iff among the old
    have hiff : (∃ e' ∈ ds ++ [e],
          (⟨e'.1.level, e'.1.index / c.config.elementsPerIndex⟩ : GroupPosition) = g) ↔
        ∃ e' ∈ ds, (⟨e'.1.level, e'.1.index / c.config.elementsPerIndex⟩ : GroupPosition) = g := by
      constructor
      · rintro ⟨e', he', hge'⟩
        rcases List.mem_append.mp he' with he' | he'
        · exact ⟨e', he', hge'⟩
        · rw [List.mem_singleton.mp he'] at hge'
          exact absurd hge' hg
      · rintro ⟨e', he', hge'⟩
        exact ⟨e', List.mem_append_left _ he', hge'⟩
    simp only [hiff]

/-- The fold of `group_blooms` over entries of distinct positions never panics, and builds their
groups. -/
theorem foldlM_groupBloom :
    ∀ (es ds : List (Sigma fun _ : Position ↦ Bloom)) (acc : AList fun _ : GroupPosition ↦ BloomGroup),
      (ds ++ es).NodupKeys → c.Grouped ds acc →
        ∃ acc', es.foldlM c.groupBloom acc = some acc' ∧ c.Grouped (ds ++ es) acc' := by
  intro es
  induction es with
  | nil => intro ds acc _ hacc; exact ⟨acc, rfl, by rwa [List.append_nil]⟩
  | cons e es ih =>
    intro ds acc hnodup hacc
    have he : e.1 ∉ ds.keys := by
      intro hmem
      rw [List.NodupKeys, List.keys_append, List.keys_cons] at hnodup
      exact List.disjoint_of_nodup_append hnodup hmem List.mem_cons_self
    obtain ⟨acc', hfold, hacc'⟩ := ih (ds ++ [e]) _ (by rwa [List.append_assoc])
      (hacc.snoc hk hdb e)
    refine ⟨acc', ?_, by rwa [List.append_assoc] at hacc'⟩
    rw [List.foldlM_cons, groupBloom_eq hk hdb hacc he]
    exact hfold

/-- Over a database of full groups, `group_blooms` never panics, and returns for each group a
written bloom falls in that group with the written blooms at their places. -/
theorem groupBlooms_eq_some (blooms : AList fun _ : Position ↦ Bloom) :
    ∃ result, c.groupBlooms blooms = some result ∧ c.Grouped blooms.entries result := by
  obtain ⟨result, hfold, hgrouped⟩ :=
    foldlM_groupBloom hk hdb blooms.entries [] ∅ blooms.nodupKeys fun g ↦ by simp
  exact ⟨result, hfold, hgrouped⟩

end Fill

/-! ## What the bridge reads once the groups are written -/

section Write

variable (hk : 0 < c.config.elementsPerIndex) (hdb : GroupsSized c.config.elementsPerIndex c.db)
include hk hdb

/-- The bridge reads a place of the group the fold starts from, a missing group as defaults. -/
theorem getElem?_baseGroup (p : Position) :
    (c.baseGroup ⟨p.level, p.index / c.config.elementsPerIndex⟩).blooms[p.index %
        c.config.elementsPerIndex]? = some ((c.bridge.bloomAt p).getD Bloom.default) := by
  have hnum := Nat.mod_lt p.index hk
  unfold baseGroup
  cases hg : c.db ⟨p.level, p.index / c.config.elementsPerIndex⟩ with
  | none =>
    rw [Option.getD_none, bridge_bloomAt, hg, Option.bind_none, Option.getD_none]
    simp only [BloomGroup.new, List.getElem?_replicate, if_pos hnum]
  | some group =>
    have hlen := hdb _ group hg
    have hplace : p.index % c.config.elementsPerIndex < group.blooms.length := by omega
    rw [Option.getD_some, bridge_bloomAt, hg, Option.bind_some, List.getElem?_eq_getElem hplace,
      Option.getD_some]

/-- Once the groups `group_blooms` built are written, the bridge reads the blooms written over the
blooms it read before; only the other places of a new group read the default bloom. -/
theorem readsAs_write {written : AList fun _ : Position ↦ Bloom}
    {result : AList fun _ : GroupPosition ↦ BloomGroup} (hresult : c.Grouped written.entries result) :
    BloomChain.ReadsAs
      (BloomGroupChain.mk c.config fun g ↦ (result.lookup g).or (c.db g)).bridge.bloomAt
      (BloomChain.overlay written c.bridge.bloomAt) := by
  intro p
  unfold BloomChain.overlay
  have hread : (BloomGroupChain.mk c.config fun g ↦ (result.lookup g).or (c.db g)).bridge.bloomAt p =
      ((result.lookup ⟨p.level, p.index / c.config.elementsPerIndex⟩).or
        (c.db ⟨p.level, p.index / c.config.elementsPerIndex⟩)).bind
        fun group ↦ group.blooms[p.index % c.config.elementsPerIndex]? := bridge_bloomAt _ p
  rw [hread, hresult]
  split_ifs with hin
  · -- the group of `p` was written: its place holds the written bloom, else the old one
    have hkey : (⟨p.level, p.index / c.config.elementsPerIndex * c.config.elementsPerIndex +
        p.index % c.config.elementsPerIndex⟩ : Position) = p := by
      rw [Nat.mul_comm, Nat.div_add_mod]
    rw [Option.some_or, Option.bind_some]
    unfold filledGroup
    rw [List.getElem?_mapIdx, getElem?_baseGroup hk hdb p, Option.map_some]
    dsimp only
    rw [hkey, show written.entries.dlookup p = written.lookup p from rfl]
    cases written.lookup p with
    | some x => exact Or.inl rfl
    | none =>
      cases c.bridge.bloomAt p with
      | some y => exact Or.inl rfl
      | none => exact Or.inr ⟨rfl, rfl⟩
  · -- nothing was written in the group of `p`
    have hnone : written.lookup p = none := by
      cases hp : written.lookup p with
      | none => rfl
      | some x => exact absurd ⟨⟨p, x⟩, AList.mem_lookup_iff.mp hp, rfl⟩ hin
    rw [Option.none_or, hnone, Option.none_or]
    exact Or.inl rfl

omit hk in
/-- The written groups are full, as the stored ones were. -/
theorem groupsSized_write {written : AList fun _ : Position ↦ Bloom}
    {result : AList fun _ : GroupPosition ↦ BloomGroup} (hresult : c.Grouped written.entries result) :
    GroupsSized c.config.elementsPerIndex fun g ↦ (result.lookup g).or (c.db g) := by
  intro g group hg
  dsimp only at hg
  rw [hresult g] at hg
  split_ifs at hg
  · rw [Option.some_or, Option.some.injEq] at hg
    rw [← hg, length_filledGroup, length_baseGroup hdb]
  · rw [Option.none_or] at hg
    exact hdb g group hg

/-- A stored group accrues the group `group_blooms` built from it when every written bloom covers
the one it replaces: the result is the built group. -/
theorem accrueBloomGroup_filledGroup {written : AList fun _ : Position ↦ Bloom}
    (hcovers : ∀ p x y, written.lookup p = some x → c.bridge.bloomAt p = some y →
      ByteSet.Covers x y)
    {g : GroupPosition} {cached : BloomGroup} (hg : c.db g = some cached) :
    cached.accrueBloomGroup (c.filledGroup written.entries g) = c.filledGroup written.entries g := by
  have hbase : c.baseGroup g = cached := by rw [baseGroup, hg, Option.getD_some]
  apply BloomGroup.accrueBloomGroup_of_covers (by rw [length_filledGroup, hbase])
  intro i hi hi'
  simp only [filledGroup, List.getElem_mapIdx]
  -- the place `i` of `g` is read through the bridge from `cached`
  have hplace : c.bridge.bloomAt ⟨g.level, g.index * c.config.elementsPerIndex + i⟩ =
      some cached.blooms[i] := by
    have hdiv := div_place hk hdb (show i < (c.baseGroup g).blooms.length by rwa [hbase])
    have hmod : (g.index * c.config.elementsPerIndex + i) % c.config.elementsPerIndex = i := by
      rw [Nat.mul_comm, Nat.mul_add_mod, Nat.mod_eq_of_lt (by rwa [← hdb g cached hg])]
    rw [bridge_bloomAt]
    simp only [hdiv, hmod]
    rw [hg, Option.bind_some, List.getElem?_eq_getElem hi]
  simp only [hbase]
  cases hw : written.entries.dlookup ⟨g.level, g.index * c.config.elementsPerIndex + i⟩ with
  | none => exact ByteSet.covers_refl _
  | some x => exact hcovers _ x _ hw hplace

end Write

end BloomGroupChain

end AionR
