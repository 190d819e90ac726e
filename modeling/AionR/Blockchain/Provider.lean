import Mathlib.Data.Option.Basic
import Mathlib.Order.Basic

/-!
# The block tree as the chain reports it

`BlockProvider` (`src/core/src/blockchain/blockchain.rs`) is what verification reads of the chain:
the details of a block by its hash (its number, its total difficulty, its parent and its children)
and the canonical index `block_hash`, which maps a height to the hash of the canonical block at
that height. `beacon_list` reads the two together: a block is canonical when the index holds its
hash at its own height.

## The abstract tree

`Ancestor p a b` says that `a` is reached from `b` by following parent links through blocks whose
details the chain holds; the beacon rule of Unity asks a beacon hash to name such an ancestor of
the block's parent. The lemmas here are the facts about it that the beacon check's proofs use.
-/

namespace AionR

/-- `BlockDetails`: the familial details of a block. -/
structure BlockDetails where
  number : ℕ
  totalDifficulty : ℕ
  parent : Vector UInt8 32
  children : List (Vector UInt8 32)
  deriving DecidableEq, Repr

/-- `BlockProvider`, as far as verification reads it: `block_details` and `block_hash`. -/
structure BlockProvider where
  blockDetails : Vector UInt8 32 → Option BlockDetails
  blockHash : ℕ → Option (Vector UInt8 32)

namespace BlockProvider

variable (p : BlockProvider)

/-- `beacon_list`: the number of a block when it is the canonical block at that number. -/
def beaconList (hash : Vector UInt8 32) : Option ℕ :=
  match p.blockDetails hash with
  | some details =>
    match p.blockHash details.number with
    | some h => if hash = h then some details.number else none
    | none => none
  | none => none

/-- A block is canonical exactly when the index holds it at the height its details give. -/
theorem beaconList_eq_some {hash : Vector UInt8 32} {n : ℕ} :
    p.beaconList hash = some n ↔
      ∃ details, p.blockDetails hash = some details ∧ details.number = n ∧
        p.blockHash n = some hash := by
  unfold beaconList
  cases hd : p.blockDetails hash with
  | none => simp
  | some details =>
    simp only [Option.some.injEq, exists_eq_left']
    cases hh : p.blockHash details.number with
    | none =>
      simp only [reduceCtorEq, false_iff, not_and]
      rintro rfl
      simp [hh]
    | some h =>
      by_cases heq : hash = h
      · subst heq
        simp only [if_true, Option.some.injEq]
        exact ⟨fun hn ↦ ⟨hn, hn ▸ hh⟩, fun hn ↦ hn.1⟩
      · simp only [heq, if_false, reduceCtorEq, false_iff, not_and]
        rintro rfl
        rw [hh]
        exact fun h' ↦ heq (Option.some.inj h').symm

/-- `a` is `b` or an ancestor of `b` through blocks the chain holds. -/
inductive Ancestor : Vector UInt8 32 → Vector UInt8 32 → Prop where
  | refl (b : Vector UInt8 32) : Ancestor b b
  | parent {a b : Vector UInt8 32} {details : BlockDetails} :
      p.blockDetails b = some details → Ancestor a details.parent → Ancestor a b

/-- A block held by the chain has its descendants held too. -/
theorem Ancestor.exists_details {a b : Vector UInt8 32} {da : BlockDetails}
    (h : p.Ancestor a b) (ha : p.blockDetails a = some da) :
    ∃ db, p.blockDetails b = some db := by
  cases h with
  | refl => exact ⟨da, ha⟩
  | parent hb _ => exact ⟨_, hb⟩

/-- In a chain whose parent links go down one height at a time, an ancestor is not higher. -/
theorem Ancestor.number_le
    (hparent : ∀ {h : Vector UInt8 32} {d d' : BlockDetails}, p.blockDetails h = some d →
      p.blockDetails d.parent = some d' → d'.number + 1 = d.number)
    {a b : Vector UInt8 32} {da db : BlockDetails} (h : p.Ancestor a b)
    (ha : p.blockDetails a = some da) (hb : p.blockDetails b = some db) :
    da.number ≤ db.number := by
  induction h generalizing db with
  | refl =>
    rw [ha] at hb
    exact Nat.le_of_eq (congrArg BlockDetails.number (Option.some.inj hb))
  | @parent b details hdetails hanc ih =>
    rw [hb] at hdetails
    cases hdetails
    -- the parent is held, by the ancestry that goes through it
    obtain ⟨dp, hdp⟩ := hanc.exists_details p ha
    have hstep := hparent hb hdp
    have := ih hdp
    omega

/-- Ancestry composes. -/
theorem Ancestor.trans {a b c : Vector UInt8 32} (hab : p.Ancestor a b) (hbc : p.Ancestor b c) :
    p.Ancestor a c := by
  induction hbc with
  | refl => exact hab
  | parent hc _ ih => exact .parent hc ih

/-- Ancestry survives a change of the chain that keeps the parent of every block it held. -/
theorem Ancestor.mono {q : BlockProvider}
    (hkeep : ∀ h d, p.blockDetails h = some d → ∃ d', q.blockDetails h = some d' ∧
      d'.parent = d.parent)
    {a b : Vector UInt8 32} (h : p.Ancestor a b) : q.Ancestor a b := by
  induction h with
  | refl => exact .refl _
  | @parent b details hb _ ih =>
    obtain ⟨details', hb', hparent⟩ := hkeep b details hb
    exact .parent hb' (hparent ▸ ih)

/-- An ancestor other than the block itself is an ancestor of its parent. -/
theorem Ancestor.parent_of_ne {a b : Vector UInt8 32} {d : BlockDetails} (h : p.Ancestor a b)
    (hne : a ≠ b) (hb : p.blockDetails b = some d) : p.Ancestor a d.parent := by
  cases h with
  | refl => exact absurd rfl hne
  | parent hb' hanc =>
    rw [hb] at hb'
    cases hb'
    exact hanc

/-- Every parent the chain holds is one height lower than its child. -/
def ParentsNumbered : Prop :=
  ∀ h d d', p.blockDetails h = some d → p.blockDetails d.parent = some d' → d'.number + 1 = d.number

/-- On a chain numbered by height, two ancestors of one block are ancestors of each other, the
lower of the higher. -/
theorem Ancestor.of_number_le (hparent : p.ParentsNumbered) {x y b : Vector UInt8 32}
    {dx dy : BlockDetails} (hx : p.Ancestor x b) (hy : p.Ancestor y b)
    (hdx : p.blockDetails x = some dx) (hdy : p.blockDetails y = some dy)
    (hle : dx.number ≤ dy.number) : p.Ancestor x y := by
  induction hy with
  | refl => exact hx
  | @parent b details hb hanc ih =>
    cases hx with
    | refl =>
      -- `x` is `b` itself, higher than its ancestor `y`: impossible
      rw [hb] at hdx
      cases hdx
      obtain ⟨dp, hdp⟩ := hanc.exists_details p hdy
      have hstep := hparent _ _ _ hb hdp
      have hyp := hanc.number_le p (fun hh hd ↦ hparent _ _ _ hh hd) hdy hdp
      omega
    | parent hb' hx' =>
      rw [hb] at hb'
      cases hb'
      exact ih hx'

/-- On a chain numbered by height, an ancestor at the same height is the block itself. -/
theorem Ancestor.eq_of_number_eq (hparent : p.ParentsNumbered) {a b : Vector UInt8 32}
    {da db : BlockDetails} (h : p.Ancestor a b) (ha : p.blockDetails a = some da)
    (hb : p.blockDetails b = some db) (hnumber : da.number = db.number) : a = b := by
  cases h with
  | refl => rfl
  | parent hb' hanc =>
    -- an ancestor through the parent is lower than the block
    rw [hb] at hb'
    cases hb'
    obtain ⟨dp, hdp⟩ := hanc.exists_details p ha
    have hstep := hparent _ _ _ hb hdp
    have hle := hanc.number_le p (fun hh hd ↦ hparent _ _ _ hh hd) ha hdp
    omega

/-- The details form one block tree: a parent the chain holds is one height lower than its child,
every block above height 0 has its parent held, and one block alone stands at height 0. The parent
of that root is then not held. -/
structure IsTree : Prop where
  parentsNumbered : p.ParentsNumbered
  parent_held : ∀ h d, p.blockDetails h = some d → 0 < d.number →
    ∃ d', p.blockDetails d.parent = some d'
  root_unique : ∀ h h' d d', p.blockDetails h = some d → p.blockDetails h' = some d' →
    d.number = 0 → d'.number = 0 → h = h'

/-- In a block tree, the parent of a block above height 0 is held one height lower. -/
theorem IsTree.parent (htree : p.IsTree) {h : Vector UInt8 32} {d : BlockDetails}
    (hd : p.blockDetails h = some d) (hpos : 0 < d.number) :
    ∃ d', p.blockDetails d.parent = some d' ∧ d'.number + 1 = d.number := by
  obtain ⟨d', hd'⟩ := htree.parent_held h d hd hpos
  exact ⟨d', hd', htree.parentsNumbered h d d' hd hd'⟩

/-- `l` lists the blocks met going down from `b` by parent links through blocks the chain holds,
`b` first, until `a`, which is left out. -/
inductive DownPath : Vector UInt8 32 → List (Vector UInt8 32) → Vector UInt8 32 → Prop where
  | nil (a : Vector UInt8 32) : DownPath a [] a
  | cons {a b : Vector UInt8 32} {details : BlockDetails} {l : List (Vector UInt8 32)} :
      p.blockDetails b = some details → DownPath details.parent l a → DownPath b (b :: l) a

theorem DownPath.append {a b c : Vector UInt8 32} {l₁ l₂ : List (Vector UInt8 32)}
    (h₁ : p.DownPath b l₁ c) (h₂ : p.DownPath c l₂ a) : p.DownPath b (l₁ ++ l₂) a := by
  induction h₁ with
  | nil => exact h₂
  | cons hb _ ih =>
    rw [List.cons_append]
    exact .cons hb (ih h₂)

/-- An empty walk down stays where it starts. -/
theorem DownPath.eq_of_nil {a b : Vector UInt8 32} (h : p.DownPath b [] a) : b = a := by
  cases h
  rfl

/-- The end of a walk down is an ancestor of its start. -/
theorem DownPath.ancestor {a b : Vector UInt8 32} {l : List (Vector UInt8 32)}
    (h : p.DownPath b l a) : p.Ancestor a b := by
  induction h with
  | nil => exact .refl _
  | cons hb _ ih => exact .parent hb ih

/-- A walk down that ends at a block the chain holds starts at one. -/
theorem DownPath.exists_details {a b : Vector UInt8 32} {l : List (Vector UInt8 32)}
    {da : BlockDetails} (h : p.DownPath b l a) (ha : p.blockDetails a = some da) :
    ∃ db, p.blockDetails b = some db := by
  cases h with
  | nil => exact ⟨da, ha⟩
  | cons hb _ => exact ⟨_, hb⟩

/-- On a chain numbered by height, a walk down passes one block per height. -/
theorem DownPath.number_add_length (hparent : p.ParentsNumbered) {a b : Vector UInt8 32}
    {l : List (Vector UInt8 32)} {da db : BlockDetails} (h : p.DownPath b l a)
    (ha : p.blockDetails a = some da) (hb : p.blockDetails b = some db) :
    da.number + l.length = db.number := by
  induction h generalizing db with
  | nil =>
    rw [ha] at hb
    cases hb
    rfl
  | @cons a b details l hdetails hpath ih =>
    rw [hdetails] at hb
    cases hb
    obtain ⟨dp, hdp⟩ := hpath.exists_details p ha
    have hstep := hparent _ _ _ hdetails hdp
    have := ih ha hdp
    rw [List.length_cons]
    omega

/-- On a chain numbered by height, the `k`-th block of a walk down from `b` is the ancestor of `b`
`k` heights below it. -/
theorem DownPath.getElem (hparent : p.ParentsNumbered) {a b : Vector UInt8 32}
    {l : List (Vector UInt8 32)} {db : BlockDetails} (h : p.DownPath b l a)
    (hb : p.blockDetails b = some db) (k : ℕ) (hk : k < l.length) :
    ∃ d, p.blockDetails l[k] = some d ∧ d.number + k = db.number ∧ p.Ancestor l[k] b := by
  induction h generalizing k db with
  | nil => exact absurd hk (Nat.not_lt_zero k)
  | @cons a b details l hdetails hpath ih =>
    rw [hdetails] at hb
    cases hb
    cases k with
    | zero => exact ⟨details, hdetails, rfl, .refl _⟩
    | succ k =>
      -- the rest of the walk starts at the parent, which the chain holds
      have hk' : k < l.length := Nat.lt_of_succ_lt_succ hk
      obtain ⟨y, l', rfl⟩ := List.exists_cons_of_length_pos (Nat.zero_lt_of_lt hk')
      have hy : ∃ dp, p.blockDetails details.parent = some dp := by
        cases hpath with
        | cons hp _ => exact ⟨_, hp⟩
      obtain ⟨dp, hdp⟩ := hy
      obtain ⟨d, hd, hnumber, hanc⟩ := ih hdp k hk'
      have hstep := hparent _ _ _ hdetails hdp
      exact ⟨d, hd, by omega, .parent hdetails hanc⟩

/-- Read from the bottom, the `j`-th block of a walk down from `b` to `a` is the ancestor of `b`
`j + 1` heights above `a`. -/
theorem DownPath.getElem_reverse (hparent : p.ParentsNumbered) {a b : Vector UInt8 32}
    {l : List (Vector UInt8 32)} {da db : BlockDetails} (h : p.DownPath b l a)
    (ha : p.blockDetails a = some da) (hb : p.blockDetails b = some db) (j : ℕ)
    (hj : j < l.reverse.length) :
    ∃ d, p.blockDetails l.reverse[j] = some d ∧ d.number = da.number + 1 + j ∧
      p.Ancestor l.reverse[j] b := by
  have hlen := h.number_add_length p hparent ha hb
  rw [List.length_reverse] at hj
  obtain ⟨d, hd, hnumber, hanc⟩ := h.getElem p hparent hb (l.length - 1 - j) (by omega)
  refine ⟨d, ?_, by omega, ?_⟩
  · rwa [List.getElem_reverse]
  · rwa [List.getElem_reverse]

end BlockProvider

end AionR
