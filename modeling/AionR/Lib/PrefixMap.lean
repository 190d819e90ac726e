import Mathlib

/-!
# Maps keyed by words

A radix tree means a partial map from words over its alphabet to values. Its nodes build such a
map from three pieces: a single entry, a map moved below a prefix, and a root value with one map
below each letter. The lemmas here say how updating an entry passes through each piece, which is
all an insertion or a removal changes.
-/

namespace AionR

namespace PrefixMap

variable {α β : Type}

/-- The map with no entries. -/
def empty : List α → Option β := fun _ ↦ none

/-- The map with value `v` at the empty word and the map `c i` below each letter `i`. -/
def cons (v : Option β) (c : α → List α → Option β) : List α → Option β
  | [] => v
  | i :: rest => c i rest

@[simp] theorem empty_apply (p : List α) : (empty p : Option β) = none := rfl

@[simp] theorem cons_nil (v : Option β) (c : α → List α → Option β) : cons v c [] = v := rfl

@[simp] theorem cons_cons (v : Option β) (c : α → List α → Option β) (i : α) (rest : List α) :
    cons v c (i :: rest) = c i rest := rfl

theorem cons_none_empty : cons none (fun _ ↦ empty) = (empty : List α → Option β) := by
  funext p
  cases p <;> rfl

variable [DecidableEq α]

/-- The map with one entry. -/
def single (k : List α) (v : β) : List α → Option β := fun p ↦ if p = k then some v else none

/-- A map moved below the prefix `k`. -/
def under (k : List α) (m : List α → Option β) : List α → Option β :=
  fun p ↦ if k <+: p then m (p.drop k.length) else none

@[simp] theorem single_apply (k p : List α) (v : β) :
    single k v p = if p = k then some v else none := rfl

-- Several proofs below unfold these at once: their equation lemmas are generated here, once.
section
attribute [local simp] under
end

theorem under_apply_append (k p : List α) (m : List α → Option β) :
    under k m (k ++ p) = m p := by
  simp [under]

theorem under_apply_eq_none {k p : List α} (h : ¬k <+: p) (m : List α → Option β) :
    under k m p = none := by
  simp [under, h]

@[simp] theorem under_nil (m : List α → Option β) : under [] m = m := by
  funext p
  simp [under]

@[simp] theorem under_empty (k : List α) : under k (empty : List α → Option β) = empty := by
  funext p
  simp [under]

theorem under_append (k₁ k₂ : List α) (m : List α → Option β) :
    under (k₁ ++ k₂) m = under k₁ (under k₂ m) := by
  funext p
  by_cases h₁ : k₁ <+: p
  · obtain ⟨q, rfl⟩ := h₁
    by_cases h₂ : k₂ <+: q
    · obtain ⟨r, rfl⟩ := h₂
      rw [under_apply_append, under_apply_append, ← List.append_assoc, under_apply_append]
    · have h : ¬k₁ ++ k₂ <+: k₁ ++ q := fun h ↦ h₂ ((List.prefix_append_right_inj k₁).mp h)
      rw [under_apply_eq_none h, under_apply_append, under_apply_eq_none h₂]
  · have h : ¬k₁ ++ k₂ <+: p := fun h ↦ h₁ ((List.prefix_append k₁ k₂).trans h)
    rw [under_apply_eq_none h, under_apply_eq_none h₁]

theorem single_eq_under (k : List α) (v : β) : single k v = under k (single [] v) := by
  funext p
  by_cases h : k <+: p
  · obtain ⟨q, rfl⟩ := h
    simp [under_apply_append]
  · rw [under_apply_eq_none h, single_apply, if_neg (by rintro rfl; exact h (List.prefix_refl _))]

theorem single_append (k₁ k₂ : List α) (v : β) : single (k₁ ++ k₂) v = under k₁ (single k₂ v) := by
  rw [single_eq_under, under_append, ← single_eq_under]

/-- One letter of prefix is a root with a single map below that letter. -/
theorem under_cons (i : α) (k : List α) (m : List α → Option β) :
    under (i :: k) m = cons none (Function.update (fun _ ↦ empty) i (under k m)) := by
  funext p
  cases p with
  | nil => simp [under]
  | cons j rest =>
    by_cases hj : j = i
    · subst hj
      simp [under]
    · simp [under, hj, Ne.symm hj]

theorem update_empty (k : List α) (v : β) :
    Function.update (empty : List α → Option β) k (some v) = single k v := by
  funext p
  by_cases hp : p = k <;> simp [hp]

theorem update_single_self (k : List α) (v w : β) :
    Function.update (single k v) k (some w) = single k w := by
  funext p
  by_cases hp : p = k <;> simp [hp]

theorem update_single_self_none (k : List α) (v : β) :
    Function.update (single k v) k none = empty := by
  funext p
  by_cases hp : p = k <;> simp [hp]

theorem cons_some_empty (v : β) : cons (some v) (fun _ ↦ empty) = (single [] v : List α → Option β) := by
  funext p
  cases p <;> simp

/-- Updating the entry at `k ++ p` of a map below `k` updates the map itself at `p`. -/
theorem update_under_append (k p : List α) (m : List α → Option β) (w : Option β) :
    Function.update (under k m) (k ++ p) w = under k (Function.update m p w) := by
  funext q
  by_cases hq : k <+: q
  · obtain ⟨r, rfl⟩ := hq
    rw [under_apply_append]
    by_cases hr : r = p
    · subst hr
      simp
    · rw [Function.update_of_ne (fun h ↦ hr (List.append_cancel_left h)), under_apply_append,
        Function.update_of_ne hr]
  · have hne : q ≠ k ++ p := fun h ↦ hq (h ▸ List.prefix_append k p)
    rw [Function.update_of_ne hne, under_apply_eq_none hq, under_apply_eq_none hq]

theorem update_cons_nil (v : Option β) (c : α → List α → Option β) (w : Option β) :
    Function.update (cons v c) [] w = cons w c := by
  funext p
  cases p <;> simp [Function.update, cons]

theorem update_cons_cons (v : Option β) (c : α → List α → Option β) (i : α) (p : List α)
    (w : Option β) :
    Function.update (cons v c) (i :: p) w = cons v (Function.update c i (Function.update (c i) p w)) := by
  funext q
  cases q with
  | nil => simp
  | cons j rest =>
    by_cases hj : j = i
    · subst hj
      by_cases hr : rest = p
      · subst hr
        simp
      · simp [hr]
    · simp [hj]

/-! ## Maps that fork

A map forks when two of its entries begin differently. Moved below a prefix, such a map still
shows the prefix: it is the longest one all entries share. So a trie's key and child are
determined by what it holds.
-/

/-- Two entries of the map begin differently: one is at the empty word, or they begin with
different letters. -/
def Forks (m : List α → Option β) : Prop :=
  ∃ p q, m p ≠ none ∧ m q ≠ none ∧ p.head? ≠ q.head?

theorem eq_of_single_ne_none {k p : List α} {v : β} (h : single k v p ≠ none) : p = k := by
  by_contra hp
  simp [hp] at h

theorem prefix_of_under_ne_none {k p : List α} {m : List α → Option β} (h : under k m p ≠ none) :
    k <+: p := by
  by_contra hk
  exact h (under_apply_eq_none hk m)

/-- A map that forks, moved below a prefix, holds more than one entry. -/
theorem single_ne_under {m : List α → Option β} (hm : Forks m) (k k' : List α) (v : β) :
    single k v ≠ under k' m := by
  intro h
  obtain ⟨p, q, hp, hq, hpq⟩ := hm
  have hp' : k' ++ p = k := eq_of_single_ne_none (by rw [h, under_apply_append]; exact hp)
  have hq' : k' ++ q = k := eq_of_single_ne_none (by rw [h, under_apply_append]; exact hq)
  exact hpq (by rw [List.append_cancel_left (hp'.trans hq'.symm)])

/-- Moving a map below `k` and a forking map below `k'` gives the same map only if `k` is a
prefix of `k'`: past `k'` the entries of the second part at once. -/
theorem prefix_of_under_eq_under {k k' : List α} {m m' : List α → Option β} (hm' : Forks m')
    (h : under k m = under k' m') : k <+: k' := by
  obtain ⟨p, q, hp, hq, hpq⟩ := hm'
  have hkp : k <+: k' ++ p := prefix_of_under_ne_none (by rw [h, under_apply_append]; exact hp)
  have hkq : k <+: k' ++ q := prefix_of_under_ne_none (by rw [h, under_apply_append]; exact hq)
  by_contra hk
  -- `k` would continue `k'` by a letter that both `p` and `q` begin with
  have hlen : k'.length ≤ k.length := by
    by_contra hlt
    exact hk (List.prefix_of_prefix_length_le hkp (List.prefix_append k' p) (by omega))
  obtain ⟨x, rfl⟩ := List.prefix_of_prefix_length_le (List.prefix_append k' p) hkp hlen
  have hxp : x <+: p := (List.prefix_append_right_inj k').mp hkp
  have hxq : x <+: q := (List.prefix_append_right_inj k').mp hkq
  cases x with
  | nil => exact hk (by simp)
  | cons a x =>
    obtain ⟨p', rfl⟩ := hxp
    obtain ⟨q', rfl⟩ := hxq
    exact hpq rfl

/-- Two forking maps moved below prefixes agree only when the prefixes and the maps do. -/
theorem eq_of_under_eq_under {k k' : List α} {m m' : List α → Option β} (hm : Forks m)
    (hm' : Forks m') (h : under k m = under k' m') : k = k' ∧ m = m' := by
  have hkk' := prefix_of_under_eq_under hm' h
  have hk : k = k' := hkk'.eq_of_length
    (le_antisymm hkk'.length_le (prefix_of_under_eq_under hm h.symm).length_le)
  subst hk
  refine ⟨rfl, funext fun p ↦ ?_⟩
  have := congrFun h (k ++ p)
  rwa [under_apply_append, under_apply_append] at this

end PrefixMap

end AionR
