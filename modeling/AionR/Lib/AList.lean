import Mathlib

/-!
# Inserting into an association list only when the key is new

`map.entry(k).or_insert(v)` of a hash map: the value already stored under `k` wins. Hash maps are
association lists in this development, and this is the one map operation Mathlib's `AList` does
not have.

A hash map's equality compares lookups; for association lists that is equality of the entries up
to order, and a sum over the entries can be split at any key.
-/

namespace AionR

variable {α : Type} [DecidableEq α] {β : α → Type}

/-- `entry(k).or_insert(v)`: store `v` under `k` unless `k` is already there. -/
def orInsert (m : AList β) (k : α) (v : β k) : AList β := if k ∈ m then m else m.insert k v

theorem lookup_orInsert (m : AList β) (k : α) (v : β k) :
    (orInsert m k v).lookup k = some ((m.lookup k).getD v) := by
  by_cases hk : k ∈ m
  · obtain ⟨w, hw⟩ := Option.isSome_iff_exists.mp (AList.lookup_isSome.mpr hk)
    simp [orInsert, hk, hw]
  · have hnone : m.lookup k = none := AList.lookup_eq_none.mpr hk
    simp [orInsert, hk, hnone]

theorem lookup_orInsert_ne (m : AList β) {k k' : α} (v : β k) (h : k' ≠ k) :
    (orInsert m k v).lookup k' = m.lookup k' := by
  by_cases hk : k ∈ m
  · simp [orInsert, hk]
  · simp [orInsert, hk, AList.lookup_insert_ne h]

theorem mem_orInsert (m : AList β) (k k' : α) (v : β k) : k' ∈ orInsert m k v ↔ k' = k ∨ k' ∈ m := by
  by_cases hk : k ∈ m
  · simp only [orInsert, hk, if_true]
    constructor
    · exact Or.inr
    · rintro (rfl | h)
      · exact hk
      · exact h
  · simp [orInsert, hk]

/-! ## Entries, up to order -/

section Entries

variable {α : Type} [DecidableEq α] {β : α → Type}

theorem entries_insert_eq (m : AList β) (k : α) (v : β k) :
    (m.insert k v).entries = ⟨k, v⟩ :: (m.erase k).entries := AList.entries_insert

/-- A key that is present can be taken to the front of the entries. -/
theorem perm_cons_erase_of_lookup (m : AList β) {k : α} {v : β k} (h : m.lookup k = some v) :
    m.entries.Perm (⟨k, v⟩ :: (m.erase k).entries) := by
  rw [← entries_insert_eq]
  apply List.lookup_ext m.nodupKeys (m.insert k v).nodupKeys
  intro x y
  by_cases hx : x = k
  · subst hx
    change y ∈ m.lookup x ↔ y ∈ (m.insert x v).lookup x
    rw [h, AList.lookup_insert]
  · change y ∈ m.lookup x ↔ y ∈ (m.insert k v).lookup x
    rw [AList.lookup_insert_ne hx]

/-- Two maps with the same lookups have the same entries, up to order. -/
theorem perm_entries_of_lookup_eq {m m' : AList β} (h : ∀ k, m.lookup k = m'.lookup k) :
    m.entries.Perm m'.entries :=
  List.lookup_ext m.nodupKeys m'.nodupKeys fun x y ↦ by
    change y ∈ m.lookup x ↔ y ∈ m'.lookup x
    rw [h x]

/-- A sum over the entries after an insertion: the new entry, and the others. -/
theorem sum_entries_insert (f : Sigma β → ℕ) (m : AList β) (k : α) (v : β k) :
    ((m.insert k v).entries.map f).sum = f ⟨k, v⟩ + ((m.erase k).entries.map f).sum := by
  rw [entries_insert_eq, List.map_cons, List.sum_cons]

/-- A sum over the entries, split at a key that is present. -/
theorem sum_entries_of_lookup (f : Sigma β → ℕ) {m : AList β} {k : α} {v : β k}
    (h : m.lookup k = some v) :
    (m.entries.map f).sum = f ⟨k, v⟩ + ((m.erase k).entries.map f).sum := by
  rw [((perm_cons_erase_of_lookup m h).map f).sum_eq, List.map_cons, List.sum_cons]

theorem sum_entries_congr (f : Sigma β → ℕ) {m m' : AList β} (h : ∀ k, m.lookup k = m'.lookup k) :
    (m.entries.map f).sum = (m'.entries.map f).sum :=
  ((perm_entries_of_lookup_eq h).map f).sum_eq

/-- A sum over the entries of a map, all of whose entries another map holds, is at most the sum
over the other's. -/
theorem sum_entries_le_of_lookup (f : Sigma β → ℕ) {m m' : AList β}
    (h : ∀ k v, m.lookup k = some v → m'.lookup k = some v) :
    (m.entries.map f).sum ≤ (m'.entries.map f).sum := by
  have hsub : m.entries ⊆ m'.entries := fun e he ↦
    AList.mem_lookup_iff.mp (h e.1 e.2 (AList.mem_lookup_iff.mpr he))
  obtain ⟨l, hperm, hl⟩ := List.subperm_of_subset m.nodupKeys.nodup hsub
  rw [← (hperm.map f).sum_eq]
  exact (hl.map f).sum_le_sum fun _ _ ↦ Nat.zero_le _

/-- Equality of two maps as a hash map's `==` decides it: the same number of entries, each of
which the other map holds. -/
def mapEq [∀ a, DecidableEq (β a)] (m m' : AList β) : Bool :=
  decide (m.entries.length = m'.entries.length) &&
    m.entries.all fun e ↦ decide (m'.lookup e.1 = some e.2)

theorem mapEq_iff [∀ a, DecidableEq (β a)] {m m' : AList β} :
    mapEq m m' = true ↔ ∀ k, m.lookup k = m'.lookup k := by
  simp only [mapEq, Bool.and_eq_true, decide_eq_true_eq, List.all_eq_true]
  constructor
  · rintro ⟨hlen, hall⟩
    have hsub : m.keys ⊆ m'.keys := by
      intro k hk
      obtain ⟨v, hv⟩ := Option.isSome_iff_exists.mp (AList.lookup_isSome.mpr hk)
      have hv' := hall ⟨k, v⟩ (AList.mem_lookup_iff.mp hv)
      exact AList.lookup_isSome.mp (by rw [hv']; rfl)
    -- as many keys on both sides, so `m'` has no key that `m` lacks
    have hperm : m.keys.Perm m'.keys :=
      (List.subperm_of_subset m.keys_nodup hsub).perm_of_length_le
        (by simp only [AList.keys, List.keys, List.length_map, hlen, le_refl])
    intro k
    by_cases hk : k ∈ m
    · obtain ⟨v, hv⟩ := Option.isSome_iff_exists.mp (AList.lookup_isSome.mpr hk)
      rw [hv, hall ⟨k, v⟩ (AList.mem_lookup_iff.mp hv)]
    · have hk' : k ∉ m' := fun h ↦ hk (hperm.mem_iff.mpr h)
      rw [AList.lookup_eq_none.mpr hk, AList.lookup_eq_none.mpr hk']
  · intro h
    refine ⟨(perm_entries_of_lookup_eq h).length_eq, fun e he ↦ ?_⟩
    rw [← h]
    exact AList.mem_lookup_iff.mpr he

theorem erase_eq_self_of_lookup_eq_none (m : AList β) {k : α} (h : m.lookup k = none) :
    m.erase k = m :=
  AList.ext (List.kerase_of_notMem_keys (AList.lookup_eq_none.mp h))

end Entries

/-! ## Inserting the members of a list -/

section Fold

variable {α γ β : Type} [DecidableEq α] (key : γ → α) (val : γ → β)

/-- Inserting members of other keys keeps a key's value. -/
theorem lookup_foldl_insert_of_forall_ne (l : List γ) (init : AList fun _ : α ↦ β) {k : α}
    (h : ∀ y ∈ l, key y ≠ k) :
    (l.foldl (fun r y ↦ r.insert (key y) (val y)) init).lookup k = init.lookup k := by
  induction l generalizing init with
  | nil => rfl
  | cons y l ih =>
    rw [List.foldl_cons, ih _ fun z hz ↦ h z (List.mem_cons_of_mem y hz),
      AList.lookup_insert_ne (h y List.mem_cons_self).symm]

/-- Inserting the members of a list whose keys differ: a key holds the value of its member. -/
theorem lookup_foldl_insert_of_mem {l : List γ} (init : AList fun _ : α ↦ β) {x : γ} {k : α}
    (hl : l.Pairwise fun y z ↦ key y ≠ key z) (hx : x ∈ l) (hk : key x = k) :
    (l.foldl (fun r y ↦ r.insert (key y) (val y)) init).lookup k = some (val x) := by
  subst hk
  induction l generalizing init with
  | nil => exact absurd hx List.not_mem_nil
  | cons y l ih =>
    rw [List.foldl_cons]
    rcases List.mem_cons.mp hx with rfl | hx
    · -- the later members have other keys, and keep the first one's value
      rw [lookup_foldl_insert_of_forall_ne _ _ _ _
        fun z hz ↦ (List.rel_of_pairwise_cons hl hz).symm, AList.lookup_insert]
    · exact ih _ (List.Pairwise.of_cons hl) hx

/-- An insertion reads as a write of what the map read. -/
theorem lookup_insert_eq_update (m : AList fun _ : α ↦ β) (k : α) (v : β) (a : α) :
    (m.insert k v).lookup a = Function.update (fun a ↦ m.lookup a) k (some v) a := by
  by_cases ha : a = k
  · subst ha
    rw [AList.lookup_insert, Function.update_self]
  · rw [AList.lookup_insert_ne ha, Function.update_of_ne ha]

/-- Writing an entry, then entries of other keys over it: a key reads the entries, else what it
read before. -/
theorem dlookup_or_update {e : Sigma fun _ : α ↦ β} {l : List (Sigma fun _ : α ↦ β)}
    (he : e.1 ∉ l.keys) (f : α → Option β) (a : α) :
    (l.dlookup a).or (Function.update f e.1 (some e.2) a) = ((e :: l).dlookup a).or (f a) := by
  by_cases ha : a = e.1
  · -- the later entries have other keys
    subst ha
    rw [List.dlookup_eq_none.mpr he, Option.none_or, Function.update_self, List.dlookup_cons_eq]
    rfl
  · rw [Function.update_of_ne ha, List.dlookup_cons_ne _ _ ha]

/-- Writing the entries of a list with distinct keys one by one: a key reads its entry, or what it
read before. -/
theorem foldl_update_eq {l : List (Sigma fun _ : α ↦ β)} (hl : l.NodupKeys) (f : α → Option β) :
    l.foldl (fun (g : α → Option β) e ↦ Function.update g e.1 (some e.2)) f =
      fun a ↦ (l.dlookup a).or (f a) := by
  induction l generalizing f with
  | nil => rfl
  | cons e l ih =>
    rw [List.foldl_cons, ih (List.nodupKeys_cons.mp hl).2]
    funext a
    exact dlookup_or_update (List.nodupKeys_cons.mp hl).1 f a

end Fold

end AionR
