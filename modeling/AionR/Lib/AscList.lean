import Mathlib.Data.List.Sort

/-!
# Ascending association lists

A map with ordered keys, such as a `BTreeMap`, is held here as the list of its entries in
ascending order of key. `insert` puts an entry in its place, or gives an equal key the new value;
`ofList` inserts a list of entries one after another, as collecting them into a map does.

The order is any strict total order: asymmetric, trichotomous and transitive, as the
lexicographic order on byte strings is.

## Main results

* `ascending_insert`, `mem_insert`: insertion keeps the keys ascending, and the entries are the
  old ones with the new entry in place of any of its key.
* `mem_ofList`: from entries with distinct keys, `ofList` holds exactly those entries.
* `eq_of_mem_iff`: an ascending list is fixed by its entries.

Keys that are words are ordered lexicographically; `append_lt_append_left` and `map_lt_map` say
which maps of words keep that order.
-/

namespace AionR

namespace AscList

variable {κ ν : Type} [LT κ]

/-- The keys ascend strictly. -/
def Ascending (l : List (κ × ν)) : Prop := l.Pairwise fun a b ↦ a.1 < b.1

theorem ascending_cons {e : κ × ν} {l : List (κ × ν)} :
    Ascending (e :: l) ↔ (∀ x ∈ l, e.1 < x.1) ∧ Ascending l :=
  List.pairwise_cons

theorem ne_of_lt [Std.Asymm (α := κ) (· < ·)] {a b : κ} (h : a < b) : a ≠ b := by
  rintro rfl
  exact Std.Asymm.asymm a a h h

theorem eq_of_not_lt [Std.Trichotomous (α := κ) (· < ·)] {a b : κ} (h₁ : ¬a < b) (h₂ : ¬b < a) :
    a = b :=
  Std.Trichotomous.trichotomous a b h₁ h₂

/-- Every key of an ascending list lies above a key below its head. -/
theorem lt_of_ascending [Trans (α := κ) (β := κ) (γ := κ) (· < ·) (· < ·) (· < ·)] {k : κ}
    {e : κ × ν} {l : List (κ × ν)} (hl : Ascending (e :: l)) (hk : k < e.1) :
    ∀ x ∈ e :: l, k < x.1 := by
  intro x hx
  rcases List.mem_cons.mp hx with rfl | hx
  · exact hk
  · exact Trans.trans hk ((ascending_cons.mp hl).1 x hx)

/-- A map of the keys that keeps their order keeps them ascending. -/
theorem Ascending.map_keys {κ' : Type} [LT κ'] {f : κ → κ'} (hf : ∀ a b, a < b → f a < f b)
    {l : List (κ × ν)} (h : Ascending l) : Ascending (l.map fun e ↦ (f e.1, e.2)) :=
  List.Pairwise.map _ (fun a b hab ↦ hf a.1 b.1 hab) h

/-- An ascending list is the only one holding its entries. -/
theorem eq_of_mem_iff [Std.Asymm (α := κ) (· < ·)] {l₁ l₂ : List (κ × ν)} (h₁ : Ascending l₁)
    (h₂ : Ascending l₂) (h : ∀ x, x ∈ l₁ ↔ x ∈ l₂) : l₁ = l₂ := by
  have : Std.Antisymm fun a b : κ × ν ↦ a.1 < b.1 :=
    ⟨fun a b hab hba ↦ absurd hba (Std.Asymm.asymm _ _ hab)⟩
  have : Std.Irrefl fun a b : κ × ν ↦ a.1 < b.1 := ⟨fun a h ↦ ne_of_lt h rfl⟩
  exact List.Pairwise.eq_of_mem_iff h₁ h₂ h

/-! ### Lexicographic keys -/

section Lex

variable {α β : Type} [LT α] [LT β]

theorem append_lt_append_left : ∀ (k : List α) {a b : List α}, a < b → k ++ a < k ++ b
  | [], _, _, h => h
  | _ :: k, _, _, h => List.Lex.cons (append_lt_append_left k h)

/-- A map of the letters that keeps their order keeps the order of words. -/
theorem map_lt_map {f : α → β} (hf : ∀ a b, a < b → f a < f b) {a b : List α} (h : a < b) :
    a.map f < b.map f := by
  induction h with
  | nil => exact List.Lex.nil
  | cons _ ih => exact List.Lex.cons ih
  | rel hab => exact List.Lex.rel (hf _ _ hab)

end Lex

variable [DecidableLT κ]

/-- `BTreeMap::insert`: the entry goes before the first greater key; an equal key keeps its place
and takes the value. -/
def insert : List (κ × ν) → κ × ν → List (κ × ν)
  | [], entry => [entry]
  | (k, v) :: rest, (k', v') =>
    if k' < k then (k', v') :: (k, v) :: rest
    else if k < k' then (k, v) :: insert rest (k', v')
    else (k, v') :: rest

/-- Collecting entries into a map: each inserted in turn, a later one winning. -/
def ofList (l : List (κ × ν)) : List (κ × ν) := l.foldl insert []

section Order

variable [Std.Asymm (α := κ) (· < ·)] [Std.Trichotomous (α := κ) (· < ·)]
  [Trans (α := κ) (β := κ) (γ := κ) (· < ·) (· < ·) (· < ·)]

/-- What `insert` holds: the new entry, and the old ones at other keys. -/
theorem mem_insert : ∀ {l : List (κ × ν)}, Ascending l → ∀ (e x : κ × ν),
    x ∈ insert l e ↔ x = e ∨ (x ∈ l ∧ x.1 ≠ e.1)
  | [], _, e, x => by simp [insert]
  | (k, v) :: rest, hl, (k', v'), x => by
    have hrest := (ascending_cons.mp hl).2
    unfold insert
    split_ifs with hlt hgt
    · -- before the head: every old key lies above the new one
      have habove := lt_of_ascending hl hlt
      rw [List.mem_cons]
      constructor
      · rintro (rfl | hx)
        · exact Or.inl rfl
        · exact Or.inr ⟨hx, (ne_of_lt (habove x hx)).symm⟩
      · rintro (rfl | ⟨hx, -⟩)
        · exact Or.inl rfl
        · exact Or.inr hx
    · -- past the head: the insertion goes on in the rest
      rw [List.mem_cons, mem_insert hrest, List.mem_cons]
      constructor
      · rintro (rfl | rfl | ⟨hx, hne⟩)
        · exact Or.inr ⟨Or.inl rfl, ne_of_lt hgt⟩
        · exact Or.inl rfl
        · exact Or.inr ⟨Or.inr hx, hne⟩
      · rintro (rfl | ⟨rfl | hx, hne⟩)
        · exact Or.inr (Or.inl rfl)
        · exact Or.inl rfl
        · exact Or.inr (Or.inr ⟨hx, hne⟩)
    · -- the head's key: its value is replaced
      obtain rfl := eq_of_not_lt hgt hlt
      have habove := (ascending_cons.mp hl).1
      rw [List.mem_cons, List.mem_cons]
      constructor
      · rintro (rfl | hx)
        · exact Or.inl rfl
        · exact Or.inr ⟨Or.inr hx, (ne_of_lt (habove x hx)).symm⟩
      · rintro (rfl | ⟨rfl | hx, hne⟩)
        · exact Or.inl rfl
        · exact absurd rfl hne
        · exact Or.inr hx

theorem ascending_insert : ∀ {l : List (κ × ν)}, Ascending l → ∀ e : κ × ν, Ascending (insert l e)
  | [], _, e => List.pairwise_singleton _ e
  | (k, v) :: rest, hl, (k', v') => by
    have hrest := (ascending_cons.mp hl).2
    unfold insert
    split_ifs with hlt hgt
    · exact ascending_cons.mpr ⟨lt_of_ascending hl hlt, hl⟩
    · refine ascending_cons.mpr ⟨fun x hx ↦ ?_, ascending_insert hrest (k', v')⟩
      rcases (mem_insert hrest (k', v') x).mp hx with rfl | ⟨hx, -⟩
      · exact hgt
      · exact (ascending_cons.mp hl).1 x hx
    · exact ascending_cons.mpr ⟨(ascending_cons.mp hl).1, hrest⟩

theorem ascending_foldl_insert : ∀ (l : List (κ × ν)) {acc : List (κ × ν)}, Ascending acc →
    Ascending (l.foldl insert acc)
  | [], _, hacc => hacc
  | e :: l, _, hacc => ascending_foldl_insert l (ascending_insert hacc e)

theorem ascending_ofList (l : List (κ × ν)) : Ascending (ofList l) :=
  ascending_foldl_insert l List.Pairwise.nil

/-- Inserting entries whose keys are distinct and new adds exactly those entries. -/
theorem mem_foldl_insert : ∀ (l : List (κ × ν)) {acc : List (κ × ν)}, Ascending acc →
    (l.map Prod.fst).Nodup → (∀ x ∈ l, ∀ y ∈ acc, x.1 ≠ y.1) →
    ∀ x, x ∈ l.foldl insert acc ↔ x ∈ acc ∨ x ∈ l
  | [], acc, _, _, _ => fun x ↦ by simp
  | e :: l, acc, hacc, hnodup, hnew => by
    rw [List.map_cons, List.nodup_cons] at hnodup
    have hmem := mem_insert hacc e
    -- the keys still to come are new to the list with `e` in it
    have hnew' : ∀ x ∈ l, ∀ y ∈ insert acc e, x.1 ≠ y.1 := by
      intro x hx y hy
      rcases (hmem y).mp hy with rfl | ⟨hy, -⟩
      · exact fun h ↦ hnodup.1 (h ▸ List.mem_map_of_mem hx)
      · exact hnew x (List.mem_cons_of_mem _ hx) y hy
    intro x
    rw [List.foldl_cons, mem_foldl_insert l (ascending_insert hacc e) hnodup.2 hnew', hmem,
      List.mem_cons]
    constructor
    · rintro ((rfl | ⟨hx, -⟩) | hx)
      · exact Or.inr (Or.inl rfl)
      · exact Or.inl hx
      · exact Or.inr (Or.inr hx)
    · rintro (hx | rfl | hx)
      · exact Or.inl (Or.inr ⟨hx, fun h ↦ hnew e List.mem_cons_self x hx h.symm⟩)
      · exact Or.inl (Or.inl rfl)
      · exact Or.inr hx

/-- From entries with distinct keys, `ofList` holds exactly those entries. -/
theorem mem_ofList {l : List (κ × ν)} (h : (l.map Prod.fst).Nodup) (x : κ × ν) :
    x ∈ ofList l ↔ x ∈ l := by
  rw [ofList, mem_foldl_insert l List.Pairwise.nil h (by simp) x]
  simp

end Order

end AscList

end AionR
