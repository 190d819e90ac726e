import Mathlib

/-!
# Counting the members a filter keeps

Changing a predicate at one member of a list without duplicates moves the filter's length by
what that member contributes before and after.
-/

namespace AionR

variable {α : Type}

/-- Two predicates that agree off `i` keep as many members of a list without duplicates, once
`i`'s own contribution is traded. -/
theorem length_filter_add_of_agree {p q : α → Bool} {i : α} (h : ∀ j, j ≠ i → p j = q j) :
    ∀ {l : List α}, l.Nodup → i ∈ l →
      (l.filter q).length + (if p i then 1 else 0) = (l.filter p).length + (if q i then 1 else 0)
  | a :: l, hl, hi => by
    obtain ⟨ha, hl⟩ := List.nodup_cons.mp hl
    rcases List.mem_cons.mp hi with rfl | hi
    · -- the changed member heads the list; the rest filters alike
      have hrest : l.filter q = l.filter p := List.filter_congr fun j hj ↦
        (h j fun hji ↦ ha (hji ▸ hj)).symm
      cases hp : p i <;> cases hq : q i <;> simp [hp, hq, hrest]
    · have hai : a ≠ i := fun hai ↦ ha (hai ▸ hi)
      have ih := length_filter_add_of_agree h hl hi
      cases hp : p a <;> simp [hp, h a hai ▸ hp] <;> omega

end AionR
