import Mathlib.Data.Option.Basic
import Mathlib.Order.Basic

/-!
# Runs of consecutive numbers up to a top

`Contiguous S L` says that `S` is a run of consecutive numbers that ends at the top `L`: every
member is followed in `S` by every number up to `L`, which is defined as soon as `S` has a member.
A run stays one when a number next to it is added, the top moving up to that number when it lies
above (`Contiguous.insert`), and when its least member is taken away (`Contiguous.erase_min`).
-/

namespace AionR

/-- Every member of `S` is followed in `S` by every number up to the top `L`. -/
def Contiguous (S : ℕ → Prop) (L : Option ℕ) : Prop :=
  ∀ e, S e → ∃ l, L = some l ∧ e ≤ l ∧ ∀ e', e ≤ e' → e' ≤ l → S e'

variable {S : ℕ → Prop} {L : Option ℕ}

theorem Contiguous.le_top (h : Contiguous S L) {e l : ℕ} (he : S e) (hl : L = some l) : e ≤ l := by
  obtain ⟨l', hl', hle, -⟩ := h e he
  rw [hl, Option.some.injEq] at hl'
  exact hl' ▸ hle

theorem Contiguous.mem_of_le (h : Contiguous S L) {e e' l : ℕ} (he : S e) (hl : L = some l)
    (h₁ : e ≤ e') (h₂ : e' ≤ l) : S e' := by
  obtain ⟨l', hl', -, hrun⟩ := h e he
  rw [hl, Option.some.injEq] at hl'
  exact hrun e' h₁ (hl' ▸ h₂)

/-- A run without a top is empty. -/
theorem Contiguous.not_mem_of_none (h : Contiguous S none) (e : ℕ) : ¬S e := by
  intro he
  obtain ⟨l, hl, -⟩ := h e he
  cases hl

/-- Adding `now` next to a run, or at or above the top of an empty one, keeps a run; the top moves
up to `now` when `now` lies above it. -/
theorem Contiguous.insert (h : Contiguous S L) {now : ℕ}
    (hnext : (∃ e, S e) → S now ∨ S (now + 1) ∨ S (now - 1))
    (hempty : (∀ e, ¬S e) → L.all (· ≤ now) = true) :
    Contiguous (fun e ↦ e = now ∨ S e) (if L.all (now > ·) then some now else L) := by
  cases L with
  | none =>
    -- nothing is journalled: the run is `now` alone
    rintro e (rfl | he)
    · refine ⟨e, rfl, Nat.le_refl e, fun e' h₁ h₂ ↦ Or.inl (by omega)⟩
    · exact absurd he (h.not_mem_of_none e)
  | some l =>
    -- every member lies at or below `l`; `now` lies at most one above
    have hadj : (∃ e, S e) → now ≤ l + 1 := by
      intro hS
      rcases hnext hS with hn | hn | hn
      · have := h.le_top hn rfl; omega
      · have := h.le_top hn rfl; omega
      · have := h.le_top hn rfl; omega
    by_cases habove : now > l
    · have hif : (some l).all (now > ·) = true := by simp [habove]
      rw [if_pos hif]
      rintro e (rfl | he)
      · exact ⟨e, rfl, Nat.le_refl e, fun e' h₁ h₂ ↦ Or.inl (by omega)⟩
      · have hnow : now = l + 1 := by have := hadj ⟨e, he⟩; omega
        refine ⟨now, rfl, by have := h.le_top he rfl; omega, fun e' h₁ h₂ ↦ ?_⟩
        by_cases he' : e' = now
        · exact Or.inl he'
        · exact Or.inr (h.mem_of_le he rfl h₁ (by omega))
    · have hif : ¬(some l).all (now > ·) = true := by simp [habove]
      rw [if_neg hif]
      rintro e (rfl | he)
      · refine ⟨l, rfl, by omega, fun e' h₁ h₂ ↦ ?_⟩
        by_cases hS : ∃ e, S e
        · -- a journalled neighbour of `now` carries the run from `now` up to `l`
          by_cases he' : e' = e
          · exact Or.inl he'
          rcases hnext hS with hn | hn | hn
          · exact Or.inr (h.mem_of_le hn rfl h₁ h₂)
          · exact Or.inr (h.mem_of_le hn rfl (by omega) h₂)
          · exact Or.inr (h.mem_of_le hn rfl (by omega) h₂)
        · have hl := hempty (fun e he ↦ hS ⟨e, he⟩)
          simp only [Option.all_some, decide_eq_true_eq] at hl
          exact Or.inl (by omega)
      · exact ⟨l, rfl, h.le_top he rfl, fun e' h₁ h₂ ↦ Or.inr (h.mem_of_le he rfl h₁ h₂)⟩

/-- Taking the least member off a run keeps a run with the same top. -/
theorem Contiguous.erase_min (h : Contiguous S L) {m : ℕ} (hmin : ∀ e, S e → m ≤ e) :
    Contiguous (fun e ↦ e ≠ m ∧ S e) L := by
  rintro e ⟨hne, he⟩
  obtain ⟨l, hl, hle, hrun⟩ := h e he
  have hgt : m < e := Nat.lt_of_le_of_ne (hmin e he) (Ne.symm hne)
  exact ⟨l, hl, hle, fun e' h₁ h₂ ↦ ⟨by omega, hrun e' h₁ h₂⟩⟩

end AionR
