import Mathlib.Data.Nat.Notation
import Mathlib.Logic.Function.Basic
import Mathlib.Tactic.SplitIfs

/-!
# Maps written entry by entry

A cache that takes a list of entries writes them one after the other, each overwriting its key:
the map after the writes is `l.foldl (fun m e ↦ Function.update m e.1 (some e.2)) m`. Entries
numbered from a start, as `enumerate` numbers them, write a run of consecutive keys, and what the
map then holds at a key is the entry numbered by it, or the old value outside the run.
-/

namespace AionR

variable {β : Type}

/-- Writing the elements of `l` under the keys `start`, `start + 1`, … leaves the run of keys
holding them and every other key as it was. -/
theorem foldl_update_mapIdx_apply (l : List β) :
    ∀ (start : ℕ) (m : ℕ → Option β) (n : ℕ),
      (l.mapIdx fun i b ↦ (start + i, b)).foldl
          (fun (m : ℕ → Option β) e ↦ Function.update m e.1 (some e.2)) m n =
        if start ≤ n then l[n - start]?.or (m n) else m n := by
  induction l with
  | nil =>
    intro start m n
    split_ifs <;> simp
  | cons b l ih =>
    intro start m n
    -- the first element is written under `start`, the rest from one key further
    have hshift : (l.mapIdx fun i b ↦ (start + (i + 1), b)) =
        l.mapIdx fun i b ↦ (start + 1 + i, b) := by
      congr 1
      funext i b
      rw [Nat.add_comm i 1, Nat.add_assoc]
    rw [List.mapIdx_cons, List.foldl_cons, Nat.add_zero, hshift, ih]
    rcases Nat.lt_trichotomy n start with hlt | rfl | hgt
    · rw [if_neg (by omega), if_neg (by omega), Function.update_of_ne (by omega)]
    · rw [if_neg (by omega), if_pos (Nat.le_refl _), Function.update_self, Nat.sub_self]
      rfl
    · have hindex : n - start = n - (start + 1) + 1 := by omega
      rw [if_pos (by omega), if_pos (by omega), Function.update_of_ne (by omega), hindex,
        List.getElem?_cons_succ]

end AionR
