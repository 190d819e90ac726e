import Mathlib

/-!
# Intervals in a k-ary hierarchy

A hierarchy of levels over the naturals puts the leaf `n` under node `n / k ^ l` of level `l`.
Node `i` of level `l` stands over the `k ^ l` leaves from `i * k ^ l`, and over the `k` nodes
`k * i`, …, `k * i + k - 1` of the level below. A search of an interval `[a, b]` visits on each
level only the nodes from `a / k ^ l` to `b / k ^ l`, its window.

The lemmas here say that such a search loses no leaf and repeats none: the leaves of a node that
lie in the interval are those of its children in the window, and the interval is the leaves of
the window of any level, in order.
-/

namespace AionR

namespace Kary

/-- The leaves under node `i` of level `l`. -/
def leaves (k l i : ℕ) : List ℕ := List.range' (i * k ^ l) (k ^ l)

variable {k : ℕ}

theorem mem_leaves (hk : 0 < k) {l i n : ℕ} : n ∈ leaves k l i ↔ n / k ^ l = i := by
  have hpos : 0 < k ^ l := Nat.pow_pos hk
  rw [leaves, List.mem_range'_1, Nat.div_eq_iff hpos]
  omega

@[simp] theorem leaves_zero (i : ℕ) : leaves k 0 i = [i] := by
  simp [leaves]

/-- Consecutive blocks of `K` numbers make up the numbers from `s * K`. -/
theorem range'_mul (K : ℕ) : ∀ s m : ℕ,
    List.range' (s * K) (m * K) = (List.range' s m).flatMap fun j ↦ List.range' (j * K) K := by
  intro s m
  induction m generalizing s with
  | zero => simp
  | succ m ih =>
    rw [List.range'_succ, List.flatMap_cons, ← ih (s + 1), Nat.succ_mul, Nat.add_comm (m * K),
      ← List.range'_append, Nat.one_mul, Nat.succ_mul]

/-- A node's leaves are those of its children, in order. -/
theorem leaves_succ (l i : ℕ) : leaves k (l + 1) i = (List.range' (k * i) k).flatMap (leaves k l) := by
  rw [leaves, Nat.pow_succ, Nat.mul_comm (k ^ l) k, ← Nat.mul_assoc, Nat.mul_comm i k, range'_mul]
  rfl

/-- A flat map loses nothing by skipping the members it maps to nothing. -/
theorem flatMap_filter_of_nil {α β : Type} (f : α → List β) (q : α → Bool) :
    ∀ l : List α, (∀ j ∈ l, q j = false → f j = []) → (l.filter q).flatMap f = l.flatMap f := by
  intro l
  induction l with
  | nil => intro _; rfl
  | cons j l ih =>
    intro h
    have ht := ih fun x hx ↦ h x (List.mem_cons_of_mem j hx)
    cases hq : q j with
    | true => rw [List.filter_cons_of_pos hq, List.flatMap_cons, List.flatMap_cons, ht]
    | false =>
      rw [List.filter_cons_of_neg (by simp [hq]), List.flatMap_cons, h j List.mem_cons_self hq, ht,
        List.nil_append]

/-- Flattening the lists a partial function returns: a missing list adds nothing. -/
theorem flatten_filterMap {α β : Type} (f : α → Option (List β)) :
    ∀ l : List α, (l.filterMap f).flatten = l.flatMap fun x ↦ (f x).getD [] := by
  intro l
  induction l with
  | nil => rfl
  | cons x l ih =>
    cases hx : f x with
    | none => rw [List.filterMap_cons_none hx, ih, List.flatMap_cons, hx, Option.getD_none,
        List.nil_append]
    | some v => rw [List.filterMap_cons_some hx, List.flatten_cons, ih, List.flatMap_cons, hx,
        Option.getD_some]

/-- Only the children of a node inside the window of an interval hold leaves of it: the leaves
in the interval are those of the children in the window, in order. -/
theorem filter_leaves_succ (hk : 0 < k) {a b : ℕ} {p : ℕ → Bool}
    (hp : ∀ n, p n = true → a ≤ n ∧ n ≤ b) (l i : ℕ) :
    (leaves k (l + 1) i).filter p =
      ((List.range' (k * i) k).filter fun j ↦ a / k ^ l ≤ j ∧ j ≤ b / k ^ l).flatMap
        fun j ↦ (leaves k l j).filter p := by
  rw [leaves_succ, List.filter_flatMap, flatMap_filter_of_nil]
  intro j _ hj
  rw [List.filter_eq_nil_iff]
  intro n hn hpn
  -- a leaf in the interval lies under a child in the window
  obtain ⟨ha, hb⟩ := hp n hpn
  have hnj : n / k ^ l = j := (mem_leaves hk).mp hn
  have hlow : a / k ^ l ≤ n / k ^ l := Nat.div_le_div_right ha
  have hhigh : n / k ^ l ≤ b / k ^ l := Nat.div_le_div_right hb
  simp only [decide_eq_false_iff_not, not_and_or, Nat.not_le] at hj
  omega

/-- The leaves of consecutive nodes, each filtered, come in increasing order. -/
theorem pairwise_flatMap_leaves (hk : 0 < k) (l : ℕ) (q : ℕ → Bool) (s m : ℕ) :
    ((List.range' s m).flatMap fun i ↦ (leaves k l i).filter q).Pairwise (· < ·) := by
  rw [List.pairwise_flatMap]
  constructor
  · intro i _
    exact (List.pairwise_lt_range' 1 Nat.one_pos).filter q
  · apply (List.pairwise_lt_range' 1 Nat.one_pos).imp
    intro i j hij x hx y hy
    have hxi : x / k ^ l = i := (mem_leaves hk).mp (List.mem_filter.mp hx).1
    have hyj : y / k ^ l = j := (mem_leaves hk).mp (List.mem_filter.mp hy).1
    exact Nat.lt_of_div_lt_div (hxi ▸ hyj ▸ hij)

/-- The interval `[a, b]` is the leaves in it of the nodes of any level's window, in order. -/
theorem range'_eq_flatMap_leaves (hk : 0 < k) (a b l : ℕ) :
    List.range' a (b + 1 - a) =
      (List.range' (a / k ^ l) (b / k ^ l + 1 - a / k ^ l)).flatMap
        fun i ↦ (leaves k l i).filter fun n ↦ a ≤ n ∧ n ≤ b := by
  apply List.Pairwise.eq_of_mem_iff (List.pairwise_lt_range' 1 Nat.one_pos)
    (pairwise_flatMap_leaves hk l _ _ _)
  intro n
  simp only [List.mem_range'_1, List.mem_flatMap, List.mem_filter, mem_leaves hk,
    decide_eq_true_eq]
  constructor
  · -- a number of the interval lies under the node of its window above it
    intro hn
    have hlow : a / k ^ l ≤ n / k ^ l := Nat.div_le_div_right (c := k ^ l) (by omega)
    have hhigh : n / k ^ l ≤ b / k ^ l := Nat.div_le_div_right (c := k ^ l) (by omega)
    exact ⟨n / k ^ l, by omega, rfl, by omega⟩
  · rintro ⟨i, -, -, hn⟩
    omega

end Kary

end AionR
