import Mathlib.Init

/-!
# Reducing `Except` computations

The equations by which a computation in `Except` that has already succeeded or failed at its
first step steps on. Decoders are written in the `Except` monad, and their round trips are
proved by rewriting with these.
-/

namespace AionR

variable {ε α β : Type}

@[simp] theorem except_ok_bind (a : α) (f : α → Except ε β) : (Except.ok a >>= f) = f a := rfl

@[simp] theorem except_error_bind (e : ε) (f : α → Except ε β) :
    (Except.error e >>= f) = Except.error e := rfl

@[simp] theorem except_pure_eq (a : α) : (pure a : Except ε α) = .ok a := rfl

@[simp] theorem except_throw_eq (e : ε) : (throw e : Except ε α) = .error e := rfl

@[simp] theorem except_map_ok (f : α → β) (a : α) : (f <$> (Except.ok a : Except ε α)) = .ok (f a) :=
  rfl

/-- A bind succeeds exactly when its first step does and the rest succeeds from there. -/
theorem except_bind_eq_ok {x : Except ε α} {f : α → Except ε β} {b : β} :
    (x >>= f) = .ok b ↔ ∃ a, x = .ok a ∧ f a = .ok b := by
  cases x with
  | error e => simp [except_error_bind]
  | ok a => simp [except_ok_bind]

/-- A guard that returns nothing did not fire in a run that returned something. -/
theorem ite_none_eq_ok_some {c : Prop} [Decidable c] {x : Except ε (Option α)} {a : α}
    (h : (if c then pure none else x) = .ok (some a)) : ¬c ∧ x = .ok (some a) := by
  by_cases hc : c
  · rw [if_pos hc] at h
    cases h
  · exact ⟨hc, by rwa [if_neg hc] at h⟩

/-- A guard that returns nothing cannot make a computation fail. -/
theorem ite_none_ok {c : Prop} [Decidable c] {x : Except ε (Option α)}
    (h : ¬c → ∃ r, x = .ok r) : ∃ r, (if c then pure none else x) = .ok r := by
  by_cases hc : c
  · exact ⟨none, by rw [if_pos hc]; rfl⟩
  · rw [if_neg hc]
    exact h hc

/-- A computation that continues from an optional result succeeds when its first step does and
the rest succeeds from whatever that step returned. -/
theorem bind_option_ok {x : Except ε (Option α)} {g : Option α → Except ε β}
    (hx : ∃ r, x = .ok r) (hnone : x = .ok none → ∃ r, g none = .ok r)
    (hsome : ∀ a, x = .ok (some a) → ∃ r, g (some a) = .ok r) : ∃ r, (x >>= g) = .ok r := by
  obtain ⟨r, hr⟩ := hx
  rw [hr, except_ok_bind]
  cases r with
  | none => exact hnone hr
  | some a => exact hsome a hr

/-- A computation that returns nothing when its first step does, and returned something, got
something from its first step. -/
theorem bind_option_eq_ok_some {x : Except ε (Option α)} {g : Option α → Except ε (Option β)}
    {b : β} (h : (x >>= g) = .ok (some b)) (hnone : g none = .ok none) :
    ∃ a, x = .ok (some a) ∧ g (some a) = .ok (some b) := by
  obtain ⟨r, hr, h⟩ := except_bind_eq_ok.mp h
  cases r with
  | none => rw [hnone] at h; cases h
  | some a => exact ⟨a, hr, h⟩

/-- A loop that succeeded ran every step successfully, each giving the element at its index. -/
theorem mapM_eq_ok {f : α → Except ε β} :
    ∀ {l : List α} {out : List β}, l.mapM f = .ok out →
      out.length = l.length ∧ ∀ i (h : i < l.length) (h' : i < out.length), f l[i] = .ok out[i]
  | [], out, h => by
    rw [List.mapM_nil] at h
    cases h
    exact ⟨rfl, fun i h ↦ absurd h (Nat.not_lt_zero i)⟩
  | a :: l, out, h => by
    rw [List.mapM_cons, except_bind_eq_ok] at h
    obtain ⟨b, hb, hrest⟩ := h
    rw [except_bind_eq_ok] at hrest
    obtain ⟨bs, hbs, hout⟩ := hrest
    cases hout
    obtain ⟨hlen, hget⟩ := mapM_eq_ok hbs
    refine ⟨by rw [List.length_cons, List.length_cons, hlen], fun i h h' ↦ ?_⟩
    cases i with
    | zero => exact hb
    | succ i => exact hget i (Nat.lt_of_succ_lt_succ h) (Nat.lt_of_succ_lt_succ h')

/-- A loop whose every step succeeds succeeds. -/
theorem mapM_ok_of_forall {f : α → Except ε β} :
    ∀ {l : List α}, (∀ a ∈ l, ∃ b, f a = .ok b) → ∃ out, l.mapM f = .ok out
  | [], _ => ⟨[], rfl⟩
  | a :: l, h => by
    obtain ⟨b, hb⟩ := h a List.mem_cons_self
    obtain ⟨bs, hbs⟩ := mapM_ok_of_forall fun a' ha' ↦ h a' (List.mem_cons_of_mem a ha')
    exact ⟨b :: bs, by rw [List.mapM_cons, hb, except_ok_bind, hbs]; rfl⟩

/-- A loop over consecutive indices succeeds with `l` when the step at the `j`-th index returns
the `j`-th element of `l`. -/
theorem mapM_range'_of_getElem (g : Nat → Except ε β) :
    ∀ (l : List β) (s : Nat), (∀ j (hj : j < l.length), g (s + j) = .ok l[j]) →
      (List.range' s l.length).mapM g = .ok l := by
  intro l
  induction l with
  | nil => intro s _; rfl
  | cons x xs ih =>
    intro s hg
    rw [List.length_cons, List.range'_succ, List.mapM_cons]
    have h0 := hg 0 (by simp)
    rw [Nat.add_zero] at h0
    -- the tail starts one index later
    have hrest : (List.range' (s + 1) xs.length).mapM g = .ok xs := ih (s + 1) fun j hj ↦ by
      have := hg (j + 1) (by simp; omega)
      rw [show s + (j + 1) = s + 1 + j by omega] at this
      simpa using this
    simp [h0, hrest]

end AionR
