import Mathlib.Init
import Mathlib.Order.Defs.Unbundled

/-!
# Running a computation with state, errors and aborts

`ExceptT ε (StateT σ Option)` is the shape of an imperative procedure that changes a state, may
return an error (and keep the changes made before it), and may abort altogether (`none`). These
are the equations by which `simp` runs such a procedure one statement at a time from a given
state: each one says what `.run.run s` of a primitive is, and how it passes through `bind`.

## Frame rules

`Moves R x` says that every run of `x` that returns, with a value or with an error, ends in a
state `R`-related to the state it started from. For a preorder `R` the property composes through
`bind`, so that a procedure built from steps that each move along `R` moves along `R`; with `R`
"these fields are unchanged" this is the frame rule of the procedure. `StateMoves` is the same
for a procedure without errors.
-/

namespace AionR

namespace ExceptState

variable {ε σ α β : Type}

@[simp] theorem run_pure (a : α) (s : σ) :
    (pure a : ExceptT ε (StateT σ Option) α).run.run s = some (.ok a, s) := rfl

@[simp] theorem run_throw (e : ε) (s : σ) :
    (throw e : ExceptT ε (StateT σ Option) α).run.run s = some (.error e, s) := rfl

@[simp] theorem run_get (s : σ) : (get : ExceptT ε (StateT σ Option) σ).run.run s = some (.ok s, s) :=
  rfl

@[simp] theorem run_set (s s' : σ) :
    (set s' : ExceptT ε (StateT σ Option) PUnit).run.run s = some (.ok ⟨⟩, s') := rfl

@[simp] theorem run_modify (f : σ → σ) (s : σ) :
    (modify f : ExceptT ε (StateT σ Option) PUnit).run.run s = some (.ok ⟨⟩, f s) := rfl

@[simp] theorem run_lift_none (s : σ) :
    (ExceptT.lift (StateT.lift none) : ExceptT ε (StateT σ Option) α).run.run s = none := rfl

/-- A statement runs from the state its predecessor leaves; an error or an abort ends the run. -/
@[simp] theorem run_bind (x : ExceptT ε (StateT σ Option) α) (f : α → ExceptT ε (StateT σ Option) β)
    (s : σ) :
    (x >>= f).run.run s = (x.run.run s).bind fun p ↦
      match p.1 with
      | .ok a => (f a).run.run p.2
      | .error e => some (.error e, p.2) := by
  simp only [ExceptT.run_bind, StateT.run_bind]
  show Option.bind _ _ = _
  congr 1
  funext p
  obtain ⟨r, s'⟩ := p
  cases r <;> rfl

@[simp] theorem run_map (f : α → β) (x : ExceptT ε (StateT σ Option) α) (s : σ) :
    (f <$> x).run.run s = (x.run.run s).map fun p ↦ (p.1.map f, p.2) := by
  simp only [ExceptT.run_map, StateT.run_map]
  show Option.map _ _ = _
  congr 1

/-- A handler sees the error and the state at the error. -/
@[simp] theorem run_tryCatch (x : ExceptT ε (StateT σ Option) α) (h : ε → ExceptT ε (StateT σ Option) α)
    (s : σ) :
    (tryCatch x h).run.run s = (x.run.run s).bind fun p ↦
      match p.1 with
      | .ok a => some (.ok a, p.2)
      | .error e => (h e).run.run p.2 := by
  show (ExceptT.tryCatch x h).run.run s = _
  simp only [ExceptT.tryCatch, ExceptT.run_mk, StateT.run_bind]
  show Option.bind _ _ = _
  congr 1
  funext p
  obtain ⟨r, s'⟩ := p
  cases r <;> rfl

/-- A run of a bind that returned went through a run of its first statement. -/
theorem run_bind_eq_some {x : ExceptT ε (StateT σ Option) α}
    {f : α → ExceptT ε (StateT σ Option) β} {s : σ} {q : Except ε β × σ} (h : (x >>= f).run.run s = some q) :
    ∃ p, x.run.run s = some p ∧ (match p.1 with
      | .ok a => (f a).run.run p.2
      | .error e => some (.error e, p.2)) = some q := by
  rw [run_bind] at h
  exact Option.bind_eq_some_iff.mp h

end ExceptState

section Moves

open ExceptState

variable {ε σ α β : Type} (R : σ → σ → Prop)

/-- Every run of `x` that returns ends in a state `R`-related to its first one. -/
def Moves (x : ExceptT ε (StateT σ Option) α) : Prop :=
  ∀ s p, x.run.run s = some p → R s p.2

/-- Every run of `x` that returns ends in a state `R`-related to its first one. -/
def StateMoves (x : StateT σ Option α) : Prop :=
  ∀ s p, x.run s = some p → R s p.2

variable {R}

theorem moves_modify {f : σ → σ} (hf : ∀ s, R s (f s)) :
    Moves R (modify f : ExceptT ε (StateT σ Option) PUnit) := by
  intro s p h
  rw [run_modify] at h
  cases h
  exact hf s

theorem moves_lift_none :
    Moves R (ExceptT.lift (StateT.lift none) : ExceptT ε (StateT σ Option) α) := by
  intro s p h
  rw [run_lift_none] at h
  cases h

theorem moves_ite {c : Prop} [Decidable c] {x y : ExceptT ε (StateT σ Option) α} (hx : Moves R x)
    (hy : Moves R y) : Moves R (if c then x else y) := by
  split
  · exact hx
  · exact hy

theorem stateMoves_lift_none : StateMoves R (StateT.lift none : StateT σ Option α) := by
  intro s p h
  cases h

theorem stateMoves_ite {c : Prop} [Decidable c] {x y : StateT σ Option α} (hx : StateMoves R x)
    (hy : StateMoves R y) : StateMoves R (if c then x else y) := by
  split
  · exact hx
  · exact hy

/-- Running the errors of a procedure as values moves the state as the procedure does. -/
theorem Moves.run {x : ExceptT ε (StateT σ Option) α} (hx : Moves R x) : StateMoves R x.run :=
  hx

variable [IsPreorder σ R]

theorem moves_pure (a : α) : Moves R (pure a : ExceptT ε (StateT σ Option) α) := by
  intro s p h
  rw [run_pure] at h
  cases h
  exact Std.Refl.refl s

theorem moves_throw (e : ε) : Moves R (throw e : ExceptT ε (StateT σ Option) α) := by
  intro s p h
  rw [run_throw] at h
  cases h
  exact Std.Refl.refl s

theorem moves_get : Moves R (get : ExceptT ε (StateT σ Option) σ) := by
  intro s p h
  rw [run_get] at h
  cases h
  exact Std.Refl.refl s

/-- The frame rule of sequencing: each statement moves along `R`, so the whole does. -/
theorem moves_bind {x : ExceptT ε (StateT σ Option) α} {f : α → ExceptT ε (StateT σ Option) β}
    (hx : Moves R x) (hf : ∀ a, Moves R (f a)) : Moves R (x >>= f) := by
  intro s q h
  obtain ⟨⟨r, s₁⟩, hrun, hrest⟩ := run_bind_eq_some h
  have h₁ : R s s₁ := hx s _ hrun
  cases r with
  | ok a => exact IsTrans.trans _ _ _ h₁ (hf a s₁ q hrest)
  | error e =>
    cases hrest
    exact h₁

/-- A loop whose body moves along `R` moves along `R`. -/
theorem moves_forM {l : List α} {f : α → ExceptT ε (StateT σ Option) PUnit}
    (hf : ∀ a, Moves R (f a)) : Moves R (l.forM f) := by
  induction l with
  | nil => exact moves_pure _
  | cons a l ih => exact moves_bind (hf a) fun _ ↦ ih

theorem stateMoves_pure (a : α) : StateMoves R (pure a : StateT σ Option α) := by
  intro s p h
  cases h
  exact Std.Refl.refl s

theorem stateMoves_get : StateMoves R (get : StateT σ Option σ) := by
  intro s p h
  cases h
  exact Std.Refl.refl s

theorem stateMoves_bind {x : StateT σ Option α} {f : α → StateT σ Option β} (hx : StateMoves R x)
    (hf : ∀ a, StateMoves R (f a)) : StateMoves R (x >>= f) := by
  intro s q h
  rw [StateT.run_bind] at h
  obtain ⟨⟨a, s₁⟩, hrun, hrest⟩ := Option.bind_eq_some_iff.mp h
  exact IsTrans.trans _ _ _ (hx s _ hrun) (hf a s₁ q hrest)

end Moves

end AionR
