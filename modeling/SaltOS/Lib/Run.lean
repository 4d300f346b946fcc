import Mathlib.Data.List.Basic

/-!
# Runs of a labelled step relation

A run is a list of labels together with the states it leads through.  Runs
grow at the end, so an invariant may mention the labels already taken.
`Guarded` restricts a step relation to the steps that meet a condition on the
state before the step and its label.
-/

namespace SaltOS.Lib

variable {σ : Type u} {α : Type v}

/-- `Run step s labels t`: the labels lead from `s` to `t`. -/
inductive Run (step : σ → α → σ → Prop) (start : σ) : List α → σ → Prop where
  | nil : Run step start [] start
  | snoc {labels : List α} {label : α} {middle final : σ} :
      Run step start labels middle →
      step middle label final →
      Run step start (labels ++ [label]) final

/-- The steps whose state before and label meet `condition`. -/
def Guarded (condition : σ → α → Prop) (step : σ → α → σ → Prop) :
    σ → α → σ → Prop :=
  fun before label after => condition before label ∧ step before label after

namespace Run

variable {step : σ → α → σ → Prop} {start middle final : σ} {labels : List α}

/-- What holds initially and is kept by every step holds after every run. -/
theorem invariant {property : σ → Prop} (initial : property start)
    (preserved : ∀ before label after,
      property before → step before label after → property after)
    (run : Run step start labels final) : property final := by
  induction run with
  | nil => exact initial
  | snoc _ last induction => exact preserved _ _ _ induction last

/-- Invariants that also mention the labels taken so far. -/
theorem invariantWith {property : List α → σ → Prop}
    (initial : property [] start)
    (preserved : ∀ earlier before label after,
      Run step start earlier before → property earlier before →
      step before label after → property (earlier ++ [label]) after)
    (run : Run step start labels final) : property labels final := by
  induction run with
  | nil => exact initial
  | snoc earlier last induction =>
      exact preserved _ _ _ _ earlier induction last

end Run

end SaltOS.Lib
