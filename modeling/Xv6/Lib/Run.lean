import Mathlib.Tactic.Common

namespace run

variable {σ : Type} {init : σ → Prop} {step step' : σ → σ → Prop}

/-- The states that runs of `step` from an initial state go through. -/
inductive Reachable (init : σ → Prop) (step : σ → σ → Prop) : σ → Prop
  | start {s : σ} : init s → Reachable init step s
  | next {s s' : σ} : Reachable init step s → step s s' → Reachable init step s'

/-- What holds initially and is kept by every step holds throughout every run. -/
theorem Reachable.inv {I : σ → Prop} {s : σ} (h : Reachable init step s) (hinit : ∀ s, init s → I s)
    (hstep : ∀ s s', I s → step s s' → I s') : I s := by
  induction h with
  | start h => exact hinit _ h
  | next _ hst ih => exact hstep _ _ ih hst

end run
