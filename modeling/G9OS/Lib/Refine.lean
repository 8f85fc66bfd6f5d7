import G9OS.Lib.Runs

/-! # Refinement of a specification by a machine

A state of the machine is read as a state of the specification, and each of its steps is one step
of the specification or none.
-/

namespace G9OS.Lib

/-- One step of the specification, or none. -/
def Follows {τ κ : Type} (step : τ → κ → τ → Prop) (a : τ) : Option κ → τ → Prop
  | none, b => b = a
  | some k, b => step a k b

/-- `abs` reads the states of the machine, and `lab` its steps. -/
structure Refines {σ ℓ τ κ : Type} (next : σ → ℓ → Option σ) (ok : σ → ℓ → Prop)
    (start : σ → Prop) (step : τ → κ → τ → Prop) (first : τ → Prop) (abs : σ → τ)
    (lab : σ → ℓ → Option κ) : Prop where
  init : ∀ s, start s → first (abs s)
  follows : ∀ s l t, Reach next ok start s → ok s l → next s l = some t →
    Follows step (abs s) (lab s l) (abs t)

end G9OS.Lib
