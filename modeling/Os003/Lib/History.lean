set_option autoImplicit false

/-! # Runs with a ledger

A system whose steps have results, and beside it a ledger of what the steps have done, which the
system itself does not see.
-/

namespace History

variable {σ ε ρ γ : Type}

/-- The ledgers and states that steps lead to, each of which meets `P` in the state it is made in. -/
inductive Reaches (step : ε → σ → Option (ρ × σ)) (after : γ → σ → ρ → ε → γ) (P : γ → σ → ε → Prop)
    (g₀ : γ) (s₀ : σ) : γ → σ → Prop
  | start : Reaches step after P g₀ s₀ g₀ s₀
  | step {g : γ} {s s' : σ} {e : ε} {r : ρ} (h : Reaches step after P g₀ s₀ g s) (hP : P g s e)
      (hs : step e s = some (r, s')) : Reaches step after P g₀ s₀ (after g s r e) s'

variable {step : ε → σ → Option (ρ × σ)} {after : γ → σ → ρ → ε → γ} {P Q : γ → σ → ε → Prop}
  {g₀ g : γ} {s₀ s : σ}

/-- What holds at the start and is kept by each step holds of every state that is reached. -/
theorem Reaches.invariant {I : γ → σ → Prop} (h : Reaches step after P g₀ s₀ g s) (hstart : I g₀ s₀)
    (hstep : ∀ g s e r s', I g s → P g s e → step e s = some (r, s') → I (after g s r e) s') :
    I g s := by
  induction h with
  | start => exact hstart
  | step _ hP hs ih => exact hstep _ _ _ _ _ ih hP hs

theorem Reaches.mono (h : Reaches step after P g₀ s₀ g s) (hPQ : ∀ g s e, P g s e → Q g s e) :
    Reaches step after Q g₀ s₀ g s := by
  induction h with
  | start => exact .start
  | step _ hP hs ih => exact .step ih (hPQ _ _ _ hP) hs

end History
