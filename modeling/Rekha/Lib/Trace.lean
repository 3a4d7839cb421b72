import Mathlib.Data.List.Basic

/-!
# Runs of a labelled step relation

A step leads from one state to another and is labelled with the list of events
it acknowledges; a run concatenates the labels into a history. An invariant may
speak about the history as well as the state.
-/

namespace Trace

variable {σ α : Type}

/-- The states reached from `s₀`, each with the history of the way there. -/
inductive Run (step : List α → σ → σ → Prop) (s₀ : σ) : List α → σ → Prop
  | refl : Run step s₀ [] s₀
  | tail {h l : List α} {s s' : σ} :
      Run step s₀ h s → step l s s' → Run step s₀ (h ++ l) s'

variable {step step' : List α → σ → σ → Prop} {s₀ s s' : σ} {h l : List α}

theorem Run.single (hs : step l s s') : Run step s l s' := by
  have := Run.tail Run.refl hs
  rwa [List.nil_append] at this

theorem Run.trans (h₁ : Run step s₀ h s) (h₂ : Run step s l s') :
    Run step s₀ (h ++ l) s' := by
  induction h₂ with
  | refl => rwa [List.append_nil]
  | tail _ hs ih =>
      rw [← List.append_assoc]
      exact Run.tail ih hs

/-- A property of history and state that every step keeps holds along every run
that starts with it. -/
theorem Run.invariant {I : List α → σ → Prop} (h₀ : I [] s₀)
    (hstep : ∀ h l s s', I h s → step l s s' → I (h ++ l) s') (hr : Run step s₀ h s) :
    I h s := by
  induction hr with
  | refl => exact h₀
  | tail _ hs ih => exact hstep _ _ _ _ ih hs

end Trace
