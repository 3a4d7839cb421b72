import Mathlib.Data.List.Basic

/-!
# Replicas that apply a log in order

A log that grows at its end, and a replica that folds it: the replica holds the
state after a number of entries and the entries it was sent and has not applied
yet. It follows the log as long as what it is sent continues where it stands.
-/

/-- A replica of a log of `α` with states in `σ`. -/
structure Replica (σ α : Type) where
  state : σ
  applied : ℕ
  inFlight : List α

namespace Replica

variable {σ α : Type} {step : σ → α → σ} {init : σ} {log : List α} {r : Replica σ α}

/-- The replica's state is that of the entries it has applied, and the entries
in flight are those behind them. -/
def Follows (step : σ → α → σ) (init : σ) (log : List α) (r : Replica σ α) : Prop :=
  r.applied ≤ log.length ∧ r.state = (log.take r.applied).foldl step init ∧
    r.inFlight <+: log.drop r.applied

theorem follows_init : Follows step init log ⟨init, 0, []⟩ :=
  ⟨Nat.zero_le _, by rw [List.take_zero]; rfl, List.nil_prefix⟩

theorem Follows.append (h : r.Follows step init log) (l : List α) :
    r.Follows step init (log ++ l) := by
  obtain ⟨hle, hstate, hflight⟩ := h
  refine ⟨?_, ?_, ?_⟩
  · rw [List.length_append]
    exact Nat.le_trans hle (Nat.le_add_right _ _)
  · rw [List.take_append_of_le_length hle]
    exact hstate
  · rw [List.drop_append_of_le_length hle]
    exact hflight.trans (List.prefix_append _ _)

theorem Follows.send (h : r.Follows step init log) :
    Follows step init log { r with inFlight := log.drop r.applied } :=
  ⟨h.1, h.2.1, List.prefix_rfl⟩

theorem Follows.apply {a : α} {rest : List α} (h : r.Follows step init log)
    (hr : r.inFlight = a :: rest) :
    Follows step init log ⟨step r.state a, r.applied + 1, rest⟩ ∧ log[r.applied]? = some a := by
  obtain ⟨-, hstate, l, hl⟩ := h
  rw [hr, List.cons_append] at hl
  have hget : log[r.applied]? = some a := by
    rw [← List.head?_drop, ← hl]
    rfl
  obtain ⟨hlt, -⟩ := List.getElem?_eq_some_iff.mp hget
  refine ⟨⟨hlt, ?_, l, ?_⟩, hget⟩
  · rw [List.take_add_one, hget, List.foldl_append, ← hstate]
    rfl
  · rw [← List.tail_drop, ← hl]
    rfl

end Replica
