import Mathlib.Algebra.BigOperators.Fin
import Mathlib.Algebra.BigOperators.Group.List.Basic
import Mathlib.Algebra.BigOperators.Intervals

/-!
# Blocked sums

A sum of `n` terms taken in blocks of `w` lanes: one accumulator a lane, the
accumulators added up at the end, and the terms after the last whole block one
by one. Every term is used once (`sum_blocked`).
-/

namespace Lanes

variable {R : Type*} [AddCommMonoid R] {w : ℕ}

/-- The lane accumulators after the first `chunks` blocks. -/
def lanes (w : ℕ) (f : ℕ → R) (chunks : ℕ) : Fin w → R :=
  fun j => ∑ i ∈ Finset.range chunks, f (i * w + j)

theorem lanes_zero (f : ℕ → R) : lanes w f 0 = 0 := by
  ext j
  simp [lanes]

theorem lanes_succ (f : ℕ → R) (chunks : ℕ) :
    lanes w f (chunks + 1) = fun j => lanes w f chunks j + f (chunks * w + j) := by
  ext j
  rw [lanes, Finset.sum_range_succ]
  rfl

theorem sum_lanes (f : ℕ → R) (chunks : ℕ) :
    ∑ j, lanes w f chunks j = ∑ i ∈ Finset.range (chunks * w), f i := by
  induction chunks with
  | zero => simp [lanes]
  | succ n ih =>
      rw [lanes_succ, Finset.sum_add_distrib, ih, Nat.succ_mul, Finset.sum_range_add]
      congr 1
      exact Fin.sum_univ_eq_sum_range (fun j => f (n * w + j)) w

/-- **Blocks and tail are the whole sum.** -/
theorem sum_blocked (f : ℕ → R) {chunks n : ℕ} (h : chunks * w ≤ n) :
    ∑ j, lanes w f chunks j + ∑ i ∈ Finset.Ico (chunks * w) n, f i =
      ∑ i ∈ Finset.range n, f i := by
  rw [sum_lanes, Finset.sum_range_add_sum_Ico f h]

end Lanes
