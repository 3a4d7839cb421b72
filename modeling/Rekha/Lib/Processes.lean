import Mathlib.Data.List.Count
import Mathlib.Logic.Function.Iterate
import Mathlib.Logic.Function.Basic

/-!
# Processes over a shared state

Each process has a local state and takes atomic steps that also read and change
the shared state; `next` gives the step of a process, or `none` when it has
finished. A schedule says whose turn it is; the turn of a finished process
passes. Invariants hold along every schedule, or along those whose turns meet a
condition; a rank that falls at every step bounds how many turns a process
needs.
-/

namespace Processes

variable {ι σ L : Type*} [DecidableEq ι]

/-- The shared state and the state of each process. -/
structure Config (ι σ L : Type*) where
  shared : σ
  locals : ι → L

namespace Config

variable (next : ι → L → σ → Option (L × σ))

def step (c : Config ι σ L) (i : ι) : Config ι σ L :=
  match next i (c.locals i) c.shared with
  | none => c
  | some (l, s) => ⟨s, Function.update c.locals i l⟩

def run (c : Config ι σ L) (sched : List ι) : Config ι σ L := sched.foldl (step next) c

variable {next} {c : Config ι σ L} {i j : ι} {sched : List ι}

theorem run_cons : c.run next (i :: sched) = (c.step next i).run next sched := rfl

theorem run_append {sched' : List ι} :
    c.run next (sched ++ sched') = (c.run next sched).run next sched' :=
  List.foldl_append

theorem run_snoc : c.run next (sched ++ [i]) = (c.run next sched).step next i := run_append

theorem step_none (h : next i (c.locals i) c.shared = none) : c.step next i = c := by
  rw [step, h]

theorem step_some {l : L} {s : σ} (h : next i (c.locals i) c.shared = some (l, s)) :
    c.step next i = ⟨s, Function.update c.locals i l⟩ := by
  rw [step, h]

theorem locals_step_self {l : L} {s : σ} (h : next i (c.locals i) c.shared = some (l, s)) :
    (c.step next i).locals i = l := by
  rw [step_some h]
  exact Function.update_self i l c.locals

theorem locals_step_of_ne (h : j ≠ i) : (c.step next i).locals j = c.locals j := by
  rw [step]
  split
  · rfl
  · exact Function.update_of_ne h _ _

/-! ## One process on its own -/

/-- The turn of one process, on its local state and the shared one. -/
def turn (f : L → σ → Option (L × σ)) (p : L × σ) : L × σ := (f p.1 p.2).getD p

theorem iterate_turn_some {f : L → σ → Option (L × σ)} {l : L} {s : σ} {p : L × σ} (n : ℕ)
    (h : f l s = some p) : (turn f)^[n + 1] (l, s) = (turn f)^[n] p := by
  rw [Function.iterate_succ_apply, turn, h]
  rfl

theorem iterate_turn_none {f : L → σ → Option (L × σ)} {l : L} {s : σ} (n : ℕ)
    (h : f l s = none) : (turn f)^[n] (l, s) = (l, s) := by
  apply Function.iterate_fixed
  rw [turn, h]
  rfl

theorem step_eq : c.step next i =
    ⟨(turn (next i) (c.locals i, c.shared)).2,
      Function.update c.locals i (turn (next i) (c.locals i, c.shared)).1⟩ := by
  rw [step, turn]
  dsimp only
  cases next i (c.locals i) c.shared with
  | none =>
      dsimp only [Option.getD_none]
      rw [Function.update_eq_self]
  | some p => rfl

theorem run_replicate : ∀ (n : ℕ) (c : Config ι σ L),
    c.run next (List.replicate n i) =
      ⟨((turn (next i))^[n] (c.locals i, c.shared)).2,
        Function.update c.locals i ((turn (next i))^[n] (c.locals i, c.shared)).1⟩
  | 0, c => by
      show c = ⟨c.shared, Function.update c.locals i (c.locals i)⟩
      rw [Function.update_eq_self]
  | n + 1, c => by
      rw [List.replicate_succ, run_cons, run_replicate, step_eq, Function.iterate_succ_apply]
      dsimp only
      rw [Function.update_self, Function.update_idem]

/-! ## Conditions on the turns -/

variable (next) in
/-- Every turn of the schedule meets the condition in the state before it. -/
def Along (P : ι → Config ι σ L → Prop) : List ι → Config ι σ L → Prop
  | [], _ => True
  | i :: sched, c => P i c ∧ Along P sched (c.step next i)

theorem Along.of_append {P : ι → Config ι σ L → Prop} :
    ∀ {pre suf : List ι} {c : Config ι σ L}, Along next P (pre ++ suf) c → Along next P pre c
  | [], _, _, _ => trivial
  | _ :: _, _, _, h => ⟨h.1, Along.of_append h.2⟩

theorem Along.invariant {P : ι → Config ι σ L → Prop} {I : Config ι σ L → Prop}
    (hstep : ∀ i c, I c → P i c → I (c.step next i)) :
    ∀ {sched : List ι} {c : Config ι σ L}, I c → Along next P sched c → I (c.run next sched)
  | [], _, h, _ => h
  | i :: sched, c, h, halong => by
      rw [run_cons]
      exact Along.invariant hstep (hstep i c h halong.1) halong.2

/-! ## Progress -/

/-- A rank that falls at each step of a process falls with each of its turns,
down to zero. `P` holds of the local states that count, and is kept. -/
theorem rank_run {P : L → Prop} {rank : L → ℕ}
    (hfalls : ∀ l s l' s', P l → next i l s = some (l', s') → P l' ∧ rank l' < rank l)
    (hstuck : ∀ l s, P l → next i l s = none → rank l = 0) :
    ∀ (sched : List ι) (c : Config ι σ L), P (c.locals i) →
      P ((c.run next sched).locals i) ∧
        rank ((c.run next sched).locals i) ≤ rank (c.locals i) - sched.count i
  | [], c, hP => ⟨hP, Nat.le_refl _⟩
  | j :: sched, c, hP => by
      have ih := rank_run hfalls hstuck sched
      rw [run_cons]
      by_cases hj : j = i
      · subst hj
        rw [List.count_cons_self]
        cases hnext : next j (c.locals j) c.shared with
        | none =>
            obtain ⟨hend, hle⟩ := ih c hP
            rw [step_none hnext]
            refine ⟨hend, ?_⟩
            rw [hstuck _ _ hP hnext] at hle ⊢
            omega
        | some p =>
            have hlocals := locals_step_self hnext
            obtain ⟨hP', hlt⟩ := hfalls _ _ _ _ hP hnext
            obtain ⟨hend, hle⟩ := ih (c.step next j) (hlocals ▸ hP')
            refine ⟨hend, ?_⟩
            rw [hlocals] at hle
            omega
      · have hlocals : (c.step next j).locals i = c.locals i := locals_step_of_ne (Ne.symm hj)
        rw [List.count_cons_of_ne hj, ← hlocals]
        exact ih (c.step next j) (hlocals ▸ hP)

end Config

end Processes
