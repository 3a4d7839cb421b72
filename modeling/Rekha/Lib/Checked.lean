import Mathlib.Data.List.Basic

/-!
# Computations that may panic

A run ends in a value, in an error that its caller handles, or in a panic. A
sequence panics when its first step does, or the rest does after the first step
gave a value (`bind_panics`).
-/

inductive Checked (ε α : Type) where
  | ok (a : α)
  | error (e : ε)
  | panic
deriving DecidableEq

namespace Checked

variable {ε α β : Type}

protected def bind (x : Checked ε α) (f : α → Checked ε β) : Checked ε β :=
  match x with
  | ok a => f a
  | error e => error e
  | panic => panic

instance : Monad (Checked ε) where
  pure := ok
  bind := Checked.bind

instance : LawfulMonad (Checked ε) := LawfulMonad.mk' _
  (fun x => by cases x <;> rfl) (fun _ _ => rfl) (fun x _ _ => by cases x <;> rfl)

def expect : Option α → Checked ε α
  | some a => ok a
  | none => panic

@[simp] theorem ok_bind (a : α) (f : α → Checked ε β) : ok a >>= f = f a := rfl

@[simp] theorem error_bind (e : ε) (f : α → Checked ε β) : error e >>= f = error e := rfl

@[simp] theorem panic_bind (f : α → Checked ε β) : (panic : Checked ε α) >>= f = panic := rfl

@[simp] theorem pure_eq (a : α) : (pure a : Checked ε α) = ok a := rfl

theorem bind_ok {x : Checked ε α} {f : α → Checked ε β} {b : β} :
    x >>= f = ok b ↔ ∃ a, x = ok a ∧ f a = ok b := by
  cases x <;> simp

/-- **A sequence panics at its first step or behind it.** -/
theorem bind_panics {x : Checked ε α} {f : α → Checked ε β} :
    x >>= f = panic ↔ x = panic ∨ ∃ a, x = ok a ∧ f a = panic := by
  cases x <;> simp

theorem bind_panics_of_not_error {x : Checked ε α} {f : α → Checked ε β} {P : Prop}
    (hx : ∀ e, x ≠ error e) (hf : ∀ a, f a = panic ↔ P) :
    x >>= f = panic ↔ x = panic ∨ P := by
  cases x with
  | ok a => simp [hf]
  | error e => exact absurd rfl (hx e)
  | panic => simp

theorem bind_not_error {x : Checked ε α} {f : α → Checked ε β} (hx : ∀ e, x ≠ error e)
    (hf : ∀ a e, f a ≠ error e) (e : ε) : x >>= f ≠ error e := by
  cases x with
  | ok a => exact hf a e
  | error e' => exact absurd rfl (hx e')
  | panic => rintro ⟨⟩

theorem bind_returns {x : Checked ε α} {f : α → Checked ε β} {P : Prop}
    (hf : ∀ a, f a ≠ panic ↔ P) : x >>= f ≠ panic ↔ x ≠ panic ∧ ((∃ a, x = ok a) → P) := by
  cases x <;> simp [hf]

@[simp] theorem expect_panics {x : Option α} : (expect x : Checked ε α) = panic ↔ x = none := by
  cases x <;> simp [expect]

@[simp] theorem expect_ok {x : Option α} {a : α} :
    (expect x : Checked ε α) = ok a ↔ x = some a := by
  cases x <;> simp [expect]

theorem mapM_panics {f : α → Checked ε β} (hf : ∀ a e, f a ≠ error e) : ∀ {xs : List α},
    xs.mapM f = panic ↔ ∃ x ∈ xs, f x = panic
  | [] => by simp
  | x :: xs => by
      rw [List.mapM_cons, bind_panics, List.exists_mem_cons_iff, ← mapM_panics hf]
      cases hx : f x with
      | ok b => simp [bind_panics]
      | error e => exact absurd hx (hf x e)
      | panic => simp

theorem mapM_not_error {f : α → Checked ε β} (hf : ∀ a e, f a ≠ error e) : ∀ {xs : List α} {e : ε},
    xs.mapM f ≠ error e
  | [], e => by simp
  | x :: xs, e => by
      rw [List.mapM_cons]
      cases hx : f x with
      | ok b =>
          rw [ok_bind]
          cases hxs : xs.mapM f with
          | ok bs => simp
          | error e' => exact absurd hxs (mapM_not_error hf)
          | panic => simp
      | error e' => exact absurd hx (hf x e')
      | panic => simp

theorem mapM_not_panics {f : α → Checked ε β} (hf : ∀ a, f a ≠ panic) : ∀ {xs : List α},
    xs.mapM f ≠ panic
  | [] => by simp
  | x :: xs => by
      rw [List.mapM_cons]
      cases hx : f x with
      | ok b =>
          rw [ok_bind]
          cases hxs : xs.mapM f with
          | ok bs => simp
          | error e => simp
          | panic => exact absurd hxs (mapM_not_panics hf)
      | error e => simp
      | panic => exact absurd hx (hf x)

theorem mapM_succeeds {f : α → Checked ε β} : ∀ {xs : List α},
    (∃ ys, xs.mapM f = ok ys) ↔ ∀ x ∈ xs, ∃ y, f x = ok y
  | [] => by simp
  | x :: xs => by
      rw [List.mapM_cons, List.forall_mem_cons, ← mapM_succeeds]
      simp only [bind_ok, pure_eq, ok.injEq]
      constructor
      · rintro ⟨_, y, hy, ys, hys, rfl⟩
        exact ⟨⟨y, hy⟩, ys, hys⟩
      · rintro ⟨⟨y, hy⟩, ys, hys⟩
        exact ⟨_, y, hy, ys, hys, rfl⟩

theorem mapM_eq_ok {f : α → Checked ε β} : ∀ {xs : List α} {ys : List β},
    xs.mapM f = ok ys ↔ xs.map f = ys.map ok
  | [], ys => by
      rw [List.mapM_nil, pure_eq, ok.injEq, List.map_nil, eq_comm, eq_comm (a := []),
        List.map_eq_nil_iff]
  | x :: xs, ys => by
      rw [List.mapM_cons]
      simp only [bind_ok, pure_eq, ok.injEq, mapM_eq_ok, List.map_cons]
      constructor
      · rintro ⟨y, hy, ys, hys, rfl⟩
        rw [hy, hys, List.map_cons]
      · intro h
        cases ys with
        | nil => cases h
        | cons y ys =>
            obtain ⟨hy, hys⟩ := List.cons.inj h
            exact ⟨y, hy, ys, hys, rfl⟩

end Checked
