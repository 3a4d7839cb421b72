import Mathlib.Data.List.Basic
import Mathlib.Order.Basic

/-!
# Last-writer registers

A log entry may overwrite a register or leave it alone; after a log the
register holds the last value written, or what it held before. The file states
the three facts replay arguments need: a fold of overwrites is the last write
(`foldl_overwrite`), the last write of a concatenation (`lastWrite_append`), and
the reason replaying a suffix that was already applied is harmless
(`foldl_overwrite_replay`).
-/

namespace LastWrite

variable {α κ ν : Type}

/-- The last value a log writes to one register; `w` says what an entry writes. -/
def lastWrite (w : α → Option ν) : List α → Option ν
  | [] => none
  | a :: l => (lastWrite w l).or (w a)

@[simp] theorem lastWrite_nil (w : α → Option ν) : lastWrite w [] = none := rfl

theorem lastWrite_cons (w : α → Option ν) (a : α) (l : List α) :
    lastWrite w (a :: l) = (lastWrite w l).or (w a) := rfl

theorem lastWrite_append (w : α → Option ν) : ∀ l₁ l₂ : List α,
    lastWrite w (l₁ ++ l₂) = (lastWrite w l₂).or (lastWrite w l₁)
  | [], l₂ => by simp
  | a :: l₁, l₂ => by
      rw [List.cons_append, lastWrite_cons, lastWrite_append w l₁ l₂,
        lastWrite_cons, Option.or_assoc]

theorem lastWrite_eq_none_iff {w : α → Option ν} : ∀ {l : List α},
    lastWrite w l = none ↔ ∀ a ∈ l, w a = none
  | [] => by simp
  | a :: l => by
      rw [lastWrite_cons, Option.or_eq_none_iff, lastWrite_eq_none_iff (l := l)]
      simp [and_comm]

theorem exists_of_lastWrite {w : α → Option ν} {v : ν} : ∀ {l : List α},
    lastWrite w l = some v → ∃ a ∈ l, w a = some v
  | [], h => by simp at h
  | a :: l, h => by
      rw [lastWrite_cons, Option.or_eq_some_iff] at h
      rcases h with h | ⟨-, h⟩
      · obtain ⟨b, hb, hw⟩ := exists_of_lastWrite h
        exact ⟨b, List.mem_cons_of_mem _ hb, hw⟩
      · exact ⟨a, List.mem_cons_self, h⟩

/-- One entry overwrites the registers it names. -/
def overwrite (w : α → κ → Option ν) (s : κ → ν) (a : α) : κ → ν :=
  fun k => (w a k).getD (s k)

theorem foldl_overwrite (w : α → κ → Option ν) (k : κ) : ∀ (l : List α) (s : κ → ν),
    l.foldl (overwrite w) s k = (lastWrite (fun a => w a k) l).getD (s k)
  | [], s => rfl
  | a :: l, s => by
      rw [List.foldl_cons, foldl_overwrite w k l, lastWrite_cons]
      cases lastWrite (fun a => w a k) l <;> simp [overwrite]

/-- A machine whose registers `φ` its steps overwrite: after a run they hold the
last writes. -/
theorem foldl_register {σ : Type} {step : σ → α → σ} {φ : σ → κ → ν}
    {w : α → κ → Option ν} (hstep : ∀ s a, φ (step s a) = overwrite w (φ s) a) (k : κ) :
    ∀ (l : List α) (s : σ),
      φ (l.foldl step s) k = (lastWrite (fun a => w a k) l).getD (φ s k)
  | [], s => rfl
  | a :: l, s => by
      rw [List.foldl_cons, foldl_register hstep k l, hstep, lastWrite_cons]
      cases lastWrite (fun a => w a k) l <;> simp [overwrite]

theorem lastWrite_of_last {w : α → Option ν} {v : ν} {a : α} {l₁ l₂ : List α}
    (ha : w a = some v) (hlater : ∀ b ∈ l₂, w b = none) :
    lastWrite w (l₁ ++ a :: l₂) = some v := by
  rw [lastWrite_append, lastWrite_cons, lastWrite_eq_none_iff.mpr hlater, ha]
  rfl

/-- **Replaying an already applied suffix is harmless.** Starting from the
registers after `l₁ ++ l₂`, replaying `l₂ ++ l₃` gives what `l₁ ++ l₂ ++ l₃`
gives, although the intermediate states may differ. -/
theorem foldl_overwrite_replay (w : α → κ → Option ν) (l₁ l₂ l₃ : List α)
    (s : κ → ν) :
    (l₂ ++ l₃).foldl (overwrite w) ((l₁ ++ l₂).foldl (overwrite w) s) =
      (l₁ ++ l₂ ++ l₃).foldl (overwrite w) s := by
  funext k
  rw [foldl_overwrite, foldl_overwrite, foldl_overwrite, lastWrite_append _ l₂ l₃,
    lastWrite_append _ (l₁ ++ l₂) l₃]
  cases lastWrite (fun a => w a k) l₃ with
  | some v => rfl
  | none =>
      rw [Option.none_or, Option.none_or, lastWrite_append]
      cases lastWrite (fun a => w a k) l₂ <;> simp

end LastWrite
