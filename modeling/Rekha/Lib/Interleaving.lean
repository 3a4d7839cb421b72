import Mathlib.Data.List.Basic

/-!
# Interleavings, and registers by key

Two writers, each with a list of batches, run one batch at a time in any order
that keeps their own. An entry of a batch acts on the register of its key and on
no other, so what a register holds in the end depends on the entries at its key
only. Writers whose keys are apart leave the same registers behind however they
are interleaved (`Interleaved.register_eq`).
-/

namespace Interleaving

section Interleaved

variable {α β : Type*} {left right w w' : List α}

/-- `w` takes the elements of `left` and `right`, each list in its own order. -/
inductive Interleaved : List α → List α → List α → Prop
  | nil : Interleaved [] [] []
  | left {a : α} {left right w : List α} :
      Interleaved left right w → Interleaved (a :: left) right (a :: w)
  | right {a : α} {left right w : List α} :
      Interleaved left right w → Interleaved left (a :: right) (a :: w)

theorem Interleaved.symm (h : Interleaved left right w) : Interleaved right left w := by
  induction h with
  | nil => exact .nil
  | left _ ih => exact .right ih
  | right _ ih => exact .left ih

theorem Interleaved.mem_iff (h : Interleaved left right w) {a : α} :
    a ∈ w ↔ a ∈ left ∨ a ∈ right := by
  induction h with
  | nil => simp
  | left _ ih => rw [List.mem_cons, List.mem_cons, ih, or_assoc]
  | right _ ih => rw [List.mem_cons, List.mem_cons, ih, or_left_comm]

theorem Interleaved.flatMap_left {f : α → List β} (h : Interleaved left right w)
    (hright : ∀ a ∈ right, f a = []) : w.flatMap f = left.flatMap f := by
  induction h with
  | nil => rfl
  | left _ ih => rw [List.flatMap_cons, List.flatMap_cons, ih hright]
  | right _ ih =>
      rw [List.flatMap_cons, hright _ List.mem_cons_self, List.nil_append]
      exact ih fun a ha => hright a (List.mem_cons_of_mem _ ha)

theorem Interleaved.length_flatMap {f : α → List β} (h : Interleaved left right w) :
    (w.flatMap f).length = (left.flatMap f).length + (right.flatMap f).length := by
  induction h with
  | nil => rfl
  | left _ ih =>
      simp only [List.flatMap_cons, List.length_append, ih]
      omega
  | right _ ih =>
      simp only [List.flatMap_cons, List.length_append, ih]
      omega

end Interleaved

/-! ## Registers by key -/

section Register

variable {α β κ ν σ : Type*} [DecidableEq κ] {key : β → κ} {act : β → ν → ν}

/-- The register of `k` after a log: the entries at `k` act on it in order. -/
def register (key : β → κ) (act : β → ν → ν) (k : κ) (log : List β) (v : ν) : ν :=
  (log.filter fun b => decide (key b = k)).foldl (fun v b => act b v) v

theorem register_cons (k : κ) (b : β) (log : List β) (v : ν) :
    register key act k (b :: log) v =
      register key act k log (if k = key b then act b v else v) := by
  unfold register
  by_cases hk : k = key b
  · rw [List.filter_cons_of_pos (by simpa using hk.symm), List.foldl_cons, if_pos hk]
  · rw [List.filter_cons_of_neg (by simpa using fun h => hk h.symm), if_neg hk]

theorem register_append (k : κ) (log log' : List β) (v : ν) :
    register key act k (log ++ log') v =
      register key act k log' (register key act k log v) := by
  unfold register
  rw [List.filter_append, List.foldl_append]

theorem register_of_ne {k : κ} {log : List β} (hne : ∀ b ∈ log, key b ≠ k) (v : ν) :
    register key act k log v = v := by
  unfold register
  rw [List.filter_eq_nil_iff.mpr fun b hb => by simpa using hne b hb, List.foldl_nil]

theorem register_map {f : α → β} (k : κ) (log : List α) (v : ν) :
    register (fun a => key (f a)) (fun a => act (f a)) k log v =
      register key act k (log.map f) v := by
  induction log generalizing v with
  | nil => rfl
  | cons a log ih => rw [register_cons, List.map_cons, register_cons, ih]

/-- **A machine with registers by key**: if an entry acts on the register of its
key and on no other, a run leaves what the entries at each key make of it. -/
theorem foldl_register {step : σ → β → σ} {read : σ → κ → ν} {P : σ → Prop}
    (hkeep : ∀ s b, P s → P (step s b))
    (hstep : ∀ s b k, P s → read (step s b) k = if k = key b then act b (read s k) else read s k)
    (k : κ) (log : List β) {s : σ} (hs : P s) :
    read (log.foldl step s) k = register key act k log (read s k) := by
  induction log generalizing s with
  | nil => rfl
  | cons b log ih => rw [List.foldl_cons, ih (hkeep s b hs), hstep s b k hs, register_cons]

variable {left right w w' : List α} {ops : α → List β}

theorem Interleaved.register_left (h : Interleaved left right w) {k : κ}
    (hright : ∀ b ∈ right.flatMap ops, key b ≠ k) (v : ν) :
    register key act k (w.flatMap ops) v = register key act k (left.flatMap ops) v := by
  have hnone : ∀ a ∈ right, (ops a).filter (fun b => decide (key b = k)) = [] := by
    intro a ha
    rw [List.filter_eq_nil_iff]
    intro b hb
    rw [decide_eq_true_eq]
    exact hright b (List.mem_flatMap.mpr ⟨a, ha, hb⟩)
  unfold register
  rw [List.filter_flatMap, List.filter_flatMap, h.flatMap_left hnone]

/-- **Writers whose keys are apart** leave the same registers in every interleaving. -/
theorem Interleaved.register_eq (h : Interleaved left right w) (h' : Interleaved left right w')
    (hapart : ∀ b ∈ left.flatMap ops, ∀ b' ∈ right.flatMap ops, key b ≠ key b') (k : κ) (v : ν) :
    register key act k (w.flatMap ops) v = register key act k (w'.flatMap ops) v := by
  by_cases hk : ∃ b ∈ left.flatMap ops, key b = k
  · obtain ⟨b, hb, rfl⟩ := hk
    have hright : ∀ b' ∈ right.flatMap ops, key b' ≠ key b :=
      fun b' hb' => (hapart b hb b' hb').symm
    rw [h.register_left hright, h'.register_left hright]
  · have hleft : ∀ b ∈ left.flatMap ops, key b ≠ k := fun b hb heq => hk ⟨b, hb, heq⟩
    rw [h.symm.register_left hleft, h'.symm.register_left hleft]

end Register

end Interleaving
