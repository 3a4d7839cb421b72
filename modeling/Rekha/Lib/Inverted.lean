import Mathlib.Data.Finset.Basic
import Rekha.Lib.FinMap

/-!
# Two-level inverted tables

A table from `(a, b)` to a set of naturals, stored as a map of maps whose empty
sets and empty rows are pruned. Pruning is invisible through `cell`, so every
operation is specified by the one membership lemma about `cell` that stands
next to it; `rowUnion` collects the cells of a row whose second key passes a test.
-/

/-- Rows by first key, sets by second key. -/
abbrev Inverted (α β : Type) : Type := FinMap α (FinMap β (Finset ℕ))

namespace Inverted

variable {α β : Type} [DecidableEq α] [DecidableEq β]

def row (t : Inverted α β) (a : α) : FinMap β (Finset ℕ) := (t.lookup a).getD ∅

def cell (t : Inverted α β) (a : α) (b : β) : Finset ℕ := ((t.row a).lookup b).getD ∅

/-- Put `x` into the set at `(a, b)`, creating what is missing on the way. -/
def add (t : Inverted α β) (a : α) (b : β) (x : ℕ) : Inverted α β :=
  t.insert a ((t.row a).insert b (insert x (t.cell a b)))

/-- Take `x` out of the set at key `b` of a row, dropping a set that becomes empty. -/
def removeRow (r : FinMap β (Finset ℕ)) (b : β) (x : ℕ) : FinMap β (Finset ℕ) :=
  match r.lookup b with
  | none => r
  | some s => if s.erase x = ∅ then r.erase b else r.insert b (s.erase x)

/-- Take `x` out of the set at `(a, b)`, dropping a row that becomes empty. -/
def remove (t : Inverted α β) (a : α) (b : β) (x : ℕ) : Inverted α β :=
  match t.lookup a with
  | none => t
  | some r =>
      if (removeRow r b x).size = 0 then t.erase a else t.insert a (removeRow r b x)

/-- Take `x` out of every set. -/
def removeAll (t : Inverted α β) (x : ℕ) : Inverted α β :=
  (t.mapVals fun _ r =>
    (r.mapVals fun _ s => s.erase x).retain fun _ s => decide (s ≠ ∅)).retain
      fun _ r => decide (r.size ≠ 0)

/-- Union of the sets of a row whose key passes `p`. -/
def rowUnion (t : Inverted α β) (a : α) (p : β → Bool) : Finset ℕ :=
  ((t.row a).entries.filter fun e => p e.1).foldl (fun acc e => acc ∪ e.2) ∅

theorem cell_eq (t : Inverted α β) (a : α) (b : β) :
    t.cell a b = (((t.lookup a).bind fun r => r.lookup b).getD ∅) := by
  rw [cell, row]
  cases t.lookup a with
  | none => rfl
  | some r => rfl

@[simp] theorem cell_empty (a : α) (b : β) : cell (∅ : Inverted α β) a b = ∅ := rfl

omit [DecidableEq β] in
theorem row_insert (t : Inverted α β) (a a' : α) (r : FinMap β (Finset ℕ)) :
    row (t.insert a r) a' = if a' = a then r else t.row a' := by
  rw [row, FinMap.lookup_insert_ite]
  split <;> rfl

theorem mem_cell_add (t : Inverted α β) (a a' : α) (b b' : β) (x y : ℕ) :
    y ∈ (t.add a b x).cell a' b' ↔ y ∈ t.cell a' b' ∨ (a' = a ∧ b' = b ∧ y = x) := by
  rw [cell, add, row_insert]
  by_cases ha : a' = a
  · subst ha
    rw [if_pos rfl, FinMap.lookup_insert_ite]
    by_cases hb : b' = b
    · subst hb
      simp [or_comm]
    · simp [hb, cell]
  · simp [ha, cell]

theorem lookup_removeRow (r : FinMap β (Finset ℕ)) (b b' : β) (x : ℕ) :
    ((removeRow r b x).lookup b').getD ∅ =
      if b' = b then ((r.lookup b').getD ∅).erase x else (r.lookup b').getD ∅ := by
  rw [removeRow]
  cases hs : r.lookup b with
  | none =>
      by_cases hb : b' = b
      · subst hb
        simp [hs]
      · simp [hb]
  | some s =>
      simp only
      split
      · rename_i hemp
        rw [FinMap.lookup_erase_ite]
        by_cases hb : b' = b
        · subst hb
          simp [hs, hemp]
        · simp [hb]
      · rw [FinMap.lookup_insert_ite]
        by_cases hb : b' = b
        · subst hb
          simp [hs]
        · simp [hb]

theorem mem_cell_remove (t : Inverted α β) (a a' : α) (b b' : β) (x y : ℕ) :
    y ∈ (t.remove a b x).cell a' b' ↔
      y ∈ t.cell a' b' ∧ ¬ (a' = a ∧ b' = b ∧ y = x) := by
  have hrow : (t.remove a b x).cell a' b' =
      if a' = a then ((removeRow (t.row a) b x).lookup b').getD ∅ else t.cell a' b' := by
    rw [cell_eq, remove]
    cases hr : t.lookup a with
    | none =>
        by_cases ha : a' = a
        · subst ha
          simp [hr, row, removeRow]
        · simp [ha, cell_eq]
    | some r =>
        simp only
        split
        · rename_i hsize
          rw [FinMap.lookup_erase_ite]
          by_cases ha : a' = a
          · subst ha
            simp [row, hr, FinMap.lookup_eq_none_of_size_zero hsize]
          · simp [ha, cell_eq]
        · rw [FinMap.lookup_insert_ite]
          by_cases ha : a' = a
          · subst ha
            simp [row, hr]
          · simp [ha, cell_eq]
  rw [hrow]
  by_cases ha : a' = a
  · subst ha
    rw [if_pos rfl, lookup_removeRow]
    by_cases hb : b' = b
    · subst hb
      simp [cell, and_comm]
    · simp [hb, cell]
  · simp [ha]

theorem mem_cell_removeAll (t : Inverted α β) (a : α) (b : β) (x y : ℕ) :
    y ∈ (t.removeAll x).cell a b ↔ y ∈ t.cell a b ∧ y ≠ x := by
  rw [cell_eq, cell_eq, removeAll, FinMap.lookup_retain, FinMap.lookup_mapVals]
  cases hr : t.lookup a with
  | none => simp
  | some r =>
      have hkeep : ∀ s : Finset ℕ, y ∈ ((some (s.erase x)).filter
          (fun s => decide (s ≠ ∅))).getD ∅ ↔ y ∈ s ∧ y ≠ x := by
        intro s
        by_cases hemp : s.erase x = ∅
        · rw [← Finset.mem_erase.trans and_comm, hemp]
          simp [Option.filter]
        · rw [Option.filter_some_pos (by simpa using hemp)]
          simp [and_comm]
      have hcell : y ∈ ((((r.mapVals fun _ s => s.erase x).retain
          fun _ s => decide (s ≠ ∅)).lookup b).getD ∅) ↔
            y ∈ (r.lookup b).getD ∅ ∧ y ≠ x := by
        rw [FinMap.lookup_retain, FinMap.lookup_mapVals]
        cases hs : r.lookup b with
        | none => simp
        | some s => exact hkeep s
      simp only [Option.map_some, Option.bind_some]
      rw [← hcell, Option.filter]
      split
      · rfl
      · rename_i hsize
        rw [FinMap.lookup_eq_none_of_size_zero (by simpa using hsize)]
        rfl

theorem mem_foldl_union {ι : Type} (f : ι → Finset ℕ) (y : ℕ) :
    ∀ (l : List ι) (s : Finset ℕ),
      y ∈ l.foldl (fun acc e => acc ∪ f e) s ↔ y ∈ s ∨ ∃ e ∈ l, y ∈ f e
  | [], s => by simp
  | e :: l, s => by
      rw [List.foldl_cons, mem_foldl_union f y l]
      simp [or_assoc]

theorem mem_rowUnion (t : Inverted α β) (a : α) (p : β → Bool) (y : ℕ) :
    y ∈ t.rowUnion a p ↔ ∃ b, p b = true ∧ y ∈ t.cell a b := by
  rw [rowUnion, mem_foldl_union (fun e : Sigma fun _ : β => Finset ℕ => e.2)]
  constructor
  · rintro (h | ⟨⟨b, s⟩, he, hy⟩)
    · simp at h
    · rw [List.mem_filter, FinMap.mem_entries_iff] at he
      exact ⟨b, he.2, by rw [cell, he.1]; exact hy⟩
  · rintro ⟨b, hp, hy⟩
    rw [cell] at hy
    cases hs : (t.row a).lookup b with
    | none => simp [hs] at hy
    | some s =>
        rw [hs] at hy
        exact Or.inr ⟨⟨b, s⟩,
          List.mem_filter.mpr ⟨FinMap.mem_entries_iff.mpr hs, hp⟩, hy⟩

/-! ## Nothing empty is stored -/

def PrunedRow (r : FinMap β (Finset ℕ)) : Prop := ∀ b s, r.lookup b = some s → s ≠ ∅

/-- No row is empty, and none stores an empty set. -/
def Pruned (t : Inverted α β) : Prop := ∀ a r, t.lookup a = some r → r.size ≠ 0 ∧ PrunedRow r

theorem pruned_empty : Pruned (∅ : Inverted α β) := by
  intro a r hr
  exact absurd hr (by simp)

theorem Pruned.row {t : Inverted α β} (h : t.Pruned) (a : α) : PrunedRow (t.row a) := by
  unfold Inverted.row
  cases hr : t.lookup a with
  | none =>
      intro b s hs
      exact absurd hs (by simp)
  | some r => exact (h a r hr).2

theorem size_ne_zero_of_lookup {r : FinMap β (Finset ℕ)} {b : β} {s : Finset ℕ}
    (h : r.lookup b = some s) : r.size ≠ 0 := by
  intro hsize
  rw [FinMap.lookup_eq_none_of_size_zero hsize] at h
  exact absurd h (by simp)

theorem Pruned.add {t : Inverted α β} (h : t.Pruned) (a : α) (b : β) (x : ℕ) :
    (t.add a b x).Pruned := by
  intro a' r hr
  rw [Inverted.add, FinMap.lookup_insert_ite] at hr
  split at hr
  · obtain rfl := Option.some.inj hr
    refine ⟨size_ne_zero_of_lookup (AList.lookup_insert _), ?_⟩
    intro b' s hs
    rw [FinMap.lookup_insert_ite] at hs
    split at hs
    · rw [← Option.some.inj hs]
      exact Finset.insert_ne_empty x _
    · exact h.row a b' s hs
  · exact h a' r hr

theorem PrunedRow.removeRow {r : FinMap β (Finset ℕ)} (h : PrunedRow r) (b : β) (x : ℕ) :
    PrunedRow (removeRow r b x) := by
  intro b' s hs
  unfold Inverted.removeRow at hs
  split at hs
  · exact h b' s hs
  · split at hs
    · exact h b' s (FinMap.lookup_erase_eq_some.mp hs).2
    · rename_i hne
      rw [FinMap.lookup_insert_ite] at hs
      split at hs
      · rw [← Option.some.inj hs]
        exact hne
      · exact h b' s hs

theorem Pruned.remove {t : Inverted α β} (h : t.Pruned) (a : α) (b : β) (x : ℕ) :
    (t.remove a b x).Pruned := by
  intro a' r hr
  unfold Inverted.remove at hr
  split at hr
  · exact h a' r hr
  · rename_i r₀ hr₀
    split at hr
    · exact h a' r (FinMap.lookup_erase_eq_some.mp hr).2
    · rename_i hsize
      rw [FinMap.lookup_insert_ite] at hr
      split at hr
      · rw [← Option.some.inj hr]
        exact ⟨hsize, (h a r₀ hr₀).2.removeRow b x⟩
      · exact h a' r hr

theorem pruned_removeAll (t : Inverted α β) (x : ℕ) : (t.removeAll x).Pruned := by
  intro a r hr
  rw [removeAll, FinMap.lookup_retain, FinMap.lookup_mapVals, Option.filter_eq_some_iff,
    Option.map_eq_some_iff] at hr
  obtain ⟨⟨r₀, -, rfl⟩, hsize⟩ := hr
  refine ⟨of_decide_eq_true hsize, ?_⟩
  intro b s hs
  rw [FinMap.lookup_retain, Option.filter_eq_some_iff] at hs
  exact of_decide_eq_true hs.2

end Inverted
