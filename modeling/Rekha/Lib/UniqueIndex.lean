import Rekha.Lib.FinMap

/-!
# A table of rows with a unique index

Rows are stored under a key, and an index maps a name computed from the row back
to that key. `Agrees` says that the index lists the rows of the table and no
others. Storing a row under an unused key with an unused name keeps it, as does
rewriting a row without changing its name, and removing a row together with its
name; storing a row with a new name over another row breaks it.
-/

namespace UniqueIndex

variable {κ ν ρ : Type} [DecidableEq κ] [DecidableEq ν]

/-- The index maps a name to a key exactly when the row under the key has it. -/
def Agrees (name : ρ → ν) (rows : FinMap κ ρ) (index : FinMap ν κ) : Prop :=
  ∀ n k, index.lookup n = some k ↔ ∃ r, rows.lookup k = some r ∧ name r = n

variable {name : ρ → ν} {rows : FinMap κ ρ} {index : FinMap ν κ} {k : κ} {r r₀ : ρ} {n : ν}

theorem agrees_empty : Agrees name (∅ : FinMap κ ρ) (∅ : FinMap ν κ) := by
  intro n k
  simp

namespace Agrees

theorem lookup_name (h : Agrees name rows index) (hr : rows.lookup k = some r) :
    index.lookup (name r) = some k :=
  (h _ _).mpr ⟨r, hr, rfl⟩

theorem eq_of_lookup (h : Agrees name rows index) {n n' : ν}
    (hn : index.lookup n = some k) (hn' : index.lookup n' = some k) : n = n' := by
  obtain ⟨r, hr, rfl⟩ := (h _ _).mp hn
  obtain ⟨r', hr', rfl⟩ := (h _ _).mp hn'
  rw [hr] at hr'
  obtain rfl := Option.some.inj hr'
  rfl

theorem insert (h : Agrees name rows index) (hk : rows.lookup k = none)
    (hn : index.lookup (name r) = none) :
    Agrees name (rows.insert k r) (index.insert (name r) k) := by
  intro n k'
  rw [FinMap.lookup_insert_ite, FinMap.lookup_insert_ite]
  by_cases hnr : n = name r
  · subst hnr
    rw [if_pos rfl]
    by_cases hkk : k' = k
    · subst hkk
      simp
    · rw [if_neg hkk]
      constructor
      · intro heq
        exact absurd (Option.some.inj heq).symm hkk
      · rintro ⟨r', hr', hname⟩
        rw [← hname, h.lookup_name hr'] at hn
        cases hn
  · rw [if_neg hnr]
    by_cases hkk : k' = k
    · subst hkk
      rw [if_pos rfl, h, hk]
      simp [Ne.symm hnr]
    · rw [if_neg hkk]
      exact h n k'

theorem rewrite (h : Agrees name rows index) (hr₀ : rows.lookup k = some r₀)
    (hname : name r = name r₀) : Agrees name (rows.insert k r) index := by
  intro n k'
  rw [FinMap.lookup_insert_ite]
  by_cases hkk : k' = k
  · subst hkk
    rw [if_pos rfl, h, hr₀]
    simp [hname]
  · rw [if_neg hkk]
    exact h n k'

theorem erase (h : Agrees name rows index) (hr : rows.lookup k = some r) :
    Agrees name (rows.erase k) (index.erase (name r)) := by
  intro n k'
  rw [FinMap.lookup_erase_ite, FinMap.lookup_erase_ite]
  by_cases hkk : k' = k
  · subst hkk
    rw [if_pos rfl]
    constructor
    · intro hn
      by_cases hnr : n = name r
      · rw [if_pos hnr] at hn
        cases hn
      · rw [if_neg hnr] at hn
        exact absurd (h.eq_of_lookup hn (h.lookup_name hr)) hnr
    · rintro ⟨_, hnone, _⟩
      cases hnone
  · rw [if_neg hkk]
    by_cases hnr : n = name r
    · subst hnr
      rw [if_pos rfl]
      constructor
      · intro hnone
        cases hnone
      · rintro ⟨r', hr', hname⟩
        have hkey := h.lookup_name hr'
        rw [hname, h.lookup_name hr] at hkey
        exact absurd (Option.some.inj hkey).symm hkk
    · rw [if_neg hnr]
      exact h n k'

theorem not_insert (h : Agrees name rows index) (hr₀ : rows.lookup k = some r₀)
    (hn : index.lookup (name r) = none) :
    ¬ Agrees name (rows.insert k r) (index.insert (name r) k) := by
  intro h'
  have hne : name r₀ ≠ name r := by
    intro heq
    rw [← heq, h.lookup_name hr₀] at hn
    cases hn
  have hold : (index.insert (name r) k).lookup (name r₀) = some k := by
    rw [AList.lookup_insert_ne hne, h.lookup_name hr₀]
  exact hne (h'.eq_of_lookup hold (AList.lookup_insert _))

end Agrees

end UniqueIndex
