import Mathlib.Data.List.AList
import Mathlib.Data.List.Perm.Subperm

/-!
# Finite maps with iteration

A hash map is modelled by Mathlib's association list with distinct keys:
`lookup`, `insert` and `erase` are Mathlib's, and this file adds the three
bulk operations a mutable map has besides them — the size, an update of every
value in place (`mapVals`) and a filter in place (`retain`) — each with the one
lemma that says what a lookup sees afterwards. The order of `entries` carries
no meaning.
-/

/-- A finite map: an association list with distinct keys. -/
abbrev FinMap (κ ν : Type) : Type := AList fun _ : κ => ν

namespace FinMap

variable {κ ν μ : Type}

def size (m : FinMap κ ν) : ℕ := m.entries.length

def mapVals (f : κ → ν → μ) (m : FinMap κ ν) : FinMap κ μ :=
  ⟨m.entries.map fun e => ⟨e.1, f e.1 e.2⟩, m.nodupKeys.map₂ f⟩

/-- Keep the entries that satisfy `p`. -/
def retain (p : κ → ν → Bool) (m : FinMap κ ν) : FinMap κ ν :=
  ⟨m.entries.filter fun e => p e.1 e.2, m.nodupKeys.sublist List.filter_sublist⟩

@[simp] theorem size_empty : size (∅ : FinMap κ ν) = 0 := rfl

section Lookup

variable [DecidableEq κ]

theorem mem_entries_iff {m : FinMap κ ν} {k : κ} {v : ν} :
    (⟨k, v⟩ : Sigma fun _ : κ => ν) ∈ m.entries ↔ m.lookup k = some v :=
  AList.mem_lookup_iff.symm

theorem lookup_insert_ite (m : FinMap κ ν) (a k : κ) (b : ν) :
    (m.insert a b).lookup k = if k = a then some b else m.lookup k := by
  by_cases h : k = a
  · subst h
    rw [if_pos rfl, AList.lookup_insert]
  · rw [if_neg h, AList.lookup_insert_ne h]

theorem lookup_erase_ite (m : FinMap κ ν) (a k : κ) :
    (m.erase a).lookup k = if k = a then none else m.lookup k := by
  by_cases h : k = a
  · subst h
    rw [if_pos rfl, AList.lookup_erase]
  · rw [if_neg h, AList.lookup_erase_ne h]

theorem lookup_erase_eq_some {m : FinMap κ ν} {a k : κ} {v : ν} :
    (m.erase a).lookup k = some v ↔ k ≠ a ∧ m.lookup k = some v := by
  rw [lookup_erase_ite]
  by_cases h : k = a
  · simp [h]
  · simp [h]

theorem lookup_erase_of_inverse [DecidableEq ν] {m : FinMap κ ν} {m' : FinMap ν κ}
    (h : ∀ k v, m.lookup k = some v → m'.lookup v = some k) {a k : κ} {b v : ν}
    (hab : m'.lookup b = some a) (hk : (m.erase a).lookup k = some v) :
    (m'.erase b).lookup v = some k := by
  obtain ⟨hne, hk⟩ := lookup_erase_eq_some.mp hk
  have hinv := h k v hk
  refine lookup_erase_eq_some.mpr ⟨?_, hinv⟩
  rintro rfl
  rw [hab, Option.some.injEq] at hinv
  exact hne hinv.symm

@[simp] theorem lookup_mapVals (f : κ → ν → μ) (m : FinMap κ ν) (k : κ) :
    (m.mapVals f).lookup k = (m.lookup k).map (f k) :=
  List.dlookup_map₂ (f := f) k

@[simp] theorem lookup_retain (p : κ → ν → Bool) (m : FinMap κ ν) (k : κ) :
    (m.retain p).lookup k = (m.lookup k).filter (p k) := by
  ext v
  rw [← Option.mem_def, AList.mem_lookup_iff]
  simp only [retain, List.mem_filter, Option.filter_eq_some_iff]
  rw [mem_entries_iff]

theorem lookup_eq_none_of_size_zero {m : FinMap κ ν} (h : m.size = 0) (k : κ) :
    m.lookup k = none := by
  have hnil : m.entries = [] := List.length_eq_zero_iff.mp h
  rw [AList.lookup_eq_none, AList.mem_keys, AList.keys, hnil]
  simp

theorem exists_lookup_of_size_ne_zero {m : FinMap κ ν} (h : m.size ≠ 0) :
    ∃ k v, m.lookup k = some v := by
  obtain ⟨e, he⟩ := List.exists_mem_of_ne_nil m.entries
    (fun hnil => h (by rw [size, hnil]; rfl))
  exact ⟨e.1, e.2, mem_entries_iff.mp he⟩

theorem lookup_foldl_insert (k : κ) : ∀ {es : List (Sigma fun _ : κ => ν)} (m : FinMap κ ν),
    es.NodupKeys →
      (es.foldl (fun m e => m.insert e.1 e.2) m).lookup k = (es.dlookup k).or (m.lookup k)
  | [], _, _ => rfl
  | ⟨a, b⟩ :: es, m, hnodup => by
      obtain ⟨hnot, hrest⟩ := List.nodupKeys_cons.mp hnodup
      rw [List.foldl_cons, lookup_foldl_insert k _ hrest, lookup_insert_ite]
      by_cases hk : k = a
      · subst hk
        rw [if_pos rfl, List.dlookup_cons_eq, List.dlookup_eq_none.mpr hnot]
        rfl
      · rw [if_neg hk, List.dlookup_cons_ne _ _ hk]

theorem size_eq_of_isSome {m₁ : FinMap κ ν} {m₂ : FinMap κ μ}
    (h : ∀ k, (m₁.lookup k).isSome = (m₂.lookup k).isSome) : m₁.size = m₂.size := by
  have hkeys : m₁.keys.Perm m₂.keys := by
    refine (List.perm_ext_iff_of_nodup m₁.keys_nodup m₂.keys_nodup).mpr (fun k => ?_)
    rw [← AList.mem_keys, ← AList.mem_keys, ← AList.lookup_isSome,
      ← AList.lookup_isSome, h k]
  have hlen := hkeys.length_eq
  simpa [AList.keys, List.keys, size] using hlen

theorem isSome_eq_of_size_le {m₁ : FinMap κ ν} {m₂ : FinMap κ μ}
    (hsub : ∀ k, (m₁.lookup k).isSome → (m₂.lookup k).isSome) (hsize : m₂.size ≤ m₁.size)
    (k : κ) : (m₁.lookup k).isSome = (m₂.lookup k).isSome := by
  have hkeys : m₁.keys ⊆ m₂.keys := by
    intro k hk
    rw [← AList.mem_keys, ← AList.lookup_isSome] at hk ⊢
    exact hsub k hk
  have hlen : m₂.keys.length ≤ m₁.keys.length := by
    simpa [AList.keys, List.keys, size] using hsize
  have hperm := (List.subperm_of_subset m₁.keys_nodup hkeys).perm_of_length_le hlen
  rw [Bool.eq_iff_iff, AList.lookup_isSome, AList.lookup_isSome, AList.mem_keys, AList.mem_keys,
    hperm.mem_iff]

theorem size_eq_of_inverse [DecidableEq ν] {m : FinMap κ ν} {m' : FinMap ν κ}
    (h : ∀ k v, m.lookup k = some v ↔ m'.lookup v = some k) : m.size = m'.size := by
  have hnodup : (m.entries.map Sigma.snd).Nodup := by
    refine List.Nodup.map_on ?_ m.nodupKeys.nodup
    rintro ⟨k₁, v₁⟩ h₁ ⟨k₂, v₂⟩ h₂ hv
    obtain rfl : v₁ = v₂ := hv
    have hk₁ := (h k₁ v₁).mp (mem_entries_iff.mp h₁)
    have hk₂ := (h k₂ v₁).mp (mem_entries_iff.mp h₂)
    rw [hk₁, Option.some.injEq] at hk₂
    rw [hk₂]
  have hperm : (m.entries.map Sigma.snd).Perm m'.keys := by
    refine (List.perm_ext_iff_of_nodup hnodup m'.keys_nodup).mpr (fun v => ?_)
    rw [← AList.mem_keys, ← AList.lookup_isSome, Option.isSome_iff_exists, List.mem_map]
    constructor
    · rintro ⟨⟨k, v'⟩, he, rfl⟩
      exact ⟨k, (h k v').mp (mem_entries_iff.mp he)⟩
    · rintro ⟨k, hk⟩
      exact ⟨⟨k, v⟩, mem_entries_iff.mpr ((h k v).mpr hk), rfl⟩
  have hlen := hperm.length_eq
  simpa [AList.keys, List.keys, size] using hlen

end Lookup

@[simp] theorem size_mapVals (f : κ → ν → μ) (m : FinMap κ ν) :
    (m.mapVals f).size = m.size := by
  simp [mapVals, size]

end FinMap
