import Rekha.Core.Types

/-!
# The ANN index wrapper

`UsearchIndex` keeps the maps between external ids and the opaque labels of the
usearch graph. The graph is its stored vectors by label; the walk that answers a
search is a parameter (`GraphSearch`), as is everything about connectivity.
Labels are handed out in increasing order and never reused.
-/

namespace Rekha

/-- The stored vectors of a usearch graph, by label. -/
abbrev Graph := FinMap ℕ Embedding

/-- `usearch::Index::search`: labels and distances found for a query with `k`
results and beam width `ef`. -/
abbrev GraphSearch :=
  Distance → Graph → Embedding → (k ef : ℕ) → Except String (List (ℕ × F32))

inductive IndexError where
  | usearch (msg : String)
  | dimensionMismatch (index got : ℕ)
  | duplicateId (id : Id)
  | io
  | corrupt (msg : String)

structure IndexHit where
  id : Id
  distance : F32

/-- The persisted id/label bookkeeping. -/
structure IndexMeta where
  labels : FinMap Id ℕ
  ids : FinMap ℕ Id
  nextLabel : ℕ
  space : String
  dimension : ℕ

structure UsearchIndex where
  inner : Graph
  space : Distance
  dimension : ℕ
  labels : FinMap Id ℕ
  ids : FinMap ℕ Id
  nextLabel : ℕ

namespace UsearchIndex

def withHnsw (space : Distance) (dimension : ℕ) : UsearchIndex :=
  ⟨∅, space, dimension, ∅, ∅, 0⟩

/-- Insert `id`. The graph refuses a label it already holds; the maps are then
rolled back, the label stays consumed. -/
def add (x : UsearchIndex) (id : Id) (embedding : Embedding) :
    EStateM.Result IndexError UsearchIndex Unit :=
  if embedding.length ≠ x.dimension then
    .error (.dimensionMismatch x.dimension embedding.length) x
  else if (x.labels.lookup id).isSome then .error (.duplicateId id) x
  else
    let label := x.nextLabel
    if (x.inner.lookup label).isSome then
      -- the graph holds a label that the maps do not know
      .error (.usearch "Duplicate keys not allowed in high-level wrappers")
        { x with
          labels := (x.labels.insert id label).erase id
          ids := (x.ids.insert label id).erase label
          nextLabel := label + 1 }
    else
      .ok () { x with
        inner := x.inner.insert label embedding
        labels := x.labels.insert id label
        ids := x.ids.insert label id
        nextLabel := label + 1 }

/-- Physically remove `id` if present. Never fails: the outcome of the graph
removal is ignored. -/
def delete (x : UsearchIndex) (id : Id) : UsearchIndex :=
  match x.labels.lookup id with
  | none => x
  | some label =>
      { x with
        inner := x.inner.erase label
        labels := x.labels.erase id
        ids := x.ids.erase label }

/-- k-NN search: labels that no id carries are filtered out. -/
def search (x : UsearchIndex) (find : GraphSearch) (query : Embedding) (k ef : ℕ) :
    Except IndexError (List IndexHit) :=
  if query.length ≠ x.dimension then
    .error (.dimensionMismatch x.dimension query.length)
  else
    match find x.space x.inner query k ef with
    | .error msg => .error (.usearch msg)
    | .ok found => .ok (found.filterMap fun p =>
        (x.ids.lookup p.1).map fun id => ⟨id, p.2⟩)

def len (x : UsearchIndex) : ℕ := x.inner.size

def contains (x : UsearchIndex) (id : Id) : Bool := (x.labels.lookup id).isSome

/-- What `save` writes next to the graph. -/
def savedMeta (x : UsearchIndex) : IndexMeta :=
  ⟨x.labels, x.ids, x.nextLabel, x.space.name, x.dimension⟩

/-- Restore an index from the two files, either of which may be missing. -/
def load (indexBin : Option Graph) (indexMeta : Option IndexMeta) (space : Distance)
    (dimension : ℕ) : Except IndexError UsearchIndex :=
  match indexMeta with
  | none => .error .io
  | some m =>
      if m.space ≠ space.name then
        .error (.corrupt s!"space mismatch: meta says `{m.space}`, expected `{space.name}`")
      else if m.dimension ≠ dimension then
        .error (.corrupt s!"dimension mismatch: meta says {m.dimension}, expected {dimension}")
      else
        match indexBin with
        | none => .error (.usearch "cannot open the index file")
        | some inner =>
            if inner.size ≠ m.labels.size then
              .error (.corrupt s!"label count mismatch: {m.labels.size} labels but the graph holds {inner.size} vectors")
            else .ok ⟨inner, space, dimension, m.labels, m.ids, m.nextLabel⟩

/-- The vector the graph stores for `id`. -/
def vector (x : UsearchIndex) (id : Id) : Option Embedding :=
  (x.labels.lookup id).bind x.inner.lookup

/-- Labels and ids are inverse to each other and to the graph, below the label
counter. -/
structure Wf (x : UsearchIndex) : Prop where
  ids_of_labels : ∀ id label, x.labels.lookup id = some label → x.ids.lookup label = some id
  labels_of_ids : ∀ label id, x.ids.lookup label = some id → x.labels.lookup id = some label
  graph : ∀ label, (x.inner.lookup label).isSome = (x.ids.lookup label).isSome
  below : ∀ label, (x.ids.lookup label).isSome → label < x.nextLabel

theorem wf_withHnsw (space : Distance) (dimension : ℕ) : Wf (withHnsw space dimension) := by
  constructor <;> simp [withHnsw]

theorem add_ok {x x' : UsearchIndex} {id : Id} {e : Embedding} {u : Unit}
    (h : x.add id e = .ok u x') :
    e.length = x.dimension ∧ x.labels.lookup id = none ∧
      x.inner.lookup x.nextLabel = none ∧
      x' = { x with
        inner := x.inner.insert x.nextLabel e
        labels := x.labels.insert id x.nextLabel
        ids := x.ids.insert x.nextLabel id
        nextLabel := x.nextLabel + 1 } := by
  rw [add] at h
  split at h
  · exact absurd h (by simp)
  · rename_i hlen
    split at h
    · exact absurd h (by simp)
    · rename_i hdup
      simp only at h
      split at h
      · exact absurd h (by simp)
      · rename_i hlabel
        simp only [EStateM.Result.ok.injEq, true_and] at h
        exact ⟨by simpa using hlen, by simpa using hdup, by simpa using hlabel, h.symm⟩

section Wf

variable {x x' : UsearchIndex} {id : Id} {e : Embedding} {u : Unit}

theorem exists_add_iff : (∃ x', x.add id e = .ok () x') ↔
    e.length = x.dimension ∧ x.labels.lookup id = none ∧ x.inner.lookup x.nextLabel = none := by
  constructor
  · rintro ⟨x', h⟩
    obtain ⟨hlen, hnew, hfree, -⟩ := add_ok h
    exact ⟨hlen, hnew, hfree⟩
  · rintro ⟨hlen, hnew, hfree⟩
    refine ⟨{ x with
      inner := x.inner.insert x.nextLabel e
      labels := x.labels.insert id x.nextLabel
      ids := x.ids.insert x.nextLabel id
      nextLabel := x.nextLabel + 1 }, ?_⟩
    simp [UsearchIndex.add, hlen, hnew, hfree]

/-- An index whose maps agree with its graph accepts every new id of the right
dimension: the next label is free. -/
theorem Wf.add_succeeds (hx : Wf x) (hlen : e.length = x.dimension)
    (hnew : x.labels.lookup id = none) : ∃ x', x.add id e = .ok () x' := by
  refine exists_add_iff.mpr ⟨hlen, hnew, ?_⟩
  have hfree : (x.inner.lookup x.nextLabel).isSome = false := by
    rw [hx.graph]
    cases hl : (x.ids.lookup x.nextLabel).isSome with
    | false => rfl
    | true => exact absurd (hx.below _ hl) (lt_irrefl _)
  simpa using hfree

theorem Wf.add (hx : Wf x) (h : x.add id e = .ok u x') : Wf x' := by
  obtain ⟨-, hnew, hfree, rfl⟩ := add_ok h
  have hnot : x.ids.lookup x.nextLabel = none := by
    have := hx.graph x.nextLabel
    rw [hfree] at this
    simpa using this.symm
  constructor
  · intro id' label hl
    simp only [FinMap.lookup_insert_ite] at hl ⊢
    by_cases hid : id' = id
    · subst hid
      simp only [if_true, Option.some.injEq] at hl
      subst hl
      simp
    · rw [if_neg hid] at hl
      have hids := hx.ids_of_labels id' label hl
      rw [if_neg, hids]
      rintro rfl
      rw [hnot] at hids
      exact absurd hids (by simp)
  · intro label id' hl
    simp only [FinMap.lookup_insert_ite] at hl ⊢
    by_cases hlab : label = x.nextLabel
    · subst hlab
      simp only [if_true, Option.some.injEq] at hl
      subst hl
      simp
    · rw [if_neg hlab] at hl
      have hlabels := hx.labels_of_ids label id' hl
      rw [if_neg, hlabels]
      rintro rfl
      rw [hnew] at hlabels
      exact absurd hlabels (by simp)
  · intro label
    simp only [FinMap.lookup_insert_ite]
    by_cases hlab : label = x.nextLabel
    · simp [hlab]
    · simp [hlab, hx.graph]
  · intro label hl
    simp only [FinMap.lookup_insert_ite] at hl ⊢
    by_cases hlab : label = x.nextLabel
    · omega
    · rw [if_neg hlab] at hl
      have := hx.below label hl
      omega

theorem Wf.vector_add (hx : Wf x) (h : x.add id e = .ok u x') (id' : Id) :
    x'.vector id' = if id' = id then some e else x.vector id' := by
  obtain ⟨-, hnew, hfree, rfl⟩ := add_ok h
  simp only [vector, FinMap.lookup_insert_ite]
  by_cases hid : id' = id
  · simp [hid]
  · simp only [if_neg hid]
    cases hl : x.labels.lookup id' with
    | none => rfl
    | some label =>
        have hin : (x.inner.lookup label).isSome := by
          rw [hx.graph, hx.ids_of_labels id' label hl]
          rfl
        have hlab : label ≠ x.nextLabel := by
          rintro rfl
          rw [hfree] at hin
          exact absurd hin (by simp)
        simp [hlab]

theorem Wf.delete (hx : Wf x) (id : Id) : Wf (x.delete id) := by
  rw [UsearchIndex.delete]
  cases hl : x.labels.lookup id with
  | none => exact hx
  | some label =>
      constructor
      · intro id' label' hl'
        exact FinMap.lookup_erase_of_inverse hx.ids_of_labels (hx.ids_of_labels id label hl) hl'
      · intro label' id' hl'
        exact FinMap.lookup_erase_of_inverse hx.labels_of_ids hl hl'
      · intro label'
        simp only [FinMap.lookup_erase_ite]
        by_cases hlab : label' = label
        · simp [hlab]
        · simp [hlab, hx.graph]
      · intro label' hl'
        obtain ⟨id', hid'⟩ := Option.isSome_iff_exists.mp hl'
        exact hx.below label'
          (Option.isSome_of_eq_some (FinMap.lookup_erase_eq_some.mp hid').2)

theorem Wf.vector_delete (hx : Wf x) (id id' : Id) :
    (x.delete id).vector id' = if id' = id then none else x.vector id' := by
  rw [UsearchIndex.delete]
  cases hl : x.labels.lookup id with
  | none =>
      by_cases hid : id' = id
      · subst hid
        simp [vector, hl]
      · simp [hid]
  | some label =>
      simp only [vector, FinMap.lookup_erase_ite]
      by_cases hid : id' = id
      · simp [hid]
      · simp only [if_neg hid]
        cases hl' : x.labels.lookup id' with
        | none => rfl
        | some label' =>
            have hne : label' ≠ label := by
              rintro rfl
              have h₁ := hx.ids_of_labels id' label' hl'
              rw [hx.ids_of_labels id label' hl, Option.some.injEq] at h₁
              exact hid h₁.symm
            simp [hne]

theorem labels_delete (x : UsearchIndex) (id id' : Id) :
    (x.delete id).labels.lookup id' = if id' = id then none else x.labels.lookup id' := by
  rw [UsearchIndex.delete]
  cases hl : x.labels.lookup id with
  | none =>
      by_cases hid : id' = id
      · subst hid
        simp [hl]
      · simp [hid]
  | some label => simp only [FinMap.lookup_erase_ite]

theorem Wf.isSome_vector (hx : Wf x) (id : Id) :
    (x.vector id).isSome = (x.labels.lookup id).isSome := by
  rw [vector]
  cases hl : x.labels.lookup id with
  | none => rfl
  | some label =>
      rw [Option.bind_some, hx.graph, hx.ids_of_labels id label hl]
      rfl

end Wf

theorem delete_dimension (x : UsearchIndex) (id : Id) :
    (x.delete id).dimension = x.dimension ∧ (x.delete id).space = x.space := by
  rw [delete]
  cases x.labels.lookup id <;> exact ⟨rfl, rfl⟩

theorem delete_nextLabel (x : UsearchIndex) (id : Id) :
    (x.delete id).nextLabel = x.nextLabel := by
  rw [delete]
  cases x.labels.lookup id <;> rfl

end UsearchIndex

end Rekha
