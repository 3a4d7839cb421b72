import Rekha.Server.GetAligned
import Rekha.Server.Native

/-!
# The columns of a query response

A query response has up to four arrays with one inner list per query. Clients
expect a rectangle, so shorter results are padded: to the length of the first
query's results. The arrays are rectangular exactly when no later query has more
results than the first (`query_rectangular_iff`).
-/

namespace Rekha.Server.Native

open Outcome

/-- An array of inner lists of one width, each with its results in front and padding
behind them. -/
def IsColumn {α : Type} (width : ℕ) (f : ScoredPoint → α) (filler : α)
    (allResults : List (List ScoredPoint)) (column : List (List α)) : Prop :=
  List.Forall₂ (fun results inner => inner.length = width ∧
    ∃ n, inner = results.map f ++ List.replicate n filler) allResults column

/-- All arrays that are present have one inner list per query, of one common width. -/
structure IsRectangle (width : ℕ) (allResults : List (List ScoredPoint)) (res : QueryResponse) :
    Prop where
  ids : IsColumn width (fun r => r.id) "" allResults res.ids
  distances : ∀ column, res.distances = some column →
    IsColumn width (fun r => r.distance) infinity allResults column
  metadatas : ∀ column, res.metadatas = some column →
    IsColumn width (fun r => r.metadata) none allResults column
  documents : ∀ column, res.documents = some column →
    IsColumn width (fun r => r.document) none allResults column

/-- No query has more results than the first. -/
def FirstIsLongest (allResults : List (List ScoredPoint)) : Prop :=
  ∀ first ∈ allResults.head?, ∀ results ∈ allResults, results.length ≤ first.length

section Columns

variable {α : Type} {k : ℕ} {f : ScoredPoint → α} {filler : α} {first : List ScoredPoint}
  {rest allResults : List (List ScoredPoint)} {include_ : List String}

theorem padTo_eq (k : ℕ) (filler : α) (vec : List α) :
    padTo k filler vec = vec ++ List.replicate (k - vec.length) filler := by
  unfold padTo
  split
  · rfl
  · rename_i hle
    rw [Nat.sub_eq_zero_of_le (not_lt.mp hle), List.replicate_zero, List.append_nil]

theorem length_padTo (k : ℕ) (filler : α) (vec : List α) :
    (padTo k filler vec).length = max vec.length k := by
  rw [padTo_eq, List.length_append, List.length_replicate]
  omega

theorem isColumn_padded (h : ∀ results ∈ allResults, results.length ≤ k) :
    IsColumn k f filler allResults
      ((allResults.map fun results => results.map f).map (padTo k filler)) := by
  rw [IsColumn, List.map_map, List.forall₂_map_right_iff, List.forall₂_same]
  intro results hmem
  refine ⟨?_, k - results.length, ?_⟩
  · rw [Function.comp_apply, length_padTo, List.length_map]
    exact max_eq_right (h results hmem)
  · rw [Function.comp_apply, padTo_eq, List.length_map]

theorem isColumn_requested {p : Prop} [Decidable p]
    (h : ∀ results ∈ allResults, results.length ≤ k) {column : List (List α)}
    (hcolumn : (if p then some ((allResults.map fun results => results.map f).map
      (padTo k filler)) else none) = some column) : IsColumn k f filler allResults column := by
  rw [Option.ite_none_right_eq_some, Option.some.injEq] at hcolumn
  rw [← hcolumn.2]
  exact isColumn_padded h

theorem isRectangle_queryResponse (h : FirstIsLongest (first :: rest)) :
    IsRectangle first.length (first :: rest) (queryResponse include_ (first :: rest)) := by
  have hle := h first rfl
  exact ⟨isColumn_padded hle, fun _ => isColumn_requested hle, fun _ => isColumn_requested hle,
    fun _ => isColumn_requested hle⟩

theorem FirstIsLongest.of_isRectangle {width : ℕ}
    (h : IsRectangle width (first :: rest) (queryResponse include_ (first :: rest))) :
    FirstIsLongest (first :: rest) := by
  have hids : IsColumn width (fun r => r.id) "" (first :: rest)
      (((first :: rest).map fun results => results.map fun r => r.id).map
        (padTo first.length "")) := h.ids
  rw [IsColumn, List.map_map, List.forall₂_map_right_iff, List.forall₂_same] at hids
  have hwidth : ∀ results ∈ first :: rest, max results.length first.length = width := by
    intro results hmem
    rw [← (hids results hmem).1, Function.comp_apply, length_padTo, List.length_map]
  intro first' hfirst results hmem
  obtain rfl : first = first' := Option.some.inj hfirst
  have hown := hwidth first List.mem_cons_self
  have hother := hwidth results hmem
  omega

end Columns

theorem queryRecords_ok {K : Kernels} {seen : ℕ → Engine} {id : Uuid} {req : QueryRequest}
    {res : QueryResponse} (h : queryRecords K seen id req = .ok res) :
    ∃ first rest, queryAll K seen id req = .ok (first :: rest) ∧
      (first :: rest).length = req.queryEmbeddings.length ∧
      res = queryResponse req.include_ (first :: rest) := by
  obtain ⟨_, hvalid, h⟩ := except_bind_ok.mp h
  obtain ⟨allResults, hresults, h⟩ := except_bind_ok.mp h
  obtain rfl := Except.ok.inj h
  have hlen : allResults.length = req.queryEmbeddings.length := by
    rw [← (mapM_ok.mp hresults).length_eq, List.length_zipIdx]
  cases allResults with
  | nil =>
      obtain ⟨_, hnonempty, -⟩ := except_bind_ok.mp hvalid
      rw [rejectIf, if_pos (List.eq_nil_of_length_eq_zero hlen.symm)] at hnonempty
      cases hnonempty
  | cons first rest => exact ⟨first, rest, hresults, hlen, rfl⟩

theorem rectangular_iff (include_ : List String) (first : List ScoredPoint)
    (rest : List (List ScoredPoint)) :
    (∃ width, IsRectangle width (first :: rest) (queryResponse include_ (first :: rest))) ↔
      FirstIsLongest (first :: rest) := by
  constructor
  · rintro ⟨width, h⟩
    exact .of_isRectangle h
  · intro h
    exact ⟨_, isRectangle_queryResponse h⟩

/-- **Query responses are rectangular exactly when no later query has more results
than the first.** -/
theorem query_rectangular_iff (include_ : List String) (first : List ScoredPoint)
    (rest : List (List ScoredPoint)) :
    ((∃ width, IsRectangle width (first :: rest) (queryResponse include_ (first :: rest))) ↔
      FirstIsLongest (first :: rest)) ∧
    ∀ K seen id req res, queryRecords K seen id req = .ok res →
      ∃ allResults, queryAll K seen id req = .ok allResults ∧
        allResults.length = req.queryEmbeddings.length ∧
        ((∃ width, IsRectangle width allResults res) ↔ FirstIsLongest allResults) := by
  refine ⟨rectangular_iff include_ first rest, fun K seen id req res h => ?_⟩
  obtain ⟨first, rest, hresults, hlen, rfl⟩ := queryRecords_ok h
  exact ⟨_, hresults, hlen, rectangular_iff _ _ _⟩

theorem queryRecords_fresh :
    queryRecords (exactKernels fun _ _ _ => ⟨0⟩) (fun _ => engineWith (.fresh demoConfig))
      demoConfig.id ⟨[zero], 1, none, ["distances"]⟩ = .ok (queryResponse ["distances"] [[]]) := by
  have hvalid : validateQuery ⟨[zero], 1, none, ["distances"]⟩ = .ok () := rfl
  have hcoll : (engineWith (.fresh demoConfig)).collection demoConfig.id =
      .ok (.fresh demoConfig) := by
    rw [Engine.collection, engineWith, AList.lookup_insert]
  have hone : (engineWith (.fresh demoConfig)).query (exactKernels fun _ _ _ => ⟨0⟩) demoConfig.id
      zero 1 ⟨0, none, 4⟩ = .ok [] := by
    rw [Engine.query, hcoll]
    rfl
  refine except_bind_ok.mpr ⟨(), hvalid, except_bind_ok.mpr ⟨[[]], ?_, rfl⟩⟩
  exact mapM_ok.mpr (.cons hone .nil)

/-- One result beside none, and the empty collection through the route. -/
theorem query_rectangular_iff_demo :
    ((∃ width, IsRectangle width [[⟨"a", ⟨0⟩, none, none⟩], []]
      (queryResponse ["distances"] [[⟨"a", ⟨0⟩, none, none⟩], []])) ↔
        FirstIsLongest [[⟨"a", ⟨0⟩, none, none⟩], []]) ∧
    ∃ allResults, queryAll (exactKernels fun _ _ _ => ⟨0⟩)
        (fun _ => engineWith (.fresh demoConfig)) demoConfig.id
        ⟨[zero], 1, none, ["distances"]⟩ = .ok allResults ∧
      allResults.length = 1 ∧
      ((∃ width, IsRectangle width allResults (queryResponse ["distances"] [[]])) ↔
        FirstIsLongest allResults) :=
  ⟨(query_rectangular_iff ["distances"] _ _).1,
    (query_rectangular_iff [] [] []).2 _ _ _ _ _ queryRecords_fresh⟩

/-- **The second query's results are wider** than what the first is padded to. -/
theorem response_not_rectangular :
    (queryResponse [] [[], [⟨"a", ⟨0⟩, none, none⟩]]).ids = [[], ["a"]] ∧
      ¬ ∃ width, IsRectangle width [[], [⟨"a", ⟨0⟩, none, none⟩]]
        (queryResponse [] [[], [⟨"a", ⟨0⟩, none, none⟩]]) := by
  refine ⟨rfl, ?_⟩
  rintro ⟨width, h⟩
  have hlen := FirstIsLongest.of_isRectangle h [] rfl [⟨"a", ⟨0⟩, none, none⟩] (by simp)
  exact absurd hlen (by decide)

end Rekha.Server.Native
