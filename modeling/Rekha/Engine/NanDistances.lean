import Rekha.Engine.IndexPath
import Rekha.Lib.PartialSort

/-!
# Results with a NaN distance

`query` sorts with `partial_cmp(..).unwrap_or(Equal)`, cuts after `k`, and
promises the results in ascending order. A NaN compares equal to everything, so
with one among the results `sort_by` may leave a far record in front of it and a
near one behind. The promise holds for all that `sort_by` may do exactly when no
distance is NaN or all the others are the same (`top_k_iff`).
-/

namespace Rekha

open PartialSort

/-- `a.distance.partial_cmp(&b.distance).unwrap_or(Ordering::Equal)`. -/
def ScoredPoint.compare (a b : ScoredPoint) : Ordering :=
  (a.distance.partialCmp b.distance).getD .eq

def ScoredPoint.comparable (p : ScoredPoint) : Option ℤ :=
  if p.distance.isNaN then none else some p.key

/-- What `sort_by` guarantees with any comparator: no adjacent pair of its result
is out of order. -/
def Kernels.Settles (K : Kernels) : Prop :=
  ∀ l, (K.unordered l).IsChain fun a b => a.compare b ≠ .gt

/-- The promise of `query` about the sorted results: the first `k` are in
ascending order, and no result that is cut off is nearer than one of them. -/
structure AscendingTopK (sorted : List ScoredPoint) (k : ℕ) : Prop where
  ascending : (sorted.take k).Pairwise fun a b =>
    ∀ x ∈ a.comparable, ∀ y ∈ b.comparable, x ≤ y
  nearest : ∀ a ∈ sorted.take k, ∀ b ∈ sorted.drop k,
    ∀ x ∈ a.comparable, ∀ y ∈ b.comparable, x ≤ y

theorem ScoredPoint.compare_ne_gt_iff (a b : ScoredPoint) :
    a.compare b ≠ .gt ↔ InOrder ScoredPoint.comparable a b := by
  rw [ScoredPoint.compare, Ieee.partialCmp, InOrder, comparable, comparable]
  cases ha : a.distance.isNaN with
  | true => simp
  | false =>
      cases hb : b.distance.isNaN with
      | true => simp
      | false => simp [key, compare_le_iff_le]

theorem ascendingTopK_iff {sorted : List ScoredPoint} {k : ℕ} :
    AscendingTopK sorted k ↔ TopK ScoredPoint.comparable sorted k :=
  ⟨fun h => ⟨h.ascending, h.nearest⟩, fun h => ⟨h.ordered, h.nearest⟩⟩

/-! ## What the engine's sort may return -/

section Sorting

variable {K : Kernels} {out l : List ScoredPoint} {k : ℕ}

theorem Kernels.Settles.sortsTo (hK : K.Settles) (out : List ScoredPoint) :
    SortsTo ScoredPoint.comparable out (sortByDistance K out) := by
  refine ⟨perm_sortByDistance K out, ?_⟩
  by_cases hnan : ∀ p ∈ out, p.distance.isNaN = false
  · rw [sortByDistance_eq hnan]
    have hsorted := TopK.pairwise_sortOn ScoredPoint.key out
    have hmem : ∀ p ∈ TopK.sortOn ScoredPoint.key out, p.comparable = some p.key := by
      intro p hp
      rw [ScoredPoint.comparable, hnan p ((TopK.perm_sortOn _ _).mem_iff.mp hp)]
      rfl
    refine (hsorted.imp_of_mem ?_).isChain
    intro a b ha hb hab x hx y hy
    rw [hmem a ha, Option.mem_some_iff] at hx
    rw [hmem b hb, Option.mem_some_iff] at hy
    rwa [← hx, ← hy]
  · have hany : (out.any fun p => p.distance.isNaN) = true := by
      rw [List.any_eq_true]
      by_contra hnone
      apply hnan
      intro p hp
      rw [← Bool.not_eq_true]
      exact fun htrue => hnone ⟨p, hp, htrue⟩
    rw [sortByDistance, if_pos hany]
    exact (hK out).imp fun a b => (a.compare_ne_gt_iff b).mp

theorem exists_settles (distance : Distance → Embedding → Embedding → F32)
    (hl : SortsTo ScoredPoint.comparable out l) (hnan : ∃ p ∈ out, p.distance.isNaN = true) :
    ∃ K : Kernels, K.Settles ∧ sortByDistance K out = l := by
  classical
  let sort : List ScoredPoint → List ScoredPoint := fun l' =>
    if l' = out then l else arrange ScoredPoint.comparable l'
  have hsort : ∀ l', SortsTo ScoredPoint.comparable l' (sort l') := by
    intro l'
    by_cases heq : l' = out
    · subst heq
      simpa only [sort, if_pos] using hl
    · simpa only [sort, if_neg heq] using sortsTo_arrange _ l'
  refine ⟨{ exactKernels distance with
    unordered := sort, unordered_perm := fun l' => (hsort l').perm }, ?_, ?_⟩
  · intro l'
    exact (hsort l').chain.imp fun a b => (a.compare_ne_gt_iff b).mpr
  · have hany : (out.any fun p => p.distance.isNaN) = true := List.any_eq_true.mpr hnan
    rw [sortByDistance, if_pos hany]
    exact if_pos rfl

/-- **The first `k` results are the nearest ones in ascending order**, whatever
`sort_by` does, exactly when no distance is NaN or all the others are the same. -/
theorem top_k_iff (hk : 1 ≤ k) :
    (∀ K : Kernels, K.Settles → AscendingTopK (sortByDistance K out) k) ↔
      (∀ p ∈ out, p.distance.isNaN = false) ∨
        ∀ p ∈ out, ∀ q ∈ out, p.distance.isNaN = false → q.distance.isNaN = false →
          p.key = q.key := by
  have hsome : ∀ p : ScoredPoint, p.comparable.isSome ↔ p.distance.isNaN = false := by
    intro p
    rw [ScoredPoint.comparable]
    cases p.distance.isNaN <;> simp
  have hmem : ∀ (p : ScoredPoint) (x : ℤ),
      x ∈ p.comparable ↔ p.distance.isNaN = false ∧ p.key = x := by
    intro p x
    rw [ScoredPoint.comparable]
    cases p.distance.isNaN <;> simp
  have hcondition : ((∀ p ∈ out, p.distance.isNaN = false) ∨
      ∀ p ∈ out, ∀ q ∈ out, p.distance.isNaN = false → q.distance.isNaN = false →
        p.key = q.key) ↔ ∀ l, SortsTo ScoredPoint.comparable out l →
          TopK ScoredPoint.comparable l k := by
    rw [topK_iff hk]
    refine or_congr (forall₂_congr fun p _ => (hsome p).symm) (forall₂_congr fun p _ => ?_)
    apply forall₂_congr
    intro q _
    constructor
    · intro h x hx y hy
      obtain ⟨hp, rfl⟩ := (hmem p x).mp hx
      obtain ⟨hq, rfl⟩ := (hmem q y).mp hy
      exact h hp hq
    · intro h hp hq
      exact h _ ((hmem p _).mpr ⟨hp, rfl⟩) _ ((hmem q _).mpr ⟨hq, rfl⟩)
  rw [hcondition]
  constructor
  · intro hall l hl
    by_cases hnan : ∃ p ∈ out, p.distance.isNaN = true
    · obtain ⟨K, hK, rfl⟩ := exists_settles (fun _ _ _ => ⟨0⟩) hl hnan
      exact ascendingTopK_iff.mp (hall K hK)
    · refine topK_of_pairwise (pairwise_of_isChain (fun p hp => (hsome p).mpr ?_) hl.chain)
      rw [← Bool.not_eq_true]
      exact fun htrue => hnan ⟨p, hl.perm.mem_iff.mp hp, htrue⟩
  · intro hall K hK
    exact ascendingTopK_iff.mpr (hall _ (hK.sortsTo out))

end Sorting

def numberAndNan : List ScoredPoint :=
  [⟨"a", ⟨0#32⟩, none, none⟩, ⟨"b", ⟨0x7FC00000#32⟩, none, none⟩]

theorem top_k_iff_demo :
    (∀ p ∈ numberAndNan, ∀ q ∈ numberAndNan, p.distance.isNaN = false →
      q.distance.isNaN = false → p.key = q.key) ∧
    ((∀ K : Kernels, K.Settles → AscendingTopK (sortByDistance K numberAndNan) 1) ↔
      (∀ p ∈ numberAndNan, p.distance.isNaN = false) ∨
        ∀ p ∈ numberAndNan, ∀ q ∈ numberAndNan, p.distance.isNaN = false →
          q.distance.isNaN = false → p.key = q.key) :=
  ⟨by decide, top_k_iff (by decide)⟩

/-! ## A query that misses the nearest record -/

/-- A sort that leaves a list alone in which no adjacent pair is out of order. -/
def leaveSettled (l : List ScoredPoint) : List ScoredPoint :=
  if l.IsChain fun a b => a.compare b ≠ .gt then l
  else arrange ScoredPoint.comparable l

theorem perm_leaveSettled (l : List ScoredPoint) : (leaveSettled l).Perm l := by
  unfold leaveSettled
  split
  · exact List.Perm.refl l
  · exact perm_arrange _ l

/-- Inner-product distances from `[0, 1]`: `0 · ∞` is NaN. -/
def innerDistance (_ : Distance) (_ v : Embedding) : F32 :=
  if v = [⟨0x7F800000#32⟩, ⟨0#32⟩] then ⟨0x7FC00000#32⟩
  else if v = [⟨0#32⟩, ⟨0x40000000#32⟩] then ⟨0xBF800000#32⟩
  else ⟨0#32⟩

def innerKernels : Kernels :=
  { exactKernels innerDistance with
    unordered := leaveSettled
    unordered_perm := perm_leaveSettled }

theorem settles_innerKernels : innerKernels.Settles := by
  intro l
  show (leaveSettled l).IsChain _
  unfold leaveSettled
  split
  · assumption
  · exact (isChain_arrange _ l).imp fun a b => (a.compare_ne_gt_iff b).mpr

/-- Two-dimensional vectors under the inner product. -/
def innerConfig : CollectionConfig := { demoConfig with dimension := 2, space := .ip }

/-- **A NaN hides the nearest record**: `a` is at distance `-1`, `c` at `0`, and a
query for one record returns `c`. -/
theorem nan_hides_nearest : ∃ h c q out, Reachable (fun _ => True) innerConfig h c ∧
    c.query innerKernels q 1 {} = .ok ((sortByDistance innerKernels out).take 1) ∧
      ((sortByDistance innerKernels out).take 1).map ScoredPoint.id = ["c"] ∧
      innerKernels.Settles ∧ ¬ AscendingTopK (sortByDistance innerKernels out) 1 := by
  let calls : List Call := [
    .add true ["a"] [[⟨0#32⟩, ⟨0x40000000#32⟩]] none none,
    .add true ["b"] [[⟨0x7F800000#32⟩, ⟨0#32⟩]] none none,
    .add true ["c"] [[⟨0#32⟩, ⟨0x3F800000#32⟩]] none none]
  let q : Embedding := [⟨0#32⟩, ⟨0x3F800000#32⟩]
  obtain ⟨c, hrun, hP⟩ : ∃ c, runAll calls (Collection.fresh innerConfig) = .ok c ∧
      decide (c.config.dimension = 2 ∧
        c.index.len + c.buffer.length ≤ c.config.hnsw.maxScan ∧
        (sortByDistance innerKernels (c.bruteForce innerKernels q c.config.space)).map
          (fun p => (p.id, p.comparable)) =
            [("c", some 0), ("b", none), ("a", some (-1065353216))]) = true :=
    exists_runAll (by decide +kernel)
  obtain ⟨hdim, hscan, hsorted⟩ := of_decide_eq_true hP
  have hquery : c.query innerKernels q 1 {} = _ :=
    Collection.query_unfiltered rfl fun _ => hdim.symm
  rw [if_pos hscan] at hquery
  obtain ⟨far, rest, hsort, hfar, hrest⟩ := List.map_eq_cons_iff.mp hsorted
  obtain ⟨nan, rest, rfl, -, hrest⟩ := List.map_eq_cons_iff.mp hrest
  obtain ⟨near, rest, rfl, hnear, -⟩ := List.map_eq_cons_iff.mp hrest
  obtain ⟨hid, hzero⟩ := Prod.mk.inj hfar
  refine ⟨_, c, q, c.bruteForce innerKernels q c.config.space,
    Reachable.fresh.runAll (fun _ _ => trivial) hrun, hquery, ?_, settles_innerKernels, ?_⟩
  · rw [hsort, ← hid]
    rfl
  · rintro ⟨-, hnearest⟩
    rw [hsort] at hnearest
    have hle := hnearest far List.mem_cons_self near (by simp) 0 hzero (-1065353216)
      (Prod.mk.inj hnear).2
    exact absurd hle (by decide)

end Rekha
