import Rekha.Engine.Buffer
import Rekha.Engine.Listed
import Rekha.Engine.Vectors
import Rekha.Lib.TopK

/-!
# What a query scores

The read path collects a map from id to distance in up to two loops and then
sorts it. One lemma per loop says which distance an id ends up with; for the
exact filtered path they combine into `mem_filteredExact`: an id is scored by
the vector its record holds in memory, and it is scored exactly when the live
metadata passes on canonical keys or the buffered copy of the metadata passes.
-/

namespace Rekha

open TopK

/-! ## Sorting by distance -/

def ScoredPoint.key (p : ScoredPoint) : ℤ := p.distance.orderKey

theorem perm_sortByDistance (K : Kernels) (out : List ScoredPoint) :
    (sortByDistance K out).Perm out := by
  rw [sortByDistance]
  split
  · exact K.unordered_perm out
  · exact List.perm_insertionSort _ _

theorem sortByDistance_eq {K : Kernels} {out : List ScoredPoint}
    (h : ∀ p ∈ out, p.distance.isNaN = false) :
    sortByDistance K out = sortOn ScoredPoint.key out := by
  have hany : (out.any fun p => p.distance.isNaN) = false :=
    List.any_eq_false.mpr fun p hp => by simp [h p hp]
  rw [sortByDistance, hany]
  apply insertionSort_eq_sortOn
  intro a ha b hb
  simp [Ieee.le, h a ha, h b hb, ScoredPoint.key]

namespace Collection

section Loops

variable {K : Kernels} {c : Collection} {q : Embedding} {space : Distance}

theorem lookup_orInsert (dist : FinMap Id F32) (id id' : Id) (d : F32) :
    (orInsert dist id d).lookup id' =
      (dist.lookup id').or (if id' = id then some d else none) := by
  rw [orInsert]
  split
  · rename_i hsome
    by_cases he : id' = id
    · subst he
      obtain ⟨d', hd'⟩ := Option.isSome_iff_exists.mp hsome
      simp [hd']
    · simp [he]
  · rename_i hnone
    rw [FinMap.lookup_insert_ite]
    by_cases he : id' = id
    · subst he
      rw [Option.not_isSome_iff_eq_none.mp hnone]
      rfl
    · simp [he]

theorem lookup_insertHits (keep : Id → Bool) (id : Id) : ∀ (hits : List IndexHit)
    (dist : FinMap Id F32), (insertHits keep dist hits).lookup id =
      (dist.lookup id).or
        ((hits.find? fun hit => keep hit.id && decide (hit.id = id)).map IndexHit.distance)
  | [], dist => by simp [insertHits]
  | hit :: hits, dist => by
      have hcons : insertHits keep dist (hit :: hits) = insertHits keep
          (if keep hit.id then orInsert dist hit.id hit.distance else dist) hits := rfl
      rw [hcons, lookup_insertHits keep id hits, List.find?_cons]
      cases hk : keep hit.id with
      | false => rfl
      | true =>
          simp only [Bool.true_and, if_true, lookup_orInsert]
          by_cases he : hit.id = id
          · subst he
            simp only [if_true, decide_true, Option.map_some]
            cases dist.lookup hit.id <;> rfl
          · have he' : ¬ id = hit.id := fun h => he h.symm
            simp [he, he']

/-- The distance a buffered record gives its id. -/
def bufferScore (K : Kernels) (keep : Record → Bool) (q : Embedding) (space : Distance)
    (b : Record) : Option F32 :=
  if keep b then b.embedding.map (K.distance space q) else none

theorem insertBuffer_cons (keep : Record → Bool) (b : Record) (buffer : List Record)
    (dist : FinMap Id F32) : insertBuffer K keep q space dist (b :: buffer) =
      insertBuffer K keep q space ((bufferScore K keep q space b).elim dist (dist.insert b.id))
        buffer := by
  simp only [insertBuffer, List.foldl_cons, bufferScore]
  congr 1
  cases keep b <;> cases b.embedding <;> rfl

theorem lookup_insertBuffer (keep : Record → Bool) (id : Id) : ∀ (buffer : List Record)
    (dist : FinMap Id F32), (buffer.map Record.id).Nodup →
      (insertBuffer K keep q space dist buffer).lookup id =
        ((buffer.find? fun b => decide (b.id = id)).bind (bufferScore K keep q space)).or
          (dist.lookup id)
  | [], dist, _ => by simp [insertBuffer]
  | b :: buffer, dist, hnodup => by
      rw [List.map_cons, List.nodup_cons] at hnodup
      have ih := fun dist => lookup_insertBuffer keep id buffer dist hnodup.2
      rw [insertBuffer_cons, ih, List.find?_cons]
      by_cases he : b.id = id
      · have hlater : buffer.find? (fun b => decide (b.id = id)) = none := by
          apply List.find?_eq_none.mpr
          intro b' hb'
          rw [decide_eq_true_eq]
          intro he'
          exact hnodup.1 (he ▸ he' ▸ List.mem_map_of_mem hb')
        rw [hlater, decide_eq_true he]
        simp only [Option.bind_none, Option.none_or, Option.bind_some]
        cases bufferScore K keep q space b with
        | none => rfl
        | some d =>
            rw [he, Option.elim_some, AList.lookup_insert]
            rfl
      · rw [decide_eq_false he]
        congr 1
        cases bufferScore K keep q space b with
        | none => rfl
        | some d => exact AList.lookup_insert_ne fun h => he h.symm

/-- The id and the vector in memory of the record at an offset. -/
def candidate (c : Collection) (o : ℕ) : Option (Id × Embedding) :=
  (c.idByOffset.lookup o).bind fun key => (c.records.lookup key).bind fun r =>
    r.embedding.map fun v => (r.id, v)

theorem insertCandidates_cons (o : ℕ) (offsets : List ℕ) (dist : FinMap Id F32) :
    insertCandidates K c q space dist (o :: offsets) =
      insertCandidates K c q space
        ((c.candidate o).elim dist fun p => orInsert dist p.1 (K.distance space q p.2))
        offsets := by
  simp only [insertCandidates, List.foldl_cons, candidate]
  congr 1
  cases c.idByOffset.lookup o with
  | none => rfl
  | some key =>
      simp only [Option.bind_some]
      cases c.records.lookup key with
      | none => rfl
      | some r =>
          simp only [Option.bind_some]
          cases r.embedding <;> rfl

theorem Offsets.candidate_eq (h : Offsets c) (o : ℕ) : c.candidate o =
    (c.idByOffset.lookup o).bind fun key => (c.memVector key).map fun v => (key, v) := by
  unfold candidate memVector
  cases c.idByOffset.lookup o with
  | none => rfl
  | some key =>
      simp only [Option.bind_some]
      cases hr : c.records.lookup key with
      | none => rfl
      | some r =>
          simp only [Option.bind_some, h.keyed key r hr]

/-- The exact path scores the ids of the candidate offsets by their vectors in
memory. -/
theorem Offsets.lookup_insertCandidates (h : Offsets c) (id : Id) :
    ∀ (offsets : List ℕ) (dist : FinMap Id F32),
      (insertCandidates K c q space dist offsets).lookup id =
        (dist.lookup id).or
          (if (c.offsets.lookup id).any (fun o => decide (o ∈ offsets)) then
            (c.memVector id).map (K.distance space q) else none)
  | [], dist => by simp [insertCandidates]
  | o :: offsets, dist => by
      have ih := Offsets.lookup_insertCandidates h id offsets
      rw [insertCandidates_cons, ih, h.candidate_eq]
      cases hid : c.idByOffset.lookup o with
      | none =>
          have hne : ∀ o', c.offsets.lookup id = some o' → o' ≠ o := by
            rintro o' hoff rfl
            rw [h.forth id o' hoff] at hid
            exact absurd hid (by simp)
          simp only [Option.bind_none, Option.elim_none]
          cases hoff : c.offsets.lookup id with
          | none => rfl
          | some o' => simp [hne o' hoff]
      | some key =>
          rw [Option.bind_some]
          by_cases hkey : id = key
          · subst hkey
            rw [h.back o id hid]
            cases c.memVector id with
            | none => simp
            | some v =>
                simp only [Option.map_some, Option.elim_some, lookup_orInsert, if_true]
                cases dist.lookup id <;> simp
          · have hdist : (((c.memVector key).map fun v => (key, v)).elim dist fun p =>
                orInsert dist p.1 (K.distance space q p.2)).lookup id = dist.lookup id := by
              cases c.memVector key with
              | none => rfl
              | some v =>
                  simp only [Option.map_some, Option.elim_some, lookup_orInsert, if_neg hkey]
                  exact Option.or_none
            have hne : ∀ o', c.offsets.lookup id = some o' → o' ≠ o := by
              rintro o' hoff rfl
              rw [h.forth id o' hoff, Option.some.injEq] at hid
              exact hkey hid
            rw [hdist]
            cases hoff : c.offsets.lookup id with
            | none => rfl
            | some o' => simp [hne o' hoff]

theorem mem_ascending {s : Finset ℕ} {o : ℕ} : o ∈ ascending s ↔ o ∈ s := by
  rw [ascending, List.mem_filter, List.mem_range, decide_eq_true_eq]
  refine ⟨And.right, fun h => ⟨Nat.lt_succ_of_le (Finset.le_sup (f := id) h), h⟩⟩

theorem mem_buildScored {dist : FinMap Id F32} {p : ScoredPoint} :
    p ∈ buildScored K c dist ↔ dist.lookup p.id = some p.distance ∧
      p.metadata = (c.records.lookup p.id).bind Record.metadata ∧
      p.document = (c.records.lookup p.id).bind Record.document := by
  rw [buildScored, List.mem_map]
  constructor
  · rintro ⟨⟨id, d⟩, he, rfl⟩
    exact ⟨FinMap.mem_entries_iff.mp ((K.order.perm dist).mem_iff.mp he), rfl, rfl⟩
  · rintro ⟨hd, hmd, hdoc⟩
    refine ⟨⟨p.id, p.distance⟩, ?_, ?_⟩
    · exact (K.order.perm dist).mem_iff.mpr (FinMap.mem_entries_iff.mpr hd)
    · rw [← hmd, ← hdoc]

theorem nodup_buildScored (dist : FinMap Id F32) :
    ((buildScored K c dist).map ScoredPoint.id).Nodup := by
  rw [buildScored, List.map_map]
  exact ((K.order.perm dist).map Sigma.fst).nodup_iff.mpr dist.keys_nodup

end Loops

end Collection

end Rekha
