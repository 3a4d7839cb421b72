import Rekha.Engine.Postings

/-!
# Postings against the filter oracle

The index compares canonical keys, the oracle compares values. On strings,
booleans and ordinary numbers the two agree; `diverges` lists the rest: distinct
integers with one `f64` image, and NaN, which equals itself as a key and is
above every number.
-/

namespace Rekha

/-- Unequal values with one canonical key. -/
def collides : MetadataValue → MetadataValue → Bool
  | .int i, .int j =>
      decide (i ≠ j) && (MetadataValue.ofI64 i).eq (MetadataValue.ofI64 j)
  | .float f, .float g => f.isNaN && g.isNaN
  | _, _ => false

/-- The comparisons whose key verdict and value verdict differ on `actual`. -/
def diverges (actual : Option MetadataValue) (op : ComparisonOp) : Bool :=
  actual.any fun a =>
    match op with
    | .eq v | .ne v => collides a v
    | .gt n => a.asF64.any fun x => x.isNaN && !n.isNaN
    | .gte _ => a.asF64.any fun x => x.isNaN
    | .lt n => a.asF64.any fun x => n.isNaN && !x.isNaN
    | .lte n => a.asF64.any fun _ => n.isNaN
    | .isIn vs | .nin vs => vs.any (collides a) && !vs.any (valuesEqual a)

theorem totalKey_ofI64 (i : Int64) :
    (MetadataValue.ofI64 i).totalKey = .number (MetadataValue.ofI64 i).orderKey :=
  Ieee.totalKey_of_num (MetadataValue.isNaN_ofI64 i)

theorem fromValue_eq_iff (a v : MetadataValue) :
    decide (ValueKey.fromValue a = ValueKey.fromValue v) =
      (valuesEqual a v ^^ collides a v) := by
  have hint : ∀ (i : Int64) (f : F64), (MetadataValue.ofI64 i).eq f = true ↔
      (MetadataValue.ofI64 i).totalKey = f.totalKey := by
    intro i f
    rw [Ieee.eq_iff, MetadataValue.isNaN_ofI64]
    simp
  rw [Bool.eq_iff_iff, decide_eq_true_eq]
  cases a <;> cases v <;> simp only [ValueKey.fromValue, valuesEqual, collides,
    ValueKey.str.injEq, ValueKey.bool.injEq, ValueKey.num.injEq, Bool.xor_false,
    decide_eq_true_eq, reduceCtorEq, Bool.false_eq_true]
  case int.int i j =>
    rw [← hint]
    by_cases hij : i = j
    · subst hij
      simp [hint]
    · simp [hij]
  case int.float i f => exact (hint i f).symm
  case float.int f i =>
    rw [Ieee.eq_iff]
    constructor
    · intro h
      refine ⟨?_, h⟩
      cases hf : f.isNaN with
      | false => rfl
      | true => simp [Ieee.totalKey_of_nan hf, totalKey_ofI64] at h
    · exact And.right
  case float.float f g =>
    cases hf : f.isNaN with
    | true =>
        cases hg : g.isNaN with
        | true => simp [Ieee.eq, hf, Ieee.totalKey_of_nan hf, Ieee.totalKey_of_nan hg]
        | false => simp [Ieee.eq, hf, Ieee.totalKey_of_nan hf, Ieee.totalKey_of_num hg]
    | false =>
        have h := Ieee.eq_iff (x := f) (y := g)
        simp [hf] at h
        simp [h]

theorem number_fromValue (a : MetadataValue) :
    (ValueKey.fromValue a).number = a.asF64.map Ieee.totalKey := by
  cases a <;> rfl

theorem any_fromValue_eq (a : MetadataValue) : ∀ vs : List MetadataValue,
    (vs.any fun v => decide (ValueKey.fromValue a = ValueKey.fromValue v)) =
      (vs.any (valuesEqual a) ^^ (vs.any (collides a) && !vs.any (valuesEqual a)))
  | [] => rfl
  | v :: vs => by
      rw [List.any_cons, any_fromValue_eq a vs, fromValue_eq_iff, List.any_cons,
        List.any_cons]
      have hexcl : valuesEqual a v = true → collides a v = false := by
        intro h
        have hkey := fromValue_eq_iff a v
        cases a <;> cases v <;> simp_all [collides, valuesEqual, Ieee.eq]
      cases hv : valuesEqual a v with
      | true => simp [hexcl hv]
      | false =>
          cases collides a v <;> cases vs.any (collides a) <;>
            cases vs.any (valuesEqual a) <;> rfl

/-- **Leaf by leaf, the index and the oracle part exactly on `diverges`.** -/
theorem keyLeaf_eq_xor (md : Option Metadata) (key : String) (op : ComparisonOp) :
    keyLeaf (keyView md key) op =
      (matchOp key op (md.getD ∅) ^^ diverges ((md.getD ∅).lookup key) op) := by
  rw [keyView]
  cases hd : (md.getD ∅).lookup key with
  | none => cases op <;> simp [keyLeaf, matchOp, numeric, diverges, hd]
  | some a =>
      cases op with
      | eq v => simp [keyLeaf, matchOp, diverges, hd, fromValue_eq_iff]
      | ne v =>
          have h := fromValue_eq_iff a v
          simp only [keyLeaf, matchOp, diverges, hd, Option.map_some, Option.any_some,
            ne_eq, decide_not, h]
          cases valuesEqual a v <;> cases collides a v <;> rfl
      | gt n =>
          simp only [keyLeaf, matchOp, numeric, diverges, hd, Option.map_some,
            Option.any_some, Option.bind_some, number_fromValue]
          cases a.asF64 with
          | none => rfl
          | some x => exact Ieee.totalKey_lt _ _
      | gte n =>
          simp only [keyLeaf, matchOp, numeric, diverges, hd, Option.map_some,
            Option.any_some, Option.bind_some, number_fromValue]
          cases a.asF64 with
          | none => rfl
          | some x => exact Ieee.totalKey_le _ _
      | lt n =>
          simp only [keyLeaf, matchOp, numeric, diverges, hd, Option.map_some,
            Option.any_some, Option.bind_some, number_fromValue]
          cases a.asF64 with
          | none => rfl
          | some x => exact Ieee.totalKey_lt _ _
      | lte n =>
          simp only [keyLeaf, matchOp, numeric, diverges, hd, Option.map_some,
            Option.any_some, Option.bind_some, number_fromValue]
          cases a.asF64 with
          | none => rfl
          | some x => exact Ieee.totalKey_le _ _
      | isIn vs =>
          simp only [keyLeaf, matchOp, diverges, hd, Option.map_some, Option.any_some,
            Option.some.injEq]
          exact any_fromValue_eq a vs
      | nin vs =>
          simp only [keyLeaf, matchOp, diverges, hd, Option.map_some, Option.any_some,
            Option.some.injEq, any_fromValue_eq]
          cases vs.any (valuesEqual a) <;> cases vs.any (collides a) <;> rfl

/-- The oracle verdict on one comparison, flipped where it diverges. -/
def flippedLeaf (metadata : Metadata) (key : String) (op : ComparisonOp) : Bool :=
  matchOp key op metadata ^^ diverges (metadata.lookup key) op

theorem filterMatchesOpt_eq (F : WhereFilter) (md : Option Metadata) :
    filterMatchesOpt F md =
      F.condition.eval fun key op => matchOp key op (md.getD ∅) := by
  cases md <;> exact matchCondition_eq_eval _ _

theorem keyMatches_eq (F : WhereFilter) (md : Option Metadata) :
    keyMatches F md = F.condition.eval (flippedLeaf (md.getD ∅)) :=
  WhereCondition.eval_congr _ fun _ _ => keyLeaf_eq_xor md _ _

/-! ## Every history of the index -/

/-- Postings reached by indexing, overwriting and un-indexing documents, with
the documents they should hold. -/
inductive Indexed : Postings → (ℕ → Option (Option Metadata)) → Prop
  | new : Indexed Postings.new fun _ => none
  | insert {p docs} (o : ℕ) (md : Option Metadata) : Indexed p docs → docs o = none →
      Indexed (p.insert o md) (Function.update docs o (some md))
  | overwrite {p docs} (o : ℕ) (old md : Option Metadata) : Indexed p docs →
      docs o = some old →
      Indexed ((p.remove o old).insert o md) (Function.update docs o (some md))
  | remove {p docs} (o : ℕ) (old : Option Metadata) : Indexed p docs →
      docs o = some old → Indexed (p.remove o old) (Function.update docs o none)
  | removeAll {p docs} (o : ℕ) : Indexed p docs →
      Indexed (p.removeAll o) (Function.update docs o none)

theorem Indexed.represents {p : Postings} {docs : ℕ → Option (Option Metadata)}
    (h : Indexed p docs) : Represents p docs := by
  induction h with
  | new => exact represents_new
  | insert o md _ hnew ih => exact ih.insert hnew md
  | overwrite o old md _ hold ih =>
      have hins := (ih.remove_self hold).insert (Function.update_self o _ _) md
      rwa [Function.update_idem] at hins
  | remove o old _ hold ih => exact ih.remove_self hold
  | removeAll o _ ih => exact ih.removeAll o

/-- **The index agrees with the oracle on a filter exactly when flipping the
diverging comparisons changes no verdict** — in particular whenever none
diverges. -/
theorem evaluate_matches_iff {p : Postings} {docs : ℕ → Option (Option Metadata)}
    (h : Indexed p docs) (F : WhereFilter) :
    (∀ o, o ∈ p.evaluate F ↔
        ∃ md, docs o = some md ∧ filterMatchesOpt F md = true) ↔
      ∀ o md, docs o = some md →
        F.condition.eval (flippedLeaf (md.getD ∅)) =
          F.condition.eval fun key op => matchOp key op (md.getD ∅) := by
  simp only [h.represents.mem_evaluate, keyMatches_eq, filterMatchesOpt_eq]
  constructor
  · intro hall o md hmd
    have ho := hall o
    simp only [hmd, Option.some.injEq, exists_eq_left'] at ho
    exact Bool.eq_iff_iff.mpr ho
  · intro hall o
    constructor
    · rintro ⟨md, hmd, hv⟩
      exact ⟨md, hmd, by rw [← hall o md hmd]; exact hv⟩
    · rintro ⟨md, hmd, hv⟩
      exact ⟨md, hmd, by rw [hall o md hmd]; exact hv⟩

/-- One indexed record carrying `n = 2 ^ 53 + 1`, and the filter `n = 2 ^ 53`. -/
def collidingMetadata : Metadata :=
  AList.insert "n" (MetadataValue.int 9007199254740993) ∅

def collidingDocs : ℕ → Option (Option Metadata) :=
  Function.update (fun _ => none) 0 (some (some collidingMetadata))

def collidingFilter : WhereFilter :=
  ⟨.comparison "n" (.eq (.int 9007199254740992))⟩

theorem indexed_colliding :
    Indexed (Postings.new.insert 0 (some collidingMetadata)) collidingDocs :=
  Indexed.insert 0 (some collidingMetadata) Indexed.new rfl

theorem evaluate_matches_iff_colliding :
    (∀ o, o ∈ (Postings.new.insert 0 (some collidingMetadata)).evaluate collidingFilter ↔
        ∃ md, collidingDocs o = some md ∧ filterMatchesOpt collidingFilter md = true) ↔
      ∀ o md, collidingDocs o = some md →
        collidingFilter.condition.eval (flippedLeaf (md.getD ∅)) =
          collidingFilter.condition.eval fun key op => matchOp key op (md.getD ∅) :=
  evaluate_matches_iff indexed_colliding collidingFilter

/-- Distinct integers beyond `2 ^ 53` share a posting. -/
theorem evaluate_not_matches : ∃ (p : Postings) (docs : ℕ → Option (Option Metadata))
    (F : WhereFilter), Indexed p docs ∧
      ¬ ∀ o, o ∈ p.evaluate F ↔
        ∃ md, docs o = some md ∧ filterMatchesOpt F md = true := by
  refine ⟨_, _, collidingFilter, indexed_colliding, fun h => ?_⟩
  have hin : 0 ∈ (Postings.new.insert 0 (some collidingMetadata)).evaluate
      collidingFilter := by decide
  obtain ⟨md, hmd, hv⟩ := (h 0).mp hin
  simp only [collidingDocs, Function.update_self, Option.some.injEq] at hmd
  subst hmd
  exact absurd hv (by decide)

end Rekha
