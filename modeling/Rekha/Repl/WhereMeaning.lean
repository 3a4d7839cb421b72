import Rekha.Core.FilterMeaning
import Rekha.Repl.Panics

/-!
# What a WHERE clause means to the server

A comparison is translated to a filter of the API: one field, one operator, one
value. The server takes it if the field is not named like a combinator, and the
value is one it can compare; the filter then matches the metadata that the
comparison holds of (`where_keeps_meaning`).
-/

namespace Rekha.Repl

open Where Outcome Utf8

/-! ## Comparisons -/

def IsNumber : Json → Prop
  | .number _ => True
  | _ => False

def IsScalar : Json → Prop
  | .string _ | .bool _ | .number _ => True
  | _ => False

/-- Equality takes strings, booleans and numbers, an order numbers only. -/
def Comparable (op : String) (value : Json) : Prop :=
  IsNumber value ∨ (op = "=" ∨ op = "==" ∨ op = "!=") ∧ IsScalar value

/-- A comparison of a field with a value. It does not hold of an absent field. -/
def holds (op : String) (actual : Option MetadataValue) (value : Json) : Bool :=
  if op = "!=" then actual.any fun a => !equalsScalar a value
  else if op = "<" then comparesNumber (fun x n => x.lt n) actual value
  else if op = "<=" then comparesNumber (fun x n => x.le n) actual value
  else if op = ">" then comparesNumber (fun x n => n.lt x) actual value
  else if op = ">=" then comparesNumber (fun x n => n.le x) actual value
  else actual.any fun a => equalsScalar a value

theorem mem_operators {t : Text} {op : String} {idx : ℕ} (h : findOperator t = some (op, idx)) :
    op ∈ operators := by
  obtain ⟨op', hmem, hop⟩ := List.exists_of_findSome?_eq_some h
  obtain ⟨idx', -, heq⟩ := Option.map_eq_some_iff.mp hop
  obtain ⟨rfl, -⟩ := Prod.mk.inj heq
  exact hmem

theorem meansOp_eq_holds {op name : String} (hop : op ∈ operators)
    (hname : chromaOperator op = some name) (actual : Option MetadataValue) (value : Json) :
    meansOp actual name value = holds op actual value := by
  simp only [operators, List.mem_cons, List.not_mem_nil, or_false] at hop
  rcases hop with rfl | rfl | rfl | rfl | rfl | rfl | rfl
  all_goals
    obtain rfl := Option.some.inj hname
    rfl

theorem exists_metadataValue {value : Json} :
    (∃ v, metadataValue value = .ok v) ↔ IsScalar value := by
  cases value with
  | bool b => exact iff_of_true ⟨_, rfl⟩ trivial
  | string s => exact iff_of_true ⟨_, rfl⟩ trivial
  | null | array _ | object _ => exact iff_of_false (by rintro ⟨v, h⟩; cases h) id
  | number n =>
      refine iff_of_true ?_ trivial
      rw [metadataValue]
      cases n.asI64 with
      | some i => exact ⟨_, rfl⟩
      | none => exact ⟨_, rfl⟩

theorem exists_number {value : Json} (op : String) :
    (∃ n, number value op = .ok n) ↔ IsNumber value := by
  cases value with
  | number n => exact iff_of_true ⟨_, rfl⟩ trivial
  | null | bool _ | string _ | array _ | object _ =>
      exact iff_of_false (by rintro ⟨n, h⟩; cases h) id

theorem exists_wrap {α β : Type} {x : Except WhereParseError α} {f : α → β} :
    (∃ b, (do return f (← x)) = Except.ok b) ↔ ∃ a, x = .ok a := by
  simp only [wrap_ok]
  exact ⟨fun ⟨_, a, ha, _⟩ => ⟨a, ha⟩, fun ⟨a, ha⟩ => ⟨_, a, ha, rfl⟩⟩

theorem exists_parseOp {op name : String} (hop : op ∈ operators)
    (hname : chromaOperator op = some name) (value : Json) :
    (∃ c, parseOp name value = .ok c) ↔ Comparable op value := by
  have hscalar : IsNumber value ∨ IsScalar value ↔ IsScalar value := by
    refine or_iff_right_of_imp fun h => ?_
    cases value with
    | number n => trivial
    | null | bool _ | string _ | array _ | object _ => cases h
  have hequal : (op = "=" ∨ op = "==" ∨ op = "!=") → (Comparable op value ↔ IsScalar value) := by
    intro heq
    rw [Comparable, and_iff_right heq, hscalar]
  have horder : ¬ (op = "=" ∨ op = "==" ∨ op = "!=") → (Comparable op value ↔ IsNumber value) := by
    intro hne
    rw [Comparable, or_iff_left fun h => hne h.1]
  simp only [operators, List.mem_cons, List.not_mem_nil, or_false] at hop
  rcases hop with rfl | rfl | rfl | rfl | rfl | rfl | rfl
  all_goals obtain rfl := Option.some.inj hname
  · rw [hequal (by decide), ← exists_metadataValue]
    exact exists_wrap
  · rw [hequal (by decide), ← exists_metadataValue]
    exact exists_wrap
  · rw [horder (by decide), ← exists_number "$lte"]
    exact exists_wrap
  · rw [horder (by decide), ← exists_number "$gte"]
    exact exists_wrap
  · rw [hequal (by decide), ← exists_metadataValue]
    exact exists_wrap
  · rw [horder (by decide), ← exists_number "$gt"]
    exact exists_wrap
  · rw [horder (by decide), ← exists_number "$lt"]
    exact exists_wrap

/-! ## The filter of a comparison -/

theorem parseCondition_single {key name : String} {value : Json}
    (hand : key ≠ "$and") (hor : key ≠ "$or") :
    Where.parseCondition (.object [(key, .object [(name, value)])]) =
      (parseOp name value).map (.comparison key) := by
  rw [Where.parseCondition, parseEntries, if_neg hand, if_neg hor, parseFieldCondition]
  cases hop : parseOp name value with
  | error e =>
      simp only [List.isEmpty_cons, Bool.false_eq_true, if_false, List.mapM_cons, hop]
      rfl
  | ok c =>
      simp only [List.isEmpty_cons, Bool.false_eq_true, if_false, List.mapM_cons, List.mapM_nil,
        hop]
      rfl

theorem parseCondition_combinator {key name : String} {value : Json}
    (h : key = "$and" ∨ key = "$or") :
    ∃ e, Where.parseCondition (.object [(key, .object [(name, value)])]) = .error e := by
  rcases h with rfl | rfl
  · exact ⟨_, rfl⟩
  · exact ⟨_, rfl⟩

theorem fromJsonValue_single {key name : String} {value : Json} {f : WhereFilter} :
    WhereFilter.fromJsonValue (.object [(key, .object [(name, value)])]) = .ok f ↔
      (key ≠ "$and" ∧ key ≠ "$or") ∧
        ∃ c, parseOp name value = .ok c ∧ f = ⟨.comparison key c⟩ := by
  unfold WhereFilter.fromJsonValue
  rw [wrap_ok]
  by_cases hkey : key = "$and" ∨ key = "$or"
  · obtain ⟨e, he⟩ : ∃ e, Where.parseCondition (.object [(key, .object [(name, value)])]) =
        .error e := parseCondition_combinator hkey
    rw [he]
    refine iff_of_false ?_ fun h => hkey.elim h.1.1 h.1.2
    rintro ⟨c, h, -⟩
    cases h
  · rw [not_or] at hkey
    rw [parseCondition_single hkey.1 hkey.2, and_iff_right hkey]
    cases parseOp name value with
    | error e =>
        refine iff_of_false ?_ ?_
        · rintro ⟨c, h, -⟩
          cases h
        · rintro ⟨c, h, -⟩
          cases h
    | ok c =>
        constructor
        · rintro ⟨cond, h, rfl⟩
          exact ⟨c, rfl, congrArg WhereFilter.mk (Except.ok.inj h).symm⟩
        · rintro ⟨c', h, rfl⟩
          obtain rfl := Except.ok.inj h
          exact ⟨_, rfl, rfl⟩

/-- **A comparison keeps its meaning.** A text that is no JSON is split at the
first operator that occurs in it, and translated. The server accepts exactly the
comparisons that can be made of fields not named like a combinator, and what it
then matches is what they hold of. -/
theorem where_keeps_meaning (L : Primitives) (s : Text) (v : Json)
    (hjson : L.fromStr (trim s) = none) (h : parseWhere L s = .ok v) :
    ∃ field op value literal, trim s = field ++ (op.toList ++ value) ∧
      findOperator (trim s) = some (op, size field) ∧
      parseValue L (trim value) = .ok literal ∧
      ((∃ f, WhereFilter.fromJsonValue v = .ok f) ↔ Comparable op literal ∧
        String.ofList (trim field) ≠ "$and" ∧ String.ofList (trim field) ≠ "$or") ∧
      ∀ f, WhereFilter.fromJsonValue v = .ok f → ∀ metadata,
        f.matches metadata = holds op (metadata.lookup (String.ofList (trim field))) literal := by
  obtain ⟨op, idx, hop⟩ : ∃ op idx, findOperator (trim s) = some (op, idx) := by
    cases hop : findOperator (trim s) with
    | some found => exact ⟨found.1, found.2, rfl⟩
    | none =>
        rw [parseWhere, hjson] at h
        dsimp only at h
        rw [parseCondition, hop] at h
        cases h
  obtain ⟨field, name, value, hs, rfl, hname, heq⟩ := parseWhere_condition hjson hop
  rw [heq, Checked.bind_ok] at h
  obtain ⟨literal, hliteral, hv⟩ := h
  obtain rfl := Checked.ok.inj hv
  refine ⟨field, op, value, literal, hs, hop, hliteral, ?_, ?_⟩
  · simp only [fromJsonValue_single, exists_and_left]
    rw [← exists_parseOp (mem_operators hop) hname, and_comm]
    refine and_congr_left fun _ => ?_
    constructor
    · rintro ⟨_, c, hc, -⟩
      exact ⟨c, hc⟩
    · rintro ⟨c, hc⟩
      exact ⟨_, c, hc, rfl⟩
  · intro f hf metadata
    obtain ⟨-, c, hc, rfl⟩ := fromJsonValue_single.mp hf
    rw [WhereFilter.matches, matchCondition, matchOp_parsed (parseOp_ok.mp hc),
      meansOp_eq_holds (mem_operators hop) hname]

/-- `price <= 7` on a record whose price is 6.5, and on one without a price. -/
theorem where_keeps_meaning_demo : ∃ v, parseWhere demoPrimitives "price <= 7".toList = .ok v ∧
    ∃ field op value literal, trim "price <= 7".toList = field ++ (op.toList ++ value) ∧
      findOperator (trim "price <= 7".toList) = some (op, size field) ∧
      parseValue demoPrimitives (trim value) = .ok literal ∧
      ((∃ f, WhereFilter.fromJsonValue v = .ok f) ↔ Comparable op literal ∧
        String.ofList (trim field) ≠ "$and" ∧ String.ofList (trim field) ≠ "$or") ∧
      ∀ f, WhereFilter.fromJsonValue v = .ok f → ∀ metadata,
        f.matches metadata = holds op (metadata.lookup (String.ofList (trim field))) literal :=
  ⟨_, by rfl, where_keeps_meaning demoPrimitives "price <= 7".toList _ rfl (by rfl)⟩

end Rekha.Repl
