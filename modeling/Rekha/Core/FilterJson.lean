import Rekha.Lib.Json
import Rekha.Lib.Outcome
import Rekha.Core.Filter

/-!
# `where` filters as JSON

The parser accepts operator objects, bare values, `$and` and `$or`; it merges
what stands side by side into one conjunction and drops the wrapper of a list
of one. The printer writes the operator form. Printing what was parsed and
parsing it again gives the same tree (`parse_print`).
-/

namespace Rekha

open Outcome

/-- Errors of the parser, with the operator or the kind of value they name. -/
inductive WhereParseError where
  | expectedObject (value : String)
  | expectedArray (op value : String)
  | unknownOperator (op : String)
  | expectedNumber (op value : String)
  | emptyOps (field : String)
  | invalidValue (value : String)
  | numberOutOfRange
  | andOrConflict
  | orWithOtherKeys
  | emptyList (what : String)
deriving DecidableEq

namespace Where

/-- The kind of a JSON value, as errors name it. -/
def describe : Json → String
  | .null => "null"
  | .bool _ => "boolean"
  | .number _ => "number"
  | .string _ => "string"
  | .array _ => "array"
  | .object _ => "object"

def asArray (value : Json) (op : String) : Except WhereParseError (List Json) :=
  match value.asArray with
  | some xs => .ok xs
  | none => .error (.expectedArray op (describe value))

def number (value : Json) (op : String) : Except WhereParseError F64 :=
  match value.asF64 with
  | some f => .ok f
  | none => .error (.expectedNumber op (describe value))

def metadataValue : Json → Except WhereParseError MetadataValue
  | .string s => .ok (.str s)
  | .bool b => .ok (.bool b)
  | .number n =>
      match n.asI64 with
      | some i => .ok (.int i)
      | none =>
          match n.asF64 with
          | some f => .ok (.float f)
          | none => .error .numberOutOfRange
  | other => .error (.invalidValue (describe other))

def valueList (value : Json) (op : String) : Except WhereParseError (List MetadataValue) := do
  let items ← asArray value op
  items.mapM metadataValue

def parseOp (op : String) (value : Json) : Except WhereParseError ComparisonOp :=
  if op = "$eq" then do return .eq (← metadataValue value)
  else if op = "$ne" then do return .ne (← metadataValue value)
  else if op = "$gt" then do return .gt (← number value "$gt")
  else if op = "$gte" then do return .gte (← number value "$gte")
  else if op = "$lt" then do return .lt (← number value "$lt")
  else if op = "$lte" then do return .lte (← number value "$lte")
  else if op = "$in" then do return .isIn (← valueList value "$in")
  else if op = "$nin" then do return .nin (← valueList value "$nin")
  else .error (.unknownOperator op)

def normalizeList (conds : List WhereCondition) (what : String) :
    Except WhereParseError WhereCondition :=
  match conds with
  | [] => .error (.emptyList what)
  | [c] => .ok c
  | conds => .ok (.and conds)

def parseFieldCondition (key : String) (value : Json) : Except WhereParseError WhereCondition :=
  match value with
  | .object ops =>
      if ops.isEmpty then .error (.emptyOps key)
      else do
        let conds ← ops.mapM fun entry => do
          return WhereCondition.comparison key (← parseOp entry.1 entry.2)
        normalizeList conds "operator"
  | value => do return .comparison key (.eq (← metadataValue value))

/-- What the loop over an object's entries collects. A list is parsed where the
loop meets it; whether that succeeded is looked at after the loop. -/
structure Collected where
  fields : List WhereCondition := []
  explicitAnd : Option (Except WhereParseError (List WhereCondition)) := none
  explicitOr : Option (Except WhereParseError (List WhereCondition)) := none

/-- `parse_object` after the loop. -/
def finish (found : Collected) : Except WhereParseError WhereCondition :=
  if found.explicitAnd.isSome && found.explicitOr.isSome then .error .andOrConflict
  else
    match found.explicitOr with
    | some orList =>
        if !found.fields.isEmpty then .error .orWithOtherKeys
        else do
          match ← orList with
          | [] => .error (.emptyList "$or")
          | [c] => .ok c
          | conds => .ok (.or conds)
    | none =>
        match found.explicitAnd with
        -- the fields beside `$and` join its list, which may be empty by itself
        | some andList => do normalizeList ((← andList) ++ found.fields) "$and"
        | none => normalizeList found.fields "field"

mutual

def parseCondition : Json → Except WhereParseError WhereCondition
  | .object map => do finish (← parseEntries map {})
  | other => .error (.expectedObject (describe other))

/-- The loop of `parse_object`. -/
def parseEntries : List (String × Json) → Collected → Except WhereParseError Collected
  | [], found => .ok found
  | (key, value) :: map, found =>
      if key = "$and" then do
        parseEntries map { found with explicitAnd := some (← parseArray "$and" value) }
      else if key = "$or" then do
        parseEntries map { found with explicitOr := some (← parseArray "$or" value) }
      else do
        parseEntries map { found with fields := found.fields ++ [← parseFieldCondition key value] }

/-- `as_array`, and `parse_list` of the array. -/
def parseArray (op : String) :
    Json → Except WhereParseError (Except WhereParseError (List WhereCondition))
  | .array list => .ok (parseList list)
  | value => .error (.expectedArray op (describe value))

def parseList : List Json → Except WhereParseError (List WhereCondition)
  | [] => .ok []
  | x :: xs => do
      let c ← parseCondition x
      let conds ← parseList xs
      return c :: conds

end

end Where

def WhereFilter.fromJsonValue (value : Json) : Except WhereParseError WhereFilter := do
  return ⟨← Where.parseCondition value⟩

namespace Where

/-! ## The printer -/

def metadataValueToJson : MetadataValue → Json
  | .str s => .string s
  | .bool b => .bool b
  | .int i => Json.ofI64 i
  | .float f => Json.ofF64 f

def opToValue (op : ComparisonOp) : Json :=
  let entry := match op with
    | .eq v => ("$eq", metadataValueToJson v)
    | .ne v => ("$ne", metadataValueToJson v)
    | .gt n => ("$gt", Json.ofF64 n)
    | .gte n => ("$gte", Json.ofF64 n)
    | .lt n => ("$lt", Json.ofF64 n)
    | .lte n => ("$lte", Json.ofF64 n)
    | .isIn vs => ("$in", Json.array (vs.map metadataValueToJson))
    | .nin vs => ("$nin", Json.array (vs.map metadataValueToJson))
  .object [entry]

mutual

def conditionToValue : WhereCondition → Json
  | .comparison key op => .object [(key, opToValue op)]
  | .and conds => .object [("$and", .array (listToValues conds))]
  | .or conds => .object [("$or", .array (listToValues conds))]

/-- `conds.iter().map(condition_to_value).collect()`. -/
def listToValues : List WhereCondition → List Json
  | [] => []
  | c :: conds => conditionToValue c :: listToValues conds

end

/-! ## What the parser produces -/

def FiniteValue : MetadataValue → Prop
  | .float f => f.isFinite = true
  | _ => True

def FiniteOp : ComparisonOp → Prop
  | .eq v | .ne v => FiniteValue v
  | .gt n | .gte n | .lt n | .lte n => n.isFinite = true
  | .isIn vs | .nin vs => ∀ v ∈ vs, FiniteValue v

mutual

/-- Trees in normal form: fields are not named like combinators, lists are not
shorter than two, numbers are finite. -/
def Printable : WhereCondition → Prop
  | .comparison key op => key ≠ "$and" ∧ key ≠ "$or" ∧ FiniteOp op
  | .and conds => 2 ≤ conds.length ∧ PrintableList conds
  | .or conds => 2 ≤ conds.length ∧ PrintableList conds

def PrintableList : List WhereCondition → Prop
  | [] => True
  | c :: conds => Printable c ∧ PrintableList conds

end

theorem printableList_iff {conds : List WhereCondition} :
    PrintableList conds ↔ ∀ c ∈ conds, Printable c := by
  induction conds with
  | nil => simp [PrintableList]
  | cons c conds ih => simp [PrintableList, ih]

theorem metadataValue_finite {value : Json} {v : MetadataValue} (h : metadataValue value = .ok v) :
    FiniteValue v := by
  cases value with
  | string s =>
      obtain rfl := Except.ok.inj h
      trivial
  | bool b =>
      obtain rfl := Except.ok.inj h
      trivial
  | number n =>
      rw [metadataValue] at h
      split at h
      · obtain rfl := Except.ok.inj h
        trivial
      · obtain rfl := Except.ok.inj h
        exact n.isFinite_toF64
  | null => cases h
  | array xs => cases h
  | object map => cases h

theorem number_finite {value : Json} {op : String} {f : F64} (h : number value op = .ok f) :
    f.isFinite = true := by
  cases value with
  | number n =>
      obtain rfl := Except.ok.inj h
      exact n.isFinite_toF64
  | null => cases h
  | bool b => cases h
  | string s => cases h
  | array xs => cases h
  | object map => cases h

/-- What an operator and its argument parse to. -/
inductive OpParsed (value : Json) : String → ComparisonOp → Prop where
  | eq {v : MetadataValue} (h : metadataValue value = .ok v) : OpParsed value "$eq" (.eq v)
  | ne {v : MetadataValue} (h : metadataValue value = .ok v) : OpParsed value "$ne" (.ne v)
  | gt {n : F64} (h : number value "$gt" = .ok n) : OpParsed value "$gt" (.gt n)
  | gte {n : F64} (h : number value "$gte" = .ok n) : OpParsed value "$gte" (.gte n)
  | lt {n : F64} (h : number value "$lt" = .ok n) : OpParsed value "$lt" (.lt n)
  | lte {n : F64} (h : number value "$lte" = .ok n) : OpParsed value "$lte" (.lte n)
  | isIn {vs : List MetadataValue} (h : valueList value "$in" = .ok vs) :
      OpParsed value "$in" (.isIn vs)
  | nin {vs : List MetadataValue} (h : valueList value "$nin" = .ok vs) :
      OpParsed value "$nin" (.nin vs)

theorem wrap_ok {α β : Type} {x : Except WhereParseError α} {f : α → β} {b : β} :
    (do return f (← x)) = Except.ok b ↔ ∃ a, x = .ok a ∧ f a = b := by
  rw [except_bind_ok]
  constructor
  · rintro ⟨a, ha, h⟩
    exact ⟨a, ha, Except.ok.inj h⟩
  · rintro ⟨a, ha, rfl⟩
    exact ⟨a, ha, rfl⟩

theorem parseOp_ok {op : String} {value : Json} {c : ComparisonOp} :
    parseOp op value = .ok c ↔ OpParsed value op c := by
  constructor
  · intro h
    unfold parseOp at h
    split_ifs at h with heq hne hgt hgte hlt hlte hin hnin
    · obtain ⟨v, hv, rfl⟩ := wrap_ok.mp h
      exact heq ▸ .eq hv
    · obtain ⟨v, hv, rfl⟩ := wrap_ok.mp h
      exact hne ▸ .ne hv
    · obtain ⟨n, hn, rfl⟩ := wrap_ok.mp h
      exact hgt ▸ .gt hn
    · obtain ⟨n, hn, rfl⟩ := wrap_ok.mp h
      exact hgte ▸ .gte hn
    · obtain ⟨n, hn, rfl⟩ := wrap_ok.mp h
      exact hlt ▸ .lt hn
    · obtain ⟨n, hn, rfl⟩ := wrap_ok.mp h
      exact hlte ▸ .lte hn
    · obtain ⟨vs, hvs, rfl⟩ := wrap_ok.mp h
      exact hin ▸ .isIn hvs
    · obtain ⟨vs, hvs, rfl⟩ := wrap_ok.mp h
      exact hnin ▸ .nin hvs
  · intro h
    cases h with
    | eq h => exact wrap_ok.mpr ⟨_, h, rfl⟩
    | ne h => exact wrap_ok.mpr ⟨_, h, rfl⟩
    | gt h => exact wrap_ok.mpr ⟨_, h, rfl⟩
    | gte h => exact wrap_ok.mpr ⟨_, h, rfl⟩
    | lt h => exact wrap_ok.mpr ⟨_, h, rfl⟩
    | lte h => exact wrap_ok.mpr ⟨_, h, rfl⟩
    | isIn h => exact wrap_ok.mpr ⟨_, h, rfl⟩
    | nin h => exact wrap_ok.mpr ⟨_, h, rfl⟩

theorem valueList_ok {value : Json} {op : String} {vs : List MetadataValue} :
    valueList value op = .ok vs ↔
      ∃ items, value = .array items ∧ items.mapM metadataValue = .ok vs := by
  rw [valueList, except_bind_ok]
  constructor
  · rintro ⟨items, hitems, h⟩
    cases value with
    | array xs =>
        obtain rfl := Except.ok.inj hitems
        exact ⟨xs, rfl, h⟩
    | null => cases hitems
    | bool b => cases hitems
    | number n => cases hitems
    | string s => cases hitems
    | object map => cases hitems
  · rintro ⟨items, rfl, h⟩
    exact ⟨items, rfl, h⟩

theorem valueList_finite {value : Json} {op : String} {vs : List MetadataValue}
    (h : valueList value op = .ok vs) : ∀ v ∈ vs, FiniteValue v := by
  obtain ⟨items, -, hitems⟩ := valueList_ok.mp h
  exact mapM_forall (fun _ _ => metadataValue_finite) hitems

theorem OpParsed.finite {value : Json} {op : String} {c : ComparisonOp}
    (h : OpParsed value op c) : FiniteOp c := by
  cases h with
  | eq h => exact metadataValue_finite h
  | ne h => exact metadataValue_finite h
  | gt h => exact number_finite h
  | gte h => exact number_finite h
  | lt h => exact number_finite h
  | lte h => exact number_finite h
  | isIn h => exact valueList_finite h
  | nin h => exact valueList_finite h

/-! ## Results in normal form -/

/-- `c` is the only element of the list, or the list under the combinator. -/
def Normal (combinator : List WhereCondition → WhereCondition) (conds : List WhereCondition)
    (c : WhereCondition) : Prop :=
  conds = [c] ∨ (2 ≤ conds.length ∧ c = combinator conds)

theorem Normal.ne_nil {combinator : List WhereCondition → WhereCondition}
    {conds : List WhereCondition} {c : WhereCondition} (h : Normal combinator conds c) :
    conds ≠ [] := by
  rintro rfl
  rcases h with h | ⟨h, -⟩
  · cases h
  · exact absurd h (by decide)

theorem exists_normal (combinator : List WhereCondition → WhereCondition)
    {conds : List WhereCondition} (h : conds ≠ []) : ∃ c, Normal combinator conds c := by
  match conds, h with
  | [], h => exact absurd rfl h
  | [c], _ => exact ⟨c, Or.inl rfl⟩
  | c :: c' :: conds, _ => exact ⟨_, Or.inr ⟨Nat.le_add_left _ _, rfl⟩⟩

theorem normalizeList_ok {conds : List WhereCondition} {what : String} {c : WhereCondition} :
    normalizeList conds what = .ok c ↔ Normal .and conds c := by
  match conds with
  | [] => simp [normalizeList, Normal]
  | [c'] => simp [normalizeList, Normal]
  | c' :: c'' :: conds => simp [normalizeList, Normal, eq_comm]

theorem parseFieldCondition_ok {key : String} {value : Json} {c : WhereCondition} :
    parseFieldCondition key value = .ok c ↔
      (∃ ops conds, value = .object ops ∧
        List.Forall₂ (fun entry c => ∃ op, OpParsed entry.2 entry.1 op ∧ .comparison key op = c)
          ops conds ∧ Normal .and conds c) ∨
      (∃ v, (∀ ops, value ≠ .object ops) ∧ metadataValue value = .ok v ∧
        .comparison key (.eq v) = c) := by
  unfold parseFieldCondition
  split
  · rename_i ops
    have hmap : ∀ conds : List WhereCondition,
        (ops.mapM fun entry => do
          return WhereCondition.comparison key (← parseOp entry.1 entry.2)) = .ok conds ↔
        List.Forall₂ (fun entry c => ∃ op, OpParsed entry.2 entry.1 op ∧ .comparison key op = c)
          ops conds := by
      intro conds
      rw [mapM_ok]
      simp only [wrap_ok, parseOp_ok]
    split
    · rename_i hempty
      rw [List.isEmpty_iff] at hempty
      subst hempty
      constructor
      · intro h
        cases h
      · rintro (⟨ops, conds, hops, hall, hnormal⟩ | ⟨v, hne, -⟩)
        · cases hops
          cases hall
          exact absurd rfl hnormal.ne_nil
        · exact absurd rfl (hne [])
    · rw [except_bind_ok]
      constructor
      · rintro ⟨conds, hconds, h⟩
        exact Or.inl ⟨ops, conds, rfl, (hmap conds).mp hconds, normalizeList_ok.mp h⟩
      · rintro (⟨ops', conds, hops, hall, hnormal⟩ | ⟨v, hne, -⟩)
        · cases hops
          exact ⟨conds, (hmap conds).mpr hall, normalizeList_ok.mpr hnormal⟩
        · exact absurd rfl (hne ops)
  · rename_i hne
    rw [wrap_ok]
    constructor
    · rintro ⟨v, hv, rfl⟩
      exact Or.inr ⟨v, hne, hv, rfl⟩
    · rintro (⟨ops, conds, hops, -⟩ | ⟨v, -, hv, rfl⟩)
      · exact absurd hops (hne ops)
      · exact ⟨v, hv, rfl⟩

theorem finish_ok {found : Collected} {c : WhereCondition} : finish found = .ok c ↔
    (∃ conds, found = ⟨[], none, some (.ok conds)⟩ ∧ Normal .or conds c) ∨
    (∃ conds, (found.explicitAnd = some (.ok conds) ∨ found.explicitAnd = none ∧ conds = []) ∧
      found.explicitOr = none ∧ Normal .and (conds ++ found.fields) c) := by
  obtain ⟨fields, explicitAnd, explicitOr⟩ := found
  unfold finish
  cases explicitOr with
  | none =>
      cases explicitAnd with
      | none => simp [normalizeList_ok]
      | some andList =>
          cases andList with
          | error e => simp [except_bind_ok]
          | ok conds => simp [except_bind_ok, normalizeList_ok]
  | some orList =>
      cases explicitAnd with
      | some andList => simp
      | none =>
          cases fields with
          | cons c' fields => simp
          | nil =>
              cases orList with
              | error e => simp [except_bind_ok]
              | ok conds =>
                  match conds with
                  | [] => simp [except_bind_ok, Normal]
                  | [c'] => simp [except_bind_ok, Normal]
                  | c' :: c'' :: conds => simp [except_bind_ok, Normal, @eq_comm _ c]

/-! ## Parsing what was printed -/

theorem Normal.printable {conds : List WhereCondition} {c : WhereCondition}
    (hconds : ∀ c ∈ conds, Printable c) :
    (Normal .and conds c → Printable c) ∧ (Normal .or conds c → Printable c) := by
  have hlist : PrintableList conds := printableList_iff.mpr hconds
  constructor
  · rintro (rfl | ⟨hlen, rfl⟩)
    · exact hconds c (List.mem_singleton_self c)
    · exact ⟨hlen, hlist⟩
  · rintro (rfl | ⟨hlen, rfl⟩)
    · exact hconds c (List.mem_singleton_self c)
    · exact ⟨hlen, hlist⟩

theorem parseFieldCondition_printable {key : String} {value : Json} {c : WhereCondition}
    (hand : key ≠ "$and") (hor : key ≠ "$or") (h : parseFieldCondition key value = .ok c) :
    Printable c := by
  rcases parseFieldCondition_ok.mp h with ⟨ops, conds, -, hall, hnormal⟩ | ⟨v, -, hv, rfl⟩
  · refine (Normal.printable ?_).1 hnormal
    clear hnormal h
    induction hall with
    | nil =>
        intro c hc
        cases hc
    | cons hentry _ ih =>
        obtain ⟨op, hop, rfl⟩ := hentry
        intro c hc
        rcases List.mem_cons.mp hc with rfl | hc
        · exact ⟨hand, hor, hop.finite⟩
        · exact ih c hc
  · exact ⟨hand, hor, metadataValue_finite hv⟩

/-- Everything collected is in normal form, where it parsed. -/
structure Collected.AllPrintable (found : Collected) : Prop where
  fields : ∀ c ∈ found.fields, Printable c
  explicitAnd : ∀ conds, found.explicitAnd = some (.ok conds) → ∀ c ∈ conds, Printable c
  explicitOr : ∀ conds, found.explicitOr = some (.ok conds) → ∀ c ∈ conds, Printable c

theorem Collected.AllPrintable.empty : Collected.AllPrintable {} := by
  refine ⟨?_, ?_, ?_⟩
  · intro c hc
    cases hc
  · intro conds hconds
    cases hconds
  · intro conds hconds
    cases hconds

theorem finish_printable {found : Collected} (hfound : found.AllPrintable) {c : WhereCondition}
    (h : finish found = .ok c) : Printable c := by
  rcases finish_ok.mp h with ⟨conds, rfl, hnormal⟩ | ⟨conds, hlist, -, hnormal⟩
  · exact (Normal.printable (hfound.explicitOr conds rfl)).2 hnormal
  · refine (Normal.printable ?_).1 hnormal
    intro c hc
    rcases List.mem_append.mp hc with hc | hc
    · rcases hlist with hlist | ⟨-, rfl⟩
      · exact hfound.explicitAnd conds hlist c hc
      · cases hc
    · exact hfound.fields c hc

mutual

theorem parseCondition_printable : ∀ (v : Json) (c : WhereCondition),
    parseCondition v = .ok c → Printable c
  | .object map, c, h => by
      rw [parseCondition] at h
      obtain ⟨found, hfound, hc⟩ := except_bind_ok.mp h
      exact finish_printable (parseEntries_printable map {} found .empty hfound) hc
  | .null, c, h => by cases h
  | .bool b, c, h => by cases h
  | .number n, c, h => by cases h
  | .string s, c, h => by cases h
  | .array xs, c, h => by cases h

theorem parseEntries_printable : ∀ (map : List (String × Json)) (found found' : Collected),
    found.AllPrintable → parseEntries map found = .ok found' → found'.AllPrintable
  | [], found, found', hfound, h => by
      obtain rfl := Except.ok.inj h
      exact hfound
  | (key, value) :: map, found, found', hfound, h => by
      rw [parseEntries] at h
      split_ifs at h with hand hor
      · obtain ⟨list, hlist, h⟩ := except_bind_ok.mp h
        have hand' : ∀ conds, some list = some (.ok conds) → ∀ c ∈ conds, Printable c := by
          intro conds hconds
          exact parseArray_printable value "$and" list hlist conds (Option.some.inj hconds)
        exact parseEntries_printable map { found with explicitAnd := some list } found'
          ⟨hfound.fields, hand', hfound.explicitOr⟩ h
      · obtain ⟨list, hlist, h⟩ := except_bind_ok.mp h
        have hor' : ∀ conds, some list = some (.ok conds) → ∀ c ∈ conds, Printable c := by
          intro conds hconds
          exact parseArray_printable value "$or" list hlist conds (Option.some.inj hconds)
        exact parseEntries_printable map { found with explicitOr := some list } found'
          ⟨hfound.fields, hfound.explicitAnd, hor'⟩ h
      · obtain ⟨c, hc, h⟩ := except_bind_ok.mp h
        have hfields : ∀ c' ∈ found.fields ++ [c], Printable c' := by
          intro c' hc'
          rcases List.mem_append.mp hc' with hc' | hc'
          · exact hfound.fields c' hc'
          · obtain rfl := List.mem_singleton.mp hc'
            exact parseFieldCondition_printable hand hor hc
        exact parseEntries_printable map { found with fields := found.fields ++ [c] } found'
          ⟨hfields, hfound.explicitAnd, hfound.explicitOr⟩ h

theorem parseArray_printable : ∀ (v : Json) (op : String)
    (list : Except WhereParseError (List WhereCondition)), parseArray op v = .ok list →
    ∀ conds, list = .ok conds → ∀ c ∈ conds, Printable c
  | .array xs, op, list, h, conds, hconds => by
      obtain rfl := Except.ok.inj h
      exact parseList_printable xs conds hconds
  | .null, op, list, h, conds, hconds => by cases h
  | .bool b, op, list, h, conds, hconds => by cases h
  | .number n, op, list, h, conds, hconds => by cases h
  | .string s, op, list, h, conds, hconds => by cases h
  | .object map, op, list, h, conds, hconds => by cases h

theorem parseList_printable : ∀ (xs : List Json) (conds : List WhereCondition),
    parseList xs = .ok conds → ∀ c ∈ conds, Printable c
  | [], conds, h => by
      obtain rfl := Except.ok.inj h
      intro c hc
      cases hc
  | x :: xs, conds, h => by
      rw [parseList] at h
      obtain ⟨c, hc, h⟩ := except_bind_ok.mp h
      obtain ⟨conds', hconds, h⟩ := except_bind_ok.mp h
      obtain rfl := Except.ok.inj h
      intro c' hc'
      rcases List.mem_cons.mp hc' with rfl | hc'
      · exact parseCondition_printable x c' hc
      · exact parseList_printable xs conds' hconds c' hc'

end

theorem metadataValue_print {v : MetadataValue} (h : FiniteValue v) :
    metadataValue (metadataValueToJson v) = .ok v := by
  cases v with
  | str s => rfl
  | bool b => rfl
  | int i => rw [metadataValueToJson, Json.ofI64, metadataValue, Json.Number.asI64_ofI64]
  | float f =>
      rw [metadataValueToJson, Json.ofF64_finite h]
      rfl

theorem number_print {n : F64} (h : n.isFinite = true) (op : String) :
    number (Json.ofF64 n) op = .ok n := by
  rw [Json.ofF64_finite h]
  rfl

theorem valueList_print {vs : List MetadataValue} (h : ∀ v ∈ vs, FiniteValue v) (op : String) :
    valueList (.array (vs.map metadataValueToJson)) op = .ok vs := by
  refine valueList_ok.mpr ⟨_, rfl, mapM_ok.mpr ?_⟩
  rw [List.forall₂_map_left_iff, List.forall₂_same]
  intro v hv
  exact metadataValue_print (h v hv)

theorem parseFieldCondition_print (key : String) {op : ComparisonOp} (h : FiniteOp op) :
    parseFieldCondition key (opToValue op) = .ok (.comparison key op) := by
  rw [parseFieldCondition_ok]
  refine Or.inl ⟨_, [.comparison key op], rfl, .cons ⟨op, ?_, rfl⟩ .nil, Or.inl rfl⟩
  cases op with
  | eq v => exact .eq (metadataValue_print h)
  | ne v => exact .ne (metadataValue_print h)
  | gt n => exact .gt (number_print h _)
  | gte n => exact .gte (number_print h _)
  | lt n => exact .lt (number_print h _)
  | lte n => exact .lte (number_print h _)
  | isIn vs => exact .isIn (valueList_print h _)
  | nin vs => exact .nin (valueList_print h _)

mutual

theorem parse_printed : ∀ c : WhereCondition, Printable c →
    parseCondition (conditionToValue c) = .ok c
  | .comparison key op, h => by
      obtain ⟨hand, hor, hop⟩ := h
      rw [conditionToValue, parseCondition, parseEntries, if_neg hand, if_neg hor,
        parseFieldCondition_print key hop]
      rfl
  | .and conds, h => by
      obtain ⟨hlen, hconds⟩ := h
      rw [conditionToValue, parseCondition, parseEntries, if_pos rfl, parseArray,
        parseList_printed conds hconds]
      -- two conditions at least, so the wrapper is not dropped
      have hnormal : Normal .and (conds ++ []) (.and conds) := by
        rw [List.append_nil]
        exact Or.inr ⟨hlen, rfl⟩
      have hfinish : finish ⟨[], some (.ok conds), none⟩ = .ok (.and conds) :=
        finish_ok.mpr (Or.inr ⟨conds, Or.inl rfl, rfl, hnormal⟩)
      exact hfinish
  | .or conds, h => by
      obtain ⟨hlen, hconds⟩ := h
      rw [conditionToValue, parseCondition, parseEntries, if_neg (by decide), if_pos rfl,
        parseArray, parseList_printed conds hconds]
      exact finish_ok.mpr (Or.inl ⟨conds, rfl, Or.inr ⟨hlen, rfl⟩⟩)

theorem parseList_printed : ∀ conds : List WhereCondition, PrintableList conds →
    parseList (listToValues conds) = .ok conds
  | [], _ => rfl
  | c :: conds, h => by
      rw [listToValues, parseList, parse_printed c h.1, parseList_printed conds h.2]
      rfl

end

end Where

/-- **Printing is lossless on everything the parser produces**, and printing
what is parsed back gives the same JSON. -/
theorem parse_print {v : Json} {f : WhereFilter} (h : WhereFilter.fromJsonValue v = .ok f) :
    WhereFilter.fromJsonValue (Where.conditionToValue f.condition) = .ok f ∧
      ∀ f', WhereFilter.fromJsonValue (Where.conditionToValue f.condition) = .ok f' →
        Where.conditionToValue f'.condition = Where.conditionToValue f.condition := by
  obtain ⟨c, hc, rfl⟩ := Where.wrap_ok.mp h
  have hback : WhereFilter.fromJsonValue (Where.conditionToValue c) = .ok ⟨c⟩ :=
    Where.wrap_ok.mpr ⟨c, Where.parse_printed c (Where.parseCondition_printable v c hc), rfl⟩
  refine ⟨hback, ?_⟩
  intro f' hf'
  rw [hback] at hf'
  obtain rfl := Except.ok.inj hf'
  rfl

/-- A one-element `$and` beside a field with two operators and an integer
beyond `i64`. -/
theorem parse_print_demo :
    let v : Json := .object [("$and", .array [.object [("b", .bool true)]]),
      ("a", .object [("$gt", .number (.posInt 5)), ("$in", .array [.string "x"])]),
      ("n", .number (.posInt 9223372036854775808))]
    ∃ f, WhereFilter.fromJsonValue v = .ok f ∧
      WhereFilter.fromJsonValue (Where.conditionToValue f.condition) = .ok f := by
  intro v
  let f : WhereFilter := ⟨.and [.comparison "b" (.eq (.bool true)),
    .and [.comparison "a" (.gt ⟨0x4014000000000000#64⟩), .comparison "a" (.isIn [.str "x"])],
    .comparison "n" (.eq (.float ⟨0x43E0000000000000#64⟩))]⟩
  have hv : WhereFilter.fromJsonValue v = .ok f := rfl
  exact ⟨f, hv, (parse_print hv).1⟩

end Rekha
