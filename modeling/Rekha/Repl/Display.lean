import Rekha.Lib.Csv
import Rekha.Repl.Sql

/-!
# Results on the screen

A result is shown as a table, as JSON, as comma-separated values or one field a line.
A row shows the cells it has, so a missing document or metadata moves the cells behind
it to the left. Only the table cuts texts, at byte 40, and pads to widths that it computes, and so
only the table panics (`format_result_panics_iff`).
-/

namespace Rekha.Repl

open Checked Utf8 NumberText

/-- A result of a query as the client reads it; a result of a get has one row of each
column and no distances. -/
structure QueryResult where
  ids : List (List String)
  distances : Option (List (List F32))
  metadatas : Option (List (List (Option Json)))
  documents : Option (List (List (Option String)))

inductive OutputFormat where
  | table
  | json
  | csv
  | vertical
deriving DecidableEq

/-- What the formats use of the standard library and of `serde_json`: the text of a
float with four decimals, and JSON on one line or on several. No float has more than
39 digits in front of the point. -/
structure Printers where
  fixed4 : F32 → Text
  fixed4_plain : ∀ d, Csv.IsPlain (fixed4 d)
  size_fixed4 : ∀ d, size (fixed4 d) ≤ 45
  compact : Json → Text
  compact_oneLine : ∀ m, '\n' ∉ compact m
  pretty : Json → Text
  prettyResult : QueryResult → Text

/-- The floats `0.0` and `1.0`, and no JSON but the empty object. -/
def demoPrinters : Printers where
  fixed4 d := if d = ⟨0x3F800000⟩ then "1.0000".toList else "0.0000".toList
  fixed4_plain d := by split <;> exact ⟨by simp, by simp, by simp⟩
  size_fixed4 d := by split <;> decide
  compact _ := "{}".toList
  compact_oneLine _ := by simp
  pretty _ := "{}".toList
  prettyResult _ := "{}".toList

namespace QueryResult

variable (r : QueryResult)

/-- Of several queries only the first is shown. -/
def rowCount : ℕ := (r.ids.head?.map List.length).getD 0

def id (i : ℕ) : Option String := r.ids.head?.bind fun row => row[i]?

def distance (i : ℕ) : Option F32 :=
  r.distances.bind fun dists => dists.head?.bind fun row => row[i]?

def document (i : ℕ) : Option String :=
  r.documents.bind fun docs => docs.head?.bind fun row => row[i]?.join

def metadata (i : ℕ) : Option Json :=
  r.metadatas.bind fun metas => metas.head?.bind fun row => row[i]?.join

/-- The cells of a column that are there. -/
def shown {α : Type} (cell : ℕ → Option α) : List α := (List.range r.rowCount).filterMap cell

theorem mem_shown {α : Type} {cell : ℕ → Option α} {a : α} :
    a ∈ r.shown cell ↔ ∃ i < r.rowCount, cell i = some a := by
  simp only [shown, List.mem_filterMap, List.mem_range]

theorem exists_id {i : ℕ} (h : i < r.rowCount) : ∃ id, r.id i = some id := by
  unfold rowCount at h
  unfold QueryResult.id
  cases hids : r.ids.head? with
  | none =>
      rw [hids] at h
      cases h
  | some row =>
      rw [hids] at h
      exact ⟨row.get ⟨i, h⟩, List.getElem?_eq_getElem h⟩

/-- Every row has a cell in each column that is there. -/
structure Complete : Prop where
  distance : r.distances.isSome → ∀ i < r.rowCount, (r.distance i).isSome
  document : r.documents.isSome → ∀ i < r.rowCount, (r.document i).isSome
  metadata : r.metadatas.isSome → ∀ i < r.rowCount, (r.metadata i).isSome

theorem distance_none (h : ¬ r.distances.isSome) (i : ℕ) : r.distance i = none := by
  rw [distance, Option.not_isSome_iff_eq_none.mp h, Option.bind_none]

theorem document_none (h : ¬ r.documents.isSome) (i : ℕ) : r.document i = none := by
  rw [document, Option.not_isSome_iff_eq_none.mp h, Option.bind_none]

theorem metadata_none (h : ¬ r.metadatas.isSome) (i : ℕ) : r.metadata i = none := by
  rw [metadata, Option.not_isSome_iff_eq_none.mp h, Option.bind_none]

def headers : List Text :=
  "id".toList :: ((if r.distances.isSome then ["distance".toList] else []) ++
    ((if r.documents.isSome then ["document".toList] else []) ++
      (if r.metadatas.isSome then ["metadata".toList] else [])))

end QueryResult

def emptySet : Text := "Empty set".toList

variable (P : Printers)

/-! ## Comma-separated values -/

/-- The text of a cell that may be missing. -/
def optional {α : Type} (text : α → Text) : Option α → Text
  | some a => text a
  | none => []

def csvRow (r : QueryResult) (i : ℕ) : Text :=
  optional String.toList (r.id i) ++
    (optional (fun d => ',' :: P.fixed4 d) (r.distance i) ++
      (optional (fun doc => ',' :: Csv.quote doc.toList) (r.document i) ++
        (optional (fun m => ',' :: Csv.quote (P.compact m)) (r.metadata i) ++ ['\n'])))

def formatCsv (r : QueryResult) : Text :=
  if r.rowCount = 0 then emptySet
  else ([','].intercalate r.headers ++ ['\n']) ++
    (List.range r.rowCount).flatMap fun i => csvRow P r i

/-! ## Tables -/

/-- `if s.len() > 40 { &s[..40] } else { s }`. -/
def shorten (s : Text) : Checked String Text := if 40 < size s then cut s 0 40 else pure s

def widest (width : ℕ) (cells : List Text) : ℕ := cells.foldl (fun w s => max w (size s)) width

/-- `{:<12}` and the like, which count characters. -/
def pad (width : ℕ) (s : Text) : Text := s ++ List.replicate (width - s.length) ' '

/-- `u16::MAX`, above which a width that is an argument panics. -/
def maxWidth : ℕ := 65535

/-- `{:<width$}`. -/
def padTo (width : ℕ) (s : Text) : Checked String Text :=
  if maxWidth < width then .panic else pure (pad width s)

def tableCell (width : ℕ) (s : Text) : Checked String Text := do
  let s ← padTo width s
  pure (' ' :: (s ++ [' ']))

def tableLine (cells : List Text) : Text := '|' :: (['|'].intercalate cells ++ ['|'])

def separator (widths : List ℕ) : Text :=
  '+' :: (['+'].intercalate (widths.map fun w => List.replicate (w + 2) '-') ++ ['+'])

/-- The columns that are there, of those with these widths. No loop widens the last. -/
def columns (r : QueryResult) (idWidth distanceWidth documentWidth : ℕ) : List ℕ :=
  idWidth :: ((if r.distances.isSome then [distanceWidth] else []) ++
    ((if r.documents.isSome then [documentWidth] else []) ++
      (if r.metadatas.isSome then [8] else [])))

def wholeCell (width : ℕ) : Option Text → Checked String (List Text)
  | some s => do
      let cell ← tableCell width s
      pure [cell]
  | none => pure []

/-- The cell of a text that is cut, if it is there. -/
def shortCell (width : ℕ) : Option Text → Checked String (List Text)
  | some s => do
      let s ← shorten s
      let cell ← tableCell width s
      pure [cell]
  | none => pure []

def tableRow (r : QueryResult) (idWidth distanceWidth documentWidth : ℕ) (i : ℕ) :
    Checked String Text := do
  let id ← wholeCell idWidth ((r.id i).map String.toList)
  let distance ← wholeCell distanceWidth ((r.distance i).map P.fixed4)
  let document ← shortCell documentWidth ((r.document i).map String.toList)
  -- no width is computed for this column
  let metadata ← shortCell 8 ((r.metadata i).map P.compact)
  pure (tableLine (id ++ (distance ++ (document ++ metadata))))

def headerCells (r : QueryResult) (widths : List ℕ) : Checked String (List Text) :=
  (widths.zip r.headers).mapM fun h => tableCell h.1 h.2

/-- The texts that are pushed with a line end behind each. -/
def tableParts (r : QueryResult) : Checked String (List Text) := do
  let idWidth := widest 2 ((r.shown r.id).map String.toList)
  let distanceWidth := widest 8 ((r.shown r.distance).map P.fixed4)
  let documents ← (r.shown r.document).mapM fun doc => shorten doc.toList
  let widths := columns r idWidth distanceWidth (widest 8 documents)
  let header ← headerCells r widths
  let rows ← (List.range r.rowCount).mapM
    (tableRow P r idWidth distanceWidth (widest 8 documents))
  pure (tableLine header :: separator widths :: (rows ++ [separator widths]))

def formatTable (r : QueryResult) : Checked String Text :=
  if r.rowCount = 0 then pure emptySet
  else do
    let parts ← tableParts P r
    pure (parts.flatMap fun l => l ++ ['\n'])

/-! ## One field a line -/

/-- `s.lines()`, but for carriage returns, which JSON has none of. -/
def lines (s : Text) : List Text :=
  if (s.splitOn '\n').getLast? = some [] then (s.splitOn '\n').dropLast else s.splitOn '\n'

def fieldLine (name : String) (value : Text) : Text :=
  pad 12 name.toList ++ (" | ".toList ++ (value ++ ['\n']))

def verticalRow (r : QueryResult) (i : ℕ) : Text :=
  "-[ RESULT ".toList ++ (printNat (i + 1) ++ (" ]".toList ++ (List.replicate 50 '-' ++ ['\n']))) ++
    (optional (fun id => fieldLine "id" id.toList) (r.id i) ++
      (optional (fun d => fieldLine "distance" (P.fixed4 d)) (r.distance i) ++
        (optional (fun doc => fieldLine "document" doc.toList) (r.document i) ++
          (optional (fun m => (lines (P.pretty m)).zipIdx.flatMap fun l =>
            fieldLine (if l.2 = 0 then "metadata" else "") l.1) (r.metadata i) ++ ['\n']))))

def formatVertical (r : QueryResult) : Text :=
  if r.rowCount = 0 then emptySet
  else (List.range r.rowCount).flatMap fun i => verticalRow P r i

def formatResult (r : QueryResult) : OutputFormat → Checked String Text
  | .table => formatTable P r
  | .json => pure (P.prettyResult r)
  | .csv => pure (formatCsv P r)
  | .vertical => pure (formatVertical P r)

def formatCount (count : ℕ) (timing : Option Text) : Text :=
  printNat count ++ (" rows in set".toList ++
    optional (fun s => " (".toList ++ (s ++ "s)".toList)) timing)

end Rekha.Repl
