import Rekha.Lib.Outcome
import Rekha.Repl.Display

/-!
# What the formats show

Comma-separated values can be read again unless an id has a comma, a quote or a line
end in it; a row then has as many fields as the header if it is complete. A table
panics at a text that has no character boundary at byte 40, and at an id that is too
long for a width. Its lines are equally long unless an id or a document brings a line
end of its own, or a metadata text, which no width was computed for, is longer than its
header.
-/

namespace Rekha.Repl

open Checked Utf8

variable {P : Printers} {r : QueryResult}

/-! ## Comma-separated values -/

/-- The texts of a row behind its id, as they are read again. -/
def QueryResult.fields (P : Printers) (r : QueryResult) (i : ℕ) : List Text :=
  ((r.distance i).toList.map P.fixed4) ++
    (((r.document i).toList.map String.toList) ++ ((r.metadata i).toList.map P.compact))

/-- The same texts as they are written. -/
def QueryResult.written (P : Printers) (r : QueryResult) (i : ℕ) : List Text :=
  ((r.distance i).toList.map P.fixed4) ++
    (((r.document i).toList.map fun doc => Csv.quote doc.toList) ++
      ((r.metadata i).toList.map fun m => Csv.quote (P.compact m)))

def QueryResult.name (r : QueryResult) (i : ℕ) : Text := optional String.toList (r.id i)

theorem intercalate_cons_flatMap (sep s : Text) : ∀ ts : List Text,
    sep.intercalate (s :: ts) = s ++ ts.flatMap fun t => sep ++ t
  | [] => by rw [List.intercalate_singleton, List.flatMap_nil, List.append_nil]
  | t :: ts => by
      rw [List.intercalate_cons_cons, intercalate_cons_flatMap sep t ts, List.flatMap_cons,
        List.append_assoc, List.append_assoc]

theorem csvRow_eq (P : Printers) (r : QueryResult) (i : ℕ) :
    csvRow P r i = Csv.line (r.name i :: r.written P i) := by
  rw [Csv.line, intercalate_cons_flatMap, csvRow, QueryResult.written, QueryResult.name]
  cases r.distance i <;> cases r.document i <;> cases r.metadata i <;> simp [optional]

theorem encodes_written (i : ℕ) :
    List.Forall₂ Csv.Encodes (r.written P i) (r.fields P i) := by
  unfold QueryResult.written QueryResult.fields
  refine List.rel_append ?_ (List.rel_append ?_ ?_)
  · cases r.distance i with
    | none => exact .nil
    | some d => exact .cons (.plain (P.fixed4_plain d)) .nil
  · cases r.document i with
    | none => exact .nil
    | some doc => exact .cons (.quoted doc.toList) .nil
  · cases r.metadata i with
    | none => exact .nil
    | some m => exact .cons (.quoted (P.compact m)) .nil

theorem isPlain_headers : ∀ h ∈ r.headers, Csv.IsPlain h := by
  unfold QueryResult.headers Csv.IsPlain
  cases r.distances.isSome <;> cases r.documents.isSome <;> cases r.metadatas.isSome <;> simp

theorem length_headers : r.headers.length
    = r.distances.isSome.toNat + (r.documents.isSome.toNat + r.metadatas.isSome.toNat) + 1 := by
  unfold QueryResult.headers
  cases r.distances.isSome <;> cases r.documents.isSome <;> cases r.metadatas.isSome <;> rfl

theorem length_fields (i : ℕ) : (r.fields P i).length = (r.distance i).isSome.toNat
    + ((r.document i).isSome.toNat + (r.metadata i).isSome.toNat) := by
  unfold QueryResult.fields
  cases r.distance i <;> cases r.document i <;> cases r.metadata i <;> rfl

theorem cell_le {α β : Type} {column : Option α} {cell : Option β}
    (h : ¬ column.isSome → cell = none) : cell.isSome.toNat ≤ column.isSome.toNat ∧
      (cell.isSome.toNat = column.isSome.toNat ↔ (column.isSome → cell.isSome)) := by
  cases column with
  | none =>
      rw [h Bool.false_ne_true]
      simp
  | some a => cases cell <;> simp

theorem length_fields_eq_iff (i : ℕ) : (r.name i :: r.fields P i).length = r.headers.length ↔
    (r.distances.isSome → (r.distance i).isSome) ∧ (r.documents.isSome → (r.document i).isSome) ∧
      (r.metadatas.isSome → (r.metadata i).isSome) := by
  obtain ⟨hdistance, hdistance'⟩ := cell_le fun h => r.distance_none h i
  obtain ⟨hdocument, hdocument'⟩ := cell_le fun h => r.document_none h i
  obtain ⟨hmetadata, hmetadata'⟩ := cell_le fun h => r.metadata_none h i
  rw [← hdistance', ← hdocument', ← hmetadata', List.length_cons, length_fields, length_headers]
  omega

theorem complete_iff : r.Complete ↔
    ∀ i < r.rowCount, (r.name i :: r.fields P i).length = r.headers.length := by
  simp only [length_fields_eq_iff]
  constructor
  · intro h i hi
    exact ⟨fun hc => h.distance hc i hi, fun hc => h.document hc i hi, fun hc => h.metadata hc i hi⟩
  · intro h
    exact ⟨fun hc i hi => (h i hi).1 hc, fun hc i hi => (h i hi).2.1 hc,
      fun hc i hi => (h i hi).2.2 hc⟩

/-- **What comma-separated values say.** Ids are the only texts written as they are: the
rows are read back if and only if no id needs quotes. A record then has a field for each
name in the header in every row if and only if the rows are complete. -/
theorem csv_reads_back_iff (P : Printers) (r : QueryResult) (hrows : 0 < r.rowCount) :
    (Csv.read .start [] [] (formatCsv P r)
        = some (r.headers :: (List.range r.rowCount).map fun i => r.name i :: r.fields P i) ↔
      ∀ i < r.rowCount, Csv.IsPlain (r.name i)) ∧
    (r.Complete ↔
      ∀ i < r.rowCount, (r.name i :: r.fields P i).length = r.headers.length) := by
  refine ⟨?_, complete_iff⟩
  have hheaders : List.Forall₂ Csv.Encodes r.headers r.headers :=
    List.forall₂_same.mpr fun h hmem => .plain (isPlain_headers h hmem)
  have hrange : (∀ i < r.rowCount, Csv.IsPlain (r.name i)) ↔
      ∀ i ∈ List.range r.rowCount, Csv.IsPlain (r.name i) := by
    simp only [List.mem_range]
  have hne : r.headers ≠ [] := List.cons_ne_nil _ _
  rw [hrange, ← Csv.read_bare_iff r.name (fun i => encodes_written i) (List.range r.rowCount),
    formatCsv, if_neg hrows.ne']
  simp only [csvRow_eq]
  rw [← Csv.line, Csv.read_line _ [] hheaders hne]
  constructor
  · intro h
    obtain ⟨R, hR, heq⟩ := Option.map_eq_some_iff.mp h
    rw [hR, (List.cons.inj heq).2]
  · intro h
    rw [h]
    rfl

/-- Two ids, of which one has a comma; the other has no document. -/
theorem csv_reads_back_iff_demo :
    ¬ (⟨[["a,b", "c"]], none, none, some [[some "x", none]]⟩ : QueryResult).Complete ∧
    Csv.read .start [] [] (formatCsv demoPrinters
        ⟨[["a,b", "c"]], none, none, some [[some "x", none]]⟩)
      ≠ some [["id".toList, "document".toList], ["a,b".toList, "x".toList], ["c".toList]] := by
  have h := csv_reads_back_iff demoPrinters ⟨[["a,b", "c"]], none, none, some [[some "x", none]]⟩
    (by decide)
  constructor
  · intro hcomplete
    exact absurd (h.2.mp hcomplete 1 (by decide)) (by decide)
  · intro hread
    exact (h.1.mp hread 0 (by decide)).1 (by decide)

/-! ## Tables -/

def SplitAt40 (s : Text) : Prop := 40 < size s ∧ ¬ IsBoundary s 40

theorem shorten_panics {s : Text} : shorten s = .panic ↔ SplitAt40 s := by
  rw [shorten, SplitAt40]
  by_cases h : 40 < size s
  · have hzero : IsBoundary s 0 := ⟨[], s, rfl, rfl⟩
    rw [if_pos h, cut, expect_panics, ← Option.not_isSome_iff_eq_none, slice_isSome]
    simp [h, hzero]
  · rw [if_neg h]
    simp [h]

theorem shorten_not_error (s : Text) (e : String) : shorten s ≠ .error e := by
  unfold shorten cut
  split
  · cases slice s 0 40 <;> rintro ⟨⟩
  · rintro ⟨⟩

theorem size_shorten {s t : Text} (h : shorten s = .ok t) : size t ≤ 40 := by
  rw [shorten] at h
  split at h
  · rw [cut, expect_ok, slice_eq_some] at h
    obtain ⟨before, after, -, -, hsize⟩ := h
    omega
  · cases h
    omega

/-- A text between two spaces, padded to the width of its column. -/
def cell (width : ℕ) (s : Text) : Text := ' ' :: (pad width s ++ [' '])

theorem tableCell_panics {width : ℕ} {s : Text} :
    tableCell width s = .panic ↔ maxWidth < width := by
  rw [tableCell, padTo]
  split <;> simp [*]

theorem tableCell_not_error (width : ℕ) (s : Text) (e : String) : tableCell width s ≠ .error e := by
  rw [tableCell, padTo]
  split <;> rintro ⟨⟩

theorem tableCell_ok {width : ℕ} {s c : Text} (h : tableCell width s = .ok c) :
    c = cell width s := by
  rw [tableCell, padTo] at h
  split at h
  · cases h
  · cases h
    rfl

theorem wholeCell_not_panics {width : ℕ} (h : width ≤ maxWidth) (o : Option Text) :
    wholeCell width o ≠ .panic := by
  cases o <;> simp [wholeCell, bind_panics, tableCell_panics, h]

theorem wholeCell_not_error (width : ℕ) (o : Option Text) (e : String) :
    wholeCell width o ≠ .error e := by
  cases o with
  | none => rintro ⟨⟩
  | some s =>
      rw [wholeCell]
      cases h : tableCell width s with
      | ok c => rintro ⟨⟩
      | error e' => exact absurd h (tableCell_not_error width s e')
      | panic => rintro ⟨⟩

theorem wholeCell_ok {width : ℕ} {o : Option Text} {cells : List Text}
    (h : wholeCell width o = .ok cells) : cells = o.toList.map (cell width) := by
  cases o with
  | none =>
      cases h
      rfl
  | some s =>
      obtain ⟨c, hc, h⟩ := bind_ok.mp h
      cases h
      rw [tableCell_ok hc]
      rfl

theorem shortCell_panics {width : ℕ} (h : width ≤ maxWidth) {o : Option Text} :
    shortCell width o = .panic ↔ ∃ s, o = some s ∧ SplitAt40 s := by
  cases o with
  | none => simp [shortCell]
  | some s => simp [shortCell, bind_panics, shorten_panics, tableCell_panics, h]

theorem shortCell_not_error (width : ℕ) (o : Option Text) (e : String) :
    shortCell width o ≠ .error e := by
  cases o with
  | none => rintro ⟨⟩
  | some s =>
      rw [shortCell]
      cases h : shorten s with
      | ok t =>
          rw [ok_bind]
          cases hcell : tableCell width t with
          | ok c => rintro ⟨⟩
          | error e' => exact absurd hcell (tableCell_not_error width t e')
          | panic => rintro ⟨⟩
      | error e' => exact absurd h (shorten_not_error s e')
      | panic => rintro ⟨⟩

/-- The row shows a text that is cut inside a character. -/
def Splits (P : Printers) (r : QueryResult) (i : ℕ) : Prop :=
  (∃ doc, r.document i = some doc ∧ SplitAt40 doc.toList) ∨
    ∃ m, r.metadata i = some m ∧ SplitAt40 (P.compact m)

theorem exists_map_toList {o : Option String} {p : Text → Prop} :
    (∃ s, o.map String.toList = some s ∧ p s) ↔ ∃ doc, o = some doc ∧ p doc.toList := by
  cases o <;> simp

theorem exists_map_compact {o : Option Json} {p : Text → Prop} :
    (∃ s, o.map P.compact = some s ∧ p s) ↔ ∃ m, o = some m ∧ p (P.compact m) := by
  cases o <;> simp

theorem forall₂_of_mapM {α β : Type} {f : α → Checked String β} {xs : List α} {ys : List β}
    (h : xs.mapM f = .ok ys) : List.Forall₂ (fun x y => f x = .ok y) xs ys := by
  rw [mapM_eq_ok, ← List.forall₂_eq_eq_eq, List.forall₂_map_left_iff,
    List.forall₂_map_right_iff] at h
  exact h

section Rows

variable {idWidth distanceWidth documentWidth i : ℕ}

theorem tableRow_panics (hid : idWidth ≤ maxWidth) (hdistance : distanceWidth ≤ maxWidth)
    (hdocument : documentWidth ≤ maxWidth) :
    tableRow P r idWidth distanceWidth documentWidth i = .panic ↔ Splits P r i := by
  rw [Splits, ← exists_map_toList, ← exists_map_compact, ← shortCell_panics hdocument,
    ← shortCell_panics (show 8 ≤ maxWidth by decide), tableRow]
  have hrest : ∀ cells cells' : List Text, (do
      let document ← shortCell documentWidth ((r.document i).map String.toList)
      let metadata ← shortCell 8 ((r.metadata i).map P.compact)
      pure (tableLine (cells ++ (cells' ++ (document ++ metadata)))) : Checked String Text)
        = .panic ↔
        shortCell documentWidth ((r.document i).map String.toList) = .panic ∨
          shortCell 8 ((r.metadata i).map P.compact) = .panic := by
    intro cells cells'
    refine bind_panics_of_not_error (shortCell_not_error _ _) fun document => ?_
    rw [bind_panics]
    simp
  rw [bind_panics_of_not_error (wholeCell_not_error _ _) fun cells =>
    (bind_panics_of_not_error (wholeCell_not_error _ _) (hrest cells)).trans
      (or_iff_right (wholeCell_not_panics hdistance _))]
  exact or_iff_right (wholeCell_not_panics hid _)

theorem tableRow_not_error (e : String) :
    tableRow P r idWidth distanceWidth documentWidth i ≠ .error e := by
  rw [tableRow]
  apply bind_not_error (wholeCell_not_error _ _)
  intro id
  apply bind_not_error (wholeCell_not_error _ _)
  intro distance
  apply bind_not_error (shortCell_not_error _ _)
  intro document
  apply bind_not_error (shortCell_not_error _ _)
  rintro metadata e ⟨⟩

/-- The header is padded first: with the width of the ids, the only one without a
bound. -/
theorem headerCells_panics (hdistance : distanceWidth ≤ maxWidth)
    (hdocument : documentWidth ≤ maxWidth) :
    headerCells r (columns r idWidth distanceWidth documentWidth) = .panic ↔
      maxWidth < idWidth := by
  rw [headerCells, mapM_panics fun h : ℕ × Text => tableCell_not_error h.1 h.2, columns,
    QueryResult.headers]
  have height : ¬ maxWidth < 8 := by decide
  cases r.distances.isSome <;> cases r.documents.isSome <;> cases r.metadatas.isSome <;>
    simp [tableCell_panics, hdistance, hdocument, height]

end Rows

theorem le_widest : ∀ (cells : List Text) (width : ℕ), width ≤ widest width cells
  | [], _ => le_rfl
  | s :: cells, width => (le_max_left width (size s)).trans (le_widest cells _)

theorem lt_widest_iff {n : ℕ} : ∀ {cells : List Text} {width : ℕ},
    n < widest width cells ↔ n < width ∨ ∃ s ∈ cells, n < size s
  | [], _ => by simp [widest]
  | s :: cells, width => by
      rw [show widest width (s :: cells) = widest (max width (size s)) cells from rfl,
        lt_widest_iff, lt_max_iff, List.exists_mem_cons_iff, or_assoc]

theorem size_le_widest {s : Text} {cells : List Text} (width : ℕ) (h : s ∈ cells) :
    size s ≤ widest width cells :=
  Nat.le_of_not_lt fun hlt => lt_irrefl _ (lt_widest_iff.mpr (.inr ⟨s, h, hlt⟩))

/-- An id makes its column too wide to be padded. -/
def TooWide (r : QueryResult) (i : ℕ) : Prop := ∃ id, r.id i = some id ∧ maxWidth < size id.toList

theorem idWidth_iff : maxWidth < widest 2 ((r.shown r.id).map String.toList) ↔
    ∃ i < r.rowCount, TooWide r i := by
  rw [lt_widest_iff, or_iff_right (by decide)]
  constructor
  · rintro ⟨s, hs, hwide⟩
    obtain ⟨id, hid, rfl⟩ := List.mem_map.mp hs
    obtain ⟨i, hi, hid⟩ := r.mem_shown.mp hid
    exact ⟨i, hi, id, hid, hwide⟩
  · rintro ⟨i, hi, id, hid, hwide⟩
    exact ⟨_, List.mem_map_of_mem (r.mem_shown.mpr ⟨i, hi, hid⟩), hwide⟩

theorem distanceWidth_le : widest 8 ((r.shown r.distance).map P.fixed4) ≤ maxWidth := by
  apply Nat.le_of_not_lt
  rw [lt_widest_iff]
  rintro (height | ⟨s, hs, hwide⟩)
  · exact absurd height (by decide)
  · obtain ⟨d, -, rfl⟩ := List.mem_map.mp hs
    exact absurd (hwide.trans_le (P.size_fixed4 d)) (by decide)

theorem documentWidth_le {documents : List Text}
    (h : (r.shown r.document).mapM (fun doc => shorten doc.toList) = .ok documents) :
    widest 8 documents ≤ maxWidth := by
  apply Nat.le_of_not_lt
  rw [lt_widest_iff]
  rintro (height | ⟨t, ht, hwide⟩)
  · exact absurd height (by decide)
  · have hmem : Checked.ok t ∈ documents.map (Checked.ok (ε := String)) := List.mem_map_of_mem ht
    rw [← mapM_eq_ok.mp h] at hmem
    obtain ⟨doc, -, hdoc⟩ := List.mem_map.mp hmem
    exact absurd (hwide.trans_le (size_shorten hdoc)) (by decide)

theorem documents_panics : ((r.shown r.document).mapM fun doc => shorten doc.toList) = .panic ↔
    ∃ i < r.rowCount, ∃ doc, r.document i = some doc ∧ SplitAt40 doc.toList := by
  rw [mapM_panics fun doc : String => shorten_not_error doc.toList]
  simp only [r.mem_shown, shorten_panics]
  constructor
  · rintro ⟨doc, ⟨i, hi, hdoc⟩, hsplit⟩
    exact ⟨i, hi, doc, hdoc, hsplit⟩
  · rintro ⟨i, hi, doc, hdoc, hsplit⟩
    exact ⟨doc, ⟨i, hi, hdoc⟩, hsplit⟩

theorem tableParts_panics : tableParts P r = .panic ↔
    (∃ i < r.rowCount, TooWide r i) ∨ ∃ i < r.rowCount, Splits P r i := by
  rw [tableParts]
  cases hdocuments : (r.shown r.document).mapM fun doc => shorten doc.toList with
  | error e =>
      exact absurd hdocuments (mapM_not_error fun doc : String => shorten_not_error doc.toList)
  | panic =>
      obtain ⟨i, hi, hdoc⟩ := documents_panics.mp hdocuments
      exact iff_of_true rfl (.inr ⟨i, hi, .inl hdoc⟩)
  | ok documents =>
      have hdistance := distanceWidth_le (P := P) (r := r)
      have hdocument := documentWidth_le hdocuments
      have hheader : headerCells r (columns r (widest 2 ((r.shown r.id).map String.toList))
          (widest 8 ((r.shown r.distance).map P.fixed4)) (widest 8 documents)) = .panic ↔
          maxWidth < widest 2 ((r.shown r.id).map String.toList) :=
        headerCells_panics hdistance hdocument
      rw [ok_bind, ← idWidth_iff, ← hheader]
      by_cases hwide : maxWidth < widest 2 ((r.shown r.id).map String.toList)
      · have hpanic := hheader.mpr hwide
        exact iff_of_true (bind_panics.mpr (.inl hpanic)) (.inl hpanic)
      · apply bind_panics_of_not_error fun e =>
          mapM_not_error fun h : ℕ × Text => tableCell_not_error h.1 h.2
        intro header
        rw [bind_panics, mapM_panics fun i e => tableRow_not_error e]
        simp [tableRow_panics (Nat.le_of_not_lt hwide) hdistance hdocument]

/-- **When a result cannot be shown.** Only the table panics: if an id of more than
65535 bytes makes its column too wide, or a document or metadata text of more than 40
bytes has a character across byte 40. -/
theorem format_result_panics_iff (P : Printers) (r : QueryResult) (f : OutputFormat) :
    formatResult P r f = .panic ↔ f = .table ∧ ∃ i < r.rowCount,
      (∃ id, r.id i = some id ∧ maxWidth < size id.toList) ∨
      (∃ doc, r.document i = some doc ∧ SplitAt40 doc.toList) ∨
        ∃ m, r.metadata i = some m ∧ SplitAt40 (P.compact m) := by
  cases f with
  | json | csv | vertical => simp [formatResult]
  | table =>
      rw [formatResult, formatTable]
      split
      · rename_i hzero
        simp [hzero]
      · rw [bind_panics, tableParts_panics]
        simp only [pure_eq, reduceCtorEq, and_false, exists_false, or_false, true_and]
        rw [← exists_or]
        simp only [← and_or_left]
        rfl

/-! ## Lines -/

theorem splitOn_flatMap : ∀ parts : List Text, (parts.flatMap fun l => l ++ ['\n']).splitOn '\n'
    = (parts.flatMap fun l => l.splitOn '\n') ++ [[]]
  | [] => rfl
  | l :: parts => by
      rw [List.flatMap_cons, List.append_assoc, List.singleton_append,
        List.splitOn_append_cons_self, splitOn_flatMap parts, List.flatMap_cons, List.append_assoc]

theorem lines_flatMap (parts : List Text) :
    lines (parts.flatMap fun l => l ++ ['\n']) = parts.flatMap fun l => l.splitOn '\n' := by
  rw [lines, splitOn_flatMap, List.getLast?_concat, if_pos rfl, List.dropLast_concat]

theorem exists_short_line {front rest : Text} (h : '\n' ∈ front) :
    ∃ l ∈ (front ++ rest).splitOn '\n', l.length < front.length := by
  obtain ⟨first, behind, rfl, hfirst⟩ := List.eq_append_cons_of_mem h
  refine ⟨first, ?_, ?_⟩
  · rw [List.append_assoc, List.cons_append, List.splitOn_append_cons_self,
      List.splitOn_eq_singleton hfirst]
    exact List.mem_cons_self
  · rw [List.length_append, List.length_cons]
    omega

/-! ## Columns -/

theorem length_le_size : ∀ s : Text, s.length ≤ size s
  | [] => le_rfl
  | c :: s => by
      have hpos := c.utf8Size_pos
      have htail := length_le_size s
      rw [List.length_cons, size_cons]
      omega

theorem length_cell (width : ℕ) (s : Text) : (cell width s).length = max s.length width + 2 := by
  rw [cell, pad]
  simp
  omega

theorem lineEnd_mem_cell {width : ℕ} {s : Text} : '\n' ∈ cell width s ↔ '\n' ∈ s := by
  simp [cell, pad]

def total (cells : List Text) : ℕ := (cells.map fun c => c.length + 1).sum

theorem total_append (cells cells' : List Text) :
    total (cells ++ cells') = total cells + total cells' := by
  rw [total, List.map_append, List.sum_append]
  rfl

theorem tableLine_eq {cells : List Text} (hne : cells ≠ []) :
    tableLine cells = '|' :: cells.flatMap fun c => c ++ ['|'] := by
  obtain ⟨c, cells, rfl⟩ := List.exists_cons_of_ne_nil hne
  rw [tableLine]
  congr 1
  clear hne
  induction cells generalizing c with
  | nil => simp
  | cons c' cells ih =>
      rw [List.intercalate_cons_cons, List.append_assoc, List.append_assoc, ih]
      simp only [List.flatMap_cons, List.append_assoc]

theorem length_flatMap_bar (cells : List Text) :
    (cells.flatMap fun c => c ++ ['|']).length = total cells := by
  rw [List.length_flatMap, total]
  simp

theorem length_tableLine {cells : List Text} (hne : cells ≠ []) :
    (tableLine cells).length = total cells + 1 := by
  rw [tableLine_eq hne, List.length_cons, length_flatMap_bar]

theorem lineEnd_mem_tableLine {cells : List Text} (hne : cells ≠ []) :
    '\n' ∈ tableLine cells ↔ ∃ c ∈ cells, '\n' ∈ c := by
  rw [tableLine_eq hne]
  simp [List.mem_flatMap]

theorem length_separator {widths : List ℕ} (hne : widths ≠ []) :
    (separator widths).length = (widths.map (· + 3)).sum + 1 := by
  obtain ⟨w, widths, rfl⟩ := List.exists_cons_of_ne_nil hne
  rw [separator, List.map_cons, intercalate_cons_flatMap]
  simp [List.length_flatMap, List.map_map, Function.comp_def, Nat.add_assoc]
  omega

theorem lineEnd_not_mem_separator {widths : List ℕ} (hne : widths ≠ []) :
    '\n' ∉ separator widths := by
  obtain ⟨w, widths, rfl⟩ := List.exists_cons_of_ne_nil hne
  rw [separator, List.map_cons, intercalate_cons_flatMap]
  simp

/-- The lines of a row. A line end in one of its first cells, which fit, makes the
first line too short. -/
theorem row_lines_iff {front back : List Text} {n : ℕ} (hne : front ≠ [])
    (hfront : total front + 1 ≤ n) (hback : ∀ c ∈ back, '\n' ∉ c) :
    (∀ l ∈ (tableLine (front ++ back)).splitOn '\n', l.length = n) ↔
      (∀ c ∈ front, '\n' ∉ c) ∧ total (front ++ back) + 1 = n := by
  have hne' : front ++ back ≠ [] := List.append_ne_nil_of_left_ne_nil hne back
  have hone : (∀ c ∈ front, '\n' ∉ c) → '\n' ∉ tableLine (front ++ back) := by
    rw [lineEnd_mem_tableLine hne']
    rintro hplain ⟨c, hc, hend⟩
    exact (List.mem_append.mp hc).elim (fun hc => hplain c hc hend) fun hc => hback c hc hend
  constructor
  · intro h
    have hplain : ∀ c ∈ front, '\n' ∉ c := by
      intro c hc hend
      have hmem : '\n' ∈ '|' :: front.flatMap fun c => c ++ ['|'] :=
        List.mem_cons_of_mem _ (List.mem_flatMap.mpr ⟨c, hc, List.mem_append_left _ hend⟩)
      obtain ⟨l, hl, hshort⟩ := @exists_short_line _ (back.flatMap fun c => c ++ ['|']) hmem
      rw [List.cons_append, ← List.flatMap_append, ← tableLine_eq hne'] at hl
      have hlength := h l hl
      rw [List.length_cons, length_flatMap_bar] at hshort
      omega
    refine ⟨hplain, ?_⟩
    rw [← length_tableLine hne']
    apply h
    rw [List.splitOn_eq_singleton (hone hplain)]
    exact List.mem_cons_self
  · rintro ⟨hplain, htotal⟩ l hl
    rw [List.splitOn_eq_singleton (hone hplain), List.mem_singleton] at hl
    rw [hl, length_tableLine hne', htotal]

section Aligned

variable {idWidth distanceWidth documentWidth i : ℕ}

theorem headerCells_ok {widths : List ℕ} {header : List Text}
    (h : headerCells r widths = .ok header) : header = List.zipWith cell widths r.headers := by
  have hcells : List.Forall₂ (fun (h : ℕ × Text) c => tableCell h.1 h.2 = .ok c)
      (widths.zip r.headers) header := forall₂_of_mapM h
  have hmap : List.Forall₂ (fun (h : ℕ × Text) c => cell h.1 h.2 = c) (widths.zip r.headers)
      header := hcells.imp fun h c hok => (tableCell_ok hok).symm
  rw [← List.forall₂_map_left_iff (f := fun h : ℕ × Text => cell h.1 h.2),
    List.forall₂_eq_eq_eq] at hmap
  rw [← hmap, List.map_zip_eq_zipWith]
  rfl

theorem length_header (hid : 2 ≤ idWidth) (hdistance : 8 ≤ distanceWidth)
    (hdocument : 8 ≤ documentWidth) :
    (tableLine (List.zipWith cell (columns r idWidth distanceWidth documentWidth)
      r.headers)).length
      = ((columns r idWidth distanceWidth documentWidth).map (· + 3)).sum + 1 := by
  rw [length_tableLine (by exact List.cons_ne_nil _ _), columns, QueryResult.headers, total]
  cases r.distances.isSome <;> cases r.documents.isSome <;> cases r.metadatas.isSome <;>
    simp [length_cell] <;> omega

theorem lineEnd_not_mem_header : '\n' ∉
    tableLine (List.zipWith cell (columns r idWidth distanceWidth documentWidth) r.headers) := by
  rw [lineEnd_mem_tableLine (by exact List.cons_ne_nil _ _), columns, QueryResult.headers]
  cases r.distances.isSome <;> cases r.documents.isSome <;> cases r.metadatas.isSome <;>
    simp [lineEnd_mem_cell]

theorem sum_columns : ((columns r idWidth distanceWidth documentWidth).map (· + 3)).sum
    = (idWidth + 3) + ((if r.distances.isSome then distanceWidth + 3 else 0) +
      ((if r.documents.isSome then documentWidth + 3 else 0) +
        if r.metadatas.isSome then 11 else 0)) := by
  unfold columns
  cases r.distances.isSome <;> cases r.documents.isSome <;> cases r.metadatas.isSome <;> simp

theorem total_cell (width : ℕ) (s : Text) : total [cell width s] = max s.length width + 3 := by
  rw [total, List.map_singleton, List.sum_singleton, length_cell]

theorem total_fitting {width : ℕ} {s : Text} (h : size s ≤ width) :
    total [cell width s] = width + 3 := by
  rw [total_cell, max_eq_right ((length_le_size s).trans h)]

theorem size_le_four_length : ∀ s : Text, size s ≤ 4 * s.length
  | [] => le_rfl
  | c :: s => by
      have hfour := c.utf8Size_le_four
      have htail := size_le_four_length s
      rw [List.length_cons, size_cons]
      omega

theorem length_shorten {s t : Text} (h : shorten s = .ok t) : t.length ≤ 8 ↔ s.length ≤ 8 := by
  rw [shorten] at h
  split at h
  · rw [cut, expect_ok, slice_eq_some] at h
    obtain ⟨before, after, rfl, -, hsize⟩ := h
    have hfour := size_le_four_length t
    simp only [List.length_append]
    omega
  · cases h
    rfl

theorem mem_of_mem_shorten {s t : Text} (h : shorten s = .ok t) {c : Char} (hc : c ∈ t) :
    c ∈ s := by
  rw [shorten] at h
  split at h
  · rw [cut, expect_ok, slice_eq_some] at h
    obtain ⟨before, after, rfl, -, -⟩ := h
    exact List.mem_append_right _ (List.mem_append_left _ hc)
  · cases h
    exact hc

theorem mem_documents {documents : List Text} {doc : String} {t : Text}
    (hdocuments : (r.shown r.document).mapM (fun doc => shorten doc.toList) = .ok documents)
    (hmem : doc ∈ r.shown r.document) (ht : shorten doc.toList = .ok t) : t ∈ documents := by
  have hok : shorten doc.toList ∈ documents.map Checked.ok := by
    rw [← mapM_eq_ok.mp hdocuments]
    exact List.mem_map_of_mem hmem
  obtain ⟨t', ht', heq⟩ := List.mem_map.mp hok
  obtain rfl := Checked.ok.inj (heq.trans ht)
  exact ht'

theorem shortCell_ok {width : ℕ} {o : Option Text} {cells : List Text}
    (h : shortCell width o = .ok cells) :
    (o = none ∧ cells = []) ∨ ∃ s t, o = some s ∧ shorten s = .ok t ∧ cells = [cell width t] := by
  cases o with
  | none =>
      cases h
      exact .inl ⟨rfl, rfl⟩
  | some s =>
      obtain ⟨t, ht, h⟩ := bind_ok.mp h
      obtain ⟨c, hc, h⟩ := bind_ok.mp h
      cases h
      rw [tableCell_ok hc]
      exact .inr ⟨s, t, rfl, ht, rfl⟩

theorem total_id (hi : i < r.rowCount) :
    total (((r.id i).map String.toList).toList.map
      (cell (widest 2 ((r.shown r.id).map String.toList))))
      = widest 2 ((r.shown r.id).map String.toList) + 3 := by
  obtain ⟨id, hid⟩ := r.exists_id hi
  rw [hid]
  exact total_fitting (size_le_widest 2 (List.mem_map_of_mem (r.mem_shown.mpr ⟨i, hi, hid⟩)))

theorem total_distance (hi : i < r.rowCount) (hcomplete : r.Complete) :
    total (((r.distance i).map P.fixed4).toList.map
      (cell (widest 8 ((r.shown r.distance).map P.fixed4))))
      = if r.distances.isSome then widest 8 ((r.shown r.distance).map P.fixed4) + 3 else 0 := by
  split
  · rename_i hcolumn
    obtain ⟨d, hd⟩ := Option.isSome_iff_exists.mp (hcomplete.distance hcolumn i hi)
    rw [hd]
    exact total_fitting (size_le_widest 8 (List.mem_map_of_mem (r.mem_shown.mpr ⟨i, hi, hd⟩)))
  · rename_i hcolumn
    rw [r.distance_none hcolumn]
    rfl

/-- The part of a document that its row shows is on one line. -/
def ShownOnOneLine (doc : String) : Prop := ∀ t, shorten doc.toList = .ok t → '\n' ∉ t

theorem document_cells {documents cells : List Text}
    (hdocuments : (r.shown r.document).mapM (fun doc => shorten doc.toList) = .ok documents)
    (hcells : shortCell (widest 8 documents) ((r.document i).map String.toList) = .ok cells)
    (hi : i < r.rowCount) (hcomplete : r.Complete) :
    total cells = (if r.documents.isSome then widest 8 documents + 3 else 0) ∧
      ((∀ c ∈ cells, '\n' ∉ c) ↔ ∀ doc, r.document i = some doc → ShownOnOneLine doc) := by
  rcases shortCell_ok hcells with ⟨hnone, rfl⟩ | ⟨s, t, hsome, ht, rfl⟩
  · have hdoc : r.document i = none := Option.map_eq_none_iff.mp hnone
    have hcolumn : ¬ r.documents.isSome := by
      intro hcolumn
      have hthere := hcomplete.document hcolumn i hi
      rw [hdoc] at hthere
      cases hthere
    rw [if_neg hcolumn]
    exact ⟨rfl, by simp [hdoc]⟩
  · obtain ⟨doc, hdoc, rfl⟩ := Option.map_eq_some_iff.mp hsome
    have hcolumn : r.documents.isSome := by
      by_contra hcolumn
      rw [r.document_none hcolumn] at hdoc
      cases hdoc
    rw [if_pos hcolumn]
    refine ⟨total_fitting (size_le_widest 8
      (mem_documents hdocuments (r.mem_shown.mpr ⟨i, hi, hdoc⟩) ht)), ?_⟩
    rw [hdoc]
    simp [ShownOnOneLine, ht, lineEnd_mem_cell]

theorem metadata_cells {cells : List Text}
    (hcells : shortCell 8 ((r.metadata i).map P.compact) = .ok cells)
    (hi : i < r.rowCount) (hcomplete : r.Complete) :
    (∀ c ∈ cells, '\n' ∉ c) ∧ (total cells = (if r.metadatas.isSome then 11 else 0) ↔
      ∀ m, r.metadata i = some m → (P.compact m).length ≤ 8) := by
  rcases shortCell_ok hcells with ⟨hnone, rfl⟩ | ⟨s, t, hsome, ht, rfl⟩
  · have hmeta : r.metadata i = none := Option.map_eq_none_iff.mp hnone
    have hcolumn : ¬ r.metadatas.isSome := by
      intro hcolumn
      have hthere := hcomplete.metadata hcolumn i hi
      rw [hmeta] at hthere
      cases hthere
    rw [if_neg hcolumn]
    exact ⟨fun c hc => absurd hc List.not_mem_nil, iff_of_true rfl (by simp [hmeta])⟩
  · obtain ⟨m, hmeta, rfl⟩ := Option.map_eq_some_iff.mp hsome
    have hcolumn : r.metadatas.isSome := by
      by_contra hcolumn
      rw [r.metadata_none hcolumn] at hmeta
      cases hmeta
    constructor
    · intro c hc
      rw [List.mem_singleton.mp hc, lineEnd_mem_cell]
      exact fun hend => P.compact_oneLine m (mem_of_mem_shorten ht hend)
    · rw [if_pos hcolumn, hmeta, total_cell]
      simp only [Option.some.injEq, forall_eq']
      rw [← length_shorten ht]
      omega

/-- No cell of the row has a line end, and its metadata fits. -/
structure Straight (P : Printers) (r : QueryResult) (i : ℕ) : Prop where
  id : ∀ id, r.id i = some id → '\n' ∉ id.toList
  document : ∀ doc, r.document i = some doc → ShownOnOneLine doc
  metadata : ∀ m, r.metadata i = some m → (P.compact m).length ≤ 8

theorem tableRow_lines_iff {documents : List Text} {row : Text}
    (hdocuments : (r.shown r.document).mapM (fun doc => shorten doc.toList) = .ok documents)
    (hrow : tableRow P r (widest 2 ((r.shown r.id).map String.toList))
      (widest 8 ((r.shown r.distance).map P.fixed4)) (widest 8 documents) i = .ok row)
    (hi : i < r.rowCount) (hcomplete : r.Complete) :
    (∀ l ∈ row.splitOn '\n', l.length = ((columns r (widest 2 ((r.shown r.id).map String.toList))
      (widest 8 ((r.shown r.distance).map P.fixed4)) (widest 8 documents)).map (· + 3)).sum + 1) ↔
        Straight P r i := by
  obtain ⟨ids, hids, hrow⟩ := bind_ok.mp hrow
  obtain ⟨distances, hdistances, hrow⟩ := bind_ok.mp hrow
  obtain ⟨docs, hdocs, hrow⟩ := bind_ok.mp hrow
  obtain ⟨metas, hmetas, hrow⟩ := bind_ok.mp hrow
  cases hrow
  obtain ⟨hdocTotal, hdocLines⟩ := document_cells hdocuments hdocs hi hcomplete
  obtain ⟨hmetaLines, hmetaTotal⟩ := metadata_cells hmetas hi hcomplete
  have hidTotal := total_id hi
  have hdistanceTotal := total_distance (P := P) hi hcomplete
  rw [← wholeCell_ok hids] at hidTotal
  rw [← wholeCell_ok hdistances] at hdistanceTotal
  have hne : ids ++ (distances ++ docs) ≠ [] := by
    obtain ⟨id, hid⟩ := r.exists_id hi
    rw [wholeCell_ok hids, hid]
    exact List.cons_ne_nil _ _
  have hidLines : (∀ c ∈ ids, '\n' ∉ c) ↔ ∀ id, r.id i = some id → '\n' ∉ id.toList := by
    rw [wholeCell_ok hids]
    cases r.id i <;> simp [lineEnd_mem_cell]
  have hdistanceLines : ∀ c ∈ distances, '\n' ∉ c := by
    rw [wholeCell_ok hdistances]
    cases r.distance i with
    | none => simp
    | some d => simpa [lineEnd_mem_cell] using (P.fixed4_plain d).2.1
  have hfront : (∀ c ∈ ids ++ (distances ++ docs), '\n' ∉ c) ↔
      (∀ id, r.id i = some id → '\n' ∉ id.toList) ∧
        ∀ doc, r.document i = some doc → ShownOnOneLine doc := by
    rw [List.forall_mem_append, List.forall_mem_append, hidLines, hdocLines]
    exact and_congr_right fun _ => and_iff_right hdistanceLines
  rw [← List.append_assoc distances, ← List.append_assoc ids, sum_columns,
    row_lines_iff hne _ hmetaLines, hfront]
  · rw [total_append, total_append, total_append, hidTotal, hdistanceTotal, hdocTotal]
    constructor
    · rintro ⟨⟨hid, hdoc⟩, htotal⟩
      exact ⟨hid, hdoc, hmetaTotal.mp (by omega)⟩
    · rintro ⟨hid, hdoc, hmeta⟩
      have htotal := hmetaTotal.mpr hmeta
      exact ⟨⟨hid, hdoc⟩, by omega⟩
  · rw [total_append, total_append, hidTotal, hdistanceTotal, hdocTotal]
    omega

end Aligned

theorem same_length_iff {header line : Text} {rows : List Text} {n : ℕ}
    (hheader : header.length = n) (hline : line.length = n) :
    (∀ l ∈ header :: line :: (rows ++ [line]), ∀ l' ∈ header :: line :: (rows ++ [line]),
      l.length = l'.length) ↔ ∀ row ∈ rows, row.length = n := by
  constructor
  · intro h row hrow
    rw [← hheader]
    apply h
    · exact List.mem_cons_of_mem _ (List.mem_cons_of_mem _ (List.mem_append_left _ hrow))
    · exact List.mem_cons_self
  · intro h
    have hall : ∀ l ∈ header :: line :: (rows ++ [line]), l.length = n := by
      simp only [List.forall_mem_cons, List.forall_mem_append]
      exact ⟨hheader, hline, h, hline, fun l hl => absurd hl List.not_mem_nil⟩
    intro l hl l' hl'
    rw [hall l hl, hall l' hl']

/-- **When the columns of a table are straight.** Ids and documents are shown with their
line ends, and no width is computed for metadata: a text of more than eight characters
makes its line longer than the others. -/
theorem table_aligned_iff (P : Printers) (r : QueryResult) {out : Text}
    (hout : formatTable P r = .ok out) (hcomplete : r.Complete) :
    (∀ l ∈ lines out, ∀ l' ∈ lines out, l.length = l'.length) ↔
      ∀ i < r.rowCount, (∀ id, r.id i = some id → '\n' ∉ id.toList) ∧
        (∀ doc, r.document i = some doc → ∀ t, shorten doc.toList = .ok t → '\n' ∉ t) ∧
        ∀ m, r.metadata i = some m → (P.compact m).length ≤ 8 := by
  rw [formatTable] at hout
  split at hout
  · rename_i hzero
    cases hout
    rw [hzero]
    have hone : lines emptySet = [emptySet] := by decide
    exact iff_of_true (by simp [hone]) fun i hi => absurd hi (Nat.not_lt_zero i)
  · obtain ⟨parts, hparts, hout⟩ := bind_ok.mp hout
    cases hout
    obtain ⟨documents, hdocuments, hparts⟩ := bind_ok.mp hparts
    obtain ⟨header, hheader, hparts⟩ := bind_ok.mp hparts
    obtain ⟨rows, hrows, hparts⟩ := bind_ok.mp hparts
    cases hparts
    obtain rfl := headerCells_ok hheader
    have hlength := length_header (r := r) (le_widest ((r.shown r.id).map String.toList) 2)
      (le_widest ((r.shown r.distance).map P.fixed4) 8) (le_widest documents 8)
    have hseparator : '\n' ∉ separator (columns r (widest 2 ((r.shown r.id).map String.toList))
        (widest 8 ((r.shown r.distance).map P.fixed4)) (widest 8 documents)) :=
      lineEnd_not_mem_separator (List.cons_ne_nil _ _)
    rw [lines_flatMap, List.flatMap_cons, List.flatMap_cons, List.flatMap_append,
      List.flatMap_singleton, List.splitOn_eq_singleton lineEnd_not_mem_header,
      List.splitOn_eq_singleton hseparator, List.singleton_append, List.singleton_append,
      same_length_iff hlength (length_separator (List.cons_ne_nil _ _))]
    simp only [List.mem_flatMap, forall_exists_index, and_imp]
    rw [forall_comm]
    have hstraight := Outcome.forall₂_forall (forall₂_of_mapM hrows) fun i hi row hrow =>
      tableRow_lines_iff hdocuments hrow (List.mem_range.mp hi) hcomplete
    constructor
    · intro h i hi
      have hrow := hstraight.mp (fun row hrow l hl => h row l hrow hl) i (List.mem_range.mpr hi)
      exact ⟨hrow.id, hrow.document, hrow.metadata⟩
    · intro h row l hrow hl
      refine hstraight.mpr ?_ row hrow l hl
      intro i hi
      obtain ⟨hid, hdoc, hmeta⟩ := h i (List.mem_range.mp hi)
      exact ⟨hid, hdoc, hmeta⟩

/-- A result with two rows of four cells. -/
def twoRows (doc doc' : String) : QueryResult :=
  ⟨[["a", "é"]], some [[⟨0⟩, ⟨1⟩]], some [[some (.object []), some (.object [])]],
    some [[some doc, some doc']]⟩

/-- The table is straight until a document brings a line end. -/
theorem table_aligned_iff_demo :
    (∃ out, formatTable demoPrinters (twoRows "one" "two") = .ok out ∧
      ∀ l ∈ lines out, ∀ l' ∈ lines out, l.length = l'.length) ∧
    ∃ out, formatTable demoPrinters (twoRows "one" "t\nwo") = .ok out ∧
      ¬ ∀ l ∈ lines out, ∀ l' ∈ lines out, l.length = l'.length := by
  constructor
  · refine ⟨_, rfl, (table_aligned_iff demoPrinters (twoRows "one" "two") rfl
      ⟨by decide, by decide, by decide⟩).mpr ?_⟩
    intro i hi
    have htwo : i = 0 ∨ i = 1 := by
      have hlt : i < 2 := hi
      omega
    refine ⟨?_, ?_, ?_⟩
    · rintro id hid
      rcases htwo with rfl | rfl <;> cases hid <;> decide
    · rintro doc hdoc t ht
      rcases htwo with rfl | rfl <;> cases hdoc <;> cases ht <;> decide
    · intro m _
      show "\x7b\x7d".toList.length ≤ 8
      decide
  · refine ⟨_, rfl, fun haligned => ?_⟩
    have hstraight := (table_aligned_iff demoPrinters (twoRows "one" "t\nwo") rfl
      ⟨by decide, by decide, by decide⟩).mp haligned
    exact absurd ((hstraight 1 (by decide)).2.1 "t\nwo" rfl _ rfl) (by decide)

end Rekha.Repl
