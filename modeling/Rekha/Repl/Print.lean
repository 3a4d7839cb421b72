import Rekha.Repl.Sql

/-!
# Queries and their text

The documented grammar of `SELECT` as a data type, and the text a query is written
as: the clauses in their order, one space between them.
-/

namespace Rekha.Repl

open Utf8 NumberText

structure Name where
  text : Text
  ne_nil : text ≠ []
  chars : ∀ c ∈ text, isNameChar c = true

inductive Operator where
  | eq
  | eqEq
  | ne
  | ltGt
  | lt
  | le
  | gt
  | ge
deriving DecidableEq

def Operator.print : Operator → String
  | .eq => "="
  | .eqEq => "=="
  | .ne => "!="
  | .ltGt => "<>"
  | .lt => "<"
  | .le => "<="
  | .gt => ">"
  | .ge => ">="

/-- The operator of the filter language that it denotes. -/
def Operator.chroma : Operator → String
  | .eq | .eqEq => "$eq"
  | .ne | .ltGt => "$ne"
  | .lt => "$lt"
  | .le => "$lte"
  | .gt => "$gt"
  | .ge => "$gte"

inductive Literal where
  | int (i : ℤ)
  | bool (b : Bool)
  | str (s : Text) (noQuote : '\'' ∉ s)

def Literal.print : Literal → Text
  | .int i => printInt i
  | .bool b => if b then "true".toList else "false".toList
  | .str s _ => '\'' :: (s ++ ['\''])

/-- The value in JSON, which has no integers beyond 64 bits. -/
def Literal.json : Literal → Option Json
  | .int i => (Json.Number.ofInt i).map Json.number
  | .bool b => some (.bool b)
  | .str s _ => some (.string (String.ofList s))

structure Condition where
  field : Name
  op : Operator
  literal : Literal

def Condition.print (c : Condition) : Text :=
  c.field.text ++ ' ' :: (c.op.print.toList ++ ' ' :: c.literal.print)

/-- The filter `{field: {op: value}}`. -/
def Condition.json (c : Condition) (value : Json) : Json :=
  .object [(String.ofList c.field.text, .object [(c.op.chroma, value)])]

inductive Fields where
  | star
  | names (first : Name) (rest : List Name)

def Fields.list : Fields → List Text
  | .star => [['*']]
  | .names first rest => first.text :: rest.map Name.text

def Fields.print (f : Fields) : Text := [',', ' '].intercalate f.list

def printVector (v : List Decimal) : Text :=
  '[' :: ([',', ' '].intercalate (v.map Decimal.print) ++ [']'])

/-- A `SELECT` of the documented grammar. -/
structure SelectQuery where
  collection : Name
  fields : Fields
  condition : Option Condition
  vector : Option (List Decimal)
  limit : Option ℕ
  vertical : Bool

namespace SelectQuery

variable (q : SelectQuery)

/-- `SELECT fields `, up to the `FROM`. -/
def selectText : Text := "SELECT ".toList ++ (q.fields.print ++ [' '])

def fromText : Text := "FROM ".toList ++ q.collection.text

def whereText : Text :=
  match q.condition with
  | some c => " WHERE ".toList ++ c.print
  | none => []

def nearestText : Text :=
  match q.vector with
  | some v => " NEAREST TO ".toList ++ printVector v
  | none => []

def limitText : Text :=
  match q.limit with
  | some n => " LIMIT ".toList ++ printNat n
  | none => []

def verticalText : Text := if q.vertical then " VERTICAL".toList else []

def clauses : Text := q.whereText ++ (q.nearestText ++ (q.limitText ++ q.verticalText))

def print : Text := q.selectText ++ (q.fromText ++ q.clauses)

/-- What parsing the text should give, with this filter. -/
def parsed (L : Primitives) (filter : Option Json) : ParsedQuery :=
  .select (String.ofList q.collection.text) (q.fields.list.map String.ofList)
    (q.vector.map fun v => v.map fun d => L.toF32 d.literal) filter q.limit q.vertical

def IsFilter (filter : Option Json) : Prop :=
  match q.condition with
  | none => filter = none
  | some c => ∃ value, c.literal.json = some value ∧ filter = some (c.json value)

end SelectQuery

/-! ## The ends of the text -/

theorem isWhitespace_of_isNameChar {c : Char} (h : isNameChar c = true) :
    isWhitespace c = false := by
  by_cases hlt : c.toNat < 128
  · exact ascii_forall (P := fun c => isNameChar c = true → isWhitespace c = false)
      (by decide) hlt h
  · rw [isNameChar, if_neg hlt, Bool.not_eq_true'] at h
    exact h

/-- A text that ends in something the parser does not trim. -/
def EndsPlain (s : Text) : Prop :=
  ∃ c, s.getLast? = some c ∧ isWhitespace c = false ∧ c ≠ ';'

theorem EndsPlain.append {s : Text} (h : EndsPlain s) (front : Text) : EndsPlain (front ++ s) := by
  obtain ⟨c, hlast, hc⟩ := h
  refine ⟨c, ?_, hc⟩
  rw [List.getLast?_append, hlast]
  rfl

theorem endsPlain_concat {c : Char} (hc : isWhitespace c = false) (hsemicolon : c ≠ ';')
    (s : Text) : EndsPlain (s ++ [c]) :=
  ⟨c, List.getLast?_concat, hc, hsemicolon⟩

theorem endsPlain_of_forall {s : Text} (hne : s ≠ []) (h : ∀ c ∈ s, isNameChar c = true) :
    EndsPlain s := by
  obtain ⟨front, c, rfl⟩ := List.eq_nil_or_concat s |>.resolve_left hne
  have hc := h c (by simp)
  rw [List.concat_eq_append]
  refine endsPlain_concat (isWhitespace_of_isNameChar hc) ?_ front
  rintro rfl
  exact absurd hc (by decide)

theorem ascii_of_isDigit {c : Char} (h : c.isDigit = true) : c.toNat < 128 := by
  simp only [Char.isDigit, Bool.and_eq_true, decide_eq_true_eq] at h
  exact lt_of_le_of_lt (UInt32.le_iff_toNat_le.mp h.2) (by decide)

theorem isNameChar_of_isDigit {c : Char} (h : c.isDigit = true) : isNameChar c = true := by
  rw [isNameChar, if_pos (ascii_of_isDigit h), Char.isAlphanum, h, Bool.or_true, Bool.true_or]

theorem Literal.endsPlain (l : Literal) : EndsPlain l.print := by
  cases l with
  | int i =>
      rw [Literal.print, printInt]
      split
      · refine EndsPlain.append (s := printNat i.natAbs) ?_ ['-']
        exact endsPlain_of_forall (printNat_ne_nil _)
          fun c hc => isNameChar_of_isDigit (isDigit_printNat c hc)
      · exact endsPlain_of_forall (printNat_ne_nil _)
          fun c hc => isNameChar_of_isDigit (isDigit_printNat c hc)
  | bool b =>
      cases b
      · exact ⟨'e', rfl, rfl, by decide⟩
      · exact ⟨'e', rfl, rfl, by decide⟩
  | str s noQuote => exact endsPlain_concat rfl (by decide) ('\'' :: s)

theorem Condition.endsPlain (c : Condition) : EndsPlain c.print := by
  have hliteral := c.literal.endsPlain.append (c.field.text ++ ' ' :: (c.op.print.toList ++ [' ']))
  rwa [List.append_assoc, List.cons_append, List.append_assoc] at hliteral

theorem printVector_endsPlain (v : List Decimal) : EndsPlain (printVector v) :=
  endsPlain_concat rfl (by decide) ('[' :: [',', ' '].intercalate (v.map Decimal.print))

/-- A clause is missing, or it is behind a space and ends the text well. -/
def IsClause (s : Text) : Prop := s = [] ∨ (∃ rest, s = ' ' :: rest) ∧ EndsPlain s

theorem IsClause.append {s r : Text} (hs : IsClause s) (hr : IsClause r) : IsClause (s ++ r) := by
  rcases hs with rfl | ⟨⟨rest, rfl⟩, hs⟩
  · exact hr
  · rcases hr with rfl | ⟨-, hr⟩
    · rw [List.append_nil]
      exact Or.inr ⟨⟨rest, rfl⟩, hs⟩
    · exact Or.inr ⟨⟨rest ++ r, rfl⟩, hr.append _⟩

namespace SelectQuery

variable (q : SelectQuery)

theorem isClause_whereText : IsClause q.whereText := by
  unfold whereText
  cases q.condition with
  | none => exact Or.inl rfl
  | some c => exact Or.inr ⟨⟨_, rfl⟩, c.endsPlain.append _⟩

theorem isClause_nearestText : IsClause q.nearestText := by
  unfold nearestText
  cases q.vector with
  | none => exact Or.inl rfl
  | some v => exact Or.inr ⟨⟨_, rfl⟩, (printVector_endsPlain v).append _⟩

theorem isClause_limitText : IsClause q.limitText := by
  unfold limitText
  cases q.limit with
  | none => exact Or.inl rfl
  | some n =>
      refine Or.inr ⟨⟨_, rfl⟩, EndsPlain.append ?_ _⟩
      exact endsPlain_of_forall (printNat_ne_nil _)
        fun c hc => isNameChar_of_isDigit (isDigit_printNat c hc)

theorem isClause_verticalText : IsClause q.verticalText := by
  unfold verticalText
  split
  · exact Or.inr ⟨⟨_, rfl⟩, ⟨'L', rfl, rfl, by decide⟩⟩
  · exact Or.inl rfl

theorem isClause_clauses : IsClause q.clauses :=
  q.isClause_whereText.append
    (q.isClause_nearestText.append (q.isClause_limitText.append q.isClause_verticalText))

theorem endsPlain_tail : EndsPlain (q.collection.text ++ q.clauses) := by
  have hname := endsPlain_of_forall q.collection.ne_nil q.collection.chars
  rcases q.isClause_clauses with hnil | ⟨-, h⟩
  · rw [hnil, List.append_nil]
    exact hname
  · exact h.append _

theorem endsPlain_print : EndsPlain q.print := by
  have htail := q.endsPlain_tail.append (q.selectText ++ "FROM ".toList)
  rw [print, fromText]
  simpa using htail

end SelectQuery

end Rekha.Repl
