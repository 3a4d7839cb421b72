import Mathlib.Data.List.DropRight
import Rekha.Core.Types
import Rekha.Lib.Checked
import Rekha.Lib.Json
import Rekha.Lib.NumberText
import Rekha.Lib.Utf8

/-!
# The query language of the REPL

The parser looks for keywords in an upper-cased copy of the text and cuts the text
itself at the offsets it finds; a cut out of range or inside a character panics.
-/

namespace Rekha.Repl

open Utf8 NumberText

abbrev Text := List Char

/-- The characters with the property `White_Space`. -/
def isWhitespace (c : Char) : Bool :=
  decide (9 ≤ c.toNat ∧ c.toNat ≤ 13 ∨ c.toNat ∈ [0x20, 0x85, 0xA0, 0x1680] ∨
    0x2000 ≤ c.toNat ∧ c.toNat ≤ 0x200A ∨ c.toNat ∈ [0x2028, 0x2029, 0x202F, 0x205F, 0x3000])

/-- The characters of identifiers: ASCII letters and digits, dashes and underscores;
beyond ASCII, whatever is not white space counts as a letter. -/
def isNameChar (c : Char) : Bool :=
  if c.toNat < 128 then c.isAlphanum || decide (c = '-' ∨ c = '_') else !isWhitespace c

def isComparison (c : Char) : Bool := decide (c = '=' ∨ c = '<' ∨ c = '>')

/-- What the parser uses of the standard library's tables and of `serde_json`: the
upper case of a character, the JSON reader, the rounding of float literals. Beyond
ASCII upper-casing gives no ASCII but capital letters. JSON that begins like a name
is a number or a word, so there is no comparison in it; an object begins with a brace. -/
structure Primitives where
  upper : Char → Text
  upper_ascii : ∀ c : Char, c.toNat < 128 → upper c = [c.toUpper]
  upper_other : ∀ c : Char, 128 ≤ c.toNat → ∀ d ∈ upper c, d.toNat < 128 → d.isUpper = true
  fromStr : Text → Option Json
  fromStr_word : ∀ (c : Char) (s : Text), isNameChar c = true →
    (∃ d ∈ s, isComparison d = true) → fromStr (c :: s) = none
  fromStr_object : ∀ (s : Text) (members : List (String × Json)),
    fromStr s = some (.object members) → (s.dropWhile isWhitespace).head? = some '{'
  toF32 : FloatLiteral → F32
  toF64 : FloatLiteral → F64

/-- Tables that know ASCII, and one float. -/
def demoPrimitives : Primitives where
  upper c := if c.toNat < 128 then [c.toUpper] else [c]
  upper_ascii c h := by rw [if_pos h]
  upper_other c h d hd hlt := by
    rw [if_neg (not_lt.mpr h), List.mem_singleton] at hd
    exact absurd (hd ▸ hlt) (not_lt.mpr h)
  fromStr _ := none
  fromStr_word _ _ _ _ := rfl
  fromStr_object _ _ h := by cases h
  toF32 f := if f = .decimal false 5 (-1) then ⟨0x3F000000⟩ else ⟨0⟩
  toF64 _ := ⟨0⟩

inductive ParsedQuery where
  | select (collection : String) (fields : List String) (nearestTo : Option (List F32))
      (whereFilter : Option Json) (limit : Option ℕ) (vertical : Bool)
  | count (collection : String)
  | createCollection (name : String)

def trim (s : Text) : Text := (s.dropWhile isWhitespace).rdropWhile isWhitespace

structure Trimmed (s : Text) : Prop where
  head : ∀ c, s.head? = some c → isWhitespace c = false
  last : ∀ c, s.getLast? = some c → isWhitespace c = false

theorem Trimmed.dropWhile_eq {s : Text} (h : Trimmed s) : s.dropWhile isWhitespace = s := by
  cases s with
  | nil => rfl
  | cons c s => rw [List.dropWhile_cons_of_neg (Bool.eq_false_iff.mp (h.head c rfl))]

theorem Trimmed.trim_eq {s : Text} (h : Trimmed s) : trim s = s := by
  rw [trim, h.dropWhile_eq, List.rdropWhile_eq_self_iff]
  intro hne
  exact Bool.eq_false_iff.mp (h.last _ (List.getLast?_eq_some_getLast hne))

theorem trimmed_trim (s : Text) : Trimmed (trim s) := by
  constructor
  · intro c hc
    obtain ⟨rest, hrest⟩ := List.rdropWhile_prefix isWhitespace (s.dropWhile isWhitespace)
    have hhead : (s.dropWhile isWhitespace).head? = some c := by
      rw [← hrest, List.head?_append]
      exact (congrArg (fun o => o.or rest.head?) hc).trans rfl
    have hnot := List.head?_dropWhile_not isWhitespace s
    rw [hhead] at hnot
    exact Bool.eq_false_iff.mpr (by simpa using hnot)
  · intro c hc
    have hne : trim s ≠ [] := by
      rintro hnil
      rw [hnil] at hc
      cases hc
    have hlast := List.rdropWhile_last_not isWhitespace (s.dropWhile isWhitespace) hne
    rw [List.getLast?_eq_some_getLast hne, Option.some.injEq] at hc
    rw [← hc]
    exact Bool.eq_false_iff.mpr hlast

theorem trim_trim (s : Text) : trim (trim s) = trim s := (trimmed_trim s).trim_eq

theorem length_trim_le (s : Text) : (trim s).length ≤ s.length :=
  le_trans (List.rdropWhile_prefix isWhitespace _).length_le (List.length_dropWhile_le _ _)

theorem trim_split (s : Text) : ∃ lead trail, s = lead ++ (trim s ++ trail) ∧
    (∀ c ∈ lead, isWhitespace c = true) ∧ ∀ c ∈ trail, isWhitespace c = true := by
  refine ⟨s.takeWhile isWhitespace, (s.dropWhile isWhitespace).rtakeWhile isWhitespace, ?_,
    fun c hc => List.mem_takeWhile_imp hc, fun c hc => List.mem_rtakeWhile_imp hc⟩
  rw [trim, List.rdropWhile_append_rtakeWhile, List.takeWhile_append_dropWhile]

theorem filter_trim {p : Char → Bool} (hp : ∀ c, isWhitespace c = true → p c = false) (s : Text) :
    (trim s).filter p = s.filter p := by
  have hnone : ∀ l : Text, (∀ c ∈ l, isWhitespace c = true) → l.filter p = [] := by
    intro l hl
    apply List.filter_eq_nil_iff.mpr
    intro c hc
    rw [hp c (hl c hc)]
    exact Bool.false_ne_true
  obtain ⟨lead, trail, hs, hlead, htrail⟩ := trim_split s
  conv_rhs => rw [hs]
  rw [List.filter_append, List.filter_append, hnone lead hlead, hnone trail htrail, List.nil_append,
    List.append_nil]

/-- `trim_end_matches(';')`. -/
def trimEndMatches (c : Char) (s : Text) : Text := s.rdropWhile fun d => decide (d = c)

/-- `&s[start..stop]`. -/
def cut (s : Text) (start stop : ℕ) : Checked String Text := .expect (slice s start stop)

/-- `&s[start..]`. -/
def cutFrom (s : Text) (start : ℕ) : Checked String Text := .expect (dropBytes s start)

/-- `s.parse::<i64>()`. -/
def parseI64 (s : Text) : Option Int64 :=
  (parseInt s).bind fun i => if -2 ^ 63 ≤ i ∧ i < 2 ^ 63 then some (Int64.ofInt i) else none

/-- `s.parse::<usize>()`. -/
def parseUsize (s : Text) : Option ℕ := (parseNat s).filter fun n => decide (n < 2 ^ 64)

variable (L : Primitives)

/-- `s.to_uppercase()`. -/
def upperText (s : Text) : Text := s.flatMap L.upper

/-! ## Clauses -/

def extractFromClause (input : Text) : Checked String String :=
  match find "FROM ".toList (upperText L input) with
  | none => .error "Missing FROM clause"
  | some fromIdx => do
      let afterFrom := trim (← cutFrom input (fromIdx + 5))
      let stop := ((find [' '] afterFrom).or (find ['\n'] afterFrom)).getD (size afterFrom)
      pure (String.ofList (trim (← cut afterFrom 0 stop)))

def extractFields (input : Text) : Checked String (List String) :=
  match find "SELECT ".toList (upperText L input) with
  | none => .error "Missing SELECT"
  | some selectIdx =>
      match find "FROM ".toList (upperText L input) with
      | none => .error "Missing FROM"
      | some fromIdx => do
          -- a `FROM` before the `SELECT` turns the range around
          let fieldsStr := trim (← cut input (selectIdx + 7) fromIdx)
          if fieldsStr = ['*'] then pure ["*"]
          else pure ((fieldsStr.splitOn ',').map fun f => String.ofList (trim f))

def parseElement (s : Text) : Checked String F32 :=
  match parseFloat s with
  | some f => .ok (L.toF32 f)
  | none =>
      if s.isEmpty then .error "Invalid vector element: cannot parse float from empty string"
      else .error "Invalid vector element: invalid float literal"

def parseVector (input : Text) : Checked String (List F32) :=
  let input := trim input
  match find ['['] input with
  | none => .error "Missing '[' in vector"
  | some start =>
      match find [']'] input with
      | none => .error "Missing ']' in vector"
      | some stop => do
          let inner ← cut input (start + 1) stop
          (inner.splitOn ',').mapM fun s => parseElement L (trim s)

/-- The operators, in the order they are looked for. -/
def operators : List String := ["==", "!=", "<=", ">=", "=", ">", "<"]

/-- The first operator of the list that occurs, and where. -/
def findOperator (input : Text) : Option (String × ℕ) :=
  operators.findSome? fun op => (find op.toList input).map fun idx => (op, idx)

def parseCondition (input : Text) : Checked String (Text × String × Text) :=
  match findOperator input with
  | some (op, idx) => do
      let field := trim (← cut input 0 idx)
      let value := trim (← cutFrom input (idx + size op.toList))
      pure (field, op, value)
  | none => .error ("Cannot parse condition: " ++ String.ofList input)

def isQuoted (quote : Char) (input : Text) : Bool :=
  decide (input.head? = some quote ∧ input.getLast? = some quote)

def isBracketed (input : Text) : Bool :=
  decide (input.head? = some '[' ∧ input.getLast? = some ']')

/-- `parse_value`, with a bound on the nesting of brackets. -/
def parseValueWithin : ℕ → Text → Checked String Json
  -- not reached from `parseValue`
  | 0, _ => .panic
  | fuel + 1, input =>
      let input := trim input
      if isQuoted '"' input || isQuoted '\'' input then do
        pure (.string (String.ofList (← cut input 1 (size input - 1))))
      else if input = "true".toList ∨ input = "false".toList then
        pure (.bool (decide (input = "true".toList)))
      else
        match parseI64 input with
        | some n => pure (Json.ofI64 n)
        | none =>
            match parseFloat input with
            | some f => pure (Json.ofF64 (L.toF64 f))
            | none =>
                if isBracketed input then do
                  let inner ← cut input 1 (size input - 1)
                  let items ← (inner.splitOn ',').mapM fun s => parseValueWithin fuel (trim s)
                  pure (.array items)
                else pure (.string (String.ofList input))

/-- Brackets cannot nest deeper than the text is long. -/
def parseValue (input : Text) : Checked String Json := parseValueWithin L (input.length + 1) input

/-- The operator of the filter language that a parsed operator stands for. -/
def chromaOperator (op : String) : Option String :=
  if op = "=" ∨ op = "==" then some "$eq"
  else if op = "!=" ∨ op = "<>" then some "$ne"
  else if op = ">" then some "$gt"
  else if op = ">=" then some "$gte"
  else if op = "<" then some "$lt"
  else if op = "<=" then some "$lte"
  else none

def parseWhere (input : Text) : Checked String Json :=
  let input := trim input
  match L.fromStr input with
  | some val => .ok val
  | none => do
      let (field, op, value) ← parseCondition input
      match chromaOperator op with
      | some name => do
          let value ← parseValue L value
          pure (.object [(String.ofList field, .object [(name, value)])])
      | none => .error ("Unsupported operator: " ++ op)

/-! ## Queries -/

/-- The vector behind `NEAREST TO`. -/
def nearestClause (input : Text) : Checked String (Option (List F32)) :=
  match find "NEAREST TO".toList (upperText L input) with
  | some idx => do
      let rest := trim (← cutFrom input (idx + 10))
      pure (some (← parseVector L rest))
  | none => pure none

/-- Where the text of the `WHERE` clause is taken to end. -/
def whereEnd (input : Text) : ℕ :=
  -- the first keyword of this list that occurs, wherever in the text it stands
  ((((find " NEAREST TO".toList (upperText L input)).or
    (find " LIMIT".toList (upperText L input))).or
    (find " HAVING".toList (upperText L input))).or
    (find " VERTICAL".toList (upperText L input))).getD (size input)

def whereClause (input : Text) : Checked String (Option Json) :=
  match find "WHERE ".toList (upperText L input) with
  | some idx => do
      let filterStr := trim (← cut input (idx + 6) (whereEnd L input))
      pure (some (← parseWhere L filterStr))
  | none => pure none

/-- Where the text of the `LIMIT` clause is taken to end. -/
def limitEnd (input : Text) : ℕ :=
  ((find " VERTICAL".toList (upperText L input)).or
    (find " HAVING".toList (upperText L input))).getD (size input)

/-- A limit that is no number is dropped. -/
def limitClause (input : Text) : Checked String (Option ℕ) :=
  match find "LIMIT ".toList (upperText L input) with
  | some idx => do
      let numStr := trim (← cut input (idx + 6) (limitEnd L input))
      pure (parseUsize numStr)
  | none => pure none

def parseSelect (input : Text) : Checked String ParsedQuery := do
  let collection ← extractFromClause L input
  let fields ← extractFields L input
  let nearestTo ← nearestClause L input
  let whereFilter ← whereClause L input
  let limit ← limitClause L input
  let vertical := (find "VERTICAL".toList (upperText L input)).isSome
  pure (.select collection fields nearestTo whereFilter limit vertical)

def parseQuery (input : Text) : Checked String ParsedQuery :=
  let input := trim (trimEndMatches ';' (trim input))
  if "CREATE COLLECTION ".toList <+: upperText L input then do
    let name := trim (← cutFrom input 18)
    if name.isEmpty then .error "Missing collection name"
    else pure (.createCollection (String.ofList name))
  else if "SELECT COUNT(*)".toList <+: upperText L input then do
    pure (.count (← extractFromClause L input))
  else if "SELECT ".toList <+: upperText L input then parseSelect L input
  else .error ("Unsupported query: " ++ String.ofList input)

end Rekha.Repl
