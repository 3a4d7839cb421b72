import Rekha.Repl.Panics
import Rekha.Repl.Print

/-!
# Parsing what was printed

The parser looks for its keywords anywhere in the text, also in identifiers and
literals. A printed query is read back when every keyword that the parser looks for
leads it to the clause it stands for (`InPlace`).
-/

namespace Rekha.Repl

open Checked Utf8 NumberText

variable (L : Primitives) (q : SelectQuery)

/-- The first brackets hold the numbers. -/
def HoldsVector (s : Text) (v : List F32) : Prop :=
  ∃ before inner after, s = before ++ '[' :: (inner ++ ']' :: after) ∧ '[' ∉ before ∧
    ']' ∉ before ∧ ']' ∉ inner ∧
    ((inner.splitOn ',').map fun e => (parseFloat (trim e)).map L.toF32) = v.map some

/-- An integer within 64 bits with a sign. -/
def FitsI64 (i : ℤ) : Prop := -2 ^ 63 ≤ i ∧ i < 2 ^ 63

def Literal.Fits : Literal → Prop
  | .int i => FitsI64 i
  | .bool _ | .str _ _ => True

/-- The searches of the parser lead to the clauses of the query. -/
structure InPlace : Prop where
  /-- `FROM` is found in front of the collection. -/
  collection : Found L "FROM " q.print (size q.selectText)
  /-- What is cut out for `WHERE` is the condition, the operator found first in the
  condition is its own, and the literal fits; without a condition there is no `WHERE`. -/
  condition : match q.condition with
    | none => ∀ w, ¬ Found L "WHERE " q.print w
    | some c => (∃ w text, Found L "WHERE " q.print w ∧
        slice q.print (w + 6) (whereEnd L q.print) = some text ∧ trim text = c.print) ∧
        findOperator c.print = some (c.op.print, size (c.field.text ++ [' '])) ∧ c.literal.Fits
  /-- The first brackets behind `NEAREST TO` hold the numbers of the vector; without a
  vector there is no `NEAREST TO`. -/
  vector : match q.vector with
    | none => ∀ n, ¬ Found L "NEAREST TO" q.print n
    | some v => ∃ n rest, Found L "NEAREST TO" q.print n ∧
        dropBytes q.print (n + 10) = some rest ∧
        HoldsVector L (trim rest) (v.map fun d => L.toF32 d.literal)
  /-- What is cut out for `LIMIT` is the limit; without a limit it is no number. -/
  limit : match q.limit with
    | none => ∀ l, Found L "LIMIT " q.print l →
        ∃ text, slice q.print (l + 6) (limitEnd L q.print) = some text ∧
          parseUsize (trim text) = none
    | some n => ∃ l text, Found L "LIMIT " q.print l ∧
        slice q.print (l + 6) (limitEnd L q.print) = some text ∧
        parseUsize (trim text) = some n
  /-- The word `VERTICAL` is there when the flag is set. -/
  vertical : (find "VERTICAL".toList (upperText L q.print)).isSome = q.vertical

/-- Parsing the text gives the query back. -/
def ReadsBack : Prop :=
  ∃ filter, q.IsFilter filter ∧ parseQuery L q.print = .ok (q.parsed L filter)

variable {L q}

/-! ## The kind of query -/

theorem upperText_ascii {s : Text} (h : ∀ c ∈ s, c.toNat < 128) :
    upperText L s = s.map Char.toUpper := by
  induction s with
  | nil => rfl
  | cons c s ih =>
      rw [upperText, List.flatMap_cons, L.upper_ascii c (h c List.mem_cons_self), ← upperText,
        ih fun d hd => h d (List.mem_cons_of_mem c hd)]
      rfl

theorem upperText_capitals {s : Text} (h : ∀ c ∈ s, c.toNat < 128 ∧ c.toUpper = c) :
    upperText L s = s := by
  rw [upperText_ascii fun c hc => (h c hc).1]
  exact (List.map_congr_left fun c hc => (h c hc).2).trans (List.map_id s)

theorem upperText_select : upperText L "SELECT ".toList = "SELECT ".toList :=
  upperText_capitals (forall_of_all (by decide))

theorem upperText_space : upperText L [' '] = [' '] :=
  upperText_capitals (forall_of_all (by decide))

theorem upperText_selectText : upperText L q.selectText =
    "SELECT ".toList ++ (upperText L q.fields.print ++ [' ']) := by
  refine (upperText_append "SELECT ".toList (q.fields.print ++ [' '])).trans ?_
  refine congrArg₂ _ upperText_select ?_
  exact (upperText_append _ _).trans (congrArg _ upperText_space)

theorem upperText_print : upperText L q.print = "SELECT ".toList ++ (upperText L q.fields.print ++
    ' ' :: upperText L (q.fromText ++ q.clauses)) := by
  refine (upperText_append _ _).trans ((congrArg (· ++ _) upperText_selectText).trans ?_)
  rw [List.append_assoc, List.append_assoc, List.singleton_append]

theorem select_begins : "SELECT ".toList <+: upperText L q.print := by
  rw [upperText_print]
  exact List.prefix_append _ _

theorem paren_not_mem_upper {c : Char} (h : isNameChar c = true ∨ c = ',' ∨ c = ' ' ∨ c = '*') :
    '(' ∉ L.upper c := by
  by_cases hlt : c.toNat < 128
  · rw [L.upper_ascii c hlt, List.mem_singleton]
    exact ascii_forall (P := fun c => (isNameChar c = true ∨ c = ',' ∨ c = ' ' ∨ c = '*') →
      ¬ '(' = c.toUpper) (by decide) hlt h
  · intro hmem
    exact absurd (L.upper_other c (not_lt.mp hlt) _ hmem (by decide)) (by decide)

theorem mem_intercalate_comma {c : Char} : ∀ {parts : List Text},
    c ∈ [',', ' '].intercalate parts → (∃ part ∈ parts, c ∈ part) ∨ c = ',' ∨ c = ' '
  | [], h => by
      rw [List.intercalate_nil] at h
      cases h
  | [part], h => by
      rw [List.intercalate_singleton] at h
      exact Or.inl ⟨part, List.mem_cons_self, h⟩
  | part :: next :: parts, h => by
      rw [List.intercalate_cons_cons, List.mem_append, List.mem_append] at h
      rcases h with (h | h) | h
      · exact Or.inl ⟨part, List.mem_cons_self, h⟩
      · exact Or.inr (by simpa using h)
      · rcases mem_intercalate_comma h with ⟨p, hp, hc⟩ | h
        · exact Or.inl ⟨p, List.mem_cons_of_mem _ hp, hc⟩
        · exact Or.inr h

theorem mem_list {f : Fields} {part : Text} (h : part ∈ f.list) :
    part = ['*'] ∨ ∃ name : Name, part = name.text := by
  cases f with
  | star => exact Or.inl (List.mem_singleton.mp h)
  | names first rest =>
      rcases List.mem_cons.mp h with rfl | h
      · exact Or.inr ⟨first, rfl⟩
      · obtain ⟨name, -, rfl⟩ := List.mem_map.mp h
        exact Or.inr ⟨name, rfl⟩

theorem mem_fields {f : Fields} {c : Char} (h : c ∈ f.print) :
    isNameChar c = true ∨ c = ',' ∨ c = ' ' ∨ c = '*' := by
  rcases mem_intercalate_comma h with ⟨part, hpart, hc⟩ | hc | hc
  · rcases mem_list hpart with rfl | ⟨name, rfl⟩
    · exact Or.inr (Or.inr (Or.inr (List.mem_singleton.mp hc)))
    · exact Or.inl (name.chars c hc)
  · exact Or.inr (Or.inl hc)
  · exact Or.inr (Or.inr (Or.inl hc))

theorem not_count : ¬ "SELECT COUNT(*)".toList <+: upperText L q.print := by
  rintro ⟨rest, hrest⟩
  have hparen : '(' ∉ upperText L q.fields.print := by
    intro hmem
    obtain ⟨c, hc, hupper⟩ := List.mem_flatMap.mp hmem
    exact paren_not_mem_upper (mem_fields hc) hupper
  rw [upperText_print] at hrest
  have hcount : "COUNT(*)".toList ++ rest = upperText L q.fields.print ++
      ' ' :: (upperText L (q.fromText ++ q.clauses)) :=
    List.append_cancel_left (show "SELECT ".toList ++ ("COUNT(*)".toList ++ rest) = _ from hrest)
  obtain ⟨mid, hfields⟩ := append_of_not_mem (by decide) hcount
  rw [hfields] at hparen
  exact hparen (List.mem_append_left _ (by decide))

theorem trimmed_of_endsPlain {s : Text} (hhead : ∀ c, s.head? = some c → isWhitespace c = false)
    (h : EndsPlain s) : Trimmed s := by
  obtain ⟨c, hlast, hspace, -⟩ := h
  refine ⟨hhead, fun d hd => ?_⟩
  rw [hlast] at hd
  exact Option.some.inj hd ▸ hspace

/-- **A printed query is parsed as a `SELECT`.** -/
theorem parseQuery_print : parseQuery L q.print = parseSelect L q.print := by
  have htrim : trim q.print = q.print := by
    refine (trimmed_of_endsPlain (fun c hc => ?_) q.endsPlain_print).trim_eq
    obtain rfl := Option.some.inj (show some 'S' = some c from hc)
    rfl
  have hsemicolon : trimEndMatches ';' q.print = q.print := by
    obtain ⟨c, hlast, -, hc⟩ := q.endsPlain_print
    apply List.rdropWhile_eq_self_iff.mpr
    intro hne
    rw [List.getLast?_eq_some_getLast hne, Option.some.injEq] at hlast
    rw [hlast, decide_eq_true_eq]
    exact hc
  have hcreate : ¬ "CREATE COLLECTION ".toList <+: upperText L q.print := by
    rintro ⟨rest, hrest⟩
    rw [upperText_print] at hrest
    exact absurd (List.cons.inj hrest).1 (by decide)
  rw [parseQuery, htrim, hsemicolon, htrim, if_neg hcreate, if_neg not_count, if_pos select_begins]

/-! ## Lists -/

theorem trim_cons_space (s : Text) : trim (' ' :: s) = trim s := by
  rw [trim, List.dropWhile_cons_of_pos rfl, ← trim]

theorem Trimmed.trim_concat_space {s : Text} (h : Trimmed s) : trim (s ++ [' ']) = s := by
  cases s with
  | nil => rfl
  | cons c s =>
      rw [trim, List.cons_append, List.dropWhile_cons_of_neg (Bool.eq_false_iff.mp (h.head c rfl)),
        ← List.cons_append, List.rdropWhile_concat_pos _ _ _ rfl]
      refine List.rdropWhile_eq_self_iff.mpr fun hne => Bool.eq_false_iff.mp (h.last _ ?_)
      exact List.getLast?_eq_some_getLast hne

theorem splitOn_intercalate : ∀ {first : Text} {rest : List Text},
    (∀ part ∈ first :: rest, ',' ∉ part) →
      ([',', ' '].intercalate (first :: rest)).splitOn ',' = first :: rest.map (' ' :: ·)
  | first, [], h => by
      rw [List.intercalate_singleton]
      exact List.splitOn_eq_singleton (h first List.mem_cons_self)
  | first, next :: rest, h => by
      have hrest := splitOn_intercalate
        fun part hpart => h part (List.mem_cons_of_mem first hpart)
      have hspace : (' ' :: [',', ' '].intercalate (next :: rest)).splitOn ',' =
          (' ' :: next) :: rest.map (' ' :: ·) := by
        rw [List.splitOn_cons_eq_if_modifyHead, if_neg (by decide), hrest]
        rfl
      rw [List.intercalate_cons_cons, List.append_assoc, List.cons_append, List.cons_append,
        List.nil_append, List.splitOn_append_cons_self, hspace,
        List.splitOn_eq_singleton (h first List.mem_cons_self)]
      rfl

theorem map_trim_splitOn {parts : List Text} (hne : parts ≠ [])
    (h : ∀ part ∈ parts, ',' ∉ part ∧ trim part = part) :
    (([',', ' '].intercalate parts).splitOn ',').map trim = parts := by
  obtain ⟨first, rest, rfl⟩ := List.exists_cons_of_ne_nil hne
  rw [splitOn_intercalate fun part hpart => (h part hpart).1, List.map_cons, List.map_map,
    (h first List.mem_cons_self).2]
  congr 1
  refine (List.map_congr_left fun part hpart => ?_).trans (List.map_id rest)
  rw [Function.comp_apply, trim_cons_space, (h part (List.mem_cons_of_mem first hpart)).2, id]

theorem head?_intercalate {first : Text} (hne : first ≠ []) (rest : List Text) :
    ([',', ' '].intercalate (first :: rest)).head? = first.head? := by
  obtain ⟨c, tail, rfl⟩ := List.exists_cons_of_ne_nil hne
  cases rest with
  | nil => rw [List.intercalate_singleton]
  | cons next rest => rw [List.intercalate_cons_cons, List.append_assoc]; rfl

theorem endsPlain_intercalate : ∀ {first : Text} {rest : List Text},
    (∀ part ∈ first :: rest, EndsPlain part) → EndsPlain ([',', ' '].intercalate (first :: rest))
  | first, [], h => by
      rw [List.intercalate_singleton]
      exact h first List.mem_cons_self
  | first, next :: rest, h => by
      rw [List.intercalate_cons_cons]
      have hrest := endsPlain_intercalate
        fun part hpart => h part (List.mem_cons_of_mem first hpart)
      exact hrest.append _

/-! ## The collection and the fields -/

theorem Name.trimmed (n : Name) : Trimmed n.text :=
  trimmed_of_endsPlain
    (fun c hc => isWhitespace_of_isNameChar (n.chars c (List.mem_of_mem_head? hc)))
    (endsPlain_of_forall n.ne_nil n.chars)

theorem Name.trim_eq (n : Name) : trim n.text = n.text := n.trimmed.trim_eq

theorem Name.not_mem (n : Name) {c : Char} (hc : isNameChar c = false) : c ∉ n.text := by
  intro hmem
  rw [n.chars c hmem] at hc
  cases hc

theorem extractFromClause_print (h : Found L "FROM " q.print (size q.selectText)) :
    extractFromClause L q.print = .ok (String.ofList q.collection.text) := by
  have hdrop : dropBytes q.print (size q.selectText + 5) =
      some (q.collection.text ++ q.clauses) := by
    refine dropBytes_eq_some.mpr ⟨q.selectText ++ "FROM ".toList, ?_, ?_⟩
    · rw [SelectQuery.print, SelectQuery.fromText]
      simp
    · rw [size_append]
      rfl
  have htrim : trim (q.collection.text ++ q.clauses) = q.collection.text ++ q.clauses := by
    refine (trimmed_of_endsPlain (fun c hc => ?_) q.endsPlain_tail).trim_eq
    obtain ⟨d, rest, hname⟩ := List.exists_cons_of_ne_nil q.collection.ne_nil
    rw [hname] at hc
    obtain rfl := Option.some.inj (show some d = some c from hc)
    exact isWhitespace_of_isNameChar (q.collection.chars d (hname ▸ List.mem_cons_self))
  have hspace := q.collection.not_mem (c := ' ') rfl
  have hline := q.collection.not_mem (c := '\n') rfl
  have hstop : ((find [' '] (q.collection.text ++ q.clauses)).or
      (find ['\n'] (q.collection.text ++ q.clauses))).getD
        (size (q.collection.text ++ q.clauses)) = size q.collection.text := by
    rcases q.isClause_clauses with hnil | ⟨⟨rest, hrest⟩, -⟩
    · rw [hnil, List.append_nil, find_singleton_none.mpr hspace, find_singleton_none.mpr hline]
      rfl
    · have hfind : find [' '] (q.collection.text ++ q.clauses) = some (size q.collection.text) :=
        find_singleton.mpr ⟨_, rest, by rw [hrest], rfl, hspace⟩
      rw [hfind]
      rfl
  have hcut : slice (q.collection.text ++ q.clauses) 0 (size q.collection.text) =
      some q.collection.text :=
    slice_eq_some.mpr ⟨[], q.clauses, rfl, rfl, Nat.zero_add _⟩
  unfold Found at h
  rw [extractFromClause, h]
  dsimp only
  rw [cutFrom_ok.mpr hdrop, ok_bind, htrim, hstop, cut_ok.mpr hcut, ok_bind, q.collection.trim_eq]
  rfl

theorem Name.endsPlain (n : Name) : EndsPlain n.text := endsPlain_of_forall n.ne_nil n.chars

theorem field_plain {f : Fields} {part : Text} (h : part ∈ f.list) :
    ',' ∉ part ∧ trim part = part ∧ EndsPlain part := by
  rcases mem_list h with rfl | ⟨name, rfl⟩
  · exact ⟨by decide, by decide, '*', rfl, rfl, by decide⟩
  · exact ⟨name.not_mem rfl, name.trim_eq, name.endsPlain⟩

theorem trimmed_fields (f : Fields) : Trimmed f.print := by
  cases f with
  | star => exact trimmed_trim ['*']
  | names first rest =>
      refine trimmed_of_endsPlain (fun c hc => ?_)
        (endsPlain_intercalate fun part hpart => (field_plain (f := .names first rest) hpart).2.2)
      rw [Fields.print, Fields.list, head?_intercalate first.ne_nil] at hc
      exact isWhitespace_of_isNameChar (first.chars c (List.mem_of_mem_head? hc))

theorem extractFields_print (h : Found L "FROM " q.print (size q.selectText)) :
    extractFields L q.print = .ok (q.fields.list.map String.ofList) := by
  have hcut : slice q.print 7 (size q.selectText) = some (q.fields.print ++ [' ']) := by
    refine slice_eq_some.mpr ⟨"SELECT ".toList, q.fromText ++ q.clauses, ?_, rfl, ?_⟩
    · exact List.append_assoc _ _ _
    · exact (size_append "SELECT ".toList (q.fields.print ++ [' '])).symm
  have hselect := (select_first (select_begins (L := L) (q := q))).1
  unfold Found at h hselect
  rw [extractFields, hselect, h]
  dsimp only
  rw [Nat.zero_add, cut_ok.mpr hcut, ok_bind, (trimmed_fields q.fields).trim_concat_space]
  have hlist : ((q.fields.print.splitOn ',').map fun f => String.ofList (trim f)) =
      q.fields.list.map String.ofList := by
    have hne : q.fields.list ≠ [] := by
      cases q.fields <;> simp [Fields.list]
    have hparts := map_trim_splitOn hne
      fun part hpart => ⟨(field_plain hpart).1, (field_plain hpart).2.1⟩
    conv_rhs => rw [← hparts, List.map_map]
    rfl
  split
  · rename_i hstar
    rw [← hlist, hstar]
    rfl
  · rw [hlist]
    rfl

/-! ## The vector -/

theorem dropWhile_append_plain {s r : Text} {c : Char} (hhead : r.head? = some c)
    (hc : isWhitespace c = false) :
    (s ++ r).dropWhile isWhitespace = s.dropWhile isWhitespace ++ r := by
  obtain ⟨tail, rfl⟩ := List.head?_eq_some_iff.mp hhead
  rw [List.dropWhile_append]
  split
  · rename_i hempty
    rw [List.isEmpty_iff.mp hempty, List.dropWhile_cons_of_neg (Bool.eq_false_iff.mp hc)]
    rfl
  · rfl

theorem trim_around {before mid after : Text} {c d : Char} (hhead : mid.head? = some c)
    (hc : isWhitespace c = false) (hlast : mid.getLast? = some d) (hd : isWhitespace d = false) :
    trim (before ++ (mid ++ after)) =
      before.dropWhile isWhitespace ++ (mid ++ after.rdropWhile isWhitespace) := by
  have hfront : (mid ++ after).head? = some c := by
    rw [List.head?_append, hhead]
    rfl
  have hback : (before.dropWhile isWhitespace ++ mid).reverse.head? = some d := by
    rw [List.head?_reverse, List.getLast?_append, hlast]
    rfl
  rw [trim, dropWhile_append_plain hfront hc, ← List.append_assoc, List.rdropWhile,
    List.reverse_append, dropWhile_append_plain hback hd, List.reverse_append, List.reverse_reverse,
    List.append_assoc]
  rfl

theorem trim_of_forall {s : Text} (h : ∀ c ∈ s, isWhitespace c = false) : trim s = s := by
  refine Trimmed.trim_eq ⟨fun c hc => ?_, fun c hc => ?_⟩
  · exact h c (List.mem_of_mem_head? hc)
  · exact h c (List.mem_of_getLast? hc)

theorem mem_decimal {d : Decimal} {c : Char} (hc : c ∈ d.print) :
    c.isDigit = true ∨ c = '.' ∨ c = '-' := by
  rcases List.mem_append.mp hc with hc | hc
  · split at hc
    · exact Or.inr (Or.inr (List.mem_singleton.mp hc))
    · cases hc
  · exact (mem_printUnsigned hc).imp_right Or.inl

theorem decimal_plain (d : Decimal) : ',' ∉ d.print ∧ ']' ∉ d.print ∧ trim d.print = d.print := by
  have hnot : ∀ c : Char, c.isDigit = false → c ≠ '.' → c ≠ '-' → c ∉ d.print := by
    intro c hdigit hpoint hminus hmem
    rcases mem_decimal hmem with h | h | h
    · rw [hdigit] at h
      cases h
    · exact hpoint h
    · exact hminus h
  refine ⟨hnot _ rfl (by decide) (by decide), hnot _ rfl (by decide) (by decide), ?_⟩
  apply trim_of_forall
  intro c hc
  rcases mem_decimal hc with h | rfl | rfl
  · exact isWhitespace_of_isNameChar (isNameChar_of_isDigit h)
  · rfl
  · rfl

/-- **A printed vector holds its numbers**, wherever it stands behind a gap without brackets. -/
theorem holdsVector_print {v : List Decimal} (hv : v ≠ []) {gap after : Text}
    (hopen : '[' ∉ gap) (hclose : ']' ∉ gap) :
    HoldsVector L (trim (gap ++ (printVector v ++ after))) (v.map fun d => L.toF32 d.literal) := by
  have htrim : trim (gap ++ (printVector v ++ after)) = gap.dropWhile isWhitespace ++
      '[' :: ([',', ' '].intercalate (v.map Decimal.print) ++
        ']' :: after.rdropWhile isWhitespace) := by
    have hlast : (printVector v).getLast? = some ']' :=
      List.getLast?_concat (l := '[' :: [',', ' '].intercalate (v.map Decimal.print))
    rw [trim_around (show (printVector v).head? = some '[' from rfl) rfl hlast rfl,
      printVector, List.cons_append, List.append_assoc, List.singleton_append]
  have hgap : ∀ c, c ∉ gap → c ∉ gap.dropWhile isWhitespace :=
    fun c hc hmem => hc ((List.dropWhile_sublist _).subset hmem)
  have hinner : ']' ∉ [',', ' '].intercalate (v.map Decimal.print) := by
    intro hmem
    rcases mem_intercalate_comma hmem with ⟨part, hpart, hc⟩ | hc | hc
    · obtain ⟨d, -, rfl⟩ := List.mem_map.mp hpart
      exact (decimal_plain d).2.1 hc
    · cases hc
    · cases hc
  have hparts : (([',', ' '].intercalate (v.map Decimal.print)).splitOn ',').map trim =
      v.map Decimal.print := by
    refine map_trim_splitOn (by simpa using hv) fun part hpart => ?_
    obtain ⟨d, -, rfl⟩ := List.mem_map.mp hpart
    exact ⟨(decimal_plain d).1, (decimal_plain d).2.2⟩
  refine ⟨_, _, _, htrim, hgap _ hopen, hgap _ hclose, hinner, ?_⟩
  have hmap := congrArg (List.map fun e => (parseFloat e).map L.toF32) hparts
  rw [List.map_map, List.map_map] at hmap
  apply hmap.trans
  rw [List.map_map]
  apply List.map_congr_left
  intro d _
  rw [Function.comp_apply, parseFloat_print]
  rfl

theorem parseElement_eq_ok {s : Text} {x : F32} :
    parseElement L s = .ok x ↔ (parseFloat s).map L.toF32 = some x := by
  unfold parseElement
  cases parseFloat s with
  | some f => simp
  | none =>
      dsimp only
      split <;> simp

theorem parseVector_eq_ok {s : Text} {v : List F32} :
    parseVector L s = .ok v ↔ HoldsVector L (trim s) v := by
  have hread : ∀ inner : Text,
      ((inner.splitOn ',').mapM fun e => parseElement L (trim e)) = .ok v ↔
        ((inner.splitOn ',').map fun e => (parseFloat (trim e)).map L.toF32) = v.map some := by
    intro inner
    rw [mapM_eq_ok, ← List.forall₂_eq_eq_eq, ← List.forall₂_eq_eq_eq]
    simp only [List.forall₂_map_left_iff, List.forall₂_map_right_iff, parseElement_eq_ok]
  constructor
  · intro h
    obtain ⟨before, inner, after, heq, hopen, hclose, hinner⟩ := parseVector_brackets h
    rw [parseVector_eq heq hopen hclose hinner] at h
    exact ⟨before, inner, after, heq, hopen, hclose, hinner, (hread inner).mp h⟩
  · rintro ⟨before, inner, after, heq, hopen, hclose, hinner, h⟩
    rw [parseVector_eq heq hopen hclose hinner]
    exact (hread inner).mpr h

theorem nearestClause_some {t : Text} {v : List F32} : nearestClause L t = .ok (some v) ↔
    ∃ n rest, Found L "NEAREST TO" t n ∧ dropBytes t (n + 10) = some rest ∧
      HoldsVector L (trim rest) v := by
  unfold Found
  cases hn : find "NEAREST TO".toList (upperText L t) with
  | none =>
      rw [nearestClause, hn]
      simp
  | some n =>
      rw [nearestClause, hn]
      have hvector : ∀ rest, parseVector L (trim rest) = .ok v ↔ HoldsVector L (trim rest) v := by
        intro rest
        rw [parseVector_eq_ok, trim_trim]
      simp [bind_ok, cutFrom_ok, hvector]

theorem nearestClause_none {t : Text} :
    nearestClause L t = .ok none ↔ ∀ n, ¬ Found L "NEAREST TO" t n := by
  unfold Found
  cases hn : find "NEAREST TO".toList (upperText L t) with
  | none =>
      rw [nearestClause, hn]
      simp
  | some n =>
      rw [nearestClause, hn]
      simp [bind_ok]

/-! ## The condition -/

theorem mem_printInt {i : ℤ} {c : Char} (hc : c ∈ printInt i) : c.isDigit = true ∨ c = '-' := by
  rw [printInt] at hc
  split at hc
  · exact (List.mem_cons.mp hc).symm.imp_left (isDigit_printNat c)
  · exact Or.inl (isDigit_printNat c hc)

theorem not_mem_printInt {i : ℤ} {c : Char} (hdigit : c.isDigit = false) (hminus : c ≠ '-') :
    c ∉ printInt i := by
  intro hmem
  rcases mem_printInt hmem with h | h
  · rw [hdigit] at h
    cases h
  · exact hminus h

theorem isQuoted_false {quote : Char} {s : Text} (h : quote ∉ s) : isQuoted quote s = false := by
  apply decide_eq_false
  rintro ⟨hhead, -⟩
  exact h (List.mem_of_mem_head? hhead)

theorem Literal.trim_eq (l : Literal) : trim l.print = l.print := by
  refine (trimmed_of_endsPlain (fun c hc => ?_) l.endsPlain).trim_eq
  cases l with
  | int i =>
      rcases mem_printInt (List.mem_of_mem_head? hc) with h | rfl
      · exact isWhitespace_of_isNameChar (isNameChar_of_isDigit h)
      · rfl
  | bool b =>
      cases b
      · obtain rfl := Option.some.inj (show some 'f' = some c from hc)
        rfl
      · obtain rfl := Option.some.inj (show some 't' = some c from hc)
        rfl
  | str s noQuote =>
      obtain rfl := Option.some.inj (show some '\'' = some c from hc)
      rfl

theorem ofF64_ne_posInt (f : Ieee 64 11) (n : UInt64) : Json.ofF64 f ≠ .number (.posInt n) := by
  intro h
  rw [Json.ofF64, Json.Number.ofF64] at h
  split at h
  · rename_i hnumber
    split at hnumber
    · cases hnumber
      cases h
    · cases hnumber
  · cases h

theorem parseValue_int (i : ℤ) : (∃ value, (Json.Number.ofInt i).map Json.number = some value ∧
    parseValue L (printInt i) = .ok value) ↔ FitsI64 i := by
  have hquote : isQuoted '"' (printInt i) = false :=
    isQuoted_false (not_mem_printInt rfl (by decide))
  have hsingle : isQuoted '\'' (printInt i) = false :=
    isQuoted_false (not_mem_printInt rfl (by decide))
  have hword : ¬ (printInt i = "true".toList ∨ printInt i = "false".toList) := by
    have hnone : 'e' ∉ printInt i := not_mem_printInt rfl (by decide)
    rintro (h | h)
    · exact hnone (h ▸ by decide)
    · exact hnone (h ▸ by decide)
  have hbracketed : isBracketed (printInt i) = false := by
    refine decide_eq_false fun h => ?_
    exact not_mem_printInt rfl (by decide) (List.mem_of_mem_head? h.1)
  have htrim := (Literal.int i).trim_eq
  rw [Literal.print] at htrim
  rw [parseValue, parseValueWithin, htrim, hquote, hsingle, if_neg (by decide), if_neg hword,
    parseI64, parseInt_print, Option.bind_some, Json.Number.ofInt]
  unfold FitsI64
  by_cases hfits : -2 ^ 63 ≤ i ∧ i < 2 ^ 63
  · rw [if_pos hfits, if_pos hfits]
    exact iff_of_true ⟨_, rfl, rfl⟩ hfits
  · rw [if_neg hfits, if_neg hfits]
    refine iff_of_false ?_ hfits
    rintro ⟨value, hvalue, hread⟩
    obtain ⟨number, hnumber, rfl⟩ := Option.map_eq_some_iff.mp hvalue
    obtain ⟨-, hnumber⟩ := Option.ite_none_right_eq_some.mp hnumber
    obtain rfl := Option.some.inj hnumber
    dsimp only at hread
    split at hread
    · exact ofF64_ne_posInt _ _ (ok.inj hread)
    · rw [hbracketed] at hread
      cases hread

/-- **A printed literal is read as its value, if it fits.** -/
theorem parseValue_print (l : Literal) :
    (∃ value, l.json = some value ∧ parseValue L l.print = .ok value) ↔ l.Fits := by
  cases l with
  | int i => exact parseValue_int i
  | bool b => cases b <;> exact iff_of_true ⟨_, rfl, rfl⟩ trivial
  | str s noQuote =>
      refine iff_of_true ⟨_, rfl, ?_⟩ trivial
      have hquoted : isQuoted '\'' ('\'' :: (s ++ ['\''])) = true :=
        isQuoted_iff.mpr (Or.inr ⟨s, rfl⟩)
      rw [parseValue, parseValueWithin, Literal.trim_eq, Literal.print, hquoted, Bool.or_true,
        if_pos rfl, cut_ends rfl rfl, ok_bind]
      rfl

theorem chromaOperator_print (op : Operator) : chromaOperator op.print = some op.chroma := by
  cases op <;> rfl

theorem Condition.trim_eq (c : Condition) : trim c.print = c.print := by
  refine (trimmed_of_endsPlain (fun d hd => ?_) c.endsPlain).trim_eq
  obtain ⟨x, rest, hname⟩ := List.exists_cons_of_ne_nil c.field.ne_nil
  rw [Condition.print, hname] at hd
  obtain rfl := Option.some.inj (show some x = some d from hd)
  exact isWhitespace_of_isNameChar (c.field.chars x (hname ▸ List.mem_cons_self))

theorem fromStr_condition (c : Condition) : L.fromStr c.print = none := by
  obtain ⟨d, rest, hname⟩ := List.exists_cons_of_ne_nil c.field.ne_nil
  have hfirst : isNameChar d = true := c.field.chars d (hname ▸ List.mem_cons_self)
  have hany : c.op.print.toList.any isComparison = true := by
    cases c.op <;> decide
  obtain ⟨x, hx, hcomparison⟩ := List.any_eq_true.mp hany
  rw [Condition.print, hname, List.cons_append]
  refine L.fromStr_word d _ hfirst ⟨x, ?_, hcomparison⟩
  exact List.mem_append_right _ (List.mem_cons_of_mem _ (List.mem_append_left _ hx))

theorem parseWhere_print {c : Condition} {value : Json}
    (h : findOperator c.print = some (c.op.print, size (c.field.text ++ [' '])))
    (hread : parseValue L c.literal.print = .ok value) :
    parseWhere L c.print = .ok (c.json value) := by
  have hfield : slice c.print 0 (size (c.field.text ++ [' '])) = some (c.field.text ++ [' ']) := by
    refine slice_eq_some.mpr ⟨[], c.op.print.toList ++ ' ' :: c.literal.print, ?_, rfl, ?_⟩
    · rw [Condition.print]
      simp
    · exact Nat.zero_add _
  have hvalue : dropBytes c.print (size (c.field.text ++ [' ']) + size c.op.print.toList) =
      some (' ' :: c.literal.print) := by
    refine dropBytes_eq_some.mpr ⟨c.field.text ++ [' '] ++ c.op.print.toList, ?_, ?_⟩
    · rw [Condition.print]
      simp
    · exact size_append _ _
  rw [parseWhere, c.trim_eq, fromStr_condition]
  dsimp only
  rw [parseCondition, h]
  dsimp only
  rw [cut_ok.mpr hfield, ok_bind, cutFrom_ok.mpr hvalue, ok_bind, pure_eq, ok_bind]
  dsimp only
  rw [chromaOperator_print, c.field.trimmed.trim_concat_space, trim_cons_space, c.literal.trim_eq]
  dsimp only
  rw [hread, ok_bind]
  rfl

theorem whereClause_some {t : Text} {filter : Json} : whereClause L t = .ok (some filter) ↔
    ∃ w text, Found L "WHERE " t w ∧ slice t (w + 6) (whereEnd L t) = some text ∧
      parseWhere L (trim text) = .ok filter := by
  unfold Found
  cases hw : find "WHERE ".toList (upperText L t) with
  | none =>
      rw [whereClause, hw]
      simp
  | some w =>
      rw [whereClause, hw]
      simp [bind_ok, cut_ok]

theorem whereClause_none {t : Text} :
    whereClause L t = .ok none ↔ ∀ w, ¬ Found L "WHERE " t w := by
  unfold Found
  cases hw : find "WHERE ".toList (upperText L t) with
  | none =>
      rw [whereClause, hw]
      simp
  | some w =>
      rw [whereClause, hw]
      simp [bind_ok]

/-! ## The limit and the whole query -/

theorem parseUsize_print {n : ℕ} (h : n < 2 ^ 64) : parseUsize (printNat n) = some n := by
  rw [parseUsize, parseNat_printNat]
  exact if_pos (decide_eq_true h)

theorem limitClause_some {t : Text} {n : ℕ} : limitClause L t = .ok (some n) ↔
    ∃ l text, Found L "LIMIT " t l ∧ slice t (l + 6) (limitEnd L t) = some text ∧
      parseUsize (trim text) = some n := by
  unfold Found
  cases hl : find "LIMIT ".toList (upperText L t) with
  | none =>
      rw [limitClause, hl]
      simp
  | some l =>
      rw [limitClause, hl]
      simp [bind_ok, cut_ok]

theorem limitClause_none {t : Text} : limitClause L t = .ok none ↔
    ∀ l, Found L "LIMIT " t l →
      ∃ text, slice t (l + 6) (limitEnd L t) = some text ∧ parseUsize (trim text) = none := by
  unfold Found
  cases hl : find "LIMIT ".toList (upperText L t) with
  | none =>
      rw [limitClause, hl]
      simp
  | some l =>
      rw [limitClause, hl]
      simp [bind_ok, cut_ok]

theorem nearestClause_print (h : InPlace L q) : nearestClause L q.print =
    .ok (q.vector.map fun v => v.map fun d => L.toF32 d.literal) := by
  have hvector := h.vector
  cases hq : q.vector with
  | none =>
      rw [hq] at hvector
      exact nearestClause_none.mpr hvector
  | some v =>
      rw [hq] at hvector
      exact nearestClause_some.mpr hvector

theorem whereClause_print (h : InPlace L q) :
    ∃ filter, q.IsFilter filter ∧ whereClause L q.print = .ok filter := by
  have hcondition := h.condition
  unfold SelectQuery.IsFilter
  cases hq : q.condition with
  | none =>
      rw [hq] at hcondition
      exact ⟨none, rfl, whereClause_none.mpr hcondition⟩
  | some c =>
      rw [hq] at hcondition
      obtain ⟨⟨w, text, hfound, hcut, htext⟩, hop, hfits⟩ := hcondition
      obtain ⟨value, hvalue, hread⟩ := (parseValue_print c.literal).mpr hfits
      refine ⟨some (c.json value), ⟨value, hvalue, rfl⟩, whereClause_some.mpr ?_⟩
      exact ⟨w, text, hfound, hcut, by rw [htext, parseWhere_print hop hread]⟩

theorem limitClause_print (h : InPlace L q) : limitClause L q.print = .ok q.limit := by
  have hlimit := h.limit
  cases hq : q.limit with
  | none =>
      rw [hq] at hlimit
      exact limitClause_none.mpr hlimit
  | some n =>
      rw [hq] at hlimit
      exact limitClause_some.mpr hlimit

theorem reads_back_in_place (h : InPlace L q) : ReadsBack L q := by
  obtain ⟨filter, hfilter, hwhere⟩ := whereClause_print h
  refine ⟨filter, hfilter, ?_⟩
  rw [parseQuery_print, parseSelect, extractFromClause_print h.collection, ok_bind,
    extractFields_print h.collection, ok_bind, nearestClause_print h, ok_bind, hwhere, ok_bind,
    limitClause_print h, ok_bind, h.vertical]
  rfl

end Rekha.Repl
