import Rekha.Repl.InPlace

/-!
# Reading back what was printed

A query whose text has an upper case of the same lengths, such as any ASCII text, is
read back exactly when the searches lead to its clauses (`print_parse`): a search that
ends somewhere else cuts out fields or a condition that are not those of the query.
-/

namespace Rekha.Repl

open Checked Utf8 NumberText

variable {L : Primitives} {q : SelectQuery} {t : Text}

/-! ## Offsets -/

theorem found_le {keyword : String} {before mid after : Text} {n : ℕ}
    (h : SameLength L (before ++ (mid ++ after))) (hmid : upperText L mid = keyword.toList)
    (hfound : Found L keyword (before ++ (mid ++ after)) n) : n ≤ size before := by
  obtain ⟨-, -, -, -, hfirst⟩ := find_eq_some.mp hfound
  rw [← h.append.1.size_upperText]
  refine hfirst _ (upperText L after) ?_
  rw [upperText_append, upperText_append, hmid]

theorem found_of_place {keyword : String} (before after : Text) {mid : Text}
    (hmid : upperText L mid = keyword.toList) :
    ∃ n, Found L keyword (before ++ (mid ++ after)) n := by
  refine Option.ne_none_iff_exists'.mp fun hnone => find_eq_none.mp hnone ?_
  rw [upperText_append, upperText_append, hmid]
  exact ⟨_, _, List.append_assoc _ _ _⟩

theorem SameLength.ascii {c d : Char} (h : SameLength L t) (hc : c ∈ t) (hd : L.upper c = [d])
    (hascii : d.toNat < 128) : c.toNat < 128 ∧ c.toUpper = d := by
  obtain ⟨x, hx, hsize⟩ := h c hc
  obtain rfl := List.singleton_inj.mp (hx.symm.trans hd)
  rw [utf8Size_ascii hascii] at hsize
  have hlt : c.toNat < 128 :=
    Nat.lt_succ_of_le (UInt32.le_iff_toNat_le.mp (Char.utf8Size_eq_one_iff.mp hsize.symm))
  rw [L.upper_ascii c hlt] at hd
  exact ⟨hlt, List.singleton_inj.mp hd⟩

theorem SameLength.space {c : Char} (h : SameLength L t) (hc : c ∈ t) (hd : L.upper c = [' ']) :
    c = ' ' := by
  obtain ⟨hlt, hupper⟩ := h.ascii hc hd (by decide)
  exact ascii_forall (P := fun c => c.toUpper = ' ' → c = ' ') (by decide) hlt hupper

/-! ## The fields -/

theorem filter_intercalate (sep : Text) (p : Char → Bool) : ∀ parts : List Text,
    (sep.intercalate parts).filter p = (sep.filter p).intercalate (parts.map (List.filter p))
  | [] => by simp
  | [part] => by simp
  | part :: next :: parts => by
      rw [List.intercalate_cons_cons, List.filter_append, List.filter_append,
        filter_intercalate sep p (next :: parts)]
      exact List.intercalate_cons_cons.symm

def isPlain (c : Char) : Bool := !isWhitespace c

theorem filter_isPlain_trim (s : Text) : (trim s).filter isPlain = s.filter isPlain :=
  filter_trim (fun c hc => by rw [isPlain, hc]; rfl) s

theorem filter_of_parts {s : Text} {parts : List Text} (h : (s.splitOn ',').map trim = parts) :
    s.filter isPlain = [','].intercalate (parts.map (List.filter isPlain)) := by
  have hsplit := filter_intercalate [','] isPlain (s.splitOn ',')
  rw [List.intercalate_splitOn] at hsplit
  rw [hsplit, ← h, List.map_map]
  congr 1
  exact List.map_congr_left fun part _ => (filter_isPlain_trim part).symm

theorem filter_of_extractFields {f : Fields}
    (h : extractFields L q.print = .ok (f.list.map String.ofList)) :
    ∃ p cutout, Found L "FROM " q.print p ∧ slice q.print 7 p = some cutout ∧
      cutout.filter isPlain = [','].intercalate (f.list.map (List.filter isPlain)) := by
  have hselect := (select_first (select_begins (L := L) (q := q))).1
  unfold Found at hselect
  rw [extractFields, hselect] at h
  dsimp only at h
  cases hp : find "FROM ".toList (upperText L q.print) with
  | none =>
      rw [hp] at h
      cases h
  | some p =>
      rw [hp] at h
      dsimp only at h
      obtain ⟨cutout, hcut, h⟩ := bind_ok.mp h
      rw [Nat.zero_add] at hcut
      refine ⟨p, cutout, hp, cut_ok.mp hcut, ?_⟩
      split at h
      · rename_i hstar
        have hlist : f.list = [['*']] := by
          have hmap := congrArg (List.map String.toList) (ok.inj h)
          rw [List.map_map] at hmap
          simpa [Function.comp_def] using hmap.symm
        rw [hlist, ← filter_isPlain_trim, hstar]
        rfl
      · have hmap := congrArg (List.map String.toList) (ok.inj h)
        rw [List.map_map, List.map_map] at hmap
        have hparts : ((trim cutout).splitOn ',').map trim = f.list := by
          simpa [Function.comp_def] using hmap
        rw [← filter_isPlain_trim, filter_of_parts hparts]

theorem filter_fields (f : Fields) :
    f.print.filter isPlain = [','].intercalate (f.list.map (List.filter isPlain)) := by
  have hne : f.list ≠ [] := by
    cases f <;> simp [Fields.list]
  exact filter_of_parts (map_trim_splitOn hne
    fun part hpart => ⟨(field_plain hpart).1, (field_plain hpart).2.1⟩)

/-- **The fields are read back only where `FROM` was found in its place**: a cut that
is shorter loses a character of the last field. -/
theorem collection_in_place (h : SameLength L q.print)
    (hfields : extractFields L q.print = .ok (q.fields.list.map String.ofList)) :
    Found L "FROM " q.print (size q.selectText) := by
  obtain ⟨p, cutout, hp, hcut, hfilter⟩ := filter_of_extractFields hfields
  have hplace : q.print =
      q.selectText ++ ("FROM ".toList ++ (q.collection.text ++ q.clauses)) := by
    rw [SelectQuery.print, SelectQuery.fromText, List.append_assoc]
  have hfrom : upperText L "FROM ".toList = "FROM ".toList :=
    upperText_capitals (forall_of_all (by decide))
  have hle : p ≤ size q.selectText := by
    rw [hplace] at h hp
    exact found_le h hfrom hp
  obtain ⟨start, rest, hprint, hstart, hsize⟩ := slice_eq_some.mp hcut
  have hselect : q.print = "SELECT ".toList ++ ((q.fields.print ++ [' ']) ++
      (q.fromText ++ q.clauses)) := List.append_assoc _ _ _
  obtain ⟨rfl, hbehind⟩ := append_inj_of_size (hprint.symm.trans hselect) hstart
  have htext : size q.selectText = 7 + size (q.fields.print ++ [' ']) :=
    size_append "SELECT ".toList (q.fields.print ++ [' '])
  obtain ⟨u, hu, hrest⟩ := append_of_size_le hbehind (by omega)
  rcases List.eq_nil_or_concat u with rfl | ⟨front, c, rfl⟩
  · rw [List.append_nil] at hu
    rwa [htext, hu, hsize]
  · rw [List.concat_eq_append, ← List.append_assoc] at hu
    obtain ⟨hfront, hc⟩ := List.append_inj' hu rfl
    obtain rfl := List.singleton_inj.mp hc
    -- the cut misses nothing but white space, and the fields do not end in white space
    have hnil : front.filter isPlain = [] := by
      have hboth := filter_fields q.fields
      rw [hfront, List.filter_append, hfilter] at hboth
      exact List.append_right_eq_self.mp hboth
    have hempty : front = [] := by
      by_contra hne
      have hlast := (trimmed_fields q.fields).last (front.getLast hne) (by
        rw [hfront, List.getLast?_append, List.getLast?_eq_some_getLast hne]
        rfl)
      have hmem := List.filter_eq_nil_iff.mp hnil _ (List.getLast_mem hne)
      rw [isPlain, hlast] at hmem
      exact hmem rfl
    obtain ⟨before, mid, after, hplaced, hmid, hbefore⟩ := hp.place h
    rw [hprint, ← List.append_assoc] at hplaced
    obtain ⟨-, htail⟩ := append_inj_of_size hplaced (by
      rw [size_append, hstart, hsize, hbefore])
    rw [hrest, hempty] at htail
    cases mid with
    | nil => exact absurd (show ([] : Text) = "FROM ".toList from hmid) (by decide)
    | cons d mid =>
        obtain ⟨rfl, -⟩ := List.cons.inj htail
        rw [upperText, List.flatMap_cons, L.upper_ascii ' ' (by decide)] at hmid
        exact absurd (List.cons.inj hmid).1 (by decide)

/-! ## The front of a condition -/

/-- The characters an operator begins with. -/
def opens (c : Char) : Bool := isComparison c || decide (c = '!')

theorem opens_cases {c : Char} (h : opens c = true) : c = '=' ∨ c = '<' ∨ c = '>' ∨ c = '!' := by
  simpa [opens, isComparison, or_assoc] using h

theorem opens_of_isWhitespace {c : Char} (h : isWhitespace c = true) : opens c = false := by
  by_contra hopens
  rcases opens_cases (Bool.of_not_eq_false hopens) with rfl | rfl | rfl | rfl
  all_goals exact absurd h (by decide)

/-- Neither an operator nor an object begins here. -/
def IsCalm (s : Text) : Prop := ∀ c ∈ s, opens c = false ∧ c ≠ '{'

theorem calm_char {c : Char} (h : isNameChar c = true ∨ c = ',' ∨ c = ' ' ∨ c = '*') :
    opens c = false ∧ c ≠ '{' := by
  constructor
  · by_contra hopens
    rcases opens_cases (Bool.of_not_eq_false hopens) with rfl | rfl | rfl | rfl
    all_goals exact absurd h (by decide)
  · rintro rfl
    exact absurd h (by decide)

theorem calm_name (n : Name) : IsCalm n.text := fun c hc => calm_char (Or.inl (n.chars c hc))

theorem first_unique {p : Char → Bool} {a a' r r' : Text} {x x' : Char}
    (ha : ∀ c ∈ a, p c = false) (ha' : ∀ c ∈ a', p c = false) (hx : p x = true)
    (hx' : p x' = true) (h : a ++ x :: r = a' ++ x' :: r') : a = a' ∧ x :: r = x' :: r' := by
  have hclash : ∀ {mid b rest rest' : Text} {y : Char}, (∀ c ∈ b ++ mid, p c = false) →
      p y = true → y :: rest = mid ++ rest' → mid = [] := by
    intro mid b rest rest' y hb hy hmid
    cases mid with
    | nil => rfl
    | cons d mid =>
        obtain ⟨rfl, -⟩ := List.cons.inj hmid
        have hcalm := hb y (List.mem_append_right _ List.mem_cons_self)
        rw [hy] at hcalm
        cases hcalm
  rcases List.append_eq_append_iff.mp h with ⟨mid, rfl, hmid⟩ | ⟨mid, rfl, hmid⟩
  · obtain rfl := hclash ha' hx hmid
    exact ⟨(List.append_nil a).symm, hmid⟩
  · obtain rfl := hclash ha hx' hmid
    exact ⟨List.append_nil a', hmid.symm⟩

theorem operator_opens {op : String} (h : op ∈ operators) :
    ∃ x r, op.toList = x :: r ∧ opens x = true := by
  have hall : ∀ op ∈ operators, op.toList.head?.any opens = true := by decide
  obtain ⟨x, hx, hopens⟩ := (Option.any_eq_true _ _).mp (hall op h)
  obtain ⟨r, hr⟩ := List.head?_eq_some_iff.mp hx
  exact ⟨x, r, hr, hopens⟩

theorem operator_of_find {s : Text} {op : String} {idx : ℕ} (h : findOperator s = some (op, idx)) :
    op ∈ operators ∧ (op = "=" → ¬ "==".toList <:+: s) := by
  constructor
  · obtain ⟨op', hmem, hop⟩ := List.exists_of_findSome?_eq_some h
    obtain ⟨idx', -, heq⟩ := Option.map_eq_some_iff.mp hop
    obtain ⟨rfl, rfl⟩ := Prod.mk.inj heq
    exact hmem
  · rintro rfl
    apply find_eq_none.mp
    cases hfind : find "==".toList s with
    | none => rfl
    | some idx' =>
        rw [findOperator, operators, List.findSome?_cons, hfind] at h
        have hop : "==" = "=" := congrArg Prod.fst (Option.some.inj h)
        exact absurd hop (by decide)

theorem parts_of_condition {s : Text} {c : Condition} {v : Json}
    (h : parseWhere L s = .ok (c.json v)) (hbrace : (trim s).head? ≠ some '{') :
    ∃ op idx front value,
      findOperator (trim s) = some (op, idx) ∧ trim s = front ++ (op.toList ++ value) ∧
      size front = idx ∧ trim front = c.field.text ∧ chromaOperator op = some c.op.chroma ∧
      parseValue L (trim value) = .ok v := by
  cases hjson : L.fromStr (trim s) with
  | some j =>
      rw [parseWhere, hjson] at h
      obtain rfl := ok.inj h
      have hobject := L.fromStr_object _ _ hjson
      rw [(trimmed_trim s).dropWhile_eq] at hobject
      exact absurd hobject hbrace
  | none =>
      cases hop : findOperator (trim s) with
      | none =>
          rw [parseWhere, hjson] at h
          dsimp only at h
          rw [parseCondition, hop] at h
          cases h
      | some found =>
          obtain ⟨op, idx⟩ := found
          obtain ⟨front, name, value, hs, hsize, hname, heq⟩ := parseWhere_condition hjson hop
          rw [heq] at h
          obtain ⟨v', hv, hobject⟩ := bind_ok.mp h
          rw [Condition.json, ok.injEq, Json.object.injEq, List.singleton_inj, Prod.mk.injEq,
            Json.object.injEq, List.singleton_inj, Prod.mk.injEq] at hobject
          obtain ⟨hfield, rfl, rfl⟩ := hobject
          exact ⟨op, idx, front, value, rfl, hs, hsize, String.ofList_injective hfield, hname, hv⟩

/-- **The operator is the one that was printed**: of those with its meaning no other
begins like it, but for a `=` with a second one behind it. -/
theorem operator_unique {op : String} {o : Operator} {r rest : Text} (hop : op ∈ operators)
    (hmeaning : chromaOperator op = some o.chroma) (hsingle : op = "=" → r.head? ≠ some '=')
    (h : op.toList ++ r = o.print.toList ++ ' ' :: rest) : op = o.print := by
  have hmem : op = "==" ∨ op = "!=" ∨ op = "<=" ∨ op = ">=" ∨ op = "=" ∨ op = ">" ∨ op = "<" := by
    simpa [operators] using hop
  rcases hmem with rfl | rfl | rfl | rfl | rfl | rfl | rfl <;> cases o <;>
    first
    | rfl
    | exact absurd hmeaning (by decide)
    | exact absurd (List.cons.inj h).1 (by decide)
    | exact absurd (List.cons.inj (List.cons.inj h).2).1 (by decide)
    | exact absurd (congrArg List.head? (List.cons.inj h).2) (hsingle rfl)

/-! ## Where the condition begins -/

def SelectQuery.beforeWhere (q : SelectQuery) : Text := q.selectText ++ (q.fromText ++ [' '])

def SelectQuery.afterWhere (q : SelectQuery) : Text :=
  q.nearestText ++ (q.limitText ++ q.verticalText)

theorem print_where {c : Condition} (hq : q.condition = some c) : q.print =
    q.beforeWhere ++ ("WHERE ".toList ++ (c.print ++ q.afterWhere)) := by
  have hwhere : q.whereText = ' ' :: ("WHERE ".toList ++ c.print) := by
    rw [SelectQuery.whereText, hq]
    rfl
  rw [SelectQuery.print, SelectQuery.clauses, hwhere, SelectQuery.beforeWhere,
    SelectQuery.afterWhere]
  simp

theorem calm_beforeWhere (q : SelectQuery) : IsCalm q.beforeWhere := by
  have hword : ∀ {s : Text}, (∀ c ∈ s, isNameChar c = true ∨ c = ',' ∨ c = ' ' ∨ c = '*') →
      IsCalm s := fun hs c hc => calm_char (hs c hc)
  have happend : ∀ {s r : Text}, IsCalm s → IsCalm r → IsCalm (s ++ r) :=
    fun hs hr c hc => (List.mem_append.mp hc).elim (hs c) (hr c)
  have hselect : IsCalm "SELECT ".toList := hword (forall_of_all (by decide))
  have hfrom : IsCalm "FROM ".toList := hword (forall_of_all (by decide))
  have hspace : IsCalm [' '] := hword (forall_of_all (by decide))
  have hfields : IsCalm q.fields.print := hword fun c hc => mem_fields hc
  exact happend (happend hselect (happend hfields hspace))
    (happend (happend hfrom (calm_name q.collection)) hspace)

theorem SameLength.upper_space {s : Text} (h : SameLength L s) (hs : upperText L s = [' ']) :
    s = [' '] := by
  cases s with
  | nil => cases hs
  | cons c s =>
      obtain ⟨d, hd, -⟩ := h c List.mem_cons_self
      rw [upperText, List.flatMap_cons, hd, ← upperText] at hs
      obtain ⟨rfl, htail⟩ := List.cons.inj hs
      obtain rfl := h.space List.mem_cons_self hd
      cases s with
      | nil => rfl
      | cons c s =>
          obtain ⟨d, hd, -⟩ := h c (List.mem_cons_of_mem _ List.mem_cons_self)
          rw [upperText, List.flatMap_cons, hd] at htail
          cases htail

theorem where_place {w : ℕ} (h : SameLength L t) (hw : Found L "WHERE " t w) :
    ∃ before word rest, t = (before ++ word) ++ ' ' :: rest ∧ size before = w ∧ size word = 5 := by
  obtain ⟨before, mid, rest, rfl, hmid, hsize⟩ := hw.place h
  have hlength := h.append.2.append.1
  obtain ⟨word, space, rfl, hword, hspace⟩ :=
    hlength.split (u := "WHERE".toList) (v := [' ']) hmid
  obtain rfl := hlength.append.2.upper_space hspace
  refine ⟨before, word, rest, by simp, hsize, ?_⟩
  rw [← hlength.append.1.size_upperText, hword]
  rfl

theorem where_cut (h : SameLength L q.print) {c : Condition} (hq : q.condition = some c) {w : ℕ}
    (hw : Found L "WHERE " q.print w) : ∃ start gap,
      q.print = start ++ (gap ++ (c.print ++ q.afterWhere)) ∧ size start = w + 6 ∧ IsCalm gap ∧
      (gap.filter isPlain = [] → gap = []) := by
  have hplace := print_where hq
  obtain ⟨before, word, rest, hprint, rfl, hsize⟩ := where_place h hw
  have hle : size before ≤ size q.beforeWhere := by
    rw [hplace] at h hw
    exact found_le h (upperText_capitals (forall_of_all (by decide))) hw
  have hstart : size ((before ++ word) ++ [' ']) = size before + 6 := by
    rw [size_append, size_append, hsize]
    rfl
  have hboth : (before ++ word) ++ ' ' :: rest =
      q.beforeWhere ++ ("WHERE".toList ++ ' ' :: (c.print ++ q.afterWhere)) :=
    hprint.symm.trans hplace
  rcases Nat.le_total (size (before ++ word)) (size q.beforeWhere) with hfront | hback
  · obtain ⟨k, hk, hrest⟩ := append_of_size_le hboth hfront
    cases k with
    | nil => exact absurd (List.cons.inj hrest).1 (by decide)
    | cons d k =>
        obtain ⟨rfl, rfl⟩ := List.cons.inj hrest
        refine ⟨_, k ++ "WHERE ".toList, ?_, hstart, ?_, ?_⟩
        · rw [hprint]
          simp
        · intro x hx
          rcases List.mem_append.mp hx with hx | hx
          · exact calm_beforeWhere q x (hk ▸ List.mem_append_right _ (List.mem_cons_of_mem _ hx))
          · have hword : ∀ x ∈ "WHERE ".toList,
                isNameChar x = true ∨ x = ',' ∨ x = ' ' ∨ x = '*' := forall_of_all (by decide)
            exact calm_char (hword x hx)
        · intro hnil
          rw [List.filter_append] at hnil
          exact absurd (List.append_eq_nil_iff.mp hnil).2 (by decide)
  · obtain ⟨k, hk, hrest⟩ := append_of_size_le hboth.symm hback
    obtain ⟨k', rfl⟩ := append_of_not_mem (by decide) hrest
    have hnil : k' = [] := by
      have hlen := congrArg size hk
      rw [size_append, size_append, size_append, hsize,
        show size "WHERE".toList = 5 from rfl] at hlen
      cases k' with
      | nil => rfl
      | cons d k' =>
          have hpos := d.utf8Size_pos
          rw [size_cons] at hlen
          omega
    rw [hnil, List.append_nil] at hrest
    have hbehind := (List.cons.inj (List.append_cancel_left hrest)).2
    refine ⟨_, [], ?_, hstart, (fun x hx => by cases hx), fun _ => rfl⟩
    rw [hprint, hbehind]
    simp

/-! ## What was cut out for the condition -/

theorem not_opens_of_trim {s : Text} {n : Name} (h : trim s = n.text) :
    ∀ c ∈ s, opens c = false := by
  obtain ⟨lead, trail, hs, hlead, htrail⟩ := trim_split s
  rw [h] at hs
  intro c hc
  rw [hs, List.mem_append, List.mem_append] at hc
  rcases hc with hc | hc | hc
  · exact opens_of_isWhitespace (hlead c hc)
  · exact (calm_name n c hc).1
  · exact opens_of_isWhitespace (htrail c hc)

theorem filter_whitespace {s : Text} (h : ∀ c ∈ s, isWhitespace c = true) :
    s.filter isPlain = [] := by
  apply List.filter_eq_nil_iff.mpr
  intro c hc
  rw [isPlain, h c hc]
  exact Bool.false_ne_true

theorem Condition.print_eq (c : Condition) :
    c.print = (c.field.text ++ [' ']) ++ (c.op.print.toList ++ ' ' :: c.literal.print) := by
  rw [Condition.print, List.append_assoc, List.singleton_append]

theorem not_brace {c : Condition} {gap text after rest : Text} (hgap : IsCalm gap)
    (h : text ++ after = gap ++ (c.print ++ rest)) : (trim text).head? ≠ some '{' := by
  intro hbrace
  obtain ⟨lead, trail, hs, hlead, -⟩ := trim_split text
  obtain ⟨tail, htail⟩ := List.head?_eq_some_iff.mp hbrace
  obtain ⟨d, name, hname⟩ := List.exists_cons_of_ne_nil c.field.ne_nil
  have hd : isNameChar d = true := c.field.chars d (hname ▸ List.mem_cons_self)
  have hfront : '{' ∉ gap ++ [d] := by
    intro hmem
    rcases List.mem_append.mp hmem with hmem | hmem
    · exact (hgap _ hmem).2 rfl
    · exact (calm_char (Or.inl (List.mem_singleton.mp hmem ▸ hd))).2 rfl
  have hboth : (gap ++ [d]) ++ (name ++ [' '] ++ (c.op.print.toList ++ ' ' :: c.literal.print) ++
      rest) = lead ++ '{' :: (tail ++ trail ++ after) := by
    have hright := h
    rw [hs, htail, c.print_eq, hname] at hright
    simpa using hright.symm
  obtain ⟨mid, hmid⟩ := append_of_not_mem hfront hboth
  have hspace := hlead d (by rw [hmid]; simp)
  rw [isWhitespace_of_isNameChar hd] at hspace
  cases hspace

/-- The first operator that was cut out is the printed one, so what is in front of it is
the field, and the rest of the gap is white space. -/
theorem front_of_cut {c : Condition} {v : Json} {gap text after rest : Text} (hgap : IsCalm gap)
    (h : text ++ after = gap ++ (c.print ++ rest))
    (hread : parseWhere L (trim text) = .ok (c.json v)) :
    gap.filter isPlain = [] ∧ (gap = [] → ∃ op value trail,
      findOperator (trim text) = some (op, size (c.field.text ++ [' '])) ∧
      trim text = (c.field.text ++ [' ']) ++ (op.toList ++ value) ∧ text = trim text ++ trail ∧
      (∀ x ∈ trail, isWhitespace x = true) ∧ chromaOperator op = some c.op.chroma ∧
      parseValue L (trim value) = .ok v) := by
  obtain ⟨op, idx, front, value, hop, hparts, rfl, hfield, hmeaning, hvalue⟩ :=
    parts_of_condition hread (by rw [trim_trim]; exact not_brace hgap h)
  rw [trim_trim] at hop hparts
  obtain ⟨lead, trail, hs, hlead, htrail⟩ := trim_split text
  obtain ⟨x, r, hx, hopens⟩ := operator_opens (operator_of_find hop).1
  obtain ⟨y, r', hy, hopens'⟩ : ∃ y r', c.op.print.toList = y :: r' ∧ opens y = true := by
    cases c.op <;> exact ⟨_, _, rfl, by decide⟩
  have hboth : (lead ++ front) ++ x :: (r ++ value ++ trail ++ after) =
      (gap ++ (c.field.text ++ [' '])) ++ y :: (r' ++ ' ' :: c.literal.print ++ rest) := by
    have hright := h
    rw [hs, hparts, hx, c.print_eq, hy] at hright
    simpa using hright
  have hcalm : ∀ d ∈ gap ++ (c.field.text ++ [' ']), opens d = false := by
    intro d hd
    rcases List.mem_append.mp hd with hd | hd
    · exact (hgap d hd).1
    · exact not_opens_of_trim c.field.trimmed.trim_concat_space d hd
  have hlead' : ∀ d ∈ lead ++ front, opens d = false := by
    intro d hd
    rcases List.mem_append.mp hd with hd | hd
    · exact opens_of_isWhitespace (hlead d hd)
    · exact not_opens_of_trim hfield d hd
  obtain ⟨hfront, -⟩ := first_unique hlead' hcalm hopens hopens' hboth
  constructor
  · have hfilter := congrArg (List.filter isPlain) hfront
    rw [List.filter_append, List.filter_append, filter_whitespace hlead,
      ← filter_isPlain_trim front, hfield, List.filter_append, List.nil_append,
      show [' '].filter isPlain = [] from rfl, List.append_nil] at hfilter
    exact List.self_eq_append_left.mp hfilter
  · rintro rfl
    have hnil : lead = [] := by
      obtain ⟨d, name, hname⟩ := List.exists_cons_of_ne_nil c.field.ne_nil
      cases lead with
      | nil => rfl
      | cons e lead =>
          rw [hname] at hfront
          obtain ⟨rfl, -⟩ := List.cons.inj hfront
          have hspace := hlead e List.mem_cons_self
          rw [isWhitespace_of_isNameChar (c.field.chars e (hname ▸ List.mem_cons_self))] at hspace
          cases hspace
    rw [hnil, List.nil_append, List.nil_append] at hfront
    rw [hnil, List.nil_append] at hs
    rw [hfront] at hop hparts
    exact ⟨op, value, trail, hop, hparts, hs, htrail, hmeaning, hvalue⟩

theorem parseValue_string {s x : Text} (h : parseValue L s = .ok (.string (String.ofList x))) :
    x = trim s ∨ ∃ quote, trim s = quote :: (x ++ [quote]) := by
  rw [parseValue] at h
  rcases parseValueWithin_cases (L := L) s.length s with ⟨quote, -, ⟨-, heq⟩ | ⟨mid, hs, heq⟩⟩ |
    ⟨inner, -, heq⟩ | ⟨hdouble, hsingle, hbracketed, -⟩
  · rw [heq] at h
    cases h
  · rw [heq, ok.injEq, Json.string.injEq] at h
    rw [String.ofList_injective h] at hs
    exact Or.inr ⟨quote, hs⟩
  · rw [heq] at h
    obtain ⟨items, -, harray⟩ := bind_ok.mp h
    cases harray
  · rw [parseValueWithin, hdouble, hsingle, if_neg (by decide)] at h
    split at h
    · cases h
    · split at h
      · cases h
      · split at h
        · rename_i f _
          have hfloat := ok.inj h
          rw [Json.ofF64] at hfloat
          split at hfloat <;> cases hfloat
        · rw [hbracketed, if_neg Bool.false_ne_true, pure_eq, ok.injEq, Json.string.injEq] at h
          exact Or.inl (String.ofList_injective h).symm

theorem filter_quote_none {s : Text} (h : '\'' ∉ s) : s.filter (· = '\'') = [] := by
  apply List.filter_eq_nil_iff.mpr
  intro c hc
  rw [decide_eq_true_eq]
  rintro rfl
  exact h hc

/-- A string that lost its second quote is not that string: there is one quote in the
value, and none or two in what gives a string. -/
theorem open_string {s m value trail : Text} (hs : '\'' ∉ s) (hm : '\'' ∉ m)
    (htrail : ∀ c ∈ trail, isWhitespace c = true) (hv : value ++ trail = ' ' :: '\'' :: m) :
    parseValue L (trim value) ≠ .ok (.string (String.ofList s)) := by
  intro hvalue
  have hquiet : '\'' ∉ trail := fun hmem => absurd (htrail _ hmem) (by decide)
  have hone : (trim value).filter (· = '\'') = ['\''] := by
    have htotal := congrArg (List.filter (· = '\'')) hv
    rw [List.filter_append, filter_quote_none hquiet, List.append_nil,
      List.filter_cons_of_neg (by decide), List.filter_cons_of_pos (by decide),
      filter_quote_none hm] at htotal
    rw [filter_trim fun c hc => ?_, htotal]
    rw [decide_eq_false_iff_not]
    rintro rfl
    exact absurd hc (by decide)
  rcases parseValue_string hvalue with hwhole | ⟨quote, hquoted⟩
  · rw [trim_trim] at hwhole
    rw [← hwhole, filter_quote_none hs] at hone
    cases hone
  · rw [trim_trim] at hquoted
    rw [hquoted, ← List.singleton_append, List.filter_append, List.filter_append,
      filter_quote_none hs] at hone
    by_cases hquote : quote = '\''
    · rw [hquote] at hone
      exact absurd hone (by decide)
    · rw [filter_quote_none fun hmem => hquote (List.mem_singleton.mp hmem).symm] at hone
      cases hone

theorem value_not_cut {l : Literal} {v : Json} {value trail u : Text} (hjson : l.json = some v)
    (hvalue : parseValue L (trim value) = .ok v) (htrail : ∀ c ∈ trail, isWhitespace c = true)
    (h : value ++ trail ++ u = ' ' :: l.print)
    (hu : u = [] ∨ ∃ u', u = ' ' :: u' ∧ u'.head? ≠ some '\'') : u = [] := by
  rcases hu with rfl | ⟨u', rfl, hquote⟩
  · rfl
  exfalso
  cases hv : value ++ trail with
  | nil =>
      rw [hv] at h
      rw [(List.append_eq_nil_iff.mp hv).1] at hvalue
      obtain rfl : Json.string "" = v :=
        ok.inj ((show parseValue L (trim []) = .ok (.string "") from rfl).symm.trans hvalue)
      cases l with
      | int i =>
          obtain ⟨number, -, hnumber⟩ := Option.map_eq_some_iff.mp hjson
          cases hnumber
      | bool b => cases hjson
      | str s noQuote =>
          rw [(List.cons.inj h).2] at hquote
          exact hquote rfl
  | cons d tail =>
      rw [hv] at h
      obtain ⟨rfl, hliteral⟩ := List.cons.inj h
      have hspace : ' ' ∈ l.print := by
        rw [← hliteral]
        simp
      cases l with
      | int i => exact not_mem_printInt rfl (by decide) hspace
      | bool b => cases b <;> exact absurd hspace (by decide)
      | str s noQuote =>
          cases tail with
          | nil => exact absurd (List.cons.inj hliteral).1 (by decide)
          | cons e m =>
              obtain ⟨rfl, hm⟩ := List.cons.inj hliteral
              have hnone : '\'' ∉ m := by
                rcases List.append_eq_append_iff.mp hm with ⟨k, hs, -⟩ | ⟨k, hk, hlast⟩
                · exact fun hmem => noQuote (hs ▸ List.mem_append_left _ hmem)
                · have hspace : ' ' ∈ ['\''] := hlast ▸ by simp
                  exact absurd hspace (by decide)
              obtain rfl := Option.some.inj hjson
              exact open_string noQuote hnone htrail hv hvalue

/-! ## Where the condition ends -/

theorem whereEnd_cases : (∃ keyword ∈ [" NEAREST TO", " LIMIT", " HAVING", " VERTICAL"],
    Found L keyword t (whereEnd L t)) ∨ whereEnd L t = size t := by
  unfold whereEnd Found
  cases hnearest : find " NEAREST TO".toList (upperText L t) with
  | some n => exact Or.inl ⟨_, by simp, hnearest⟩
  | none =>
      cases hlimit : find " LIMIT".toList (upperText L t) with
      | some n => exact Or.inl ⟨_, by simp, hlimit⟩
      | none =>
          cases hhaving : find " HAVING".toList (upperText L t) with
          | some n => exact Or.inl ⟨_, by simp, hhaving⟩
          | none =>
              cases hvertical : find " VERTICAL".toList (upperText L t) with
              | some n => exact Or.inl ⟨_, by simp, hvertical⟩
              | none => exact Or.inr rfl

theorem space_at_whereEnd {front rest : Text} (h : SameLength L (front ++ rest))
    (hsize : size front = whereEnd L (front ++ rest)) :
    rest = [] ∨ ∃ r, rest = ' ' :: r ∧ r.head? ≠ some '\'' := by
  rcases whereEnd_cases (L := L) (t := front ++ rest) with ⟨keyword, hkeyword, hfound⟩ | hend
  · refine Or.inr ?_
    obtain ⟨before, mid, after, ht, hmid, hbefore⟩ := hfound.place h
    obtain ⟨rfl, rfl⟩ := append_inj_of_size ht (hsize.trans hbefore.symm)
    obtain ⟨x, word, hword, hx⟩ : ∃ x word, keyword.toList = [' '] ++ x :: word ∧ x ≠ '\'' := by
      simp only [List.mem_cons, List.not_mem_nil, or_false] at hkeyword
      rcases hkeyword with rfl | rfl | rfl | rfl
      all_goals exact ⟨_, _, rfl, by decide⟩
    have hlength := h.append.2.append.1
    obtain ⟨space, word', rfl, hspace, hword'⟩ := hlength.split (hmid.trans hword)
    obtain rfl := hlength.append.1.upper_space hspace
    refine ⟨word' ++ after, by simp, fun hquote => ?_⟩
    cases word' with
    | nil => cases hword'
    | cons y word' =>
        obtain rfl := Option.some.inj (show some y = some '\'' from hquote)
        rw [upperText, List.flatMap_cons, L.upper_ascii '\'' (by decide)] at hword'
        exact hx (List.cons.inj hword').1.symm
  · refine Or.inl ?_
    rw [hend, size_append] at hsize
    cases rest with
    | nil => rfl
    | cons c rest =>
        have hpos := c.utf8Size_pos
        rw [size_cons] at hsize
        omega

theorem found_before {keyword : String} {front rest : Text} {x : Char} {n : ℕ}
    (h : SameLength L (front ++ rest)) (hx : x ∈ keyword.toList) (hrest : x ∉ upperText L rest)
    (hfound : Found L keyword (front ++ rest) n) : n ≤ size front := by
  obtain ⟨before, mid, after, ht, hmid, rfl⟩ := hfound.place h
  rcases Nat.le_total (size before) (size front) with hle | hle
  · exact hle
  · obtain ⟨gap, -, rfl⟩ := append_of_size_le ht hle
    rw [upperText_append, upperText_append, hmid] at hrest
    exact absurd (List.mem_append_right _ (List.mem_append_left _ hx)) hrest

theorem not_mem_upperText {s : Text} {x : Char} (h : ∀ c ∈ s, c.toNat < 128 ∧ c.toUpper ≠ x) :
    x ∉ upperText L s := by
  rw [upperText_ascii fun c hc => (h c hc).1]
  intro hmem
  obtain ⟨c, hc, rfl⟩ := List.mem_map.mp hmem
  exact (h c hc).2 rfl

theorem no_nearest (q : SelectQuery) : 'N' ∉ upperText L (q.limitText ++ q.verticalText) := by
  apply not_mem_upperText
  intro c hc
  have hword : ∀ c ∈ " LIMIT  VERTICAL".toList, c.toNat < 128 ∧ c.toUpper ≠ 'N' :=
    forall_of_all (by decide)
  have hdigit : c.isDigit = true → c.toNat < 128 ∧ c.toUpper ≠ 'N' := by
    intro h
    exact ⟨ascii_of_isDigit h, ascii_forall (P := fun c => c.isDigit = true → c.toUpper ≠ 'N')
      (by decide) (ascii_of_isDigit h) h⟩
  rcases List.mem_append.mp hc with hc | hc
  · unfold SelectQuery.limitText at hc
    split at hc
    · rcases List.mem_append.mp hc with hc | hc
      · exact hword c ((by decide : " LIMIT ".toList ⊆ " LIMIT  VERTICAL".toList) hc)
      · exact hdigit (isDigit_printNat c hc)
    · cases hc
  · unfold SelectQuery.verticalText at hc
    split at hc
    · exact hword c ((by decide : " VERTICAL".toList ⊆ " LIMIT  VERTICAL".toList) hc)
    · cases hc

theorem find_of_place {keyword : String} {front rest : Text} (h : SameLength L (front ++ rest))
    (hupper : ∀ c ∈ keyword.toList, c.toNat < 128 ∧ c.toUpper = c)
    (hrest : keyword.toList <+: rest) :
    ∃ n, find keyword.toList (upperText L (front ++ rest)) = some n ∧ n ≤ size front := by
  obtain ⟨after, rfl⟩ := hrest
  obtain ⟨n, hn⟩ := found_of_place front after (upperText_capitals (L := L) hupper)
  exact ⟨n, hn, found_le h (upperText_capitals hupper) hn⟩

theorem whereEnd_eq : whereEnd L t = ((find " NEAREST TO".toList (upperText L t)).or
    ((find " LIMIT".toList (upperText L t)).or ((find " HAVING".toList (upperText L t)).or
      (find " VERTICAL".toList (upperText L t))))).getD (size t) := by
  rw [whereEnd, Option.or_assoc, Option.or_assoc]

theorem getD_or_le {o r : Option ℕ} {k d : ℕ} (ho : ∀ n, o = some n → n ≤ k)
    (hr : r.getD d ≤ k) : (o.or r).getD d ≤ k := by
  cases o with
  | none => exact hr
  | some n => exact ho n rfl

theorem whereEnd_le {front : Text} (h : SameLength L (front ++ q.afterWhere)) :
    whereEnd L (front ++ q.afterWhere) ≤ size front := by
  rw [whereEnd_eq]
  cases hvector : q.vector with
  | some v =>
      have hrest : " NEAREST TO".toList <+: q.afterWhere := by
        rw [SelectQuery.afterWhere, SelectQuery.nearestText, hvector]
        exact ⟨' ' :: (printVector v ++ (q.limitText ++ q.verticalText)), by simp⟩
      obtain ⟨n, hn, hle⟩ := find_of_place h (forall_of_all (by decide)) hrest
      rw [hn]
      exact hle
  | none =>
      have hafter : q.afterWhere = q.limitText ++ q.verticalText := by
        rw [SelectQuery.afterWhere, SelectQuery.nearestText, hvector]
        rfl
      rw [hafter] at h ⊢
      refine getD_or_le (fun n hn => found_before h (x := 'N') (by decide) (no_nearest q) hn) ?_
      cases hlimit : q.limit with
      | some n =>
          have hrest : " LIMIT".toList <+: q.limitText ++ q.verticalText := by
            rw [SelectQuery.limitText, hlimit]
            exact ⟨' ' :: (printNat n ++ q.verticalText), by simp⟩
          obtain ⟨n, hn, hle⟩ := find_of_place h (forall_of_all (by decide)) hrest
          rw [hn]
          exact hle
      | none =>
          have htext : q.limitText ++ q.verticalText = q.verticalText := by
            rw [SelectQuery.limitText, hlimit]
            rfl
          have hother : ∀ x ∈ ['M', 'H'], x ∉ upperText L q.verticalText := by
            intro x hx
            unfold SelectQuery.verticalText
            split
            · rw [upperText_capitals (forall_of_all (by decide))]
              have hword : ∀ x ∈ ['M', 'H'], x ∉ " VERTICAL".toList := forall_of_all (by decide)
              exact hword x hx
            · exact List.not_mem_nil
          rw [htext] at h ⊢
          refine getD_or_le (fun n hn => found_before h (by decide) (hother 'M' (by decide)) hn)
            (getD_or_le (fun n hn => found_before h (by decide) (hother 'H' (by decide)) hn) ?_)
          cases hvertical : q.vertical with
          | true =>
              have hrest : " VERTICAL".toList <+: q.verticalText := by
                rw [SelectQuery.verticalText, hvertical]
                exact List.prefix_refl _
              obtain ⟨n, hn, hle⟩ := find_of_place h (forall_of_all (by decide)) hrest
              rw [hn]
              exact hle
          | false =>
              have hnil : q.verticalText = [] := by
                rw [SelectQuery.verticalText, hvertical]
                rfl
              rw [hnil] at h ⊢
              cases hn : find " VERTICAL".toList (upperText L (front ++ [])) with
              | some n => exact found_before h (x := 'V') (by decide) List.not_mem_nil hn
              | none => exact (congrArg size (List.append_nil front)).le

/-! ## The whole query -/

theorem cut_whole {c : Condition} {v : Json} {text u : Text} (h : c.print = text ++ u)
    (hu : u = [] ∨ ∃ u', u = ' ' :: u' ∧ u'.head? ≠ some '\'') (hjson : c.literal.json = some v)
    (hread : parseWhere L (trim text) = .ok (c.json v)) : text = c.print ∧
      findOperator c.print = some (c.op.print, size (c.field.text ++ [' '])) ∧
      c.literal.Fits := by
  have hempty : IsCalm [] := fun x hx => by cases hx
  have hfront : text ++ u = [] ++ (c.print ++ []) := by
    rw [List.append_nil, List.nil_append, h]
  obtain ⟨op, value, trail, hop, hparts, htext, htrail, hmeaning, hvalue⟩ :=
    (front_of_cut hempty hfront hread).2 rfl
  obtain ⟨hmem, hfirst⟩ := operator_of_find hop
  have hboth : op.toList ++ (value ++ trail ++ u) =
      c.op.print.toList ++ ' ' :: c.literal.print := by
    have hprint := c.print_eq
    rw [h, htext, hparts] at hprint
    simpa using hprint
  have hsingle : op = "=" → (value ++ trail ++ u).head? ≠ some '=' := by
    rintro rfl heq
    cases value with
    | cons d value =>
        obtain rfl := Option.some.inj (show some d = some '=' from heq)
        exact hfirst rfl ⟨c.field.text ++ [' '], value, by rw [hparts]; simp⟩
    | nil =>
        cases trail with
        | cons d trail =>
            obtain rfl := Option.some.inj (show some d = some '=' from heq)
            exact absurd (htrail '=' List.mem_cons_self) (by decide)
        | nil =>
            rcases hu with rfl | ⟨u', rfl, -⟩
            · cases heq
            · exact absurd (Option.some.inj heq) (by decide)
  obtain rfl := operator_unique hmem hmeaning hsingle hboth
  have hliteral := List.append_cancel_left hboth
  obtain rfl := value_not_cut hjson hvalue htrail hliteral hu
  rw [List.append_nil] at h hliteral
  rw [← h, c.trim_eq] at hop htext
  obtain rfl := List.self_eq_append_right.mp htext
  rw [List.append_nil] at hliteral
  rw [hliteral, trim_cons_space, c.literal.trim_eq] at hvalue
  exact ⟨h.symm, hop, (parseValue_print c.literal).mp ⟨v, hjson, hvalue⟩⟩

/-- **The condition is read back only where it was cut out whole.** -/
theorem condition_in_place (h : SameLength L q.print) {c : Condition} (hq : q.condition = some c)
    {v : Json} (hjson : c.literal.json = some v)
    (hwhere : whereClause L q.print = .ok (some (c.json v))) :
    (∃ w text, Found L "WHERE " q.print w ∧
      slice q.print (w + 6) (whereEnd L q.print) = some text ∧ trim text = c.print) ∧
      findOperator c.print = some (c.op.print, size (c.field.text ++ [' '])) ∧
      c.literal.Fits := by
  obtain ⟨w, text, hw, hcut, hread⟩ := whereClause_some.mp hwhere
  obtain ⟨start, gap, hprint, hstart, hcalm, hgap⟩ := where_cut h hq hw
  obtain ⟨start', rest, hprint', hstart', hsize⟩ := slice_eq_some.mp hcut
  obtain ⟨rfl, hbehind⟩ :=
    append_inj_of_size (hprint'.symm.trans hprint) (hstart'.trans hstart.symm)
  obtain rfl := hgap (front_of_cut hcalm hbehind hread).1
  rw [List.nil_append] at hbehind
  have hend : whereEnd L q.print ≤ size (start' ++ c.print) := by
    rw [hprint, List.nil_append, ← List.append_assoc] at h ⊢
    exact whereEnd_le h
  obtain ⟨u, hu, hrest⟩ := append_of_size_le hbehind (by rw [size_append] at hend; omega)
  have hspace : u = [] ∨ ∃ u', u = ' ' :: u' ∧ u'.head? ≠ some '\'' := by
    rw [hprint', ← List.append_assoc] at h hsize
    rcases space_at_whereEnd h (by rw [size_append, hstart', hsize]) with hnil | ⟨r, hr, hquote⟩
    · rw [hrest] at hnil
      exact Or.inl (List.append_eq_nil_iff.mp hnil).1
    · cases u with
      | nil => exact Or.inl rfl
      | cons d u =>
          rw [hrest] at hr
          obtain ⟨rfl, rfl⟩ := List.cons.inj hr
          refine Or.inr ⟨u, rfl, fun hhead => hquote ?_⟩
          exact List.head?_append.trans (congrArg (fun o => o.or q.afterWhere.head?) hhead)
  obtain ⟨rfl, hop⟩ := cut_whole hu hspace hjson hread
  exact ⟨⟨w, _, hw, hcut, c.trim_eq⟩, hop⟩

theorem in_place_of_reads_back (h : SameLength L q.print) (hread : ReadsBack L q) :
    InPlace L q := by
  obtain ⟨filter, hfilter, hread⟩ := hread
  rw [parseQuery_print, parseSelect] at hread
  obtain ⟨collection, -, hread⟩ := bind_ok.mp hread
  obtain ⟨fields, hfields, hread⟩ := bind_ok.mp hread
  obtain ⟨vector, hvector, hread⟩ := bind_ok.mp hread
  obtain ⟨condition, hcondition, hread⟩ := bind_ok.mp hread
  obtain ⟨limit, hlimit, hread⟩ := bind_ok.mp hread
  rw [pure_eq, ok.injEq, SelectQuery.parsed, ParsedQuery.select.injEq] at hread
  obtain ⟨-, rfl, rfl, rfl, rfl, hvertical⟩ := hread
  unfold SelectQuery.IsFilter at hfilter
  refine ⟨collection_in_place h hfields, ?_, ?_, ?_, hvertical⟩
  · cases hq : q.condition with
    | none =>
        rw [hq] at hfilter
        obtain rfl : condition = none := hfilter
        exact whereClause_none.mp hcondition
    | some c =>
        rw [hq] at hfilter
        obtain ⟨v, hjson, rfl⟩ := hfilter
        exact condition_in_place h hq hjson hcondition
  · cases hq : q.vector with
    | none =>
        rw [hq] at hvector
        exact nearestClause_none.mp hvector
    | some v =>
        rw [hq] at hvector
        exact nearestClause_some.mp hvector
  · cases hq : q.limit with
    | none =>
        rw [hq] at hlimit
        exact limitClause_none.mp hlimit
    | some n =>
        rw [hq] at hlimit
        exact limitClause_some.mp hlimit

/-- **A printed query is read back where the searches lead to its clauses**, and, if its
upper case takes the same bytes, nowhere else. -/
theorem print_parse (L : Primitives) (q : SelectQuery) :
    (InPlace L q → ReadsBack L q) ∧ (SameLength L q.print → ReadsBack L q → InPlace L q) :=
  ⟨reads_back_in_place, in_place_of_reads_back⟩

def demoQuery : SelectQuery where
  collection := ⟨"docs".toList, by decide, forall_of_all (by decide)⟩
  fields := .names ⟨"a".toList, by decide, forall_of_all (by decide)⟩
    [⟨"b".toList, by decide, forall_of_all (by decide)⟩]
  condition := some ⟨⟨"tag".toList, by decide, forall_of_all (by decide)⟩, .ge,
    .str "x y".toList (by decide)⟩
  vector := some [⟨false, 0, [5]⟩]
  limit := some 10
  vertical := true

theorem demoQuery_print : demoQuery.print =
    "SELECT a, b FROM docs WHERE tag >= 'x y' NEAREST TO [0.5] LIMIT 10 VERTICAL".toList := by
  decide

theorem demoQuery_inPlace : InPlace demoPrimitives demoQuery where
  collection := by rfl
  condition := ⟨⟨22, "tag >= 'x y'".toList, by rfl, by rfl, by rfl⟩, by rfl, trivial⟩
  vector := by
    have hholds : HoldsVector demoPrimitives
        (trim ([' '] ++ (printVector [⟨false, 0, [5]⟩] ++ " LIMIT 10 VERTICAL".toList)))
        [demoPrimitives.toF32 (Decimal.literal ⟨false, 0, [5]⟩)] :=
      holdsVector_print (by decide) (by decide) (by decide)
    exact ⟨41, " [0.5] LIMIT 10 VERTICAL".toList, by rfl, by rfl, hholds⟩
  limit := by
    have hlimit : parseUsize (printNat 10) = some 10 := parseUsize_print (by decide)
    exact ⟨58, "10".toList, by rfl, by rfl, hlimit⟩
  vertical := by rfl

theorem print_parse_demo : InPlace demoPrimitives demoQuery ∧
    SameLength demoPrimitives demoQuery.print ∧ ReadsBack demoPrimitives demoQuery :=
  ⟨demoQuery_inPlace, sameLength_ascii (by rw [demoQuery_print]; exact forall_of_all (by decide)),
    (print_parse demoPrimitives demoQuery).1 demoQuery_inPlace⟩

/-- `SELECT a FROM c WHERE a <> 1`. -/
def unequalQuery : SelectQuery where
  collection := ⟨['c'], by decide, forall_of_all (by decide)⟩
  fields := .names ⟨['a'], by decide, forall_of_all (by decide)⟩ []
  condition := some ⟨⟨['a'], by decide, forall_of_all (by decide)⟩, .ltGt, .int 1⟩
  vector := none
  limit := none
  vertical := false

/-- `<>` is not among the operators that are looked for, so its `>` is found. -/
theorem unequal_reads_greater :
    parseQuery demoPrimitives unequalQuery.print = .ok (.select "c" ["a"] none
      (some (.object [("a <", .object [("$gt", Json.ofI64 1)])])) none false) ∧
    ¬ ReadsBack demoPrimitives unequalQuery := by
  have hparse : parseQuery demoPrimitives unequalQuery.print = .ok (.select "c" ["a"] none
      (some (.object [("a <", .object [("$gt", Json.ofI64 1)])])) none false) := by rfl
  refine ⟨hparse, ?_⟩
  rintro ⟨filter, ⟨value, -, rfl⟩, hread⟩
  have hfilter := (ParsedQuery.select.inj (ok.inj (hparse.symm.trans hread))).2.2.2.1
  have hfield := congrArg Prod.fst (List.cons.inj (Json.object.inj (Option.some.inj hfilter))).1
  exact absurd (show "a <" = "a" from hfield) (by decide)

end Rekha.Repl
