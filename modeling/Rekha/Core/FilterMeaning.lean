import Rekha.Core.FilterJson

/-!
# What a `where` object means

`meaning` reads a filter off its JSON: an object is the conjunction of its
entries, `$and` and `$or` combine the meanings of their elements, a field is
the conjunction of its operators. The parser builds a differently shaped tree;
`matches` on it is this meaning (`matches_eq_meaning`).
-/

namespace Rekha.Where

open Outcome

/-! ## Meaning on JSON -/

/-- Equality with a JSON scalar: integers as integers, other numbers as floats. -/
def equalsScalar : MetadataValue → Json → Bool
  | .str s, .string t => decide (s = t)
  | .bool a, .bool b => decide (a = b)
  | .int i, .number n =>
      match n.asI64 with
      | some j => decide (i = j)
      | none => (MetadataValue.ofI64 i).eq n.toF64
  | .float f, .number n => f.eq n.toF64
  | _, _ => false

/-- An order comparison: false unless both sides are numbers. -/
def comparesNumber (rel : F64 → F64 → Bool) (actual : Option MetadataValue) (value : Json) :
    Bool :=
  (actual.bind MetadataValue.asF64).any fun x => value.asF64.any fun n => rel x n

def inList (actual : MetadataValue) (value : Json) : Bool :=
  value.asArray.any fun xs => xs.any (equalsScalar actual)

/-- One operator applied to the value of a field. An absent field satisfies
`$nin` only. -/
def meansOp (actual : Option MetadataValue) (op : String) (value : Json) : Bool :=
  if op = "$eq" then actual.any fun a => equalsScalar a value
  else if op = "$ne" then actual.any fun a => !equalsScalar a value
  else if op = "$gt" then comparesNumber (fun x n => n.lt x) actual value
  else if op = "$gte" then comparesNumber (fun x n => n.le x) actual value
  else if op = "$lt" then comparesNumber (fun x n => x.lt n) actual value
  else if op = "$lte" then comparesNumber (fun x n => x.le n) actual value
  else if op = "$in" then actual.any fun a => inList a value
  else if op = "$nin" then actual.all fun a => !inList a value
  else false

def meansField (metadata : Metadata) (key : String) : Json → Bool
  | .object ops => ops.all fun entry => meansOp (metadata.lookup key) entry.1 entry.2
  | value => (metadata.lookup key).any fun a => equalsScalar a value

mutual

def meaning (metadata : Metadata) : Json → Bool
  | .object map => meansEntries metadata map
  | _ => false

def meansEntries (metadata : Metadata) : List (String × Json) → Bool
  | [] => true
  | (key, value) :: map =>
      (if key = "$and" then meansAll metadata value
        else if key = "$or" then meansAny metadata value
        else meansField metadata key value) && meansEntries metadata map

def meansAll (metadata : Metadata) : Json → Bool
  | .array xs => allMean metadata xs
  | _ => false

def meansAny (metadata : Metadata) : Json → Bool
  | .array xs => anyMeans metadata xs
  | _ => false

def allMean (metadata : Metadata) : List Json → Bool
  | [] => true
  | x :: xs => meaning metadata x && allMean metadata xs

def anyMeans (metadata : Metadata) : List Json → Bool
  | [] => false
  | x :: xs => meaning metadata x || anyMeans metadata xs

end

/-! ## The definitions as quantifiers -/

def meansEntry (metadata : Metadata) (key : String) (value : Json) : Bool :=
  if key = "$and" then meansAll metadata value
  else if key = "$or" then meansAny metadata value
  else meansField metadata key value

theorem meaning_object {metadata : Metadata} {map : List (String × Json)} :
    meaning metadata (.object map) = true ↔
      ∀ entry ∈ map, meansEntry metadata entry.1 entry.2 = true := by
  rw [meaning]
  induction map with
  | nil => simp [meansEntries]
  | cons entry map ih => simp [meansEntries, meansEntry, ih]

theorem meansAll_array {metadata : Metadata} {xs : List Json} :
    meansAll metadata (.array xs) = true ↔ ∀ x ∈ xs, meaning metadata x = true := by
  rw [meansAll]
  induction xs with
  | nil => simp [allMean]
  | cons x xs ih => simp [allMean, ih]

theorem meansAny_array {metadata : Metadata} {xs : List Json} :
    meansAny metadata (.array xs) = true ↔ ∃ x ∈ xs, meaning metadata x = true := by
  rw [meansAny]
  induction xs with
  | nil => simp [anyMeans]
  | cons x xs ih => simp [anyMeans, ih]

/-! ## Scalars and operators -/

theorem valuesEqual_parsed {x : Json} {v : MetadataValue} (h : metadataValue x = .ok v)
    (actual : MetadataValue) : valuesEqual actual v = equalsScalar actual x := by
  cases x with
  | number n =>
      rw [metadataValue] at h
      split at h
      · rename_i i hi
        obtain rfl := Except.ok.inj h
        have hfloat := Json.Number.toF64_of_asI64 hi
        cases actual with
        | int j => simp [valuesEqual, equalsScalar, hi]
        | float f => simp [valuesEqual, equalsScalar, hfloat, MetadataValue.ofI64]
        | str s => rfl
        | bool b => rfl
      · rename_i hi
        obtain rfl := Except.ok.inj h
        cases actual with
        | int j => simp [valuesEqual, equalsScalar, hi]
        | float f => rfl
        | str s => rfl
        | bool b => rfl
  | string s =>
      obtain rfl := Except.ok.inj h
      cases actual <;> rfl
  | bool b =>
      obtain rfl := Except.ok.inj h
      cases actual <;> rfl
  | null => cases h
  | array xs => cases h
  | object map => cases h

theorem number_ok {value : Json} {op : String} {n : F64} :
    number value op = .ok n ↔ value.asF64 = some n := by
  rw [number]
  cases value.asF64 <;> simp

theorem any_parsed {value : Json} {op : String} {vs : List MetadataValue}
    (h : valueList value op = .ok vs) (actual : MetadataValue) :
    (vs.any fun v => valuesEqual actual v) = inList actual value := by
  obtain ⟨items, rfl, hitems⟩ := valueList_ok.mp h
  have hall := mapM_ok.mp hitems
  show _ = items.any (equalsScalar actual)
  clear h hitems
  induction hall with
  | nil => rfl
  | cons hx _ ih => rw [List.any_cons, List.any_cons, valuesEqual_parsed hx, ih]

theorem matchOp_parsed {value : Json} {op : String} {c : ComparisonOp} (h : OpParsed value op c)
    (key : String) (metadata : Metadata) :
    matchOp key c metadata = meansOp (metadata.lookup key) op value := by
  cases h with
  | eq h => simp [matchOp, meansOp, valuesEqual_parsed h]
  | ne h => simp [matchOp, meansOp, valuesEqual_parsed h]
  | gt h => simp [matchOp, meansOp, comparesNumber, numeric, number_ok.mp h]
  | gte h => simp [matchOp, meansOp, comparesNumber, numeric, number_ok.mp h]
  | lt h => simp [matchOp, meansOp, comparesNumber, numeric, number_ok.mp h]
  | lte h => simp [matchOp, meansOp, comparesNumber, numeric, number_ok.mp h]
  | isIn h => simp [matchOp, meansOp, any_parsed h]
  | nin h =>
      simp only [matchOp, any_parsed h]
      cases hlookup : metadata.lookup key with
      | none => simp [meansOp]
      | some a => simp [meansOp]

theorem parseList_eq (xs : List Json) : parseList xs = xs.mapM parseCondition := by
  induction xs with
  | nil => rw [parseList, List.mapM_nil]; rfl
  | cons x xs ih => rw [parseList, List.mapM_cons, ih]

/-! ## Fields -/

theorem matchAll_iff {metadata : Metadata} {conds : List WhereCondition} :
    matchAll metadata conds = true ↔ ∀ c ∈ conds, matchCondition metadata c = true := by
  induction conds with
  | nil => simp [matchAll]
  | cons c conds ih => simp [matchAll, ih]

theorem matchAny_iff {metadata : Metadata} {conds : List WhereCondition} :
    matchAny metadata conds = true ↔ ∃ c ∈ conds, matchCondition metadata c = true := by
  induction conds with
  | nil => simp [matchAny]
  | cons c conds ih => simp [matchAny, ih]

theorem Normal.matches_and {metadata : Metadata} {conds : List WhereCondition} {c : WhereCondition}
    (h : Normal .and conds c) :
    matchCondition metadata c = true ↔ ∀ c ∈ conds, matchCondition metadata c = true := by
  rcases h with rfl | ⟨-, rfl⟩
  · simp
  · rw [matchCondition, matchAll_iff]

theorem Normal.matches_or {metadata : Metadata} {conds : List WhereCondition} {c : WhereCondition}
    (h : Normal .or conds c) :
    matchCondition metadata c = true ↔ ∃ c ∈ conds, matchCondition metadata c = true := by
  rcases h with rfl | ⟨-, rfl⟩
  · simp
  · rw [matchCondition, matchAny_iff]

theorem parseFieldCondition_matches {key : String} {value : Json} {c : WhereCondition}
    (h : parseFieldCondition key value = .ok c) (metadata : Metadata) :
    matchCondition metadata c = true ↔ meansField metadata key value = true := by
  rcases parseFieldCondition_ok.mp h with ⟨ops, conds, rfl, hall, hnormal⟩ | ⟨v, hne, hv, rfl⟩
  · rw [hnormal.matches_and, meansField, List.all_eq_true]
    refine forall₂_forall hall ?_
    rintro entry - c ⟨op, hop, rfl⟩
    rw [matchCondition, matchOp_parsed hop]
  · have hvalue : meansField metadata key value =
        (metadata.lookup key).any fun a => equalsScalar a value := by
      cases value with
      | object ops => exact absurd rfl (hne ops)
      | null => rfl
      | bool b => rfl
      | number n => rfl
      | string s => rfl
      | array xs => rfl
    rw [hvalue, matchCondition, matchOp]
    simp only [valuesEqual_parsed hv]

/-! ## The loop over the entries -/

def isField (entry : String × Json) : Bool :=
  decide (entry.1 ≠ "$and") && decide (entry.1 ≠ "$or")

/-- What the loop leaves in the slot of the combinator `op`. -/
def Stored (op : String) (map : List (String × Json))
    (before after : Option (Except WhereParseError (List WhereCondition))) : Prop :=
  (op ∉ map.map Prod.fst ∧ after = before) ∨
    ∃ xs, (op, .array xs) ∈ map ∧ after = some (parseList xs)

theorem Stored.skip {op key : String} (hkey : key ≠ op) {value : Json}
    {map : List (String × Json)}
    {before after : Option (Except WhereParseError (List WhereCondition))} :
    Stored op ((key, value) :: map) before after ↔ Stored op map before after := by
  have hne : ∀ xs, (op, Json.array xs) ≠ (key, value) := fun xs h => hkey (congrArg Prod.fst h).symm
  simp only [Stored, List.map_cons, List.mem_cons, hkey.symm, hne, false_or]

theorem Stored.head {op : String} {value : Json} {map : List (String × Json)}
    (hop : op ∉ map.map Prod.fst)
    {before after : Option (Except WhereParseError (List WhereCondition))} :
    Stored op ((op, value) :: map) before after ↔
      ∃ xs, value = .array xs ∧ Stored op map (some (parseList xs)) after := by
  have hmap : ∀ xs, (op, Json.array xs) ∉ map := fun xs h => hop (List.mem_map_of_mem h)
  simp only [Stored, List.map_cons, List.mem_cons, not_true_eq_false, false_and, hop,
    not_false_eq_true, true_and, hmap, or_false, false_or, Prod.mk.injEq, exists_false]
  simp only [eq_comm]

theorem parseArray_ok {op : String} {value : Json}
    {list : Except WhereParseError (List WhereCondition)} :
    parseArray op value = .ok list ↔ ∃ xs, value = .array xs ∧ parseList xs = list := by
  cases value <;> simp [parseArray]

theorem parseEntries_ok : ∀ {map : List (String × Json)} {found found' : Collected},
    (map.map Prod.fst).Nodup → (parseEntries map found = .ok found' ↔
      ∃ fs, List.Forall₂ (fun entry c => parseFieldCondition entry.1 entry.2 = .ok c)
          (map.filter isField) fs ∧
        found'.fields = found.fields ++ fs ∧
        Stored "$and" map found.explicitAnd found'.explicitAnd ∧
        Stored "$or" map found.explicitOr found'.explicitOr)
  | [], found, found', _ => by
      obtain ⟨fields, explicitAnd, explicitOr⟩ := found
      obtain ⟨fields', explicitAnd', explicitOr'⟩ := found'
      simp only [parseEntries, Except.ok.injEq, Collected.mk.injEq, List.filter_nil,
        List.forall₂_nil_left_iff, exists_eq_left, List.append_nil, Stored, List.map_nil,
        List.not_mem_nil, not_false_eq_true, true_and, false_and, exists_false, or_false]
      simp only [eq_comm]
  | (key, value) :: map, found, found', hkeys => by
      rw [List.map_cons, List.nodup_cons] at hkeys
      obtain ⟨hkey, hkeys⟩ := hkeys
      rw [parseEntries]
      split_ifs with hand hor
      · subst hand
        have hfield : ¬isField ("$and", value) = true := by simp [isField]
        rw [List.filter_cons_of_neg hfield, Stored.skip (show "$and" ≠ "$or" by decide),
          except_bind_ok]
        simp only [Stored.head hkey, parseArray_ok, parseEntries_ok hkeys]
        constructor
        · rintro ⟨_, ⟨xs, rfl, rfl⟩, fs, hfs, hfields, hsome, hslot⟩
          exact ⟨fs, hfs, hfields, ⟨xs, rfl, hsome⟩, hslot⟩
        · rintro ⟨fs, hfs, hfields, ⟨xs, rfl, hsome⟩, hslot⟩
          exact ⟨_, ⟨xs, rfl, rfl⟩, fs, hfs, hfields, hsome, hslot⟩
      · subst hor
        have hfield : ¬isField ("$or", value) = true := by simp [isField]
        rw [List.filter_cons_of_neg hfield, Stored.skip (show "$or" ≠ "$and" by decide),
          except_bind_ok]
        simp only [Stored.head hkey, parseArray_ok, parseEntries_ok hkeys]
        constructor
        · rintro ⟨_, ⟨xs, rfl, rfl⟩, fs, hfs, hfields, hslot, hsome⟩
          exact ⟨fs, hfs, hfields, hslot, xs, rfl, hsome⟩
        · rintro ⟨fs, hfs, hfields, hslot, xs, rfl, hsome⟩
          exact ⟨_, ⟨xs, rfl, rfl⟩, fs, hfs, hfields, hslot, hsome⟩
      · have hfield : isField (key, value) = true := by simp [isField, hand, hor]
        rw [List.filter_cons_of_pos hfield, Stored.skip hand, Stored.skip hor, except_bind_ok]
        simp only [List.forall₂_cons_left_iff, parseEntries_ok hkeys]
        constructor
        · rintro ⟨c, hc, fs, hfs, hfields, hslots⟩
          refine ⟨c :: fs, ⟨c, fs, hc, hfs, rfl⟩, ?_, hslots⟩
          rw [hfields, List.append_assoc, List.singleton_append]
        · rintro ⟨_, ⟨c, fs, hc, hfs, rfl⟩, hfields, hslots⟩
          refine ⟨c, hc, fs, hfs, ?_, hslots⟩
          rw [hfields, List.append_assoc, List.singleton_append]

theorem sole_entry {key : String} {value : Json} {map : List (String × Json)}
    (hkeys : (map.map Prod.fst).Nodup) (hall : ∀ entry ∈ map, entry.1 = key)
    (hmem : (key, value) ∈ map) : map = [(key, value)] := by
  match map, hmem with
  | [entry], hmem => rw [List.mem_singleton.mp hmem]
  | entry :: entry' :: map, _ =>
      have heq : entry.1 = entry'.1 := (hall entry List.mem_cons_self).trans
        (hall entry' (List.mem_cons_of_mem _ List.mem_cons_self)).symm
      rw [List.map_cons, List.map_cons, List.nodup_cons, heq] at hkeys
      exact absurd List.mem_cons_self hkeys.1

theorem parseObject_ok {map : List (String × Json)} (hkeys : (map.map Prod.fst).Nodup)
    {c : WhereCondition} : parseCondition (.object map) = .ok c ↔
      (∃ xs conds, map = [("$or", .array xs)] ∧ parseList xs = .ok conds ∧ Normal .or conds c) ∨
      (∃ fs conds, (∀ entry ∈ map, entry.1 ≠ "$or") ∧
        List.Forall₂ (fun entry c => parseFieldCondition entry.1 entry.2 = .ok c)
          (map.filter isField) fs ∧
        ("$and" ∉ map.map Prod.fst ∧ conds = [] ∨
          ∃ xs, ("$and", .array xs) ∈ map ∧ parseList xs = .ok conds) ∧
        Normal .and (conds ++ fs) c) := by
  rw [parseCondition, except_bind_ok]
  simp only [parseEntries_ok hkeys, finish_ok]
  constructor
  · rintro ⟨found, ⟨fs, hfs, hfields, hand, hor⟩, ⟨conds, rfl, hc⟩ | ⟨conds, hslot, hnone, hc⟩⟩
    · refine Or.inl ?_
      rcases hor with ⟨-, hor⟩ | ⟨xs, hxs, hlist⟩
      · cases hor
      · refine ⟨xs, conds, ?_, (Option.some.inj hlist).symm, hc⟩
        refine sole_entry hkeys ?_ hxs
        intro entry hentry
        have hfield : isField entry ≠ true := by
          intro hfield
          have hmem := List.mem_filter.mpr ⟨hentry, hfield⟩
          obtain rfl : fs = [] := (List.append_eq_nil_iff.mp hfields.symm).2
          rw [List.forall₂_nil_right_iff.mp hfs] at hmem
          cases hmem
        have hne : entry.1 ≠ "$and" := by
          rintro heq
          rcases hand with ⟨hand, -⟩ | ⟨xs', -, hand⟩
          · exact hand (heq ▸ List.mem_map_of_mem hentry)
          · cases hand
        simpa [isField, hne] using hfield
    · refine Or.inr ⟨fs, conds, ?_, hfs, ?_, ?_⟩
      · rcases hor with ⟨hor, -⟩ | ⟨xs, -, hor⟩
        · intro entry hentry heq
          exact hor (heq ▸ List.mem_map_of_mem hentry)
        · rw [hnone] at hor
          cases hor
      · rcases hand with ⟨hand, hnil⟩ | ⟨xs, hxs, hand⟩
        · rcases hslot with hslot | ⟨-, rfl⟩
          · rw [hnil] at hslot
            cases hslot
          · exact Or.inl ⟨hand, rfl⟩
        · rcases hslot with hslot | ⟨hslot, -⟩
          · rw [hand] at hslot
            exact Or.inr ⟨xs, hxs, Option.some.inj hslot⟩
          · rw [hand] at hslot
            cases hslot
      · rwa [hfields, List.nil_append] at hc
  · rintro (⟨xs, conds, rfl, hlist, hc⟩ | ⟨fs, conds, hne, hfs, hand, hc⟩)
    · refine ⟨⟨[], none, some (.ok conds)⟩, ⟨[], .nil, rfl, ?_, ?_⟩, Or.inl ⟨conds, rfl, hc⟩⟩
      · exact Or.inl ⟨by simp, rfl⟩
      · exact Or.inr ⟨xs, List.mem_cons_self, by rw [hlist]⟩
    · have hor : Stored "$or" map none none := by
        refine Or.inl ⟨?_, rfl⟩
        intro hmem
        obtain ⟨entry, hentry, heq⟩ := List.mem_map.mp hmem
        exact hne entry hentry heq
      rcases hand with ⟨hand, rfl⟩ | ⟨xs, hxs, hlist⟩
      · exact ⟨⟨fs, none, none⟩, ⟨fs, hfs, rfl, Or.inl ⟨hand, rfl⟩, hor⟩,
          Or.inr ⟨[], Or.inr ⟨rfl, rfl⟩, rfl, hc⟩⟩
      · exact ⟨⟨fs, some (.ok conds), none⟩,
          ⟨fs, hfs, rfl, Or.inr ⟨xs, hxs, by rw [hlist]⟩, hor⟩,
          Or.inr ⟨conds, Or.inl rfl, rfl, hc⟩⟩

theorem parseCondition_object {v : Json} {c : WhereCondition} (h : parseCondition v = .ok c) :
    ∃ map, v = .object map := by
  cases v with
  | object map => exact ⟨map, rfl⟩
  | null => cases h
  | bool b => cases h
  | number n => cases h
  | string s => cases h
  | array xs => cases h

theorem parseList_forall₂ {xs : List Json} {conds : List WhereCondition} :
    parseList xs = .ok conds ↔ List.Forall₂ (fun x c => parseCondition x = .ok c) xs conds := by
  rw [parseList_eq, mapM_ok]

theorem isField_iff {entry : String × Json} :
    isField entry = true ↔ entry.1 ≠ "$and" ∧ entry.1 ≠ "$or" := by
  rw [isField, Bool.and_eq_true, decide_eq_true_eq, decide_eq_true_eq]

theorem forall_entries {P : String → Json → Prop} {map : List (String × Json)}
    (hor : ∀ entry ∈ map, entry.1 ≠ "$or") : (∀ entry ∈ map, P entry.1 entry.2) ↔
      (∀ value, ("$and", value) ∈ map → P "$and" value) ∧
        ∀ entry ∈ map.filter isField, P entry.1 entry.2 := by
  constructor
  · intro h
    refine ⟨fun value hvalue => h _ hvalue, fun entry hentry => ?_⟩
    exact h entry (List.mem_filter.mp hentry).1
  · rintro ⟨hand, hfields⟩ ⟨key, value⟩ hentry
    by_cases hkey : key = "$and"
    · subst hkey
      exact hand value hentry
    · exact hfields _ (List.mem_filter.mpr ⟨hentry, isField_iff.mpr ⟨hkey, hor _ hentry⟩⟩)

theorem forall_value {P : Json → Prop} {key : String} {value : Json} {map : List (String × Json)}
    (hkeys : (map.map Prod.fst).Nodup) (hmem : (key, value) ∈ map) :
    (∀ value, (key, value) ∈ map → P value) ↔ P value := by
  constructor
  · intro h
    exact h value hmem
  · intro h value' hmem'
    have heq := List.inj_on_of_nodup_map hkeys hmem' hmem rfl
    cases heq
    exact h

theorem uniqueKeys_element {key : String} {xs : List Json} {map : List (String × Json)}
    (h : (Json.object map).UniqueKeys) (hmem : (key, .array xs) ∈ map) :
    ∀ x ∈ xs, x.UniqueKeys := by
  rw [Json.UniqueKeys, Json.uniqueKeysEntries_iff] at h
  have harray := h.2 _ hmem
  rwa [Json.UniqueKeys, Json.uniqueKeysList_iff] at harray

/-- **The tree the parser builds decides what the JSON means.** -/
theorem matches_eq_meaning (metadata : Metadata) (v : Json) : v.UniqueKeys →
    ∀ c, parseCondition v = .ok c →
      (matchCondition metadata c = true ↔ meaning metadata v = true) := by
  induction v using Json.nested_induction with
  | other v hv =>
      intro _ c hc
      obtain ⟨map, hmap⟩ := parseCondition_object hc
      exact absurd hmap (hv map)
  | object map ih =>
      intro hunique c hc
      -- the induction hypothesis reaches the elements of the combinators' lists
      have hlist : ∀ key xs conds, (key, Json.array xs) ∈ map → parseList xs = .ok conds →
          List.Forall₂ (fun x c => parseCondition x = .ok c) xs conds ∧
          ∀ x ∈ xs, ∀ c, parseCondition x = .ok c →
            (matchCondition metadata c = true ↔ meaning metadata x = true) := by
        intro key xs conds hmem hparse
        refine ⟨parseList_forall₂.mp hparse, ?_⟩
        intro x hx
        exact ih key xs hmem x hx (uniqueKeys_element hunique hmem x hx)
      rw [meaning_object]
      rcases (parseObject_ok hunique.1).mp hc with
        ⟨xs, conds, rfl, hparse, hnormal⟩ | ⟨fs, conds, hne, hfs, hand, hnormal⟩
      · obtain ⟨hall, hmeans⟩ := hlist "$or" xs conds List.mem_cons_self hparse
        rw [hnormal.matches_or, forall₂_exists hall hmeans, List.forall_mem_singleton]
        exact meansAny_array.symm
      · have hfields : (∀ c ∈ fs, matchCondition metadata c = true) ↔
            ∀ entry ∈ map.filter isField, meansEntry metadata entry.1 entry.2 = true := by
          refine forall₂_forall hfs ?_
          intro entry hentry c hc
          obtain ⟨hnotAnd, hnotOr⟩ := isField_iff.mp (List.mem_filter.mp hentry).2
          rw [meansEntry, if_neg hnotAnd, if_neg hnotOr]
          exact parseFieldCondition_matches hc metadata
        rw [hnormal.matches_and, List.forall_mem_append, hfields,
          forall_entries (P := fun key value => meansEntry metadata key value = true) hne]
        apply and_congr_left'
        rcases hand with ⟨hand, rfl⟩ | ⟨xs, hxs, hparse⟩
        · constructor
          · intro _ value hvalue
            exact absurd (List.mem_map_of_mem hvalue) hand
          · intro _ c hc
            cases hc
        · obtain ⟨hall, hmeans⟩ := hlist "$and" xs conds hxs hparse
          rw [forall₂_forall hall hmeans, ← meansAll_array]
          exact (forall_value (P := fun value => meansEntry metadata "$and" value = true)
            hunique.1 hxs).symm

theorem matches_parsed {v : Json} (hv : v.UniqueKeys) {f : WhereFilter}
    (h : WhereFilter.fromJsonValue v = .ok f) (metadata : Metadata) :
    f.matches metadata = meaning metadata v := by
  obtain ⟨c, hc, rfl⟩ := wrap_ok.mp h
  exact Bool.eq_iff_iff.mpr (matches_eq_meaning metadata v hv c hc)

end Rekha.Where
