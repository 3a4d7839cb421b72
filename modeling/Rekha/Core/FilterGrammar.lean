import Rekha.Core.FilterAccepts

/-!
# The grammar of `where` objects

`grammatical` is the documented grammar: at every level an object with entries,
`$or` on its own, no empty list under a combinator. The parser looks at the
length of an `$and` list only after the fields beside it have joined it, so it
takes an empty list there; it accepts a value when what is left without those
lists is grammatical (`accepts_eq_grammatical`).
-/

namespace Rekha.Where

def hasKey (key : String) (map : List (String × Json)) : Bool :=
  map.any fun entry => decide (entry.1 = key)

mutual

def grammatical : Json → Bool
  | .object map =>
      !map.isEmpty && !(hasKey "$and" map && hasKey "$or" map) &&
        (!hasKey "$or" map || decide (map.length = 1)) && grammaticalEntries map
  | _ => false

def grammaticalEntries : List (String × Json) → Bool
  | [] => true
  | (key, value) :: map =>
      (if key = "$and" ∨ key = "$or" then grammaticalArray value else acceptsField value) &&
        grammaticalEntries map

/-- What `$and` and `$or` take: a list with an element. -/
def grammaticalArray : Json → Bool
  | .array xs => !xs.isEmpty && grammaticalList xs
  | _ => false

def grammaticalList : List Json → Bool
  | [] => true
  | x :: xs => grammatical x && grammaticalList xs

end

def isEmptyArray : Json → Bool
  | .array [] => true
  | _ => false

mutual

/-- The value without the empty `$and` lists that stand beside fields, at any depth. -/
def withoutEmptyAnd : Json → Json
  | .object map => .object (withoutEmptyEntries (map.any isField) map)
  | value => value

def withoutEmptyEntries (besideField : Bool) : List (String × Json) → List (String × Json)
  | [] => []
  | (key, value) :: map =>
      if besideField && decide (key = "$and") && isEmptyArray value then
        withoutEmptyEntries besideField map
      else
        (key, if key = "$and" ∨ key = "$or" then withoutEmptyArray value else value) ::
          withoutEmptyEntries besideField map

def withoutEmptyArray : Json → Json
  | .array xs => .array (withoutEmptyList xs)
  | value => value

def withoutEmptyList : List Json → List Json
  | [] => []
  | x :: xs => withoutEmptyAnd x :: withoutEmptyList xs

end

/-! ## The two definitions, one level at a time -/

def grammaticalEntry (key : String) (value : Json) : Bool :=
  if key = "$and" ∨ key = "$or" then grammaticalArray value else acceptsField value

theorem grammaticalArray_array {xs : List Json} :
    grammaticalArray (.array xs) = true ↔ xs ≠ [] ∧ ∀ x ∈ xs, grammatical x = true := by
  have hlist : ∀ xs, grammaticalList xs = true ↔ ∀ x ∈ xs, grammatical x = true := by
    intro xs
    induction xs with
    | nil => simp [grammaticalList]
    | cons x xs ih => simp [grammaticalList, ih]
  rw [grammaticalArray, Bool.and_eq_true, hlist, Bool.not_eq_true', List.isEmpty_eq_false_iff]

theorem grammaticalEntries_iff {map : List (String × Json)} :
    grammaticalEntries map = true ↔ ∀ entry ∈ map, grammaticalEntry entry.1 entry.2 = true := by
  induction map with
  | nil => simp [grammaticalEntries]
  | cons entry map ih => simp [grammaticalEntries, grammaticalEntry, ih]

theorem grammaticalEntry_field {entry : String × Json} (h : isField entry = true) :
    grammaticalEntry entry.1 entry.2 = acceptsField entry.2 := by
  obtain ⟨hand, hor⟩ := isField_iff.mp h
  rw [grammaticalEntry, if_neg (not_or.mpr ⟨hand, hor⟩)]

theorem grammatical_object {map : List (String × Json)} : grammatical (.object map) = true ↔
    map ≠ [] ∧ ((∀ entry ∈ map, entry.1 ≠ "$or") ∨ map.length = 1) ∧
      ∀ entry ∈ map, grammaticalEntry entry.1 entry.2 = true := by
  have hor : hasKey "$or" map = false ↔ ∀ entry ∈ map, entry.1 ≠ "$or" := by
    simp [hasKey]
  simp only [grammatical, Bool.and_eq_true, Bool.or_eq_true, Bool.not_eq_true', hor,
    List.isEmpty_eq_false_iff, decide_eq_true_eq, grammaticalEntries_iff, and_assoc]
  refine and_congr_right fun _ => and_iff_right_of_imp ?_
  rintro ⟨hor' | hone, -⟩
  · rw [hor.mpr hor', Bool.and_false]
  · obtain ⟨entry, rfl⟩ := List.length_eq_one_iff.mp hone
    by_cases hkey : entry.1 = "$and"
    · simp [hasKey, hkey]
    · simp [hasKey, hkey]

def dropped (besideField : Bool) (entry : String × Json) : Bool :=
  besideField && decide (entry.1 = "$and") && isEmptyArray entry.2

/-- An entry that stays, with what its list keeps. -/
def inner (entry : String × Json) : String × Json :=
  (entry.1, if entry.1 = "$and" ∨ entry.1 = "$or" then withoutEmptyArray entry.2 else entry.2)

theorem withoutEmptyEntries_eq (besideField : Bool) (map : List (String × Json)) :
    withoutEmptyEntries besideField map =
      (map.filter fun entry => !dropped besideField entry).map inner := by
  induction map with
  | nil => rw [withoutEmptyEntries]; rfl
  | cons entry map ih =>
      rw [withoutEmptyEntries, ih, List.filter_cons]
      by_cases h : dropped besideField entry = true
      · have h' := h
        rw [dropped] at h'
        rw [if_pos h', h, Bool.not_true, if_neg Bool.false_ne_true]
      · have h' := h
        rw [dropped] at h'
        rw [if_neg h', Bool.eq_false_iff.mpr h, Bool.not_false, if_pos rfl, List.map_cons, inner]

theorem withoutEmptyArray_array (xs : List Json) :
    withoutEmptyArray (.array xs) = .array (xs.map withoutEmptyAnd) := by
  have hlist : withoutEmptyList xs = xs.map withoutEmptyAnd := by
    induction xs with
    | nil => rfl
    | cons x xs ih => rw [withoutEmptyList, ih, List.map_cons]
  rw [withoutEmptyArray, hlist]

theorem inner_field {entry : String × Json} (h : isField entry = true) : inner entry = entry := by
  obtain ⟨hand, hor⟩ := isField_iff.mp h
  rw [inner, if_neg (not_or.mpr ⟨hand, hor⟩)]

theorem isEmptyArray_iff {value : Json} : isEmptyArray value = true ↔ value = .array [] := by
  cases value with
  | array xs => cases xs <;> simp [isEmptyArray]
  | null => simp [isEmptyArray]
  | bool b => simp [isEmptyArray]
  | number n => simp [isEmptyArray]
  | string s => simp [isEmptyArray]
  | object map => simp [isEmptyArray]

theorem dropped_iff {besideField : Bool} {entry : String × Json} :
    dropped besideField entry = true ↔ besideField = true ∧ entry = ("$and", .array []) := by
  rw [dropped, Bool.and_eq_true, Bool.and_eq_true, decide_eq_true_eq, isEmptyArray_iff, and_assoc,
    Prod.ext_iff]

/-! ## The parser and the grammar -/

theorem acceptsEntry_inner {entry : String × Json}
    (ih : ∀ xs, entry.2 = .array xs → ∀ x ∈ xs, accepts x = grammatical (withoutEmptyAnd x)) :
    grammaticalEntry (inner entry).1 (inner entry).2 = true ↔
      acceptsEntry entry.1 entry.2 = true ∧ contributes entry = true := by
  by_cases hfield : isField entry = true
  · rw [inner_field hfield, grammaticalEntry_field hfield, acceptsEntry_field hfield,
      and_iff_left (contributes_field hfield)]
  · have hkey : entry.1 = "$and" ∨ entry.1 = "$or" := by
      rw [isField_iff, not_and_or, not_not, not_not] at hfield
      exact hfield
    rw [inner, if_pos hkey, grammaticalEntry, if_pos hkey, acceptsEntry, if_pos hkey, contributes,
      if_pos hkey]
    cases hvalue : entry.2 with
    | array xs =>
        rw [withoutEmptyArray_array, grammaticalArray_array, acceptsArray_array]
        simp only [Json.asArray, Option.any_some, Bool.not_eq_true', List.isEmpty_eq_false_iff,
          ne_eq, List.map_eq_nil_iff, List.forall_mem_map]
        rw [and_comm]
        refine and_congr_left' (forall₂_congr fun x hx => ?_)
        rw [ih xs hvalue x hx]
    | null => simp [withoutEmptyArray, grammaticalArray, acceptsArray]
    | bool b => simp [withoutEmptyArray, grammaticalArray, acceptsArray]
    | number n => simp [withoutEmptyArray, grammaticalArray, acceptsArray]
    | string s => simp [withoutEmptyArray, grammaticalArray, acceptsArray]
    | object map => simp [withoutEmptyArray, grammaticalArray, acceptsArray]

theorem not_contributes_of_dropped {besideField : Bool} {entry : String × Json}
    (h : dropped besideField entry = true) : contributes entry = false := by
  obtain ⟨-, rfl⟩ := dropped_iff.mp h
  rfl

theorem not_dropped_of_field {besideField : Bool} {entry : String × Json}
    (h : isField entry = true) : dropped besideField entry = false := by
  obtain ⟨hand, -⟩ := isField_iff.mp h
  rw [dropped, decide_eq_false hand, Bool.and_false, Bool.false_and]

def kept (map : List (String × Json)) : List (String × Json) :=
  map.filter fun entry => !dropped (map.any isField) entry

theorem mem_kept {map : List (String × Json)} {entry : String × Json} :
    entry ∈ kept map ↔ entry ∈ map ∧ dropped (map.any isField) entry = false := by
  rw [kept, List.mem_filter, Bool.not_eq_true']

theorem contributes_of_kept {map : List (String × Json)} (hkeys : (map.map Prod.fst).Nodup)
    (haccepts : accepts (.object map) = true) {entry : String × Json} (h : entry ∈ kept map) :
    contributes entry = true := by
  obtain ⟨hentries, ⟨other, hother, hcontributes⟩, halone⟩ := accepts_object.mp haccepts
  obtain ⟨hmem, hdropped⟩ := mem_kept.mp h
  by_contra hno
  have hdiffer : entry ≠ other := fun heq => hno (heq ▸ hcontributes)
  have hor : ∀ entry ∈ map, entry.1 ≠ "$or" := by
    apply halone.resolve_right
    intro hone
    obtain ⟨only, rfl⟩ := List.length_eq_one_iff.mp hone
    exact hdiffer ((List.mem_singleton.mp hmem).trans (List.mem_singleton.mp hother).symm)
  have hand : entry.1 = "$and" := by
    by_contra hand
    exact hno (contributes_field (isField_iff.mpr ⟨hand, hor entry hmem⟩))
  have hfield : isField other = true := by
    refine isField_iff.mpr ⟨fun hkey => hdiffer ?_, hor other hother⟩
    exact List.inj_on_of_nodup_map hkeys hmem hother (hand.trans hkey.symm)
  obtain ⟨key, value⟩ := entry
  obtain rfl : key = "$and" := hand
  have harray := hentries _ hmem
  rw [acceptsEntry, if_pos (Or.inl rfl)] at harray
  cases value with
  | array xs =>
      cases xs with
      | nil =>
          have hany : map.any isField = true := List.any_eq_true.mpr ⟨other, hother, hfield⟩
          rw [dropped_iff.mpr ⟨hany, rfl⟩] at hdropped
          cases hdropped
      | cons x xs => exact hno rfl
  | null => cases harray
  | bool b => cases harray
  | number n => cases harray
  | string s => cases harray
  | object map => cases harray

theorem alone_kept {map : List (String × Json)} (hne : kept map ≠ []) :
    ((∀ entry ∈ kept map, entry.1 ≠ "$or") ∨ (kept map).length = 1) ↔
      ((∀ entry ∈ map, entry.1 ≠ "$or") ∨ map.length = 1) := by
  have hor : (∀ entry ∈ kept map, entry.1 ≠ "$or") ↔ ∀ entry ∈ map, entry.1 ≠ "$or" := by
    constructor
    · intro h entry hmem hkey
      refine h entry (mem_kept.mpr ⟨hmem, Bool.eq_false_iff.mpr fun hdropped => ?_⟩) hkey
      obtain ⟨-, rfl⟩ := dropped_iff.mp hdropped
      exact absurd hkey (by decide)
    · intro h entry hmem
      exact h entry (mem_kept.mp hmem).1
  rw [hor]
  constructor
  · rintro (h | hone)
    · exact Or.inl h
    · by_cases hany : map.any isField = true
      · obtain ⟨field, hmem, hfield⟩ := List.any_eq_true.mp hany
        obtain ⟨only, honly⟩ := List.length_eq_one_iff.mp hone
        have hkept : field ∈ kept map := mem_kept.mpr ⟨hmem, not_dropped_of_field hfield⟩
        rw [honly, List.mem_singleton] at hkept
        subst hkept
        refine Or.inl (hor.mp fun entry hentry => ?_)
        rw [honly, List.mem_singleton] at hentry
        subst hentry
        exact (isField_iff.mp hfield).2
      · have hall : kept map = map := by
          apply List.filter_eq_self.mpr
          intro entry _
          rw [Bool.not_eq_true', Bool.eq_false_iff]
          exact fun h => hany (dropped_iff.mp h).1
        exact Or.inr (hall ▸ hone)
  · rintro (h | hone)
    · exact Or.inl h
    · refine Or.inr (le_antisymm ?_ (List.length_pos_of_ne_nil hne))
      exact le_of_le_of_eq (List.length_filter_le _ _) hone

/-- **What the parser accepts is grammatical up to empty `$and` lists beside fields.** -/
theorem accepts_eq_grammatical (v : Json) : v.UniqueKeys →
    accepts v = grammatical (withoutEmptyAnd v) := by
  induction v using Json.nested_induction with
  | other v hv =>
      intro _
      cases v with
      | object map => exact absurd rfl (hv map)
      | null => rfl
      | bool b => rfl
      | number n => rfl
      | string s => rfl
      | array xs => rfl
  | object map ih =>
      intro hunique
      have hentry : ∀ entry ∈ map, grammaticalEntry (inner entry).1 (inner entry).2 = true ↔
          acceptsEntry entry.1 entry.2 = true ∧ contributes entry = true := by
        rintro ⟨key, value⟩ hmem
        apply acceptsEntry_inner
        rintro xs rfl x hx
        exact ih key xs hmem x hx (uniqueKeys_element hunique hmem x hx)
      have hrest : ∀ entry, dropped (map.any isField) entry = true →
          acceptsEntry entry.1 entry.2 = true := by
        intro entry hdropped
        obtain ⟨-, rfl⟩ := dropped_iff.mp hdropped
        rfl
      rw [Bool.eq_iff_iff, withoutEmptyAnd, withoutEmptyEntries_eq, grammatical_object,
        List.forall_mem_map, List.forall_mem_map, List.length_map, Ne, List.map_eq_nil_iff]
      constructor
      · intro haccepts
        obtain ⟨hentries, ⟨entry, hmem, hcontributes⟩, halone⟩ := accepts_object.mp haccepts
        have hstays : dropped (map.any isField) entry = false := by
          apply Bool.eq_false_iff.mpr
          intro hdropped
          rw [not_contributes_of_dropped hdropped] at hcontributes
          cases hcontributes
        have hne : kept map ≠ [] := List.ne_nil_of_mem (mem_kept.mpr ⟨hmem, hstays⟩)
        refine ⟨hne, (alone_kept hne).mpr halone, fun entry hkept => ?_⟩
        have hmem := (mem_kept.mp hkept).1
        exact (hentry entry hmem).mpr
          ⟨hentries entry hmem, contributes_of_kept hunique.1 haccepts hkept⟩
      · rintro ⟨hne, halone, hgrammatical⟩
        refine accepts_object.mpr ⟨fun entry hmem => ?_, ?_, (alone_kept hne).mp halone⟩
        · by_cases hdropped : dropped (map.any isField) entry = true
          · exact hrest entry hdropped
          · have hstays := mem_kept.mpr ⟨hmem, Bool.eq_false_iff.mpr hdropped⟩
            exact ((hentry entry hmem).mp (hgrammatical entry hstays)).1
        · obtain ⟨entry, hkept⟩ := List.exists_mem_of_ne_nil _ hne
          have hmem := (mem_kept.mp hkept).1
          exact ⟨entry, hmem, ((hentry entry hmem).mp (hgrammatical entry hkept)).2⟩

theorem withoutEmptyAnd_eq (v : Json) : grammatical v = true → withoutEmptyAnd v = v := by
  induction v using Json.nested_induction with
  | other v hv =>
      intro h
      cases v with
      | object map => exact absurd rfl (hv map)
      | null => cases h
      | bool b => cases h
      | number n => cases h
      | string s => cases h
      | array xs => cases h
  | object map ih =>
      intro h
      obtain ⟨-, -, hentries⟩ := grammatical_object.mp h
      have hstays : (map.filter fun entry => !dropped (map.any isField) entry) = map := by
        apply List.filter_eq_self.mpr
        intro entry hmem
        rw [Bool.not_eq_true', Bool.eq_false_iff]
        intro hdropped
        obtain ⟨-, rfl⟩ := dropped_iff.mp hdropped
        cases hentries _ hmem
      have hinner : ∀ entry ∈ map, inner entry = entry := by
        rintro ⟨key, value⟩ hmem
        by_cases hkey : key = "$and" ∨ key = "$or"
        · have hgrammatical := hentries _ hmem
          rw [grammaticalEntry, if_pos hkey] at hgrammatical
          rw [inner, if_pos hkey]
          cases value with
          | array xs =>
              have hxs := (grammaticalArray_array.mp hgrammatical).2
              rw [withoutEmptyArray_array,
                List.map_congr_left fun x hx => ih key xs hmem x hx (hxs x hx), List.map_id']
          | null => cases hgrammatical
          | bool b => cases hgrammatical
          | number n => cases hgrammatical
          | string s => cases hgrammatical
          | object map => cases hgrammatical
        · rw [inner, if_neg hkey]
      rw [withoutEmptyAnd, withoutEmptyEntries_eq, hstays, List.map_congr_left hinner, List.map_id']

/-- **The parser accepts exactly its grammar unless an empty `$and` stands beside
fields** in a value that is grammatical apart from such lists. -/
theorem where_grammar_iff (v : Json) (hv : v.UniqueKeys) :
    ((∃ f, WhereFilter.fromJsonValue v = .ok f) ↔ grammatical v = true) ↔
      (withoutEmptyAnd v = v ∨ grammatical (withoutEmptyAnd v) = false) := by
  have hparse : (∃ f, WhereFilter.fromJsonValue v = .ok f) ↔
      grammatical (withoutEmptyAnd v) = true := by
    rw [← accepts_eq_grammatical v hv, accepts_iff v hv]
    constructor
    · rintro ⟨f, hf⟩
      obtain ⟨c, hc, -⟩ := wrap_ok.mp hf
      exact ⟨c, hc⟩
    · rintro ⟨c, hc⟩
      exact ⟨⟨c⟩, wrap_ok.mpr ⟨c, hc, rfl⟩⟩
  rw [hparse, ← Bool.not_eq_true]
  constructor
  · intro h
    by_cases hgrammatical : grammatical (withoutEmptyAnd v) = true
    · exact Or.inl (withoutEmptyAnd_eq v (h.mp hgrammatical))
    · exact Or.inr hgrammatical
  · rintro (h | h)
    · rw [h]
    · refine ⟨fun hgrammatical => absurd hgrammatical h, fun hgrammatical => ?_⟩
      rwa [withoutEmptyAnd_eq v hgrammatical]

/-- An `$and` of one beside a field. -/
theorem where_grammar_iff_demo :
    let v : Json := .object [("$and", .array [.object [("b", .bool true)]]),
      ("a", .object [("$gt", .number (.posInt 5))])]
    (∃ f, WhereFilter.fromJsonValue v = .ok f) ↔ grammatical v = true := by
  intro v
  have hv : v.UniqueKeys := by
    simp [v, Json.UniqueKeys, Json.UniqueKeysEntries, Json.UniqueKeysList]
  exact (where_grammar_iff v hv).mpr (Or.inl rfl)

/-- **An empty `$and` beside a field is accepted.** -/
theorem empty_and_accepted :
    let v : Json := .object [("$and", .array []), ("a", .number (.posInt 1))]
    v.UniqueKeys ∧ ¬((∃ f, WhereFilter.fromJsonValue v = .ok f) ↔ grammatical v = true) := by
  intro v
  have hv : v.UniqueKeys := by
    simp [v, Json.UniqueKeys, Json.UniqueKeysEntries, Json.UniqueKeysList]
  refine ⟨hv, fun h => ?_⟩
  obtain ⟨c, hc⟩ := (accepts_iff v hv).mp (by decide +kernel)
  have hgrammatical := h.mp ⟨⟨c⟩, wrap_ok.mpr ⟨c, hc, rfl⟩⟩
  cases hgrammatical

end Rekha.Where
