import Rekha.Core.FilterMeaning

/-!
# Which `where` objects are accepted

`accepts` decides on the JSON whether the parser takes it (`accepts_iff`).
Neither it nor the meaning sees the order of keys or the wrapper of a list of
one, so rearranged objects are accepted alike and match alike
(`where_meaning`).
-/

namespace Rekha.Where

open Outcome

def isScalar : Json → Bool
  | .string _ | .bool _ | .number _ => true
  | _ => false

def acceptsOp (op : String) (value : Json) : Bool :=
  if op ∈ ["$eq", "$ne"] then isScalar value
  else if op ∈ ["$gt", "$gte", "$lt", "$lte"] then value.asF64.isSome
  else if op ∈ ["$in", "$nin"] then value.asArray.any fun xs => xs.all isScalar
  else false

def acceptsField : Json → Bool
  | .object ops => !ops.isEmpty && ops.all fun entry => acceptsOp entry.1 entry.2
  | value => isScalar value

/-- The entry has a condition to offer: an empty list of a combinator has not. -/
def contributes (entry : String × Json) : Bool :=
  if entry.1 = "$and" ∨ entry.1 = "$or" then entry.2.asArray.any fun xs => !xs.isEmpty else true

mutual

/-- Every entry is well formed, some entry contributes, and `$or` stands alone. -/
def accepts : Json → Bool
  | .object map =>
      acceptsEntries map && map.any contributes &&
        (map.all (fun entry => decide (entry.1 ≠ "$or")) || decide (map.length = 1))
  | _ => false

def acceptsEntries : List (String × Json) → Bool
  | [] => true
  | (key, value) :: map =>
      (if key = "$and" ∨ key = "$or" then acceptsArray value else acceptsField value) &&
        acceptsEntries map

def acceptsArray : Json → Bool
  | .array xs => acceptsList xs
  | _ => false

def acceptsList : List Json → Bool
  | [] => true
  | x :: xs => accepts x && acceptsList xs

end

def acceptsEntry (key : String) (value : Json) : Bool :=
  if key = "$and" ∨ key = "$or" then acceptsArray value else acceptsField value

theorem acceptsArray_array {xs : List Json} :
    acceptsArray (.array xs) = true ↔ ∀ x ∈ xs, accepts x = true := by
  rw [acceptsArray]
  induction xs with
  | nil => simp [acceptsList]
  | cons x xs ih => simp [acceptsList, ih]

theorem acceptsEntries_iff {map : List (String × Json)} :
    acceptsEntries map = true ↔ ∀ entry ∈ map, acceptsEntry entry.1 entry.2 = true := by
  induction map with
  | nil => simp [acceptsEntries]
  | cons entry map ih => simp [acceptsEntries, acceptsEntry, ih]

theorem accepts_object {map : List (String × Json)} : accepts (.object map) = true ↔
    (∀ entry ∈ map, acceptsEntry entry.1 entry.2 = true) ∧
      (∃ entry ∈ map, contributes entry = true) ∧
      ((∀ entry ∈ map, entry.1 ≠ "$or") ∨ map.length = 1) := by
  simp [accepts, acceptsEntries_iff, and_assoc]

/-! ## Scalars, operators, fields -/

theorem isScalar_iff {x : Json} : isScalar x = true ↔ ∃ v, metadataValue x = .ok v := by
  cases x with
  | number n =>
      rw [metadataValue]
      cases n.asI64 with
      | some i => simp [isScalar]
      | none => simp [isScalar, Json.Number.asF64]
  | string s => simp [isScalar, metadataValue]
  | bool b => simp [isScalar, metadataValue]
  | null => simp [isScalar, metadataValue]
  | array xs => simp [isScalar, metadataValue]
  | object map => simp [isScalar, metadataValue]

theorem valueList_accepts {value : Json} {op : String} :
    (value.asArray.any fun xs => xs.all isScalar) = true ↔ ∃ vs, valueList value op = .ok vs := by
  have hitems : ∀ items : List Json,
      items.all isScalar = true ↔ ∃ vs, items.mapM metadataValue = .ok vs := by
    intro items
    rw [mapM_succeeds, List.all_eq_true]
    simp only [isScalar_iff]
  simp only [valueList_ok]
  constructor
  · intro h
    obtain ⟨items, hvalue, h⟩ := (Option.any_eq_true _ _).mp h
    obtain ⟨vs, hvs⟩ := (hitems items).mp h
    exact ⟨vs, items, Json.asArray_eq.mp hvalue, hvs⟩
  · rintro ⟨vs, items, rfl, h⟩
    exact (hitems items).mpr ⟨vs, h⟩

theorem acceptsOp_iff {op : String} {value : Json} :
    acceptsOp op value = true ↔ ∃ c, OpParsed value op c := by
  constructor
  · intro h
    unfold acceptsOp at h
    split_ifs at h with hscalar hnumber hlist
    · obtain ⟨v, hv⟩ := isScalar_iff.mp h
      simp only [List.mem_cons, List.not_mem_nil, or_false] at hscalar
      rcases hscalar with rfl | rfl
      · exact ⟨_, .eq hv⟩
      · exact ⟨_, .ne hv⟩
    · obtain ⟨n, hn⟩ := Option.isSome_iff_exists.mp h
      simp only [List.mem_cons, List.not_mem_nil, or_false] at hnumber
      rcases hnumber with rfl | rfl | rfl | rfl
      · exact ⟨_, .gt (number_ok.mpr hn)⟩
      · exact ⟨_, .gte (number_ok.mpr hn)⟩
      · exact ⟨_, .lt (number_ok.mpr hn)⟩
      · exact ⟨_, .lte (number_ok.mpr hn)⟩
    · simp only [List.mem_cons, List.not_mem_nil, or_false] at hlist
      rcases hlist with rfl | rfl
      · obtain ⟨vs, hvs⟩ := valueList_accepts.mp h
        exact ⟨_, .isIn hvs⟩
      · obtain ⟨vs, hvs⟩ := valueList_accepts.mp h
        exact ⟨_, .nin hvs⟩
  · rintro ⟨c, h⟩
    cases h with
    | eq h => exact isScalar_iff.mpr ⟨_, h⟩
    | ne h => exact isScalar_iff.mpr ⟨_, h⟩
    | gt h => exact Option.isSome_iff_exists.mpr ⟨_, number_ok.mp h⟩
    | gte h => exact Option.isSome_iff_exists.mpr ⟨_, number_ok.mp h⟩
    | lt h => exact Option.isSome_iff_exists.mpr ⟨_, number_ok.mp h⟩
    | lte h => exact Option.isSome_iff_exists.mpr ⟨_, number_ok.mp h⟩
    | isIn h => exact valueList_accepts.mpr ⟨_, h⟩
    | nin h => exact valueList_accepts.mpr ⟨_, h⟩

theorem acceptsField_iff {key : String} {value : Json} :
    acceptsField value = true ↔ ∃ c, parseFieldCondition key value = .ok c := by
  simp only [parseFieldCondition_ok]
  by_cases hobject : ∃ ops, value = .object ops
  · obtain ⟨ops, rfl⟩ := hobject
    have hparse : (∃ conds, List.Forall₂ (fun (entry : String × Json) c =>
        ∃ op, OpParsed entry.2 entry.1 op ∧ WhereCondition.comparison key op = c) ops conds) ↔
        ∀ entry ∈ ops, acceptsOp entry.1 entry.2 = true := by
      rw [forall₂_succeeds]
      simp only [acceptsOp_iff]
      constructor
      · intro h entry hentry
        obtain ⟨-, op, hop, -⟩ := h entry hentry
        exact ⟨op, hop⟩
      · intro h entry hentry
        obtain ⟨op, hop⟩ := h entry hentry
        exact ⟨_, op, hop, rfl⟩
    rw [acceptsField, Bool.and_eq_true, List.all_eq_true, ← hparse]
    constructor
    · rintro ⟨hne, conds, hconds⟩
      have hnil : conds ≠ [] := by
        rintro rfl
        cases hconds
        cases hne
      obtain ⟨c, hc⟩ := exists_normal .and hnil
      exact ⟨c, Or.inl ⟨ops, conds, rfl, hconds, hc⟩⟩
    · rintro ⟨c, ⟨ops', conds, hops, hconds, hc⟩ | ⟨v, hne, -⟩⟩
      · obtain rfl := Json.object.inj hops
        refine ⟨?_, conds, hconds⟩
        cases hconds with
        | nil => exact absurd rfl hc.ne_nil
        | cons _ _ => rfl
      · exact absurd rfl (hne ops)
  · have hvalue : acceptsField value = isScalar value := by
      cases value with
      | object ops => exact absurd ⟨ops, rfl⟩ hobject
      | null => rfl
      | bool b => rfl
      | number n => rfl
      | string s => rfl
      | array xs => rfl
    rw [hvalue, isScalar_iff]
    constructor
    · rintro ⟨v, hv⟩
      exact ⟨_, Or.inr ⟨v, fun ops h => hobject ⟨ops, h⟩, hv, rfl⟩⟩
    · rintro ⟨c, ⟨ops, conds, rfl, -⟩ | ⟨v, -, hv, -⟩⟩
      · exact absurd ⟨ops, rfl⟩ hobject
      · exact ⟨v, hv⟩

/-! ## Objects -/

theorem acceptsEntry_field {entry : String × Json} (h : isField entry = true) :
    acceptsEntry entry.1 entry.2 = acceptsField entry.2 := by
  obtain ⟨hand, hor⟩ := isField_iff.mp h
  rw [acceptsEntry, if_neg (not_or.mpr ⟨hand, hor⟩)]

theorem acceptsArray_iff {value : Json}
    (ih : ∀ xs, value = .array xs → ∀ x ∈ xs,
      (accepts x = true ↔ ∃ c, parseCondition x = .ok c)) :
    acceptsArray value = true ↔ ∃ xs conds, value = .array xs ∧ parseList xs = .ok conds := by
  cases value with
  | array xs =>
      have hsucceeds : acceptsArray (.array xs) = true ↔ ∃ conds, parseList xs = .ok conds := by
        simp only [acceptsArray_array, parseList_eq, mapM_succeeds]
        exact forall₂_congr (ih xs rfl)
      rw [hsucceeds]
      constructor
      · rintro ⟨conds, hconds⟩
        exact ⟨xs, conds, rfl, hconds⟩
      · rintro ⟨xs', conds, hxs, hconds⟩
        obtain rfl := Json.array.inj hxs
        exact ⟨conds, hconds⟩
  | null => simp [acceptsArray]
  | bool b => simp [acceptsArray]
  | number n => simp [acceptsArray]
  | string s => simp [acceptsArray]
  | object map => simp [acceptsArray]

theorem contributes_field {entry : String × Json} (h : isField entry = true) :
    contributes entry = true := by
  obtain ⟨hand, hor⟩ := isField_iff.mp h
  rw [contributes, if_neg (not_or.mpr ⟨hand, hor⟩)]

theorem contributes_list {op : String} (hop : op = "$and" ∨ op = "$or") {xs : List Json}
    {conds : List WhereCondition} (hparse : parseList xs = .ok conds) :
    contributes (op, .array xs) = true ↔ conds ≠ [] := by
  have hnil : (xs.isEmpty = true) = (conds = []) := by
    rw [List.isEmpty_iff, ← List.length_eq_zero_iff, ← List.length_eq_zero_iff,
      (parseList_forall₂.mp hparse).length_eq]
  rw [contributes, if_pos hop]
  show (!xs.isEmpty) = true ↔ conds ≠ []
  rw [Bool.not_eq_true', ← Bool.not_eq_true, hnil]

theorem contributes_iff {map : List (String × Json)} (hkeys : (map.map Prod.fst).Nodup)
    (hor : ∀ entry ∈ map, entry.1 ≠ "$or") {fs conds : List WhereCondition}
    (hfs : List.Forall₂ (fun entry c => parseFieldCondition entry.1 entry.2 = .ok c)
      (map.filter isField) fs)
    (hand : "$and" ∉ map.map Prod.fst ∧ conds = [] ∨
      ∃ xs, ("$and", .array xs) ∈ map ∧ parseList xs = .ok conds) :
    (∃ entry ∈ map, contributes entry = true) ↔ conds ++ fs ≠ [] := by
  have hfields : map.filter isField = [] ↔ fs = [] := by
    rw [← List.length_eq_zero_iff, ← List.length_eq_zero_iff, hfs.length_eq]
  rw [Ne, List.append_eq_nil_iff, not_and_or]
  constructor
  · rintro ⟨⟨key, value⟩, hentry, hcontributes⟩
    by_cases hkey : key = "$and"
    · subst hkey
      rcases hand with ⟨hand, -⟩ | ⟨xs, hxs, hparse⟩
      · exact absurd (List.mem_map_of_mem hentry) hand
      · have heq := List.inj_on_of_nodup_map hkeys hentry hxs rfl
        cases heq
        exact Or.inl ((contributes_list (Or.inl rfl) hparse).mp hcontributes)
    · have hmem : (key, value) ∈ map.filter isField :=
        List.mem_filter.mpr ⟨hentry, isField_iff.mpr ⟨hkey, hor _ hentry⟩⟩
      refine Or.inr fun hnil => ?_
      rw [hfields.mpr hnil] at hmem
      cases hmem
  · rintro (hne | hne)
    · rcases hand with ⟨-, rfl⟩ | ⟨xs, hxs, hparse⟩
      · exact absurd rfl hne
      · exact ⟨_, hxs, (contributes_list (Or.inl rfl) hparse).mpr hne⟩
    · obtain ⟨entry, hentry⟩ := List.exists_mem_of_ne_nil _ (mt hfields.mp hne)
      obtain ⟨hmem, hfield⟩ := List.mem_filter.mp hentry
      exact ⟨entry, hmem, contributes_field hfield⟩

/-- **The accepted objects are the ones that parse.** -/
theorem accepts_iff (v : Json) : v.UniqueKeys →
    (accepts v = true ↔ ∃ c, parseCondition v = .ok c) := by
  induction v using Json.nested_induction with
  | other v hv =>
      intro _
      have hreject : accepts v ≠ true := by
        cases v with
        | object map => exact absurd rfl (hv map)
        | null => simp [accepts]
        | bool b => simp [accepts]
        | number n => simp [accepts]
        | string s => simp [accepts]
        | array xs => simp [accepts]
      refine ⟨fun h => absurd h hreject, ?_⟩
      rintro ⟨c, hc⟩
      obtain ⟨map, hmap⟩ := parseCondition_object hc
      exact absurd hmap (hv map)
  | object map ih =>
      intro hunique
      have hkeys := hunique.1
      have harray : ∀ key value, (key, value) ∈ map → (acceptsArray value = true ↔
          ∃ xs conds, value = .array xs ∧ parseList xs = .ok conds) := by
        intro key value hmem
        apply acceptsArray_iff
        rintro xs rfl x hx
        exact ih key xs hmem x hx (uniqueKeys_element hunique hmem x hx)
      simp only [parseObject_ok hkeys]
      rw [accepts_object]
      constructor
      · rintro ⟨hentries, hcontributes, halone⟩
        by_cases hor : ∀ entry ∈ map, entry.1 ≠ "$or"
        · obtain ⟨hand, hfields⟩ :=
            (forall_entries (P := fun key value => acceptsEntry key value = true) hor).mp hentries
          obtain ⟨fs, hfs⟩ := forall₂_succeeds.mpr fun entry hentry => acceptsField_iff.mp
            (acceptsEntry_field (List.mem_filter.mp hentry).2 ▸ hfields entry hentry)
          have hslot : ∃ conds, "$and" ∉ map.map Prod.fst ∧ conds = [] ∨
              ∃ xs, ("$and", .array xs) ∈ map ∧ parseList xs = .ok conds := by
            by_cases hmem : "$and" ∈ map.map Prod.fst
            · obtain ⟨⟨_, value⟩, hvalue, rfl⟩ := List.mem_map.mp hmem
              obtain ⟨xs, conds, rfl, hparse⟩ := (harray _ value hvalue).mp (hand value hvalue)
              exact ⟨conds, Or.inr ⟨xs, hvalue, hparse⟩⟩
            · exact ⟨[], Or.inl ⟨hmem, rfl⟩⟩
          obtain ⟨conds, hslot⟩ := hslot
          obtain ⟨c, hc⟩ := exists_normal .and
            ((contributes_iff hkeys hor hfs hslot).mp hcontributes)
          exact ⟨c, Or.inr ⟨fs, conds, hor, hfs, hslot, hc⟩⟩
        · obtain ⟨⟨key, value⟩, rfl⟩ := List.length_eq_one_iff.mp (halone.resolve_left hor)
          obtain rfl : key = "$or" := by simpa using hor
          rw [List.forall_mem_singleton] at hentries
          obtain ⟨xs, conds, rfl, hparse⟩ := (harray "$or" _ List.mem_cons_self).mp hentries
          have hne : conds ≠ [] := by
            obtain ⟨entry, hentry, hcontributes⟩ := hcontributes
            obtain rfl := List.mem_singleton.mp hentry
            exact (contributes_list (Or.inr rfl) hparse).mp hcontributes
          obtain ⟨c, hc⟩ := exists_normal .or hne
          exact ⟨c, Or.inl ⟨xs, conds, rfl, hparse, hc⟩⟩
      · rintro ⟨c, ⟨xs, conds, rfl, hparse, hc⟩ | ⟨fs, conds, hor, hfs, hslot, hc⟩⟩
        · have haccepts : acceptsEntry "$or" (.array xs) = true :=
            (harray "$or" _ List.mem_cons_self).mpr ⟨xs, conds, rfl, hparse⟩
          refine ⟨List.forall_mem_singleton.mpr haccepts, ?_, Or.inr rfl⟩
          exact ⟨_, List.mem_cons_self, (contributes_list (Or.inr rfl) hparse).mpr hc.ne_nil⟩
        · refine ⟨(forall_entries (P := fun key value => acceptsEntry key value = true) hor).mpr
            ⟨?_, ?_⟩, (contributes_iff hkeys hor hfs hslot).mpr hc.ne_nil, Or.inl hor⟩
          · intro value hvalue
            rcases hslot with ⟨hand, -⟩ | ⟨xs, hxs, hparse⟩
            · exact absurd (List.mem_map_of_mem hvalue) hand
            · have heq := List.inj_on_of_nodup_map hkeys hvalue hxs rfl
              cases heq
              exact (harray _ _ hvalue).mpr ⟨xs, conds, rfl, hparse⟩
          · intro entry hentry
            rw [acceptsEntry_field (List.mem_filter.mp hentry).2]
            exact acceptsField_iff.mpr (forall₂_succeeds.mp ⟨fs, hfs⟩ entry hentry)

/-! ## Rearranging -/

/-- One rearrangement: the keys of a `where` object or of an operator object in
another order, a list of one replaced by its element, or either inside a list. -/
inductive Rearranged : Json → Json → Prop where
  | keys {map map' : List (String × Json)} (h : map.Perm map') :
      Rearranged (.object map) (.object map')
  | operators {before after : List (String × Json)} {key : String}
      {ops ops' : List (String × Json)} (h : ops.Perm ops') :
      Rearranged (.object (before ++ (key, .object ops) :: after))
        (.object (before ++ (key, .object ops') :: after))
  | collapse {op : String} (hop : op = "$and" ∨ op = "$or") (v : Json) :
      Rearranged (.object [(op, .array [v])]) v
  | element {before after : List (String × Json)} {op : String} (hop : op = "$and" ∨ op = "$or")
      {xs ys : List Json} {v v' : Json} (h : Rearranged v v') :
      Rearranged (.object (before ++ (op, .array (xs ++ v :: ys)) :: after))
        (.object (before ++ (op, .array (xs ++ v' :: ys)) :: after))

theorem uniqueKeys_entry {before after : List (String × Json)} {key : String} {v v' : Json}
    (h : v.UniqueKeys ↔ v'.UniqueKeys) :
    (Json.object (before ++ (key, v) :: after)).UniqueKeys ↔
      (Json.object (before ++ (key, v') :: after)).UniqueKeys := by
  simp only [Json.UniqueKeys, Json.uniqueKeysEntries_iff, List.map_append, List.map_cons,
    List.forall_mem_append, List.forall_mem_cons, h]

theorem Rearranged.uniqueKeys {v v' : Json} (h : Rearranged v v') :
    v.UniqueKeys ↔ v'.UniqueKeys := by
  induction h with
  | keys h =>
      simp only [Json.UniqueKeys, Json.uniqueKeysEntries_iff, (h.map Prod.fst).nodup_iff, h.mem_iff]
  | operators h =>
      apply uniqueKeys_entry
      simp only [Json.UniqueKeys, Json.uniqueKeysEntries_iff, (h.map Prod.fst).nodup_iff, h.mem_iff]
  | collapse hop v => simp [Json.UniqueKeys, Json.UniqueKeysEntries, Json.UniqueKeysList]
  | element hop h ih =>
      apply uniqueKeys_entry
      simp only [Json.UniqueKeys, Json.uniqueKeysList_iff, List.forall_mem_append,
        List.forall_mem_cons, ih]

theorem meaning_entry {metadata : Metadata} {before after : List (String × Json)} {key : String}
    {v v' : Json} (h : meansEntry metadata key v = meansEntry metadata key v') :
    meaning metadata (.object (before ++ (key, v) :: after)) =
      meaning metadata (.object (before ++ (key, v') :: after)) := by
  rw [Bool.eq_iff_iff, meaning_object, meaning_object]
  simp only [List.forall_mem_append, List.forall_mem_cons, h]

/-- **A rearranged object means the same.** -/
theorem Rearranged.meaning_eq (metadata : Metadata) {v v' : Json} (h : Rearranged v v') :
    meaning metadata v = meaning metadata v' := by
  induction h with
  | keys h =>
      rw [Bool.eq_iff_iff, meaning_object, meaning_object]
      simp only [h.mem_iff]
  | operators h =>
      apply meaning_entry
      have hfield : ∀ key, meansField metadata key (.object _) =
          meansField metadata key (.object _) := fun key => h.all_eq
      simp only [meansEntry, meansAll, meansAny, hfield]
  | collapse hop v =>
      rcases hop with rfl | rfl
      · simp [meaning, meansEntries, meansAll, allMean]
      · simp [meaning, meansEntries, meansAny, anyMeans]
  | element hop h ih =>
      apply meaning_entry
      rcases hop with rfl | rfl
      · rw [Bool.eq_iff_iff, meansEntry, meansEntry, if_pos rfl, if_pos rfl, meansAll_array,
          meansAll_array]
        simp only [List.forall_mem_append, List.forall_mem_cons, ih]
      · have hany : ∀ value, meansEntry metadata "$or" value = meansAny metadata value := by
          intro value
          rw [meansEntry, if_neg (by decide), if_pos rfl]
        rw [Bool.eq_iff_iff, hany, hany, meansAny_array, meansAny_array]
        simp only [List.mem_append, List.mem_cons, or_and_right, exists_or, exists_eq_left, ih]

theorem accepts_entry {before after : List (String × Json)} {key : String} {v v' : Json}
    (h : acceptsEntry key v = acceptsEntry key v')
    (hcontributes : contributes (key, v) = contributes (key, v')) :
    accepts (.object (before ++ (key, v) :: after)) =
      accepts (.object (before ++ (key, v') :: after)) := by
  have hoffer : (∃ entry ∈ before ++ (key, v) :: after, contributes entry = true) ↔
      ∃ entry ∈ before ++ (key, v') :: after, contributes entry = true := by
    simp only [List.mem_append, List.mem_cons, or_and_right, exists_or, exists_eq_left,
      hcontributes]
  rw [Bool.eq_iff_iff, accepts_object, accepts_object, hoffer]
  simp only [List.forall_mem_append, List.forall_mem_cons, h, List.length_append,
    List.length_cons]

/-- **A rearranged object is accepted alike.** -/
theorem Rearranged.accepts_eq {v v' : Json} (h : Rearranged v v') : accepts v = accepts v' := by
  induction h with
  | keys h =>
      rw [Bool.eq_iff_iff, accepts_object, accepts_object]
      simp only [h.mem_iff, h.length_eq]
  | operators h =>
      apply accepts_entry
      · have hempty : ∀ ops ops' : List (String × Json), ops.Perm ops' →
            ops.isEmpty = ops'.isEmpty := fun ops ops' h => h.isEmpty_eq
        simp only [acceptsEntry, acceptsArray, acceptsField, h.all_eq, hempty _ _ h]
      · simp [contributes, Json.asArray]
  | collapse hop v =>
      rcases hop with rfl | rfl
      · simp [accepts, acceptsEntries, acceptsArray, acceptsList, contributes, Json.asArray]
      · simp [accepts, acceptsEntries, acceptsArray, acceptsList, contributes, Json.asArray]
  | element hop h ih =>
      apply accepts_entry
      · rw [Bool.eq_iff_iff, acceptsEntry, acceptsEntry, if_pos hop, if_pos hop,
          acceptsArray_array, acceptsArray_array]
        simp only [List.forall_mem_append, List.forall_mem_cons, ih]
      · rename_i xs ys v v'
        have hempty : ∀ v, (xs ++ v :: ys).isEmpty = false := by
          intro v
          cases xs <;> rfl
        simp [contributes, Json.asArray, hempty]

theorem rearranged_eq {α : Type} {f : Json → α} (hf : ∀ v v', Rearranged v v' → f v = f v')
    {v v' : Json} (h : Relation.EqvGen Rearranged v v') : f v = f v' := by
  induction h with
  | rel v v' h => exact hf v v' h
  | refl v => rfl
  | symm v v' _ ih => exact ih.symm
  | trans v v' v'' _ _ ih ih' => exact ih.trans ih'

/-- **A parsed filter means what its JSON says**, in whatever order the keys
stand and whether or not a list of one is wrapped. -/
theorem where_meaning {v : Json} (hv : v.UniqueKeys) :
    (∀ f, WhereFilter.fromJsonValue v = .ok f →
      ∀ metadata, f.matches metadata = meaning metadata v) ∧
    ∀ v', Relation.EqvGen Rearranged v v' → ∀ f, WhereFilter.fromJsonValue v = .ok f →
      ∃ f', WhereFilter.fromJsonValue v' = .ok f' ∧
        ∀ metadata, f'.matches metadata = f.matches metadata := by
  refine ⟨fun f hf => matches_parsed hv hf, ?_⟩
  intro v' hv' f hf
  have hunique : v'.UniqueKeys :=
    (rearranged_eq (fun _ _ h => propext h.uniqueKeys) hv').mp hv
  have haccepts : accepts v' = true := by
    rw [← rearranged_eq (fun _ _ h => h.accepts_eq) hv']
    obtain ⟨c, hc, -⟩ := wrap_ok.mp hf
    exact (accepts_iff v hv).mpr ⟨c, hc⟩
  obtain ⟨c', hc'⟩ := (accepts_iff v' hunique).mp haccepts
  have hf' : WhereFilter.fromJsonValue v' = .ok ⟨c'⟩ := wrap_ok.mpr ⟨c', hc', rfl⟩
  refine ⟨⟨c'⟩, hf', ?_⟩
  intro metadata
  rw [matches_parsed hunique hf', matches_parsed hv hf]
  exact (rearranged_eq (fun _ _ h => h.meaning_eq metadata) hv').symm

/-- A field with two operators beside a one-element `$and`. -/
theorem where_meaning_demo :
    let v : Json := .object [("$and", .array [.object [("b", .bool true)]]),
      ("a", .object [("$gt", .number (.posInt 5)), ("$lt", .number (.posInt 9))])]
    let metadata : Metadata := AList.insert "a" (.int 7) (AList.insert "b" (.bool true) ∅)
    ∃ f, WhereFilter.fromJsonValue v = .ok f ∧ f.matches metadata = meaning metadata v ∧
      meaning metadata v = true := by
  intro v metadata
  have hv : v.UniqueKeys := by
    simp [v, Json.UniqueKeys, Json.UniqueKeysEntries, Json.UniqueKeysList]
  obtain ⟨c, hc⟩ := (accepts_iff v hv).mp (by decide +kernel)
  have hf : WhereFilter.fromJsonValue v = .ok ⟨c⟩ := wrap_ok.mpr ⟨c, hc, rfl⟩
  exact ⟨⟨c⟩, hf, (where_meaning hv).1 _ hf metadata, by decide +kernel⟩

end Rekha.Where
