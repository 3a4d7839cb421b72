import Mathlib.Data.List.Sort
import Mathlib.Data.String.Basic
import Rekha.Core.FilterJson
import Rekha.Lib.FinMap

/-!
# Metadata as JSON

The Chroma routes read metadata as flat JSON objects and write it back as such, here
as values in memory: their text can move a float to a neighbour. What is written can
be read again, unless a float has no JSON number; what is read is written back as it
was, apart from integers beyond 64 bits with a sign, which come back as floats
(`metadata_round_trip`).
-/

namespace Rekha.Server

open Where (FiniteValue)

/-! ## Reading -/

inductive ChromaMetadataValue where
  | str (s : String)
  | bool (b : Bool)
  | int (i : Int64)
  | float (f : F64)

def ChromaMetadataValue.toMetadataValue : ChromaMetadataValue → MetadataValue
  | .str s => .str s
  | .bool b => .bool b
  | .int i => .int i
  | .float f => .float f

abbrev ChromaMetadata := FinMap String ChromaMetadataValue

/-- The untagged variants, tried in the order of their declaration. -/
def ChromaMetadataValue.deserialize : Json → Option ChromaMetadataValue
  | .string s => some (.str s)
  | .bool b => some (.bool b)
  | .number n =>
      match n.asI64 with
      | some i => some (.int i)
      | none => n.asF64.map .float
  | .null | .array _ | .object _ => none

def readEntries : List (String × Json) → Option (List (Sigma fun _ : String => ChromaMetadataValue))
  | [] => some []
  | (key, value) :: members => do
      let v ← ChromaMetadataValue.deserialize value
      let entries ← readEntries members
      pure (⟨key, v⟩ :: entries)

def ChromaMetadata.ofMembers (members : List (String × Json)) : Option ChromaMetadata :=
  (readEntries members).map (List.foldl (fun m e => m.insert e.1 e.2) ∅)

/-- A field of type `Option<ChromaMetadata>`. -/
def readMetadata : Json → Option (Option ChromaMetadata)
  | .null => some none
  | .object members => (ChromaMetadata.ofMembers members).map some
  | .bool _ | .number _ | .string _ | .array _ => none

def convertMetadata (m : Option ChromaMetadata) : Option Metadata :=
  m.map (FinMap.mapVals fun _ v => v.toMetadataValue)

/-! ## Writing -/

def flattenValue : MetadataValue → Json
  | .str s => .string s
  | .bool b => .bool b
  | .int i => Json.ofI64 i
  | .float f => Json.ofF64 f

/-- The members of a JSON map, which is sorted by key. -/
def sortMembers (members : List (String × Json)) : List (String × Json) :=
  members.mergeSort fun a b => decide (a.1 ≤ b.1)

/-- The members before they are sorted. -/
def flattenEntries (m : Metadata) : List (String × Json) :=
  m.entries.map fun e => (e.1, flattenValue e.2)

def flattenMetadata (m : Option Metadata) : Option Json :=
  m.map fun m => .object (sortMembers (flattenEntries m))

/-- A field of type `Option<serde_json::Value>`. -/
def writeMetadata (m : Option Metadata) : Json := (flattenMetadata m).getD .null

/-! ## One value -/

/-- An integer beyond `i64` is a float from then on. -/
def canonicalNumber : Json.Number → Json.Number
  | .posInt n =>
      if n.toNat < 2 ^ 63 then .posInt n
      else .float (Json.Number.posInt n).toF64 (Json.Number.isFinite_toF64 _)
  | .negInt i neg => .negInt i neg
  | .float f finite => .float f finite

def canonicalValue : Json → Json
  | .number n => .number (canonicalNumber n)
  | v => v

namespace ChromaMetadataValue

theorem flatten_int {n : Json.Number} {i : Int64} (h : n.asI64 = some i) :
    Json.ofI64 i = .number (canonicalNumber n) := by
  cases n with
  | posInt n =>
      rw [Json.Number.asI64] at h
      split at h
      · rename_i hlt
        obtain rfl := Option.some.inj h
        have hint : (Int64.ofNat n.toNat).toInt = n.toNat := Int64.toInt_ofNat_of_lt hlt
        have hneg : ¬ Int64.ofNat n.toNat < 0 := by
          rw [Int64.lt_iff_toInt_lt, hint]
          exact not_lt.mpr (Int64.toInt_zero ▸ Int.natCast_nonneg _)
        have hback : (Int64.ofNat n.toNat).toUInt64 = n := by
          apply UInt64.toNat_inj.mp
          rw [Int64.toNat_toUInt64_of_le (Int64.not_lt.mp hneg)]
          show (Int64.ofNat n.toNat).toInt.toNat = n.toNat
          rw [hint, Int.toNat_natCast]
        rw [canonicalNumber, if_pos hlt, Json.ofI64, Json.Number.ofI64, dif_neg hneg, hback]
      · cases h
  | negInt i' neg =>
      obtain rfl := Option.some.inj h
      rw [Json.ofI64, Json.Number.ofI64, dif_pos neg]
      rfl
  | float f finite => cases h

theorem flatten_deserialize {j : Json} {v : ChromaMetadataValue} (h : deserialize j = some v) :
    flattenValue v.toMetadataValue = canonicalValue j := by
  cases j with
  | string s =>
      obtain rfl := Option.some.inj h
      rfl
  | bool b =>
      obtain rfl := Option.some.inj h
      rfl
  | number n =>
      rw [deserialize] at h
      split at h
      · rename_i i hi
        obtain rfl := Option.some.inj h
        exact flatten_int hi
      · rename_i hnone
        obtain rfl := Option.some.inj h
        show Json.ofF64 n.toF64 = _
        rw [Json.ofF64_finite n.isFinite_toF64]
        cases n with
        | posInt n =>
            have hbig : ¬ n.toNat < 2 ^ 63 := by
              intro hlt
              rw [Json.Number.asI64, if_pos hlt] at hnone
              cases hnone
            rw [canonicalValue, canonicalNumber, if_neg hbig]
        | negInt i neg => cases hnone
        | float f finite => rfl
  | null => cases h
  | array xs => cases h
  | object map => cases h

theorem deserialize_flatten (v : MetadataValue) :
    (deserialize (flattenValue v)).map toMetadataValue = some v ∧ FiniteValue v ∨
      deserialize (flattenValue v) = none ∧ ¬ FiniteValue v := by
  cases v with
  | str s => exact .inl ⟨rfl, trivial⟩
  | bool b => exact .inl ⟨rfl, trivial⟩
  | int i =>
      refine .inl ⟨?_, trivial⟩
      rw [flattenValue, Json.ofI64, deserialize, Json.Number.asI64_ofI64]
      rfl
  | float f =>
      by_cases hf : f.isFinite = true
      · refine .inl ⟨?_, hf⟩
        rw [flattenValue, Json.ofF64_finite hf]
        rfl
      · refine .inr ⟨?_, hf⟩
        rw [flattenValue, Json.ofF64, Json.Number.ofF64, dif_neg hf]
        rfl

end ChromaMetadataValue

/-! ## All members -/

section Members

variable {members : List (String × Json)}
  {entries : List (Sigma fun _ : String => ChromaMetadataValue)}

def ReadsAs (p : String × Json) (e : Sigma fun _ : String => ChromaMetadataValue) : Prop :=
  p.1 = e.1 ∧ ChromaMetadataValue.deserialize p.2 = some e.2

theorem readEntries_eq_some : ∀ {members : List (String × Json)}
    {entries : List (Sigma fun _ : String => ChromaMetadataValue)},
    readEntries members = some entries ↔ List.Forall₂ ReadsAs members entries
  | [], entries => by
      rw [List.forall₂_nil_left_iff, readEntries, Option.some.injEq, eq_comm]
  | (key, value) :: members, entries => by
      rw [List.forall₂_cons_left_iff, readEntries]
      constructor
      · intro h
        obtain ⟨v, hv, h⟩ := Option.bind_eq_some_iff.mp h
        obtain ⟨rest, hrest, h⟩ := Option.bind_eq_some_iff.mp h
        obtain rfl := Option.some.inj h
        exact ⟨⟨key, v⟩, rest, ⟨rfl, hv⟩, readEntries_eq_some.mp hrest, rfl⟩
      · rintro ⟨⟨key', v⟩, rest, ⟨hkey, hv⟩, hrest, rfl⟩
        obtain rfl : key = key' := hkey
        rw [hv, readEntries_eq_some.mpr hrest]
        rfl

theorem readEntries_eq_none : ∀ {members : List (String × Json)},
    readEntries members = none ↔ ∃ p ∈ members, ChromaMetadataValue.deserialize p.2 = none
  | [] => by simp [readEntries]
  | (key, value) :: members => by
      rw [readEntries, List.exists_mem_cons_iff]
      cases hv : ChromaMetadataValue.deserialize value with
      | none => exact iff_of_true rfl (.inl rfl)
      | some v =>
          rw [← readEntries_eq_none]
          cases hrest : readEntries members with
          | none => exact iff_of_true rfl (.inr rfl)
          | some rest => exact iff_of_false (by simp) (by simp)

theorem keys_of_reads (h : List.Forall₂ ReadsAs members entries) :
    entries.keys = members.map Prod.fst := by
  induction h with
  | nil => rfl
  | cons hread _ ih => rw [List.keys_cons, List.map_cons, ih, hread.1]

theorem mem_of_reads (h : List.Forall₂ ReadsAs members entries) {key : String}
    {v : ChromaMetadataValue} : ⟨key, v⟩ ∈ entries ↔
      ∃ j, (key, j) ∈ members ∧ ChromaMetadataValue.deserialize j = some v := by
  induction h with
  | nil => simp
  | @cons p e members entries hread _ ih =>
      obtain ⟨k, j⟩ := p
      obtain ⟨k', w⟩ := e
      obtain ⟨rfl, hw⟩ : k = k' ∧ ChromaMetadataValue.deserialize j = some w := hread
      rw [List.mem_cons, ih]
      constructor
      · rintro (heq | ⟨j', hj', hv⟩)
        · cases heq
          exact ⟨j, List.mem_cons_self, hw⟩
        · exact ⟨j', List.mem_cons_of_mem _ hj', hv⟩
      · rintro ⟨j', hj', hv⟩
        rcases List.mem_cons.mp hj' with heq | hj'
        · cases heq
          rw [hw] at hv
          cases hv
          exact .inl rfl
        · exact .inr ⟨j', hj', hv⟩

theorem lookup_ofMembers (hkeys : (members.map Prod.fst).Nodup) {c : ChromaMetadata}
    (h : ChromaMetadata.ofMembers members = some c) {key : String} {v : ChromaMetadataValue} :
    c.lookup key = some v ↔
      ∃ j, (key, j) ∈ members ∧ ChromaMetadataValue.deserialize j = some v := by
  obtain ⟨entries, hread, rfl⟩ := Option.map_eq_some_iff.mp h
  have hall := readEntries_eq_some.mp hread
  have hnodup : entries.NodupKeys := by
    rw [List.NodupKeys, keys_of_reads hall]
    exact hkeys
  rw [FinMap.lookup_foldl_insert key ∅ hnodup, AList.lookup_empty, Option.or_none,
    ← Option.mem_def, List.mem_dlookup_iff hnodup, mem_of_reads hall]

theorem ofMembers_eq_none : ChromaMetadata.ofMembers members = none ↔
    ∃ p ∈ members, ChromaMetadataValue.deserialize p.2 = none := by
  rw [ChromaMetadata.ofMembers, Option.map_eq_none_iff, readEntries_eq_none]

theorem pairwise_sortMembers (members : List (String × Json)) :
    (sortMembers members).Pairwise fun a b => a.1 ≤ b.1 := by
  have hle := @List.pairwise_mergeSort _ (fun a b : String × Json => decide (a.1 ≤ b.1))
    (fun a b c hab hbc => by
      rw [decide_eq_true_eq] at hab hbc ⊢
      exact hab.trans hbc)
    (fun a b => by
      rw [Bool.or_eq_true, decide_eq_true_eq, decide_eq_true_eq]
      exact le_total a.1 b.1) members
  exact hle.imp fun h => of_decide_eq_true h

theorem sortMembers_perm (members : List (String × Json)) : (sortMembers members).Perm members :=
  List.mergeSort_perm members _

theorem sortMembers_eq {members members' : List (String × Json)}
    (hkeys : (members.map Prod.fst).Nodup) (hperm : members.Perm members') :
    sortMembers members = sortMembers members' := by
  have hboth : (sortMembers members).Perm (sortMembers members') :=
    (sortMembers_perm members).trans (hperm.trans (sortMembers_perm members').symm)
  refine List.Perm.eq_of_pairwise ?_ (pairwise_sortMembers members) (pairwise_sortMembers members')
    hboth
  intro a b ha hb hab hba
  apply List.inj_on_of_nodup_map hkeys ((sortMembers_perm members).mem_iff.mp ha)
    (hperm.mem_iff.mpr ((sortMembers_perm members').mem_iff.mp hb))
  exact le_antisymm hab hba

end Members

/-! ## Round trips -/

theorem mem_flattenEntries {m : Metadata} {key : String} {j : Json} :
    (key, j) ∈ flattenEntries m ↔ ∃ v, m.lookup key = some v ∧ flattenValue v = j := by
  rw [flattenEntries, List.mem_map]
  constructor
  · rintro ⟨⟨k, v⟩, hmem, heq⟩
    cases heq
    exact ⟨v, FinMap.mem_entries_iff.mp hmem, rfl⟩
  · rintro ⟨v, hv, rfl⟩
    exact ⟨⟨key, v⟩, FinMap.mem_entries_iff.mpr hv, rfl⟩

theorem nodup_flattenEntries (m : Metadata) : ((flattenEntries m).map Prod.fst).Nodup := by
  rw [flattenEntries, List.map_map]
  exact m.nodupKeys

def AllFinite (m : Metadata) : Prop := ∀ key v, m.lookup key = some v → FiniteValue v

def SameMetadata : Option Metadata → Option Metadata → Prop :=
  Option.Rel fun m m' => ∀ key, m.lookup key = m'.lookup key

/-- A value of a metadata field in canonical form. -/
def canonical : Json → Json
  | .object members => .object (sortMembers (members.map fun p => (p.1, canonicalValue p.2)))
  | v => v

theorem nodup_sorted (m : Metadata) : ((sortMembers (flattenEntries m)).map Prod.fst).Nodup :=
  ((sortMembers_perm (flattenEntries m)).map Prod.fst).nodup_iff.mpr (nodup_flattenEntries m)

theorem lookup_of_written {m : Metadata} {c : ChromaMetadata}
    (h : ChromaMetadata.ofMembers (sortMembers (flattenEntries m)) = some c) {key : String}
    {v : ChromaMetadataValue} : c.lookup key = some v ↔
      ∃ w, m.lookup key = some w ∧ ChromaMetadataValue.deserialize (flattenValue w) = some v := by
  rw [lookup_ofMembers (nodup_sorted m) h]
  simp only [(sortMembers_perm (flattenEntries m)).mem_iff, mem_flattenEntries]
  constructor
  · rintro ⟨j, ⟨w, hw, rfl⟩, hv⟩
    exact ⟨w, hw, hv⟩
  · rintro ⟨w, hw, hv⟩
    exact ⟨_, ⟨w, hw, rfl⟩, hv⟩

theorem read_written {m : Metadata} (hm : AllFinite m) :
    ∃ c, ChromaMetadata.ofMembers (sortMembers (flattenEntries m)) = some c ∧
      ∀ key, (FinMap.mapVals (fun _ v => v.toMetadataValue) c).lookup key = m.lookup key := by
  cases hread : ChromaMetadata.ofMembers (sortMembers (flattenEntries m)) with
  | none =>
      obtain ⟨⟨key, j⟩, hmem, hnone⟩ := ofMembers_eq_none.mp hread
      rw [(sortMembers_perm (flattenEntries m)).mem_iff] at hmem
      obtain ⟨v, hv, rfl⟩ := mem_flattenEntries.mp hmem
      rcases ChromaMetadataValue.deserialize_flatten v with ⟨hsome, -⟩ | ⟨-, hinf⟩
      · rw [hnone] at hsome
        cases hsome
      · exact absurd (hm key v hv) hinf
  | some c =>
      refine ⟨c, rfl, ?_⟩
      intro key
      rw [FinMap.lookup_mapVals]
      ext x
      rw [Option.map_eq_some_iff]
      constructor
      · rintro ⟨v, hv, rfl⟩
        obtain ⟨w, hw, hread'⟩ := (lookup_of_written hread).mp hv
        rcases ChromaMetadataValue.deserialize_flatten w with ⟨hsome, -⟩ | ⟨hnone, -⟩
        · rw [hread', Option.map_some, Option.some.injEq] at hsome
          rw [hsome, hw]
        · rw [hread'] at hnone
          cases hnone
      · intro hx
        rcases ChromaMetadataValue.deserialize_flatten x with ⟨hsome, -⟩ | ⟨-, hinf⟩
        · obtain ⟨v, hv, rfl⟩ := Option.map_eq_some_iff.mp hsome
          exact ⟨v, (lookup_of_written hread).mpr ⟨_, hx, hv⟩, rfl⟩
        · exact absurd (hm key x hx) hinf

theorem write_read {members : List (String × Json)} (hkeys : (members.map Prod.fst).Nodup)
    {c : ChromaMetadata} (h : ChromaMetadata.ofMembers members = some c) :
    sortMembers (flattenEntries (FinMap.mapVals (fun _ v => v.toMetadataValue) c))
      = sortMembers (members.map fun p => (p.1, canonicalValue p.2)) := by
  have hcanonical : ((members.map fun p => (p.1, canonicalValue p.2)).map Prod.fst).Nodup := by
    rw [List.map_map]
    exact hkeys
  apply sortMembers_eq (nodup_flattenEntries _)
  apply (List.perm_ext_iff_of_nodup (nodup_flattenEntries _).of_map hcanonical.of_map).mpr
  rintro ⟨key, j⟩
  rw [mem_flattenEntries, List.mem_map]
  constructor
  · rintro ⟨x, hx, rfl⟩
    rw [FinMap.lookup_mapVals, Option.map_eq_some_iff] at hx
    obtain ⟨v, hv, rfl⟩ := hx
    obtain ⟨j, hj, hread⟩ := (lookup_ofMembers hkeys h).mp hv
    exact ⟨(key, j), hj, Prod.ext rfl (ChromaMetadataValue.flatten_deserialize hread).symm⟩
  · rintro ⟨⟨k, j⟩, hj, heq⟩
    cases heq
    cases hread : ChromaMetadataValue.deserialize j with
    | none =>
        have hnone := ofMembers_eq_none.mpr ⟨_, hj, hread⟩
        rw [h] at hnone
        cases hnone
    | some v =>
        refine ⟨v.toMetadataValue, ?_, ChromaMetadataValue.flatten_deserialize hread⟩
        rw [FinMap.lookup_mapVals, (lookup_ofMembers hkeys h).mpr ⟨j, hj, hread⟩, Option.map_some]

/-- **Metadata goes through JSON values.** What is written is read back with the same
entries, unless a float has no number: then it cannot be read at all. What is read is
written back in canonical form. -/
theorem metadata_round_trip :
    (∀ m : Option Metadata, (∀ m' ∈ m, AllFinite m') →
      ∃ c, readMetadata (writeMetadata m) = some c ∧ SameMetadata (convertMetadata c) m) ∧
    (∀ m : Metadata, ¬ AllFinite m → readMetadata (writeMetadata (some m)) = none) ∧
    (∀ (v : Json) (c : Option ChromaMetadata), v.UniqueKeys → readMetadata v = some c →
      writeMetadata (convertMetadata c) = canonical v) := by
  refine ⟨?_, ?_, ?_⟩
  · intro m hm
    cases m with
    | none => exact ⟨none, rfl, .none⟩
    | some m =>
        obtain ⟨c, hc, hsame⟩ := read_written (hm m rfl)
        refine ⟨some c, ?_, .some hsame⟩
        show (ChromaMetadata.ofMembers (sortMembers (flattenEntries m))).map some = _
        rw [hc, Option.map_some]
  · intro m hm
    show (ChromaMetadata.ofMembers (sortMembers (flattenEntries m))).map some = none
    rw [Option.map_eq_none_iff, ofMembers_eq_none]
    rw [AllFinite] at hm
    push Not at hm
    obtain ⟨key, v, hv, hinf⟩ := hm
    refine ⟨(key, flattenValue v), ?_, ?_⟩
    · rw [(sortMembers_perm (flattenEntries m)).mem_iff]
      exact mem_flattenEntries.mpr ⟨v, hv, rfl⟩
    · exact ((ChromaMetadataValue.deserialize_flatten v).resolve_left fun h => hinf h.2).1
  · intro v c hunique hread
    cases v with
    | null =>
        obtain rfl := Option.some.inj hread
        rfl
    | object members =>
        obtain ⟨c, hc, rfl⟩ := Option.map_eq_some_iff.mp hread
        exact congrArg Json.object (write_read hunique.1 hc)
    | bool b => cases hread
    | number n => cases hread
    | string s => cases hread
    | array xs => cases hread

/-- An integer comes back, an infinity does not. -/
theorem metadata_round_trip_demo :
    (∃ c, readMetadata (writeMetadata (some (AList.singleton "year" (.int 2024)))) = some c ∧
      SameMetadata (convertMetadata c) (some (AList.singleton "year" (.int 2024)))) ∧
    readMetadata (writeMetadata (some (AList.singleton "score" (.float ⟨0x7FF0000000000000⟩))))
      = none := by
  constructor
  · apply metadata_round_trip.1
    intro m' hm' key v hv
    obtain rfl := Option.some.inj hm'
    rw [← FinMap.mem_entries_iff] at hv
    cases List.mem_singleton.mp hv
    trivial
  · apply metadata_round_trip.2.1
    intro hfinite
    have hscore : FiniteValue (.float ⟨0x7FF0000000000000⟩) := hfinite "score" _ rfl
    exact absurd (show Ieee.isFinite _ = true from hscore) (by decide)

end Rekha.Server
