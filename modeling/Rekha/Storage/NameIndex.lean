import Rekha.Lib.UniqueIndex
import Rekha.Storage.Catalog

/-!
# The name index and the collection table

Creation checks that the name is free and not that the id is: under an id that
is in use the new record replaces the old one, whose name stays in the index.
`bijective_iff` says that this is the only way the two tables come apart, over
every sequence of calls, and that a call that fails changes nothing.
-/

namespace Rekha

namespace RedbCatalog

/-! ## What a call can do -/

theorem writeTxn_ok {α : Type} {fault : Option String}
    {body : RedbCatalog → Except CatalogError (α × RedbCatalog)} {c c' : RedbCatalog} {a : α} :
    writeTxn fault body c = .ok a c' ↔ fault = none ∧ body c = .ok (a, c') := by
  unfold writeTxn
  cases fault with
  | some msg => simp
  | none => cases body c <;> simp [Prod.ext_iff]

theorem writeTxn_error {α : Type} {fault : Option String}
    {body : RedbCatalog → Except CatalogError (α × RedbCatalog)} {c c' : RedbCatalog}
    {e : CatalogError} (h : writeTxn fault body c = .error e c') : c' = c := by
  unfold writeTxn at h
  cases fault with
  | some msg => exact (EStateM.Result.error.inj h).2.symm
  | none =>
      cases hb : body c with
      | ok a => simp [hb] at h
      | error e' =>
          rw [hb] at h
          exact (EStateM.Result.error.inj h).2.symm

def withCollection (c : RedbCatalog) (config : CollectionConfig) : RedbCatalog :=
  { c with
    collections := c.collections.insert config.id.toString ⟨config, 0, 0⟩
    collectionByName := c.collectionByName.insert config.nameKey config.id.toString }

theorem createCollection_ok {fault : Option String} {config : CollectionConfig}
    {c c' : RedbCatalog} {record : CollectionRecord} :
    createCollection fault config c = .ok record c' ↔
      config.name ≠ "" ∧ fault = none ∧ c.collectionByName.lookup config.nameKey = none ∧
        record = ⟨config, 0, 0⟩ ∧ c' = c.withCollection config := by
  rw [createCollection]
  by_cases hname : config.name = ""
  · rw [if_pos hname]
    simp only [hname, ne_eq, not_true_eq_false, false_and, iff_false]
    intro h
    cases h
  · rw [if_neg hname, writeTxn_ok]
    cases hlookup : c.collectionByName.lookup config.nameKey with
    | some s => simp
    | none => simp [hname, withCollection, eq_comm]

theorem updateRecord_ok {fault : Option String} {id : Uuid}
    {f : CollectionRecord → CollectionRecord} {c c' : RedbCatalog} {u : Unit} :
    updateRecord fault id f c = .ok u c' ↔
      fault = none ∧ ∃ record, c.collections.lookup id.toString = some record ∧
        c' = { c with collections := c.collections.insert id.toString (f record) } := by
  rw [updateRecord, writeTxn_ok]
  cases hlookup : c.collections.lookup id.toString with
  | none => simp
  | some record => simp [eq_comm]

theorem updateRecord_error {fault : Option String} {id : Uuid}
    {f : CollectionRecord → CollectionRecord} {c c' : RedbCatalog} {e : CatalogError}
    (h : updateRecord fault id f c = .error e c') : c' = c := writeTxn_error h

def withoutCollection (c : RedbCatalog) (id : Uuid) (record : CollectionRecord) : RedbCatalog :=
  { c with
    collections := c.collections.erase id.toString
    collectionByName := c.collectionByName.erase record.config.nameKey }

theorem deleteCollection_ok {fault : Option String} {id : Uuid} {c c' : RedbCatalog} {u : Unit} :
    deleteCollection fault id c = .ok u c' ↔
      fault = none ∧ ∃ record, c.collections.lookup id.toString = some record ∧
        c' = c.withoutCollection id record := by
  rw [deleteCollection, writeTxn_ok]
  cases hlookup : c.collections.lookup id.toString with
  | none => simp
  | some record => simp [withoutCollection, eq_comm]

/-- What a call that succeeds does to the two tables. -/
inductive Effect (c : RedbCatalog) : CatalogCall → RedbCatalog → Prop
  | namespaces {a : CatalogCall} {c' : RedbCatalog} : c'.collections = c.collections →
      c'.collectionByName = c.collectionByName → Effect c a c'
  | create (config : CollectionConfig) : config.name ≠ "" →
      c.collectionByName.lookup config.nameKey = none →
      Effect c (.createCollection config) (c.withCollection config)
  | rewrite {a : CatalogCall} (id : Uuid) (record record' : CollectionRecord) :
      c.collections.lookup id.toString = some record →
      record'.config.nameKey = record.config.nameKey → record'.config.id = record.config.id →
      Effect c a { c with collections := c.collections.insert id.toString record' }
  | delete (id : Uuid) (record : CollectionRecord) :
      c.collections.lookup id.toString = some record →
      Effect c (.deleteCollection id) (c.withoutCollection id record)

end RedbCatalog

open RedbCatalog

namespace CatalogCall

theorem run_error {a : CatalogCall} {fault : Option String} {c c' : RedbCatalog}
    {e : CatalogError} (h : a.run fault c = .error e c') : c' = c := by
  cases a with
  | createTenant name =>
      rw [run, RedbCatalog.createTenant] at h
      split at h
      · exact (EStateM.Result.error.inj h).2.symm
      · exact writeTxn_error h
  | createDatabase tenant name =>
      rw [run, RedbCatalog.createDatabase] at h
      split at h
      · exact (EStateM.Result.error.inj h).2.symm
      · exact writeTxn_error h
  | createCollection config =>
      rcases Outcome.bind_error.mp h with h | ⟨a, c₁, _, h⟩
      · rw [RedbCatalog.createCollection] at h
        split at h
        · exact (EStateM.Result.error.inj h).2.symm
        · exact writeTxn_error h
      · cases h
  | updateCollectionMetadata id metadata => exact updateRecord_error h
  | deleteCollection id =>
      rw [run, RedbCatalog.deleteCollection] at h
      exact writeTxn_error h
  | advanceLogOffset id seq => exact updateRecord_error h
  | updateCollectionDimension id dimension => exact updateRecord_error h

theorem run_ok {a : CatalogCall} {fault : Option String} {c c' : RedbCatalog} {u : Unit}
    (h : a.run fault c = .ok u c') : Effect c a c' := by
  cases a with
  | createTenant name =>
      rw [run, RedbCatalog.createTenant] at h
      split at h
      · cases h
      · obtain ⟨_, h⟩ := writeTxn_ok.mp h
        split at h
        · cases h
        · cases h
          exact .namespaces rfl rfl
  | createDatabase tenant name =>
      rw [run, RedbCatalog.createDatabase] at h
      split at h
      · cases h
      · obtain ⟨_, h⟩ := writeTxn_ok.mp h
        split at h
        · cases h
        · split at h
          · cases h
          · cases h
            exact .namespaces rfl rfl
  | createCollection config =>
      obtain ⟨record, c₁, h, hdiscard⟩ := Outcome.bind_ok.mp h
      obtain ⟨hname, _, hfree, _, rfl⟩ := createCollection_ok.mp h
      obtain ⟨_, rfl⟩ := EStateM.Result.ok.inj hdiscard
      exact .create config hname hfree
  | updateCollectionMetadata id metadata =>
      obtain ⟨_, record, hrecord, rfl⟩ := updateRecord_ok.mp h
      exact .rewrite id record _ hrecord rfl rfl
  | deleteCollection id =>
      obtain ⟨_, record, hrecord, rfl⟩ := deleteCollection_ok.mp h
      exact .delete id record hrecord
  | advanceLogOffset id seq =>
      obtain ⟨_, record, hrecord, rfl⟩ := updateRecord_ok.mp h
      exact .rewrite id record _ hrecord rfl rfl
  | updateCollectionDimension id dimension =>
      obtain ⟨_, record, hrecord, rfl⟩ := updateRecord_ok.mp h
      exact .rewrite id record _ hrecord rfl rfl

/-- The catalog after a call, whether it succeeded or failed. -/
def after (fault : Option String) (a : CatalogCall) (c : RedbCatalog) : RedbCatalog :=
  Outcome.final (a.run fault c)

theorem after_cases (a : CatalogCall) (fault : Option String) (c : RedbCatalog) :
    a.after fault c = c ∨ Effect c a (a.after fault c) := by
  rw [after]
  cases hr : a.run fault c with
  | ok u c' => exact Or.inr (run_ok hr)
  | error e c' => exact Or.inl (run_error hr)

end CatalogCall

namespace RedbCatalog

/-! ## What is always so -/

/-- A record stands under the text of its id. -/
def Keyed (c : RedbCatalog) : Prop :=
  ∀ s record, c.collections.lookup s = some record → record.config.id.toString = s

theorem keyed_empty : Keyed {} := by
  intro s record h
  cases h

theorem Keyed.effect {c c' : RedbCatalog} {a : CatalogCall} (h : c.Keyed) (he : Effect c a c') :
    c'.Keyed := by
  intro s record hs
  cases he with
  | namespaces hrows _ =>
      rw [hrows] at hs
      exact h s record hs
  | create config _ _ =>
      rw [withCollection, FinMap.lookup_insert_ite] at hs
      split at hs
      · rename_i hkey
        obtain rfl := Option.some.inj hs
        exact hkey.symm
      · exact h s record hs
  | rewrite id old new hold _ hid =>
      rw [FinMap.lookup_insert_ite] at hs
      split at hs
      · rename_i hkey
        obtain rfl := Option.some.inj hs
        rw [hid, hkey]
        exact h _ _ hold
      · exact h s record hs
  | delete id old hold =>
      rw [withoutCollection] at hs
      exact h s record (FinMap.lookup_erase_eq_some.mp hs).2

/-! ## The bijection -/

/-- The two tables describe the same collections, and both lookups show them. -/
structure Bijective (text : UuidText) (c : RedbCatalog) : Prop where
  name_iff : ∀ key s, c.collectionByName.lookup key = some s ↔
    ∃ record, c.collections.lookup s = some record ∧ record.config.nameKey = key ∧
      record.config.id.toString = s
  one_name : ∀ key key' s, c.collectionByName.lookup key = some s →
    c.collectionByName.lookup key' = some s → key = key'
  lookups_agree : ∀ tenant database name found,
    c.getCollection text tenant database name = .ok found →
      ∀ record, found = some record ↔ ∃ id, c.getCollectionById id = some record ∧
        record.config.nameKey = (tenant, database, name)
  lookup_ok : ∀ tenant database name, ∃ found,
    c.getCollection text tenant database name = .ok found

/-- The name index against the records. -/
abbrev NamesAgree (c : RedbCatalog) : Prop :=
  UniqueIndex.Agrees (fun record => record.config.nameKey) c.collections c.collectionByName

theorem NamesAgree.withCollection {c : RedbCatalog} (h : c.NamesAgree)
    {config : CollectionConfig} (hunused : c.collections.lookup config.id.toString = none)
    (hfree : c.collectionByName.lookup config.nameKey = none) :
    (c.withCollection config).NamesAgree := by
  have hrecord : UniqueIndex.Agrees _ (c.collections.insert _ (⟨config, 0, 0⟩ : CollectionRecord))
      (c.collectionByName.insert _ _) := UniqueIndex.Agrees.insert h hunused hfree
  exact hrecord

theorem getCollection_of_lookup (text : UuidText) {c : RedbCatalog} (hkeyed : c.Keyed)
    {tenant database name s : String} {record : CollectionRecord}
    (hs : c.collectionByName.lookup (tenant, database, name) = some s)
    (hrecord : c.collections.lookup s = some record) :
    c.getCollection text tenant database name = .ok (some record) := by
  obtain rfl := hkeyed s record hrecord
  rw [getCollection, hs]
  simp only [text.parseStr_toString, getCollectionRecord, hrecord]

theorem getCollection_of_none (text : UuidText) {c : RedbCatalog}
    {tenant database name : String}
    (hs : c.collectionByName.lookup (tenant, database, name) = none) :
    c.getCollection text tenant database name = .ok none := by
  rw [getCollection, hs]

theorem bijective_iff_namesAgree (text : UuidText) {c : RedbCatalog} (hkeyed : c.Keyed) :
    Bijective text c ↔ c.NamesAgree := by
  constructor
  · intro h key s
    rw [h.name_iff]
    constructor
    · rintro ⟨record, hrecord, hname, _⟩
      exact ⟨record, hrecord, hname⟩
    · rintro ⟨record, hrecord, hname⟩
      exact ⟨record, hrecord, hname, hkeyed s record hrecord⟩
  · intro h
    have hfound : ∀ tenant database name,
        (c.getCollection text tenant database name = .ok none ∧
          c.collectionByName.lookup (tenant, database, name) = none) ∨
        ∃ record, c.getCollection text tenant database name = .ok (some record) ∧
          c.collectionByName.lookup (tenant, database, name) = some record.config.id.toString ∧
          c.collections.lookup record.config.id.toString = some record ∧
          record.config.nameKey = (tenant, database, name) := by
      intro tenant database name
      cases hs : c.collectionByName.lookup (tenant, database, name) with
      | none => exact Or.inl ⟨getCollection_of_none text hs, rfl⟩
      | some s =>
          obtain ⟨record, hrecord, hname⟩ := (h _ _).mp hs
          obtain rfl := hkeyed s record hrecord
          exact Or.inr ⟨record, getCollection_of_lookup text hkeyed hs hrecord, rfl, hrecord, hname⟩
    refine ⟨?_, fun key key' s hs hs' => h.eq_of_lookup hs hs', ?_, ?_⟩
    · intro key s
      rw [h]
      constructor
      · rintro ⟨record, hrecord, hname⟩
        exact ⟨record, hrecord, hname, hkeyed s record hrecord⟩
      · rintro ⟨record, hrecord, hname, _⟩
        exact ⟨record, hrecord, hname⟩
    · intro tenant database name found hget record
      rcases hfound tenant database name with ⟨hnone, hs⟩ | ⟨r, hsome, hs, hr, hname⟩
      · rw [hnone] at hget
        obtain rfl := Except.ok.inj hget
        constructor
        · intro hcontra
          cases hcontra
        · rintro ⟨id, hid, hkey⟩
          have hlookup := h.lookup_name hid
          rw [hkey, hs] at hlookup
          cases hlookup
      · rw [hsome] at hget
        obtain rfl := Except.ok.inj hget
        constructor
        · intro heq
          obtain rfl := Option.some.inj heq
          exact ⟨r.config.id, hr, hname⟩
        · rintro ⟨id, hid, hkey⟩
          have hlookup := h.lookup_name hid
          rw [hkey, hs] at hlookup
          rw [getCollectionById, getCollectionRecord, ← Option.some.inj hlookup, hr] at hid
          exact hid
    · intro tenant database name
      rcases hfound tenant database name with ⟨hnone, _⟩ | ⟨r, hsome, _⟩
      · exact ⟨none, hnone⟩
      · exact ⟨some r, hsome⟩

end RedbCatalog

/-! ## Sequences of calls -/

namespace CatalogCall

/-- A creation that goes through takes an id no record stands under. -/
def TakesFreshId (fault : Option String) (a : CatalogCall) (c : RedbCatalog) : Prop :=
  match a with
  | .createCollection config =>
      fault = none → config.name ≠ "" → c.collectionByName.lookup config.nameKey = none →
        c.collections.lookup config.id.toString = none
  | _ => True

theorem keyed_after {c : RedbCatalog} (h : c.Keyed) (fault : Option String) (a : CatalogCall) :
    (a.after fault c).Keyed := by
  rcases a.after_cases fault c with heq | he
  · rw [heq]
    exact h
  · exact h.effect he

theorem namesAgree_after {c : RedbCatalog} (h : c.NamesAgree) {fault : Option String}
    {a : CatalogCall} (hfresh : a.TakesFreshId fault c) : (a.after fault c).NamesAgree := by
  rw [after]
  cases hr : a.run fault c with
  | error e c' =>
      rw [run_error hr]
      exact h
  | ok u c' =>
      show c'.NamesAgree
      cases run_ok hr with
      | namespaces hrows hnames =>
          rw [NamesAgree, hrows, hnames]
          exact h
      | create config hname hfree =>
          obtain ⟨record, c₁, hcreate, _⟩ := Outcome.bind_ok.mp hr
          obtain ⟨_, hfault, _⟩ := createCollection_ok.mp hcreate
          exact NamesAgree.withCollection h (hfresh hfault hname hfree) hfree
      | rewrite id old new hold hname _ => exact h.rewrite hold hname
      | delete id record hrecord => exact h.erase hrecord

theorem not_namesAgree_after {c : RedbCatalog} (h : c.NamesAgree) {fault : Option String}
    {a : CatalogCall} (hfresh : ¬ a.TakesFreshId fault c) : ¬ (a.after fault c).NamesAgree := by
  cases a with
  | createCollection config =>
      simp only [TakesFreshId, Classical.not_imp] at hfresh
      obtain ⟨hfault, hname, hfree, hused⟩ := hfresh
      obtain ⟨record, hrecord⟩ := Option.ne_none_iff_exists'.mp hused
      have hcreate := createCollection_ok.mpr ⟨hname, hfault, hfree, rfl, rfl⟩
      have hafter : (CatalogCall.createCollection config).after fault c =
          c.withCollection config := by
        have hr : (CatalogCall.createCollection config).run fault c =
            .ok () (c.withCollection config) := Outcome.bind_ok.mpr ⟨_, _, hcreate, rfl⟩
        rw [after, hr]
        rfl
      rw [hafter]
      exact h.not_insert (r := ⟨config, 0, 0⟩) hrecord hfree
  | _ => exact absurd trivial hfresh

end CatalogCall

namespace RedbCatalog

/-- The catalog after a sequence of calls on an empty one. -/
def afterAll (calls : List (Option String × CatalogCall)) : RedbCatalog :=
  calls.foldl (fun c call => call.2.after call.1 c) {}

theorem afterAll_snoc (calls : List (Option String × CatalogCall)) (fault : Option String)
    (a : CatalogCall) : afterAll (calls ++ [(fault, a)]) = a.after fault (afterAll calls) := by
  simp only [afterAll, List.foldl_append, List.foldl_cons, List.foldl_nil]

theorem keyed_afterAll (calls : List (Option String × CatalogCall)) : (afterAll calls).Keyed := by
  induction calls using List.reverseRecOn with
  | nil => exact keyed_empty
  | append_singleton calls call ih =>
      rw [afterAll_snoc]
      exact CatalogCall.keyed_after ih call.1 call.2

theorem namesAgree_afterAll {calls : List (Option String × CatalogCall)}
    (h : ∀ pre fault a, pre ++ [(fault, a)] <+: calls → a.TakesFreshId fault (afterAll pre)) :
    (afterAll calls).NamesAgree := by
  induction calls using List.reverseRecOn with
  | nil => exact UniqueIndex.agrees_empty
  | append_singleton calls call ih =>
      rw [afterAll_snoc]
      apply CatalogCall.namesAgree_after
      · exact ih fun pre fault a hpre => h pre fault a (hpre.trans (List.prefix_append _ _))
      · exact h calls call.1 call.2 (List.prefix_refl _)

/-- Through a sequence of calls the tables stay in bijection, and a call that
fails leaves them alone, exactly when no creation goes through under an id that
is in use. -/
theorem bijective_iff (text : UuidText) (calls : List (Option String × CatalogCall)) :
    ((∀ pre, pre <+: calls → Bijective text (afterAll pre)) ∧
      ∀ pre fault a, pre ++ [(fault, a)] <+: calls → ∀ e c',
        a.run fault (afterAll pre) = .error e c' → c' = afterAll pre) ↔
      ∀ pre fault a, pre ++ [(fault, a)] <+: calls → a.TakesFreshId fault (afterAll pre) := by
  constructor
  · rintro ⟨hbijective, _⟩ pre fault a hpre
    by_contra hfresh
    have hbefore := hbijective pre ((List.prefix_append _ _).trans hpre)
    have hafter := hbijective _ hpre
    rw [bijective_iff_namesAgree text (keyed_afterAll _)] at hbefore hafter
    rw [afterAll_snoc] at hafter
    exact CatalogCall.not_namesAgree_after hbefore hfresh hafter
  · intro hfresh
    refine ⟨?_, fun pre fault a _ e c' hr => CatalogCall.run_error hr⟩
    intro pre hpre
    rw [bijective_iff_namesAgree text (keyed_afterAll pre)]
    apply namesAgree_afterAll
    intro pre' fault a hpre'
    exact hfresh pre' fault a (hpre'.trans hpre)

/-- Two collections created with one id: both names stay in the index. -/
theorem two_names_for_one_id :
    ¬ Bijective hexText (afterAll
      [(none, .createCollection { id := ⟨1⟩, name := "a", dimension := 1, space := .l2 }),
        (none, .createCollection { id := ⟨1⟩, name := "b", dimension := 1, space := .l2 })]) := by
  intro h
  have hkeys := h.one_name ("default_tenant", "default_database", "a")
    ("default_tenant", "default_database", "b") (Uuid.toString ⟨1⟩) (by rfl) (by rfl)
  exact absurd hkeys (by decide)

end RedbCatalog

end Rekha
