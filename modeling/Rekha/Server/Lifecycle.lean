import Rekha.Server.Engine
import Rekha.Storage.NameIndex

/-!
# The map of open collections and the catalog

Creation commits the catalog entry before it opens the collection's files, and
returns early when that fails: the catalog then lists a collection the map does
not hold. `inStep_iff` says that this is the only way the two come apart, over
every sequence of creations and deletions and every step that may fail in them.
-/

namespace Rekha

namespace RedbCatalog

/-! ## Listing -/

theorem mem_listCollectionsAll {c : RedbCatalog} {record : CollectionRecord} :
    record ∈ c.listCollectionsAll ↔ ∃ s, c.collections.lookup s = some record := by
  rw [listCollectionsAll, List.mem_map]
  constructor
  · rintro ⟨⟨s, record⟩, hmem, rfl⟩
    exact ⟨s, FinMap.mem_entries_iff.mp (List.mem_mergeSort.mp hmem)⟩
  · rintro ⟨s, hs⟩
    exact ⟨⟨s, record⟩, List.mem_mergeSort.mpr (FinMap.mem_entries_iff.mpr hs), rfl⟩

def Lists (c : RedbCatalog) (id : Uuid) : Prop :=
  ∃ record ∈ c.listCollectionsAll, record.config.id = id

theorem Keyed.lists_iff {c : RedbCatalog} (h : c.Keyed) {id : Uuid} :
    c.Lists id ↔ (c.collections.lookup id.toString).isSome := by
  rw [Option.isSome_iff_exists]
  constructor
  · rintro ⟨record, hmem, rfl⟩
    obtain ⟨s, hs⟩ := mem_listCollectionsAll.mp hmem
    obtain rfl := h s record hs
    exact ⟨record, hs⟩
  · rintro ⟨record, hs⟩
    exact ⟨record, mem_listCollectionsAll.mpr ⟨_, hs⟩, hexText.toString_inj.mp (h _ record hs)⟩

/-- A creation that the catalog accepts. -/
def Accepts (c : RedbCatalog) (fault : Option String) (config : CollectionConfig) : Prop :=
  config.name ≠ "" ∧ fault = none ∧ c.collectionByName.lookup config.nameKey = none

theorem createCollection_accepted {c : RedbCatalog} {fault : Option String}
    {config : CollectionConfig} (h : c.Accepts fault config) :
    createCollection fault config c = .ok ⟨config, 0, 0⟩ (c.withCollection config) :=
  createCollection_ok.mpr ⟨h.1, h.2.1, h.2.2, rfl, rfl⟩

theorem createCollection_rejected {c : RedbCatalog} {fault : Option String}
    {config : CollectionConfig} (h : ¬ c.Accepts fault config) :
    ∃ e, createCollection fault config c = .error e c := by
  cases hr : createCollection fault config c with
  | ok record c' =>
      obtain ⟨hname, hfault, hfree, _⟩ := createCollection_ok.mp hr
      exact absurd ⟨hname, hfault, hfree⟩ h
  | error e c' =>
      rw [createCollection] at hr
      split at hr
      · obtain ⟨_, rfl⟩ := EStateM.Result.error.inj hr
        exact ⟨e, rfl⟩
      · rw [writeTxn_error hr]
        exact ⟨e, rfl⟩

theorem lookup_withCollection (c : RedbCatalog) (config : CollectionConfig) (id : Uuid) :
    (c.withCollection config).collections.lookup id.toString =
      if id = config.id then some ⟨config, 0, 0⟩ else c.collections.lookup id.toString := by
  rw [withCollection, FinMap.lookup_insert_ite]
  simp only [hexText.toString_inj]

theorem lookup_withoutCollection (c : RedbCatalog) (id : Uuid) (record : CollectionRecord)
    (id' : Uuid) : (c.withoutCollection id record).collections.lookup id'.toString =
      if id' = id then none else c.collections.lookup id'.toString := by
  rw [withoutCollection, FinMap.lookup_erase_ite]
  simp only [hexText.toString_inj]

end RedbCatalog

namespace Server

open RedbCatalog

namespace Engine

/-! ## The property -/

/-- The catalog lists the ids of the open collections, so no read of a listed
collection misses it. -/
structure InStep (e : Engine) : Prop where
  ids : ∀ id, e.catalog.Lists id ↔ id ∈ e.collections
  reads : ∀ id, e.catalog.Lists id → ∀ missing,
    e.count id ≠ .error (.collectionNotFound missing) ∧
    (∀ ids, e.get id ids ≠ .error (.collectionNotFound missing)) ∧
    ∀ K embedding k options,
      e.query K id embedding k options ≠ .error (.collectionNotFound missing)

theorem collection_of_mem {e : Engine} {id : Uuid} (h : id ∈ e.collections) :
    ∃ coll, e.collections.lookup id = some coll ∧ e.collection id = .ok coll := by
  obtain ⟨coll, hcoll⟩ := Option.isSome_iff_exists.mp (AList.lookup_isSome.mpr h)
  refine ⟨coll, hcoll, ?_⟩
  rw [collection, hcoll]

theorem query_found (K : Kernels) (coll : Collection) (embedding : Embedding) (k : ℕ)
    (options : QueryOptions) {err : Rekha.EngineError}
    (h : coll.query K embedding k options = .error err) (missing : String) :
    EngineError.ofCollection err ≠ .collectionNotFound missing := by
  rw [Collection.query] at h
  split at h
  · cases h
    exact EngineError.noConfusion
  · dsimp only at h
    cases hfilter : options.whereFilter with
    | none =>
        rw [hfilter] at h
        dsimp only at h
        split at h
        · rename_i err' hout
          split at hout
          · cases hout
          · rw [Collection.hybridSearch] at hout
            split at hout
            · cases hout
              cases h
              exact EngineError.noConfusion
            · cases hout
        · cases h
    | some filter =>
        rw [hfilter] at h
        dsimp only at h
        split at h
        · rename_i err' hout
          rw [Collection.filteredQuery] at hout
          dsimp only at hout
          split at hout
          · cases hout
          · split at hout
            · cases hout
              cases h
              exact EngineError.noConfusion
            · cases hout
        · cases h

theorem query_ne_collectionNotFound {e : Engine} {id : Uuid} (h : id ∈ e.collections)
    (K : Kernels) (embedding : Embedding) (k : ℕ) (options : QueryOptions) (missing : String) :
    e.query K id embedding k options ≠ .error (.collectionNotFound missing) := by
  obtain ⟨coll, _, hcoll⟩ := collection_of_mem h
  intro hcontra
  rw [query, hcoll] at hcontra
  have hresult : ofCollection (coll.query K embedding k options) = _ := hcontra
  cases hquery : coll.query K embedding k options with
  | ok points =>
      rw [hquery] at hresult
      cases hresult
  | error err =>
      rw [hquery] at hresult
      exact query_found K coll embedding k options hquery missing (Except.error.inj hresult)

theorem inStep_of_ids {e : Engine} (h : ∀ id, e.catalog.Lists id ↔ id ∈ e.collections) :
    e.InStep := by
  refine ⟨h, ?_⟩
  intro id hid missing
  obtain ⟨coll, _, hcoll⟩ := collection_of_mem ((h id).mp hid)
  refine ⟨?_, ?_, ?_⟩
  · rw [count, hcoll]
    intro hcontra
    cases hcontra
  · intro ids
    rw [get, hcoll]
    intro hcontra
    cases hcontra
  · intro K embedding k options
    exact query_ne_collectionNotFound ((h id).mp hid) K embedding k options missing

/-! ## Calls -/

theorem onCatalog_ok {α : Type} {m : CatalogM α} {e e' : Engine} {a : α} :
    onCatalog m e = .ok a e' ↔ ∃ c, m e.catalog = .ok a c ∧ e' = { e with catalog := c } := by
  unfold onCatalog
  cases m e.catalog with
  | ok b c =>
      simp only [EStateM.Result.ok.injEq]
      constructor
      · rintro ⟨rfl, rfl⟩
        exact ⟨c, ⟨rfl, rfl⟩, rfl⟩
      · rintro ⟨c, ⟨rfl, rfl⟩, rfl⟩
        exact ⟨rfl, rfl⟩
  | error err c => simp

section Creation

variable {fault : Option String} {opening : Opening} {config : CollectionConfig} {e : Engine}
  {record : CollectionRecord} {c : RedbCatalog}

theorem createCollection_of_error {err : CatalogError}
    (h : RedbCatalog.createCollection fault config e.catalog = .error err c) :
    createCollection fault opening config e = .error (.catalog err) { e with catalog := c } := by
  refine Outcome.bind_error.mpr (Or.inl ?_)
  rw [onCatalog, h]

theorem createCollection_of_fails {err : EngineError}
    (h : RedbCatalog.createCollection fault config e.catalog = .ok record c)
    (hopen : openCollection opening record = .error err) :
    createCollection fault opening config e = .error err { e with catalog := c } := by
  refine Outcome.bind_error.mpr (Or.inr ⟨_, _, onCatalog_ok.mpr ⟨c, h, rfl⟩, ?_⟩)
  exact Outcome.bind_error.mpr (Or.inl (Outcome.ofExcept_error.mpr ⟨hopen, rfl⟩))

theorem createCollection_of_opened {coll : Collection}
    (h : RedbCatalog.createCollection fault config e.catalog = .ok record c)
    (hopen : openCollection opening record = .ok coll) :
    createCollection fault opening config e =
      .ok record ⟨c, e.collections.insert config.id coll⟩ := by
  refine Outcome.bind_ok.mpr ⟨_, _, onCatalog_ok.mpr ⟨c, h, rfl⟩, ?_⟩
  exact Outcome.bind_ok.mpr ⟨coll, _, Outcome.ofExcept_ok.mpr ⟨hopen, rfl⟩, rfl⟩

end Creation

theorem createCollection_ok {fault : Option String} {opening : Opening}
    {config : CollectionConfig} {e e' : Engine} {record : CollectionRecord} :
    createCollection fault opening config e = .ok record e' ↔
      e.catalog.Accepts fault config ∧ record = ⟨config, 0, 0⟩ ∧
        ∃ coll, openCollection opening ⟨config, 0, 0⟩ = .ok coll ∧
          e' = ⟨e.catalog.withCollection config, e.collections.insert config.id coll⟩ := by
  constructor
  · intro h
    obtain ⟨record', e₁, hcatalog, h⟩ := Outcome.bind_ok.mp h
    obtain ⟨c, hcreate, rfl⟩ := onCatalog_ok.mp hcatalog
    obtain ⟨hname, hfault, hfree, rfl, rfl⟩ := RedbCatalog.createCollection_ok.mp hcreate
    obtain ⟨coll, e₂, hopen, h⟩ := Outcome.bind_ok.mp h
    obtain ⟨hopened, rfl⟩ := Outcome.ofExcept_ok.mp hopen
    obtain ⟨rfl, rfl⟩ := EStateM.Result.ok.inj h
    exact ⟨⟨hname, hfault, hfree⟩, rfl, coll, hopened, rfl⟩
  · rintro ⟨hacc, rfl, coll, hopen, rfl⟩
    exact createCollection_of_opened (createCollection_accepted hacc) hopen

/-- The two calls that change which collections there are, with the outcome of
their fallible steps. -/
inductive LifecycleCall where
  | create (fault : Option String) (opening : Opening) (config : CollectionConfig)
  | delete (fault : Option String) (walFile checkpointDir : Removal) (id : Uuid)

namespace LifecycleCall

def run : LifecycleCall → ServerM Unit
  | .create fault opening config => discard (createCollection fault opening config)
  | .delete fault walFile checkpointDir id => deleteCollection fault walFile checkpointDir id

/-- The engine after a call, whether it returned `Ok` or `Err`. -/
def after (a : LifecycleCall) (e : Engine) : Engine := Outcome.final (a.run e)

/-- Opening the collection succeeds, or the map holds the id already. -/
def Opens (a : LifecycleCall) (e : Engine) : Prop :=
  match a with
  | .create fault opening config => e.catalog.Accepts fault config →
      (∃ coll, openCollection opening ⟨config, 0, 0⟩ = .ok coll) ∨ config.id ∈ e.collections
  | .delete _ _ _ _ => True

theorem after_create (fault : Option String) (opening : Opening) (config : CollectionConfig)
    (e : Engine) :
    (¬ e.catalog.Accepts fault config ∧ (create fault opening config).after e = e) ∨
    (e.catalog.Accepts fault config ∧
      (∃ err, openCollection opening ⟨config, 0, 0⟩ = .error err) ∧
      (create fault opening config).after e =
        { e with catalog := e.catalog.withCollection config }) ∨
    e.catalog.Accepts fault config ∧ ∃ coll, openCollection opening ⟨config, 0, 0⟩ = .ok coll ∧
      (create fault opening config).after e =
        ⟨e.catalog.withCollection config, e.collections.insert config.id coll⟩ := by
  by_cases hacc : e.catalog.Accepts fault config
  · refine Or.inr ?_
    cases hopen : openCollection opening ⟨config, 0, 0⟩ with
    | error err =>
        refine Or.inl ⟨hacc, ⟨err, rfl⟩, ?_⟩
        have hcreate := createCollection_of_fails (createCollection_accepted hacc) hopen
        have hrun : (create fault opening config).run e = .error err _ :=
          Outcome.bind_error.mpr (Or.inl hcreate)
        rw [after, hrun]
        rfl
    | ok coll =>
        refine Or.inr ⟨hacc, coll, rfl, ?_⟩
        have hcreate := createCollection_of_opened (createCollection_accepted hacc) hopen
        have hrun : (create fault opening config).run e = .ok () _ :=
          Outcome.bind_ok.mpr ⟨_, _, hcreate, rfl⟩
        rw [after, hrun]
        rfl
  · refine Or.inl ⟨hacc, ?_⟩
    obtain ⟨err, herr⟩ := createCollection_rejected hacc
    have hrun : (create fault opening config).run e = .error (.catalog err) e :=
      Outcome.bind_error.mpr (Or.inl (createCollection_of_error herr))
    rw [after, hrun]
    rfl

theorem final_removeFiles (walFile checkpointDir : Removal) (e : Engine) :
    Outcome.final (removeFiles walFile checkpointDir e) = e := by
  cases walFile <;> cases checkpointDir <;> rfl

/-- What a deletion does to the catalog and the map, also when it fails at the
files. -/
theorem after_delete (fault : Option String) (walFile checkpointDir : Removal) (id : Uuid)
    (e : Engine) :
    (delete fault walFile checkpointDir id).after e = e ∨
    ∃ record, e.catalog.collections.lookup id.toString = some record ∧
      (delete fault walFile checkpointDir id).after e =
        ⟨e.catalog.withoutCollection id record, e.collections.erase id⟩ := by
  cases hr : RedbCatalog.deleteCollection fault id e.catalog with
  | error err c =>
      refine Or.inl ?_
      have hcatalog : onCatalog (RedbCatalog.deleteCollection fault id) e =
          .error (.catalog err) e := by
        unfold onCatalog
        rw [hr, writeTxn_error hr]
      have hrun : (delete fault walFile checkpointDir id).run e = .error (.catalog err) e :=
        Outcome.bind_error.mpr (Or.inl hcatalog)
      rw [after, hrun]
      rfl
  | ok u c =>
      refine Or.inr ?_
      obtain ⟨_, record, hrecord, rfl⟩ := deleteCollection_ok.mp hr
      refine ⟨record, hrecord, ?_⟩
      have hcatalog : onCatalog (RedbCatalog.deleteCollection fault id) e =
          .ok u { e with catalog := e.catalog.withoutCollection id record } :=
        onCatalog_ok.mpr ⟨_, hr, rfl⟩
      have hrun : (delete fault walFile checkpointDir id).run e = removeFiles walFile checkpointDir
          ⟨e.catalog.withoutCollection id record, e.collections.erase id⟩ :=
        Outcome.bind_of_ok hcatalog
      rw [after, hrun]
      exact final_removeFiles walFile checkpointDir _

theorem keyed_after {e : Engine} (h : e.catalog.Keyed) (a : LifecycleCall) :
    (a.after e).catalog.Keyed := by
  cases a with
  | create fault opening config =>
      have hcreate : ∀ hacc : e.catalog.Accepts fault config,
          (e.catalog.withCollection config).Keyed := fun hacc =>
        h.effect (.create config hacc.1 hacc.2.2)
      rcases after_create fault opening config e with ⟨_, heq⟩ | ⟨hacc, _, heq⟩ | ⟨hacc, _, _, heq⟩
      · rw [heq]
        exact h
      · rw [heq]
        exact hcreate hacc
      · rw [heq]
        exact hcreate hacc
  | delete fault walFile checkpointDir id =>
      rcases after_delete fault walFile checkpointDir id e with heq | ⟨record, hrecord, heq⟩
      · rw [heq]
        exact h
      · rw [heq]
        exact h.effect (.delete id record hrecord)

/-- A call keeps the two in step exactly when no creation stops behind the
catalog's commit. -/
theorem inStep_after {e : Engine} (hkeyed : e.catalog.Keyed) (h : e.InStep) (a : LifecycleCall) :
    (a.after e).InStep ↔ a.Opens e := by
  have hids : ∀ id, (e.catalog.collections.lookup id.toString).isSome ↔ id ∈ e.collections :=
    fun id => hkeyed.lists_iff.symm.trans (h.ids id)
  cases a with
  | create fault opening config =>
      rcases after_create fault opening config e with
        ⟨hrejected, heq⟩ | ⟨hacc, ⟨err, hfail⟩, heq⟩ | ⟨hacc, coll, hopen, heq⟩
      · rw [heq]
        exact iff_of_true h fun hacc => absurd hacc hrejected
      · have hkeyed' : (e.catalog.withCollection config).Keyed :=
          hkeyed.effect (.create config hacc.1 hacc.2.2)
        rw [heq]
        constructor
        · intro h' _
          refine Or.inr ((h'.ids config.id).mp ?_)
          rw [hkeyed'.lists_iff, lookup_withCollection, if_pos rfl]
          rfl
        · intro hopens
          have hmem : config.id ∈ e.collections := by
            rcases hopens hacc with ⟨coll, hok⟩ | hmem
            · rw [hfail] at hok
              cases hok
            · exact hmem
          apply inStep_of_ids
          intro id
          rw [hkeyed'.lists_iff, lookup_withCollection]
          split
          · rename_i hid
            rw [hid]
            exact iff_of_true rfl hmem
          · exact hids id
      · have hkeyed' : (e.catalog.withCollection config).Keyed :=
          hkeyed.effect (.create config hacc.1 hacc.2.2)
        rw [heq]
        refine iff_of_true ?_ fun _ => Or.inl ⟨coll, hopen⟩
        apply inStep_of_ids
        intro id
        rw [hkeyed'.lists_iff, lookup_withCollection, AList.mem_insert, ← hids id]
        split
        · rename_i hid
          exact iff_of_true rfl (Or.inl hid)
        · rename_i hid
          exact (or_iff_right hid).symm
  | delete fault walFile checkpointDir id =>
      refine iff_of_true ?_ trivial
      rcases after_delete fault walFile checkpointDir id e with heq | ⟨record, hrecord, heq⟩
      · rw [heq]
        exact h
      · have hkeyed' : (e.catalog.withoutCollection id record).Keyed :=
          hkeyed.effect (.delete id record hrecord)
        rw [heq]
        apply inStep_of_ids
        intro id'
        rw [hkeyed'.lists_iff, lookup_withoutCollection, AList.mem_erase, ← hids id']
        split
        · rename_i hid
          exact iff_of_false (by simp) fun hmem => hmem.1 hid
        · rename_i hid
          exact (and_iff_right hid).symm

end LifecycleCall

/-! ## Opening -/

theorem openAll_mem {openings : Uuid → Opening} : ∀ {records : List CollectionRecord}
    {collections collections' : FinMap Uuid Collection},
    openAll openings records collections = .ok collections' →
      ∀ id, id ∈ collections' ↔ id ∈ collections ∨ ∃ record ∈ records, record.config.id = id
  | [], collections, collections', h, id => by
      obtain rfl := Except.ok.inj h
      simp
  | record :: records, collections, collections', h, id => by
      rw [openAll] at h
      cases hopen : openCollection (openings record.config.id) record with
      | error err =>
          rw [hopen] at h
          cases h
      | ok c =>
          rw [hopen] at h
          rw [openAll_mem h id, AList.mem_insert, List.exists_mem_cons_iff]
          tauto

theorem inStep_open {catalog : RedbCatalog} {openings : Uuid → Opening} {e : Engine}
    (h : «open» catalog openings = .ok e) : e.InStep := by
  rw [«open»] at h
  cases hall : openAll openings catalog.listCollectionsAll ∅ with
  | error err =>
      rw [hall] at h
      cases h
  | ok collections =>
      rw [hall] at h
      obtain rfl := Except.ok.inj h
      apply inStep_of_ids
      intro id
      rw [openAll_mem hall id]
      exact (or_iff_right (AList.notMem_empty id)).symm

theorem open_catalog {catalog : RedbCatalog} {openings : Uuid → Opening} {e : Engine}
    (h : «open» catalog openings = .ok e) : e.catalog = catalog := by
  rw [«open»] at h
  split at h
  · cases h
  · obtain rfl := Except.ok.inj h
    rfl

/-! ## Sequences of calls -/

/-- The engine after a sequence of calls. -/
def afterAll (e : Engine) (calls : List LifecycleCall) : Engine :=
  calls.foldl (fun e a => a.after e) e

theorem afterAll_snoc (e : Engine) (calls : List LifecycleCall) (a : LifecycleCall) :
    e.afterAll (calls ++ [a]) = a.after (e.afterAll calls) := by
  simp only [afterAll, List.foldl_append, List.foldl_cons, List.foldl_nil]

theorem keyed_afterAll {e : Engine} (h : e.catalog.Keyed) (calls : List LifecycleCall) :
    (e.afterAll calls).catalog.Keyed := by
  induction calls using List.reverseRecOn with
  | nil => exact h
  | append_singleton calls a ih =>
      rw [afterAll_snoc]
      exact LifecycleCall.keyed_after ih a

/-- From an engine opened over a catalog that calls led to: catalog and map are
in step after each call of a sequence exactly when every creation the catalog
accepts gets its files open or reuses an id the map holds. -/
theorem inStep_iff (history : List (Option String × CatalogCall)) (openings : Uuid → Opening)
    (e : Engine) (hopen : «open» (RedbCatalog.afterAll history) openings = .ok e)
    (calls : List LifecycleCall) :
    (∀ pre, pre <+: calls → (e.afterAll pre).InStep) ↔
      ∀ pre a, pre ++ [a] <+: calls → a.Opens (e.afterAll pre) := by
  have hkeyed : e.catalog.Keyed := by
    rw [open_catalog hopen]
    exact RedbCatalog.keyed_afterAll history
  constructor
  · intro h pre a hpre
    have hafter := h _ hpre
    rw [afterAll_snoc] at hafter
    exact (LifecycleCall.inStep_after (keyed_afterAll hkeyed pre)
      (h pre ((List.prefix_append _ _).trans hpre)) a).mp hafter
  · intro h pre hpre
    induction pre using List.reverseRecOn with
    | nil => exact inStep_open hopen
    | append_singleton pre a ih =>
        rw [afterAll_snoc]
        exact (LifecycleCall.inStep_after (keyed_afterAll hkeyed pre)
          (ih ((List.prefix_append _ _).trans hpre)) a).mpr (h pre a hpre)

/-- A log file that does not open leaves the collection in the catalog only. -/
theorem listed_but_not_open : ¬ (Engine.afterAll {}
    [.create none (.fails (.io "permission denied")) demoConfig]).InStep := by
  intro h
  have hmem := (h.ids demoConfig.id).mp ⟨⟨demoConfig, 0, 0⟩, by
    rw [mem_listCollectionsAll]
    exact ⟨demoConfig.id.toString, by rfl⟩, rfl⟩
  exact absurd hmem (by decide)

theorem inStep_iff_demo :
    let order : HashOrder := ⟨fun m => m.entries, fun _ => List.Perm.refl _⟩
    let calls : List LifecycleCall :=
      [.create none (.files WalFile.empty {} order) demoConfig,
        .delete none .removed (.failed "busy") demoConfig.id]
    (∀ pre, pre <+: calls → (Engine.afterAll {} pre).InStep) ↔
      ∀ pre a, pre ++ [a] <+: calls → a.Opens (Engine.afterAll {} pre) := by
  intro order calls
  exact inStep_iff [] (fun _ => .fails (.io "")) {}
    (by simp [«open», RedbCatalog.afterAll, RedbCatalog.listCollectionsAll, openAll]) calls

end Engine

end Server

end Rekha
