import Rekha.Engine.InferredDimension
import Rekha.Server.Chroma
import Rekha.Server.Lifecycle

/-!
# Tenant isolation of the record routes

The last segment of a record route is a name or an id, and only the lookup by
name is scoped to the tenant and database of the path. `isolated_iff` says for
every request exactly when it stays within its scope: when the segment is not an
id, or the id is that of a collection in the scope.
-/

namespace Rekha.Server

open RedbCatalog Outcome

/-! ## What an action on one collection sees and changes -/

/-- What a computation returns, without the state it ends in. -/
def result {ε σ α : Type} : EStateM.Result ε σ α → Except ε α
  | .ok a _ => .ok a
  | .error e _ => .error e

/-- The action sees and changes one collection. -/
structure ActsOn {α : Type} (id : Uuid) (m : ServerM α) : Prop where
  sees : ∀ e e', e.collections.lookup id = e'.collections.lookup id →
    result (m e) = result (m e')
  row : ∀ e s, s ≠ id.toString →
    (final (m e)).catalog.collections.lookup s = e.catalog.collections.lookup s
  opened : ∀ e id', id' ≠ id → (final (m e)).collections.lookup id' = e.collections.lookup id'
  found : ∀ e missing, id ∈ e.collections → result (m e) ≠ .error (.collectionNotFound missing)

namespace ActsOn

variable {α β : Type} {id : Uuid}

theorem map_ok {m : ServerM α} {e e' : Engine} {a : α} (f : α → β) (h : m e = .ok a e') :
    (f <$> m) e = .ok (f a) e' := by
  show EStateM.map f m e = _
  rw [EStateM.map, h]

theorem map_error {m : ServerM α} {e e' : Engine} {err : EngineError} (f : α → β)
    (h : m e = .error err e') : (f <$> m) e = .error err e' := by
  show EStateM.map f m e = _
  rw [EStateM.map, h]

theorem final_map (m : ServerM α) (f : α → β) (e : Engine) : final ((f <$> m) e) = final (m e) := by
  cases h : m e with
  | ok a e' => rw [map_ok f h]; rfl
  | error err e' => rw [map_error f h]; rfl

theorem result_map (m : ServerM α) (f : α → β) (e : Engine) :
    result ((f <$> m) e) = (result (m e)).map f := by
  cases h : m e with
  | ok a e' => rw [map_ok f h]; rfl
  | error err e' => rw [map_error f h]; rfl

theorem map {m : ServerM α} (h : ActsOn id m) (f : α → β) : ActsOn id (f <$> m) := by
  refine ⟨fun e e' he => ?_, fun e s hs => ?_, fun e id' hid => ?_, fun e missing hmem => ?_⟩
  · rw [result_map, result_map, h.sees e e' he]
  · rw [final_map]
    exact h.row e s hs
  · rw [final_map]
    exact h.opened e id' hid
  · rw [result_map]
    intro hcontra
    cases hm : result (m e) with
    | ok a =>
        rw [hm] at hcontra
        cases hcontra
    | error err =>
        rw [hm] at hcontra
        cases hcontra
        exact h.found e missing hmem hm

theorem read {f : Engine → Except EngineError α}
    (hsees : ∀ e e', e.collections.lookup id = e'.collections.lookup id → f e = f e')
    (hfound : ∀ e missing, id ∈ e.collections → f e ≠ .error (.collectionNotFound missing)) :
    ActsOn id (do let e ← get; Outcome.ofExcept (f e)) := by
  have hrun : ∀ e, (do let e ← get; Outcome.ofExcept (f e) : ServerM α) e =
      Outcome.ofExcept (f e) e := fun _ => rfl
  have hresult : ∀ e, result ((do let e ← get; Outcome.ofExcept (f e) : ServerM α) e) = f e := by
    intro e
    rw [hrun]
    unfold Outcome.ofExcept
    cases f e <;> rfl
  have hfinal : ∀ e, final ((do let e ← get; Outcome.ofExcept (f e) : ServerM α) e) = e := by
    intro e
    rw [hrun, final_ofExcept]
  refine ⟨fun e e' he => ?_, fun e s hs => ?_, fun e id' hid => ?_, fun e missing hmem => ?_⟩
  · rw [hresult, hresult]
    exact hsees e e' he
  · rw [hfinal]
  · rw [hfinal]
  · rw [hresult]
    exact hfound e missing hmem

theorem lookup_storeRow (c : RedbCatalog) (id : Uuid) (row : CatalogRow) {s : String}
    (hs : s ≠ id.toString) :
    (Engine.storeRow c id row).collections.lookup s = c.collections.lookup s := by
  rw [Engine.storeRow]
  cases c.collections.lookup id.toString with
  | none => rfl
  | some record => exact AList.lookup_insert_ne hs

theorem onCollection {m : EngineM α}
    (hm : Raises (fun err => ∀ missing, err ≠ .collectionNotFound missing) m) :
    ActsOn id (Engine.onCollection id m) := by
  refine ⟨fun e e' he => ?_, fun e s hs => ?_, fun e id' hid => ?_, fun e missing hmem => ?_⟩
  · unfold Engine.onCollection Engine.collection
    rw [he]
    cases e'.collections.lookup id with
    | none => rfl
    | some coll =>
        dsimp only
        cases m coll <;> rfl
  · unfold Engine.onCollection Engine.collection
    cases e.collections.lookup id with
    | none => rfl
    | some coll =>
        dsimp only
        cases m coll <;> exact lookup_storeRow _ _ _ hs
  · unfold Engine.onCollection Engine.collection
    cases e.collections.lookup id with
    | none => rfl
    | some coll =>
        dsimp only
        cases m coll <;> exact AList.lookup_insert_ne hid
  · obtain ⟨coll, _, hcoll⟩ := Engine.collection_of_mem hmem
    unfold Engine.onCollection
    rw [hcoll]
    dsimp only
    intro hcontra
    cases hrun : m coll with
    | ok a c =>
        rw [hrun] at hcontra
        cases hcontra
    | error err c =>
        rw [hrun] at hcontra
        have hne := hm coll err c hrun
        cases err with
        | collectionNotFound id => exact hne id rfl
        | _ => cases hcontra

end ActsOn

/-! ## The routes as actions -/

/-- Errors other than that of a missing collection. -/
def Found (err : Rekha.EngineError) : Prop := ∀ missing, err ≠ .collectionNotFound missing

theorem keeps_putBatch_found (persisted : Bool)
    {validate : Collection → Except Rekha.EngineError Unit}
    (hvalidate : ∀ c, Validates (validate c)) (es : List Embedding) (ops : List Operation) :
    Keeps (fun _ => True) Found (putBatch persisted validate es ops) := by
  have hinfer : Keeps (fun _ => True) Found (inferDimension es) := by
    apply Keeps.get_bind
    intro c _
    cases es with
    | nil => exact Keeps.pure none
    | cons e es =>
        dsimp only
        split
        · exact Keeps.bind (Keeps.modify fun _ _ => trivial) fun _ => Keeps.pure _
        · exact Keeps.pure none
  refine Keeps.bind hinfer fun inferred => Keeps.get_bind fun c _ => ?_
  refine Keeps.ofExcept_bind (fun err herr => ?_) fun _ _ => ?_
  · obtain ⟨msg, rfl⟩ := hvalidate c err herr
    intro missing hcontra
    cases hcontra
  · refine Keeps.bind (Collection.keeps_persistDimension persisted fun _ _ _ _ => trivial)
      fun _ => ?_
    exact Keeps.bind (Collection.fails_writeOps (fun _ _ => by simp) ops) fun _ =>
      Keeps.bind (Collection.fails_flushIfNeeded fun _ _ => by simp) fun _ =>
        Collection.fails_autoCheckpoint fun _ _ => by simp

theorem raises_add (persisted : Bool) (req : ChromaAddRequest) :
    Raises Found (add persisted req.ids req.embeddings req.metadatas req.documents) :=
  (keeps_putBatch_found persisted (fun _ =>
    Validates.bind (Validates.checkCounts _ _ _ _ _ _) (Validates.checkNewIds _ _ _)) _ _).raises

theorem raises_upsert (persisted : Bool) (req : ChromaAddRequest) :
    Raises Found (upsert persisted req.ids req.embeddings req.metadatas req.documents) :=
  (keeps_putBatch_found persisted (fun _ => Validates.checkCounts _ _ _ _ _ _) _ _).raises

theorem raises_update_of {E : Rekha.EngineError → Prop} (hvalidation : ∀ msg, E (.validation msg))
    (hwal : ∀ e, E (.wal e)) (hpanicked : ∀ msg, E (.panicked msg)) (req : ChromaAddRequest) :
    Raises E (update req.ids req.metadatas req.documents) := by
  refine Keeps.raises (Keeps.get_bind fun c _ => Keeps.ofExcept_bind (fun err herr => ?_)
    fun _ _ => Collection.fails_written hwal hpanicked _)
  have hvalidates : Validates (c.validateUpdate req.ids req.metadatas req.documents) :=
    Validates.bind (Validates.checkSliceLengths _ _ _ _)
      (Validates.bind (Validates.checkSliceLengths _ _ _ _) (Validates.checkKnownIds _ _))
  obtain ⟨msg, rfl⟩ := hvalidates err herr
  exact hvalidation msg

theorem raises_update (req : ChromaAddRequest) :
    Raises Found (update req.ids req.metadatas req.documents) :=
  raises_update_of (fun _ _ => by simp) (fun _ _ => by simp) (fun _ _ => by simp) req

theorem raises_delete (ids : List Id) : Raises Found (delete ids) :=
  (Collection.fails_written (fun _ _ => by simp) (fun _ _ => by simp) _).raises

namespace RecordRequest

/-- The checks of a request that come before its collection is looked up. -/
def validate : RecordRequest → Except EngineError Unit
  | .add _ req | .upsert _ req => validateChromaAdd req
  | .update req => validateBatch req.ids
  | .delete ids => validateBatch ids
  | .query req => validateChromaQuery req
  | .get _ | .count => .ok ()

end RecordRequest

section Routes

variable {α β : Type} {text : UuidText} {tenant database name : String}
  {validate : Except EngineError Unit} {act : Uuid → ServerM α} {e : Engine}

theorem recordRoute_rejected {err : EngineError} (hv : validate = .error err) :
    recordRoute text tenant database name validate act e = .error err e := by
  subst hv
  rfl

theorem recordRoute_unresolved {err : EngineError} (hv : validate = .ok ())
    (hr : resolveCollection text e tenant database name = .error err) :
    recordRoute text tenant database name validate act e = .error err e := by
  subst hv
  refine bind_error.mpr (Or.inr ⟨(), e, rfl, ?_⟩)
  refine bind_error.mpr (Or.inr ⟨e, e, rfl, bind_error.mpr (Or.inl ?_)⟩)
  exact ofExcept_error.mpr ⟨hr, rfl⟩

theorem recordRoute_resolved {id : Uuid} (hv : validate = .ok ())
    (hr : resolveCollection text e tenant database name = .ok id) :
    recordRoute text tenant database name validate act e = act id e := by
  subst hv
  exact bind_of_ok (ofExcept_ok.mpr ⟨hr, rfl⟩)

theorem map_recordRoute (f : α → β) :
    f <$> recordRoute text tenant database name validate act =
      recordRoute text tenant database name validate fun id => f <$> act id := by
  funext e
  cases hv : validate with
  | error err => rfl
  | ok u =>
      cases hr : resolveCollection text e tenant database name with
      | error err =>
          rw [recordRoute_unresolved rfl hr]
          exact ActsOn.map_error f (recordRoute_unresolved rfl hr)
      | ok id =>
          rw [recordRoute_resolved rfl hr]
          show EStateM.map f _ e = EStateM.map f _ e
          unfold EStateM.map
          rw [recordRoute_resolved rfl hr]

end Routes

/-! ## The reads -/

theorem collection_congr {e e' : Engine} {id : Uuid}
    (h : e.collections.lookup id = e'.collections.lookup id) :
    e.collection id = e'.collection id := by
  unfold Engine.collection
  rw [h]

theorem mapM_error {ε α β : Type} {f : α → Except ε β} {err : ε} : ∀ {xs : List α},
    xs.mapM f = .error err → ∃ x ∈ xs, f x = .error err
  | [], h => by
      rw [List.mapM_nil] at h
      cases h
  | x :: xs, h => by
      rw [List.mapM_cons] at h
      cases hx : f x with
      | error err' =>
          rw [hx] at h
          have heq : (Except.error err' : Except ε (List β)) = .error err := h
          exact ⟨x, List.mem_cons_self, by rw [hx, Except.error.inj heq]⟩
      | ok y =>
          rw [hx] at h
          cases hxs : xs.mapM f with
          | error err' =>
              obtain ⟨x', hx', herr⟩ := mapM_error hxs
              have heq : (Except.error err' : Except ε (List β)) = .error err := by
                rw [hxs] at h
                exact h
              rw [Except.error.inj heq] at herr
              exact ⟨x', List.mem_cons_of_mem x hx', herr⟩
          | ok ys =>
              rw [hxs] at h
              cases h

theorem ActsOn.read_map {α β : Type} {id : Uuid} {f : Engine → Except EngineError α} {g : α → β}
    (h : ActsOn id (do let e ← get; Outcome.ofExcept (f e))) :
    ActsOn id (do let e ← get; let a ← Outcome.ofExcept (f e); pure (g a)) := by
  have heq : (do let e ← get; let a ← Outcome.ofExcept (f e); pure (g a) : ServerM β) =
      g <$> (do let e ← get; Outcome.ofExcept (f e)) := by
    funext e
    show EStateM.bind (Outcome.ofExcept (f e)) (fun a => pure (g a)) e =
      EStateM.map g (fun e => Outcome.ofExcept (f e) e) e
    unfold EStateM.bind EStateM.map Outcome.ofExcept
    dsimp only
    cases f e <;> rfl
  rw [heq]
  exact h.map g

theorem actsOn_count (id : Uuid) :
    ActsOn id (do let e ← get; Outcome.ofExcept (e.count id)) := by
  apply ActsOn.read
  · intro e e' he
    rw [Engine.count, Engine.count, collection_congr he]
  · intro e missing hmem hcontra
    obtain ⟨coll, _, hcoll⟩ := Engine.collection_of_mem hmem
    rw [Engine.count, hcoll] at hcontra
    cases hcontra

theorem actsOn_get (id : Uuid) (req : ChromaGetRequest) :
    ActsOn id (do
      let e ← get
      let records ← Outcome.ofExcept (e.get id (req.ids.getD []))
      pure (chromaGetResponse req.include_ records)) := by
  apply ActsOn.read_map
  apply ActsOn.read
  · intro e e' he
    rw [Engine.get, Engine.get, collection_congr he]
  · intro e missing hmem hcontra
    obtain ⟨coll, _, hcoll⟩ := Engine.collection_of_mem hmem
    rw [Engine.get, hcoll] at hcontra
    cases hcontra

theorem actsOn_query (K : Kernels) (id : Uuid) (req : ChromaQueryRequest) :
    ActsOn id (do
      let e ← get
      let allResults ← Outcome.ofExcept (req.queryEmbeddings.mapM fun embedding =>
        e.query K id embedding req.nResults ⟨0, req.whereFilter, 4⟩)
      pure (chromaQueryResponse req.include_ allResults)) := by
  apply ActsOn.read_map
  apply ActsOn.read
  · intro e e' he
    simp only [Engine.query, collection_congr he]
  · intro e missing hmem hcontra
    obtain ⟨embedding, _, herr⟩ := mapM_error hcontra
    exact Engine.query_ne_collectionNotFound hmem K embedding req.nResults _ missing herr

namespace RecordRequest

theorem handle_eq (text : UuidText) (K : Kernels) (req : RecordRequest) :
    ∃ act : Uuid → ServerM RecordResponse, (∀ id, ActsOn id (act id)) ∧
      ∀ tenant database name, req.handle text K tenant database name =
        recordRoute text tenant database name req.validate act := by
  cases req with
  | add persisted req =>
      exact ⟨_, fun id => (ActsOn.onCollection (raises_add persisted req)).map _,
        fun _ _ _ => map_recordRoute _⟩
  | upsert persisted req =>
      exact ⟨_, fun id => (ActsOn.onCollection (raises_upsert persisted req)).map _,
        fun _ _ _ => map_recordRoute _⟩
  | update req =>
      exact ⟨_, fun id => (ActsOn.onCollection (raises_update req)).map _,
        fun _ _ _ => map_recordRoute _⟩
  | delete ids =>
      exact ⟨_, fun id => (ActsOn.onCollection (raises_delete ids)).map _,
        fun _ _ _ => map_recordRoute _⟩
  | query req => exact ⟨_, fun id => (actsOn_query K id req).map _, fun _ _ _ => map_recordRoute _⟩
  | get req => exact ⟨_, fun id => (actsOn_get id req).map _, fun _ _ _ => map_recordRoute _⟩
  | count => exact ⟨_, fun id => (actsOn_count id).map _, fun _ _ _ => map_recordRoute _⟩

end RecordRequest

/-! ## Scopes -/

/-- The collection belongs to the tenant and database. -/
def InScope (tenant database : String) (record : CollectionRecord) : Prop :=
  record.config.tenant = tenant ∧ record.config.database = database

/-- Two engines that differ only in collections outside the scope. -/
structure SameScope (tenant database : String) (e e' : Engine) : Prop where
  names : ∀ name, e.catalog.collectionByName.lookup (tenant, database, name) =
    e'.catalog.collectionByName.lookup (tenant, database, name)
  records : ∀ s record, InScope tenant database record →
    (e.catalog.collections.lookup s = some record ↔ e'.catalog.collections.lookup s = some record)
  opened : ∀ id record, InScope tenant database record →
    e.catalog.collections.lookup id.toString = some record →
      e.collections.lookup id = e'.collections.lookup id

def RecordRequest.response (text : UuidText) (K : Kernels) (tenant database name : String)
    (req : RecordRequest) (e : Engine) : Except EngineError RecordResponse :=
  result (req.handle text K tenant database name e)

def RecordRequest.after (text : UuidText) (K : Kernels) (tenant database name : String)
    (req : RecordRequest) (e : Engine) : Engine :=
  final (req.handle text K tenant database name e)

/-- The request resolves within the scope of its path, is answered from it, and
leaves everything outside it alone. -/
structure Isolated (text : UuidText) (K : Kernels) (tenant database name : String)
    (req : RecordRequest) (e : Engine) : Prop where
  resolves : ∀ id, resolveCollection text e tenant database name = .ok id →
    ∃ record, e.catalog.collections.lookup id.toString = some record ∧
      InScope tenant database record
  answers : ∀ e' : Engine, e'.catalog.Keyed → Bijective text e'.catalog →
    SameScope tenant database e e' →
    req.response text K tenant database name e' = req.response text K tenant database name e
  leaves : ∀ id record, e.catalog.collections.lookup id.toString = some record →
    ¬ InScope tenant database record →
    (req.after text K tenant database name e).catalog.collections.lookup id.toString =
        some record ∧
      (req.after text K tenant database name e).collections.lookup id = e.collections.lookup id

/-- The segment is not an id, or it is the id of a collection in the scope, or it
is an unused id and the request is rejected before it is looked up. -/
def StaysInScope (text : UuidText) (tenant database name : String) (req : RecordRequest)
    (e : Engine) : Prop :=
  ∀ id, text.parseStr name = .ok id →
    (∃ record, e.getCollectionById id = some record ∧ InScope tenant database record) ∨
    (e.getCollectionById id = none ∧ ∃ err, req.validate = .error err)

/-! ## Resolution -/

section Resolution

variable {text : UuidText} {tenant database name : String} {e : Engine}

theorem resolve_id {id : Uuid} (hparse : text.parseStr name = .ok id) {record : CollectionRecord}
    (hrecord : e.getCollectionById id = some record) :
    resolveCollection text e tenant database name = .ok record.config.id := by
  simp only [resolveCollection, hparse, hrecord]

theorem resolve_missing_id {id : Uuid} (hparse : text.parseStr name = .ok id)
    (hnone : e.getCollectionById id = none) :
    resolveCollection text e tenant database name = .error (.collectionNotFound name) := by
  simp only [resolveCollection, hparse, hnone]

theorem resolve_name (tenant database : String) {msg : String}
    (hparse : text.parseStr name = .error msg)
    (hkeyed : e.catalog.Keyed) (hnames : e.catalog.NamesAgree) :
    (e.catalog.collectionByName.lookup (tenant, database, name) = none ∧
      resolveCollection text e tenant database name = .error (.collectionNotFound name)) ∨
    ∃ record, e.catalog.collections.lookup record.config.id.toString = some record ∧
      record.config.nameKey = (tenant, database, name) ∧
      resolveCollection text e tenant database name = .ok record.config.id := by
  cases hs : e.catalog.collectionByName.lookup (tenant, database, name) with
  | none =>
      refine Or.inl ⟨rfl, ?_⟩
      simp only [resolveCollection, hparse, Engine.getCollection, getCollection_of_none text hs]
  | some s =>
      obtain ⟨record, hrecord, hname⟩ := (hnames _ _).mp hs
      obtain rfl := hkeyed s record hrecord
      refine Or.inr ⟨record, hrecord, hname, ?_⟩
      simp only [resolveCollection, hparse, Engine.getCollection,
        getCollection_of_lookup text hkeyed hs hrecord]

end Resolution

/-! ## Within the scope -/

section Isolation

variable {text : UuidText} {K : Kernels} {tenant database name : String} {req : RecordRequest}
  {e e' : Engine}

theorem record_of_id (hkeyed : e.catalog.Keyed) {id : Uuid} {record : CollectionRecord}
    (hrecord : e.getCollectionById id = some record) : record.config.id = id :=
  hexText.toString_inj.mp (hkeyed _ _ hrecord)

theorem resolves_alike (hkeyed : e.catalog.Keyed) (hnames : e.catalog.NamesAgree)
    (hkeyed' : e'.catalog.Keyed) (hnames' : e'.catalog.NamesAgree)
    (hsame : SameScope tenant database e e') (hvalid : req.validate = .ok ())
    (hstays : StaysInScope text tenant database name req e) :
    (∃ id record, e.catalog.collections.lookup id.toString = some record ∧
      InScope tenant database record ∧
      resolveCollection text e tenant database name = .ok id ∧
      resolveCollection text e' tenant database name = .ok id) ∨
    ∃ err, resolveCollection text e tenant database name = .error err ∧
      resolveCollection text e' tenant database name = .error err := by
  cases hparse : text.parseStr name with
  | ok id =>
      rcases hstays id hparse with ⟨record, hrecord, hscope⟩ | ⟨_, err, hrejected⟩
      · have hid := record_of_id hkeyed hrecord
        have hrecord' : e'.getCollectionById id = some record :=
          (hsame.records _ _ hscope).mp hrecord
        refine Or.inl ⟨id, record, hrecord, hscope, ?_, ?_⟩
        · rw [resolve_id hparse hrecord, hid]
        · rw [resolve_id hparse hrecord', hid]
      · rw [hvalid] at hrejected
        cases hrejected
  | error msg =>
      rcases resolve_name tenant database hparse hkeyed hnames with
        ⟨hnone, hr⟩ | ⟨record, hrecord, hname, hr⟩
      · rcases resolve_name tenant database hparse hkeyed' hnames' with
          ⟨_, hr'⟩ | ⟨record, hrecord, hname, _⟩
        · exact Or.inr ⟨_, hr, hr'⟩
        · have hlookup := hnames'.lookup_name hrecord
          rw [hname, ← hsame.names, hnone] at hlookup
          cases hlookup
      · have hscope : InScope tenant database record :=
          ⟨congrArg Prod.fst hname, congrArg (fun key => key.2.1) hname⟩
        have hlookup := hnames.lookup_name hrecord
        rw [hname] at hlookup
        refine Or.inl ⟨_, record, hrecord, hscope, hr, ?_⟩
        rcases resolve_name tenant database hparse hkeyed' hnames' with
          ⟨hnone, _⟩ | ⟨record', hrecord', hname', hr'⟩
        · rw [← hsame.names, hlookup] at hnone
          cases hnone
        · have hlookup' := hnames'.lookup_name hrecord'
          rw [hname', ← hsame.names, hlookup] at hlookup'
          rw [hr', hexText.toString_inj.mp (Option.some.inj hlookup')]

theorem isolated_of_staysInScope (hkeyed : e.catalog.Keyed) (hnames : e.catalog.NamesAgree)
    (hstays : StaysInScope text tenant database name req e) :
    Isolated text K tenant database name req e := by
  have hresolves : ∀ id, resolveCollection text e tenant database name = .ok id →
      ∃ record, e.catalog.collections.lookup id.toString = some record ∧
        InScope tenant database record := by
    intro id hr
    cases hparse : text.parseStr name with
    | ok uuid =>
        rcases hstays uuid hparse with ⟨record, hrecord, hscope⟩ | ⟨hnone, _⟩
        · rw [resolve_id hparse hrecord] at hr
          obtain rfl := Except.ok.inj hr
          rw [record_of_id hkeyed hrecord]
          exact ⟨record, hrecord, hscope⟩
        · rw [resolve_missing_id hparse hnone] at hr
          cases hr
    | error msg =>
        rcases resolve_name tenant database hparse hkeyed hnames with
          ⟨_, hmissing⟩ | ⟨record, hrecord, hname, hfound⟩
        · rw [hmissing] at hr
          cases hr
        · rw [hfound] at hr
          obtain rfl := Except.ok.inj hr
          exact ⟨record, hrecord, congrArg Prod.fst hname, congrArg (fun key => key.2.1) hname⟩
  obtain ⟨act, hact, hhandle⟩ := req.handle_eq text K
  refine ⟨hresolves, ?_, ?_⟩
  · intro e' hkeyed' hbijective' hsame
    have hnames' := (bijective_iff_namesAgree text hkeyed').mp hbijective'
    rw [RecordRequest.response, RecordRequest.response, hhandle]
    cases hvalid : req.validate with
    | error err => rw [recordRoute_rejected rfl, recordRoute_rejected rfl]; rfl
    | ok u =>
        rcases resolves_alike hkeyed hnames hkeyed' hnames' hsame hvalid hstays with
          ⟨id, record, hrecord, hscope, hr, hr'⟩ | ⟨err, hr, hr'⟩
        · rw [recordRoute_resolved rfl hr, recordRoute_resolved rfl hr']
          exact ((hact id).sees _ _ (hsame.opened id record hscope hrecord)).symm
        · rw [recordRoute_unresolved rfl hr, recordRoute_unresolved rfl hr']
          rfl
  · intro id record hrecord hscope
    rw [RecordRequest.after, hhandle]
    cases hvalid : req.validate with
    | error err =>
        rw [recordRoute_rejected rfl]
        exact ⟨hrecord, rfl⟩
    | ok u =>
        cases hr : resolveCollection text e tenant database name with
        | error err =>
            rw [recordRoute_unresolved rfl hr]
            exact ⟨hrecord, rfl⟩
        | ok id₀ =>
            obtain ⟨record₀, hrecord₀, hscope₀⟩ := hresolves id₀ hr
            have hne : id ≠ id₀ := by
              rintro rfl
              rw [hrecord] at hrecord₀
              obtain rfl := Option.some.inj hrecord₀
              exact hscope hscope₀
            rw [recordRoute_resolved rfl hr]
            refine ⟨?_, (hact id₀).opened e id hne⟩
            rw [(hact id₀).row e _ (fun heq => hne (hexText.toString_inj.mp heq))]
            exact hrecord

/-! ## Out of the scope -/

theorem exists_foreign (c : RedbCatalog) (tenant : String) (id : Uuid) :
    ∃ config : CollectionConfig, config.id = id ∧ config.tenant ≠ tenant ∧ config.name ≠ "" ∧
      c.collectionByName.lookup config.nameKey = none := by
  obtain ⟨other, hother⟩ := Infinite.exists_notMem_finset
    (insert tenant ((c.collectionByName.keys.map Prod.fst).toFinset))
  rw [Finset.mem_insert, not_or, List.mem_toFinset, List.mem_map] at hother
  refine ⟨{ id := id, tenant := other, name := "foreign", dimension := 0, space := .l2 }, rfl,
    hother.1, (by decide : "foreign" ≠ ""), ?_⟩
  rw [AList.lookup_eq_none, AList.mem_keys]
  intro hmem
  exact hother.2 ⟨_, hmem, rfl⟩

/-- The engine with another tenant's collection added. -/
def withForeign (e : Engine) (config : CollectionConfig) : Engine :=
  ⟨e.catalog.withCollection config, e.collections.insert config.id (Collection.fresh config)⟩

theorem sameScope_withForeign {config : CollectionConfig} (htenant : config.tenant ≠ tenant)
    (hunused : e.catalog.collections.lookup config.id.toString = none) :
    SameScope tenant database e (withForeign e config) := by
  refine ⟨?_, ?_, ?_⟩
  · intro name
    have hne : (tenant, database, name) ≠ config.nameKey := fun heq =>
      htenant (congrArg Prod.fst heq).symm
    rw [withForeign, withCollection, AList.lookup_insert_ne hne]
  · intro s record hscope
    rw [withForeign, withCollection, FinMap.lookup_insert_ite]
    split
    · rename_i hs
      rw [hs, hunused]
      constructor
      · intro h
        cases h
      · intro h
        obtain rfl := Option.some.inj h
        exact absurd hscope.1 htenant
    · exact Iff.rfl
  · intro id record _ hrecord
    have hne : id ≠ config.id := by
      rintro rfl
      rw [hunused] at hrecord
      cases hrecord
    rw [withForeign, AList.lookup_insert_ne hne]

theorem not_isolated_of_not_staysInScope (hkeyed : e.catalog.Keyed)
    (hnames : e.catalog.NamesAgree) (hleaves : ¬ StaysInScope text tenant database name req e) :
    ¬ Isolated text K tenant database name req e := by
  rw [StaysInScope] at hleaves
  push Not at hleaves
  obtain ⟨id, hparse, hscope, hrejected⟩ := hleaves
  intro h
  cases hrecord : e.getCollectionById id with
  | some record =>
      have hid := record_of_id hkeyed hrecord
      obtain ⟨record', hrecord', hscope'⟩ := h.resolves id (by rw [resolve_id hparse hrecord, hid])
      have heq : some record' = some record := hrecord'.symm.trans hrecord
      obtain rfl := Option.some.inj heq
      exact hscope record' hrecord hscope'
  | none =>
      obtain ⟨act, hact, hhandle⟩ := req.handle_eq text K
      have hvalid : req.validate = .ok () := by
        cases hv : req.validate with
        | ok u => rfl
        | error err => exact absurd hv (hrejected hrecord err)
      obtain ⟨config, rfl, htenant, hname, hfree⟩ := exists_foreign e.catalog tenant id
      have hkeyed' : (withForeign e config).catalog.Keyed :=
        hkeyed.effect (.create config hname hfree)
      have hnames' : (withForeign e config).catalog.NamesAgree :=
        NamesAgree.withCollection hnames hrecord hfree
      have hanswers := h.answers (withForeign e config) hkeyed'
        ((bijective_iff_namesAgree text hkeyed').mpr hnames')
        (sameScope_withForeign htenant hrecord)
      have hfound : (withForeign e config).getCollectionById config.id = some ⟨config, 0, 0⟩ :=
        AList.lookup_insert _
      rw [RecordRequest.response, RecordRequest.response, hhandle,
        recordRoute_unresolved hvalid (resolve_missing_id hparse hrecord),
        recordRoute_resolved hvalid (resolve_id hparse hfound)] at hanswers
      exact (hact config.id).found _ name (AList.mem_insert _ |>.mpr (Or.inl rfl)) hanswers

/-- A request stays within the tenant and database of its path exactly when its
last segment is not an id, or the id of a collection there (or unused, and the
request is rejected before the lookup). -/
theorem isolated_iff (text : UuidText) (K : Kernels) (tenant database name : String)
    (req : RecordRequest) (e : Engine) (hkeyed : e.catalog.Keyed)
    (hbijective : Bijective text e.catalog) :
    Isolated text K tenant database name req e ↔ StaysInScope text tenant database name req e := by
  have hnames := (bijective_iff_namesAgree text hkeyed).mp hbijective
  constructor
  · intro h
    by_contra hleaves
    exact not_isolated_of_not_staysInScope hkeyed hnames hleaves h
  · exact isolated_of_staysInScope hkeyed hnames

end Isolation

/-! ## Another tenant's collection by its id -/

/-- An engine with the collection of `demoConfig`. -/
def demoEngine : Engine :=
  ⟨RedbCatalog.withCollection {} demoConfig, AList.singleton demoConfig.id (.fresh demoConfig)⟩

theorem keyed_demoEngine : demoEngine.catalog.Keyed :=
  keyed_empty.effect (.create demoConfig (by decide) (by rfl))

theorem bijective_demoEngine : Bijective hexText demoEngine.catalog :=
  (bijective_iff_namesAgree hexText keyed_demoEngine).mpr
    (NamesAgree.withCollection UniqueIndex.agrees_empty (by rfl) (by rfl))

theorem demoEngine_record : demoEngine.getCollectionById demoConfig.id =
    some ⟨demoConfig, 0, 0⟩ := by
  rfl

/-- A count under a foreign tenant finds the collection by its id. -/
theorem foreign_id_resolves : ¬ Isolated hexText (exactKernels fun _ _ _ => ⟨0⟩) "other_tenant"
    "default_database" demoConfig.id.toString .count demoEngine := by
  intro h
  have hr : resolveCollection hexText demoEngine "other_tenant" "default_database"
      demoConfig.id.toString = .ok demoConfig.id :=
    resolve_id (hexText.parseStr_toString _) demoEngine_record
  obtain ⟨record, hrecord, htenant, _⟩ := h.resolves demoConfig.id hr
  have heq := demoEngine_record.symm.trans hrecord
  obtain rfl := Option.some.inj heq
  exact absurd htenant (by decide)

theorem isolated_demo : Isolated hexText (exactKernels fun _ _ _ => ⟨0⟩) "default_tenant"
    "default_database" demoConfig.id.toString .count demoEngine := by
  refine (isolated_iff hexText _ _ _ _ _ demoEngine keyed_demoEngine bijective_demoEngine).mpr ?_
  intro id hparse
  rw [hexText.parseStr_toString] at hparse
  obtain rfl := Except.ok.inj hparse
  exact Or.inl ⟨_, demoEngine_record, rfl, rfl⟩

end Rekha.Server
