import Rekha.Server.Engine

/-!
# The Chroma routes

The handlers below `/tenants/{tenant}/databases/{database}/collections`. A record
route validates its request, resolves the last path segment to a collection, and
acts on that. Where a handler replicates through Raft, the outcome of the write
is an argument; metadata is returned as it is stored, before it becomes JSON.
-/

namespace Rekha.Server

def maxBatchSize : ℕ := 10000
def maxQueryEmbeddings : ℕ := 100
def maxNResults : ℕ := 1000
def maxIdLength : ℕ := 512
def maxNameLength : ℕ := 512
def maxDimension : ℕ := 65536

/-- `Err(validation_err(msg))` if the condition holds. -/
def rejectIf (bad : Prop) [Decidable bad] (msg : String) : Except EngineError Unit :=
  if bad then .error (.validation msg) else .ok ()

def validateName (name : String) : Except EngineError Unit := do
  rejectIf (name = "") "name must not be empty"
  rejectIf (maxNameLength < name.utf8ByteSize) s!"name exceeds max length {maxNameLength}"

def engineErrorStatus : EngineError → ℕ
  | .collectionNotFound _ => 404
  | .validation _ => 400
  | _ => 500

/-! ## Requests and responses -/

structure ChromaCreateCollectionRequest where
  name : String
  metadata : Option Metadata
  dimension : Option ℕ
  getOrCreate : Bool

structure ChromaCollectionResponse where
  id : String
  name : String
  dimension : Option ℕ
  metadata : Option Metadata
  tenant : String
  database : String

structure ChromaAddRequest where
  ids : List Id
  embeddings : List Embedding
  metadatas : Option (List (Option Metadata))
  documents : Option (List (Option Document))

structure ChromaQueryRequest where
  queryEmbeddings : List Embedding
  nResults : ℕ
  whereFilter : Option WhereFilter
  include_ : List String

structure ChromaQueryResponse where
  ids : List (List Id)
  distances : Option (List (List F32))
  metadatas : Option (List (List (Option Metadata)))
  documents : Option (List (List (Option Document)))

/-- The handler reads neither the filter nor any other `include` than
`"embeddings"`. -/
structure ChromaGetRequest where
  ids : Option (List Id)
  include_ : List String

structure ChromaGetResponse where
  ids : List Id
  embeddings : Option (List Embedding)
  metadatas : List (Option Metadata)
  documents : List (Option Document)

/-! ## Collections -/

/-- A segment that reads as an id is looked up by id, any other as a name. -/
def resolveCollection (text : UuidText) (e : Engine) (tenant database nameOrId : String) :
    Except EngineError Uuid :=
  match text.parseStr nameOrId with
  | .ok uuid =>
      match e.getCollectionById uuid with
      | some record => .ok record.config.id
      -- an unknown id is not looked up as a name
      | none => .error (.collectionNotFound nameOrId)
  | .error _ =>
      match e.getCollection text tenant database nameOrId with
      | .error err => .error err
      | .ok (some record) => .ok record.config.id
      | .ok none => .error (.collectionNotFound nameOrId)

def chromaResponse (record : CollectionRecord) : ChromaCollectionResponse where
  id := record.config.id.toString
  name := record.config.name
  dimension := if record.config.dimension = 0 then none else some record.config.dimension
  metadata := record.config.metadata
  tenant := record.config.tenant
  database := record.config.database

/-- The configuration of a creation, under the id drawn for it. -/
def chromaConfig (id : Uuid) (tenant database : String) (req : ChromaCreateCollectionRequest) :
    CollectionConfig where
  id := id
  tenant := tenant
  database := database
  name := req.name
  dimension := req.dimension.getD 0
  space := .l2
  metadata := req.metadata

def validateCreate (req : ChromaCreateCollectionRequest) : Except EngineError Unit := do
  validateName req.name
  rejectIf (maxDimension < req.dimension.getD 0)
    s!"dimension {req.dimension.getD 0} exceeds max {maxDimension}"

/-- Create a collection, or with `get_or_create` return the one with the name;
the status is 201 or 200. -/
def createCollectionChroma (text : UuidText) (fault : Option String) (opening : Engine.Opening)
    (id : Uuid) (tenant database : String) (req : ChromaCreateCollectionRequest) :
    ServerM (ℕ × ChromaCollectionResponse) := do
  Outcome.ofExcept (validateCreate req)
  let e ← get
  let found ← Outcome.ofExcept
    (if req.getOrCreate then e.getCollection text tenant database req.name else .ok none)
  match found with
  | some record => pure (200, chromaResponse record)
  | none => do
      let record ← Engine.createCollection fault opening (chromaConfig id tenant database req)
      pure (201, chromaResponse record)

def listCollectionsChroma (e : Engine) (tenant database : String) :
    List ChromaCollectionResponse :=
  (e.listCollections tenant database).map chromaResponse

/-- The record under a name, or the error that there is none. -/
def namedCollection (text : UuidText) (e : Engine) (tenant database name : String) :
    Except EngineError CollectionRecord :=
  match e.getCollection text tenant database name with
  | .error err => .error err
  | .ok (some record) => .ok record
  | .ok none => .error (.collectionNotFound name)

def getCollectionChroma (text : UuidText) (e : Engine) (tenant database name : String) :
    Except EngineError ChromaCollectionResponse :=
  (namedCollection text e tenant database name).map chromaResponse

/-- `raft` is the outcome of the replicated write, if the server replicates. -/
def deleteCollectionChroma (text : UuidText) (fault : Option String)
    (walFile checkpointDir : Engine.Removal) (raft : Option (Except String Unit))
    (tenant database name : String) : ServerM ChromaCollectionResponse := do
  let e ← get
  let record ← Outcome.ofExcept (namedCollection text e tenant database name)
  Engine.deleteCollection fault walFile checkpointDir record.config.id
  -- the collection is gone from this node before the cluster is asked
  match raft with
  | some (.error e) =>
      throw (.validation s!"failed to replicate collection deletion: {e}")
  | _ => pure (chromaResponse record)

/-! ## Records -/

/-- The first element that fails a check. -/
def rejectFirst {α : Type} (bad : α → Bool) (msg : α → String) (l : List α) :
    Except EngineError Unit :=
  match l.find? bad with
  | some a => .error (.validation (msg a))
  | none => .ok ()

def validateBatch (ids : List Id) : Except EngineError Unit := do
  rejectIf (ids = []) "ids must not be empty"
  rejectIf (maxBatchSize < ids.length) s!"batch size {ids.length} exceeds max {maxBatchSize}"

/-- An optional parallel list has the length of the ids. -/
def validateParallel {α : Type} (what : String) (ids : List Id) (opt : Option (List α)) :
    Except EngineError Unit :=
  match opt with
  | none => .ok ()
  | some l => rejectIf (l.length ≠ ids.length) s!"{what} len {l.length} != ids len {ids.length}"

def validateChromaAdd (req : ChromaAddRequest) : Except EngineError Unit := do
  validateBatch req.ids
  rejectIf (req.ids.length ≠ req.embeddings.length)
    s!"ids len {req.ids.length} != embeddings len {req.embeddings.length}"
  rejectFirst (fun id => decide (id = "") || decide (maxIdLength < id.utf8ByteSize))
    (fun id => s!"invalid id length: {id}") req.ids
  rejectFirst (fun emb => emb.isEmpty || decide (maxDimension < emb.length))
    (fun emb => s!"embedding dimension {emb.length} invalid (max {maxDimension})") req.embeddings
  validateParallel "metadatas" req.ids req.metadatas
  validateParallel "documents" req.ids req.documents

def validateChromaQuery (req : ChromaQueryRequest) : Except EngineError Unit := do
  rejectIf (req.queryEmbeddings = []) "query_embeddings must not be empty"
  rejectIf (maxQueryEmbeddings < req.queryEmbeddings.length)
    s!"query_embeddings len {req.queryEmbeddings.length} exceeds max {maxQueryEmbeddings}"
  rejectIf (req.nResults = 0 ∨ maxNResults < req.nResults)
    s!"n_results {req.nResults} out of range 1..={maxNResults}"

def recordRoute {α : Type} (text : UuidText) (tenant database name : String)
    (validate : Except EngineError Unit) (act : Uuid → ServerM α) : ServerM α := do
  Outcome.ofExcept validate
  let e ← get
  let id ← Outcome.ofExcept (resolveCollection text e tenant database name)
  act id

/-- `persisted` says whether the catalog stores an inferred dimension. -/
def addRecordsChroma (text : UuidText) (persisted : Bool) (tenant database name : String)
    (req : ChromaAddRequest) : ServerM Unit :=
  recordRoute text tenant database name (validateChromaAdd req) fun id =>
    Engine.onCollection id (add persisted req.ids req.embeddings req.metadatas req.documents)

def upsertRecordsChroma (text : UuidText) (persisted : Bool) (tenant database name : String)
    (req : ChromaAddRequest) : ServerM Unit :=
  recordRoute text tenant database name (validateChromaAdd req) fun id =>
    Engine.onCollection id (upsert persisted req.ids req.embeddings req.metadatas req.documents)

def updateRecordsChroma (text : UuidText) (tenant database name : String)
    (req : ChromaAddRequest) : ServerM Unit :=
  -- the ids and the other columns are left to the collection
  recordRoute text tenant database name (validateBatch req.ids) fun id =>
    Engine.onCollection id (update req.ids req.metadatas req.documents)

def deleteRecordsChroma (text : UuidText) (tenant database name : String) (ids : List Id) :
    ServerM Unit :=
  recordRoute text tenant database name (validateBatch ids) fun id =>
    Engine.onCollection id (delete ids)

/-- The requested columns of the results of each query. -/
def chromaQueryResponse (include_ : List String) (allResults : List (List ScoredPoint)) :
    ChromaQueryResponse where
  ids := allResults.map fun results => results.map fun r => r.id
  distances := if "distances" ∈ include_ then
    some (allResults.map fun results => results.map fun r => r.distance) else none
  metadatas := if "metadatas" ∈ include_ then
    some (allResults.map fun results => results.map fun r => r.metadata) else none
  documents := if "documents" ∈ include_ then
    some (allResults.map fun results => results.map fun r => r.document) else none

def queryRecordsChroma (text : UuidText) (K : Kernels) (tenant database name : String)
    (req : ChromaQueryRequest) : ServerM ChromaQueryResponse :=
  recordRoute text tenant database name (validateChromaQuery req) fun id => do
    let e ← get
    let allResults ← Outcome.ofExcept (req.queryEmbeddings.mapM fun embedding =>
      e.query K id embedding req.nResults ⟨0, req.whereFilter, 4⟩)
    pure (chromaQueryResponse req.include_ allResults)

/-- Found records only in the columns of ids and embeddings, all in the others. -/
def chromaGetResponse (include_ : List String) (records : List (Option Record)) :
    ChromaGetResponse where
  ids := records.filterMap fun r => r.map fun r => r.id
  embeddings := if "embeddings" ∈ include_ then
    some (records.filterMap fun r => r.bind fun r => r.embedding) else none
  metadatas := records.map fun r => r.bind fun r => r.metadata
  documents := records.map fun r => r.bind fun r => r.document

def getRecordsChroma (text : UuidText) (tenant database name : String)
    (req : ChromaGetRequest) : ServerM ChromaGetResponse :=
  recordRoute text tenant database name (.ok ()) fun id => do
    let e ← get
    let records ← Outcome.ofExcept (e.get id (req.ids.getD []))
    pure (chromaGetResponse req.include_ records)

def countRecordsChroma (text : UuidText) (tenant database name : String) : ServerM ℕ :=
  recordRoute text tenant database name (.ok ()) fun id => do
    let e ← get
    Outcome.ofExcept (e.count id)

/-! ## The record routes as one -/

/-- A request to one of the routes `.../collections/{name}/{route}`. -/
inductive RecordRequest where
  | add (persisted : Bool) (req : ChromaAddRequest)
  | upsert (persisted : Bool) (req : ChromaAddRequest)
  | update (req : ChromaAddRequest)
  | delete (ids : List Id)
  | query (req : ChromaQueryRequest)
  | get (req : ChromaGetRequest)
  | count

/-- The body of a successful response. A write answers with an empty object. -/
inductive RecordResponse where
  | empty
  | query (res : ChromaQueryResponse)
  | get (res : ChromaGetResponse)
  | count (n : ℕ)

def RecordRequest.handle (text : UuidText) (K : Kernels) (tenant database name : String) :
    RecordRequest → ServerM RecordResponse
  | .add persisted req =>
      (fun _ => .empty) <$> addRecordsChroma text persisted tenant database name req
  | .upsert persisted req =>
      (fun _ => .empty) <$> upsertRecordsChroma text persisted tenant database name req
  | .update req => (fun _ => .empty) <$> updateRecordsChroma text tenant database name req
  | .delete ids => (fun _ => .empty) <$> deleteRecordsChroma text tenant database name ids
  | .query req => .query <$> queryRecordsChroma text K tenant database name req
  | .get req => .get <$> getRecordsChroma text tenant database name req
  | .count => .count <$> countRecordsChroma text tenant database name

end Rekha.Server
