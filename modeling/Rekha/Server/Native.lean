import Rekha.Server.Chroma

/-!
# The native routes of collections

`POST`, `GET` and `DELETE` under `/collections`, and the route that gets records.
The server has one tenant and database. What a handler does after the engine, to
replicate the change through Raft, is left out.
-/

namespace Rekha.Server.Native

structure CreateCollectionRequest where
  name : String
  dimension : ℕ
  distance : Distance

structure CollectionResponse where
  id : Uuid
  name : String
  dimension : ℕ
  distance : Distance
  count : ℕ

def validateCreate (req : CreateCollectionRequest) : Except EngineError Unit := do
  validateName req.name
  rejectIf (maxDimension < req.dimension) s!"dimension {req.dimension} exceeds max {maxDimension}"

def createConfig (id : Uuid) (tenant database : String) (req : CreateCollectionRequest) :
    CollectionConfig where
  id := id
  tenant := tenant
  database := database
  name := req.name
  dimension := req.dimension
  space := req.distance

def collectionResponse (record : CollectionRecord) (count : ℕ) : CollectionResponse where
  id := record.config.id
  name := record.config.name
  dimension := record.config.dimension
  distance := record.config.space
  count := count

/-- The response for one record, with the count of its collection. -/
def counted (e : Engine) (record : CollectionRecord) : Except EngineError CollectionResponse := do
  let count ← e.count record.config.id
  pure (collectionResponse record count)

def createCollection (opening : Engine.Opening) (id : Uuid) (tenant database : String)
    (req : CreateCollectionRequest) : ServerM CollectionResponse := do
  Outcome.ofExcept (validateCreate req)
  let record ← Engine.createCollection none opening (createConfig id tenant database req)
  let e ← get
  Outcome.ofExcept (counted e record)

/-- The loop of `list_collections`: the first lookup that fails ends it. -/
def countAll (e : Engine) : List CollectionRecord → List CollectionResponse →
    Except EngineError (List CollectionResponse)
  | [], out => .ok out
  | record :: records, out => do
      let response ← counted e record
      countAll e records (out ++ [response])

def listCollections (tenant database : String) : ServerM (List CollectionResponse) := do
  let e ← get
  Outcome.ofExcept (countAll e (e.listCollections tenant database) [])

def deleteCollection (walFile checkpointDir : Engine.Removal) (id : Uuid) : ServerM Unit :=
  Engine.deleteCollection none walFile checkpointDir id

/-! ## Records -/

/-- The handler reads neither the filter nor any other `include` than
`"embeddings"`. -/
structure GetRequest where
  ids : Option (List Id)
  include_ : List String

/-- The columns are those of the Chroma route. -/
abbrev GetResponse := ChromaGetResponse

def getRecords (id : Uuid) (req : GetRequest) : ServerM GetResponse := do
  let ids := req.ids.getD []
  let e ← get
  let records ← Outcome.ofExcept (if ids.isEmpty then .ok [] else e.get id ids)
  pure (chromaGetResponse req.include_ records)

/-- The fields are those of the Chroma route. -/
abbrev QueryRequest := ChromaQueryRequest

abbrev QueryResponse := ChromaQueryResponse

def validateQuery (req : QueryRequest) : Except EngineError Unit := do
  rejectIf (req.queryEmbeddings = []) "query_embeddings must not be empty"
  rejectIf (maxQueryEmbeddings < req.queryEmbeddings.length)
    s!"query_embeddings len {req.queryEmbeddings.length} exceeds max {maxQueryEmbeddings}"
  rejectIf (req.nResults = 0) "n_results must be >= 1"
  rejectIf (maxNResults < req.nResults) s!"n_results {req.nResults} exceeds max {maxNResults}"
  rejectFirst (fun emb => emb.isEmpty || decide (maxDimension < emb.length))
    (fun emb => if emb.isEmpty then "query embedding must not be empty"
      else s!"query embedding dimension {emb.length} exceeds max {maxDimension}")
    req.queryEmbeddings

/-- `resize_with` for the vectors shorter than `k`. -/
def padTo {α : Type} (k : ℕ) (filler : α) (vec : List α) : List α :=
  if vec.length < k then vec ++ List.replicate (k - vec.length) filler else vec

/-- `f32::INFINITY`. -/
def infinity : F32 := ⟨0x7F800000⟩

/-- The requested columns, padded to the length of the first query's results. -/
def queryResponse (include_ : List String) (allResults : List (List ScoredPoint)) :
    QueryResponse :=
  let k := (allResults.head?.map List.length).getD 0
  { ids := (allResults.map fun results => results.map fun r => r.id).map (padTo k "")
    distances := if "distances" ∈ include_ then
      some ((allResults.map fun results => results.map fun r => r.distance).map (padTo k infinity))
      else none
    metadatas := if "metadatas" ∈ include_ then
      some ((allResults.map fun results => results.map fun r => r.metadata).map (padTo k none))
      else none
    documents := if "documents" ∈ include_ then
      some ((allResults.map fun results => results.map fun r => r.document).map (padTo k none))
      else none }

/-- The results of each query. Every query takes the lock anew: the `i`-th reads the
engine `seen i`. -/
def queryAll (K : Kernels) (seen : ℕ → Engine) (id : Uuid) (req : QueryRequest) :
    Except EngineError (List (List ScoredPoint)) :=
  req.queryEmbeddings.zipIdx.mapM fun q =>
    (seen q.2).query K id q.1 req.nResults ⟨0, req.whereFilter, 4⟩

def queryRecords (K : Kernels) (seen : ℕ → Engine) (id : Uuid) (req : QueryRequest) :
    Except EngineError QueryResponse := do
  validateQuery req
  let allResults ← queryAll K seen id req
  pure (queryResponse req.include_ allResults)

end Rekha.Server.Native
