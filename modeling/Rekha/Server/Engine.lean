import Rekha.Engine.Engine
import Rekha.Engine.Query
import Rekha.Storage.Catalog

/-!
# The engine

The engine holds the catalog and a map of the open collections. Creating and
deleting a collection go through the catalog, the files and the map one after
the other, and return early where a step fails. Which files a collection is
opened over, and whether a step fails, are arguments of the call.
-/

namespace Rekha.Server

/-- Errors of the engine. `walIo` is the log's own `Io` error. -/
inductive EngineError where
  | catalog (e : CatalogError)
  | wal (e : WalError)
  | walIo (msg : String)
  | index (e : IndexError)
  | io (msg : String)
  | collectionNotFound (name : String)
  | validation (msg : String)
  | panicked (msg : String)

def EngineError.ofCollection : Rekha.EngineError → EngineError
  | .wal e => .wal e
  | .index e => .index e
  | .collectionNotFound id => .collectionNotFound id.toString
  | .validation msg => .validation msg
  | .panicked msg => .panicked msg

/-- The outcome of a method on an open collection. -/
def ofCollection {α : Type} : Except Rekha.EngineError α → Except EngineError α
  | .ok a => .ok a
  | .error e => .error (.ofCollection e)

structure Engine where
  catalog : RedbCatalog := {}
  collections : FinMap Uuid Collection := ∅

/-- A call of the engine; a failure keeps what was already changed. -/
abbrev ServerM := EStateM EngineError Engine

namespace Engine

/-! ## Lifecycle -/

/-- What opening a collection meets: a step that fails, or files to read. -/
inductive Opening where
  | fails (e : EngineError)
  | files (wal : WalFile) (dir : CheckpointDir) (order : HashOrder)

/-- `Collection::open`, over the files and the row of the catalog. -/
def openCollection (opening : Opening) (record : CollectionRecord) :
    Except EngineError Collection :=
  match opening with
  | .fails e => .error e
  | .files wal dir order =>
      let row : CatalogRow := ⟨record.config.dimension, record.maxSeqId⟩
      ofCollection (Collection.openDisk record.config ⟨wal, dir, row⟩ order)

/-- The loop that opens the collections of the catalog. -/
def openAll (openings : Uuid → Opening) :
    List CollectionRecord → FinMap Uuid Collection → Except EngineError (FinMap Uuid Collection)
  | [], collections => .ok collections
  | record :: records, collections =>
      match openCollection (openings record.config.id) record with
      | .error e => .error e
      | .ok c => openAll openings records (collections.insert record.config.id c)

def «open» (catalog : RedbCatalog) (openings : Uuid → Opening) : Except EngineError Engine :=
  match openAll openings catalog.listCollectionsAll ∅ with
  | .error e => .error e
  | .ok collections => .ok ⟨catalog, collections⟩

def onCatalog {α : Type} (m : CatalogM α) : ServerM α := fun e =>
  match m e.catalog with
  | .ok a c => .ok a { e with catalog := c }
  | .error err c => .error (.catalog err) { e with catalog := c }

/-- Create a collection: catalog entry, files, and in-memory state. -/
def createCollection (fault : Option String) (opening : Opening) (config : CollectionConfig) :
    ServerM CollectionRecord := do
  let record ← onCatalog (RedbCatalog.createCollection fault config)
  let collection ← Outcome.ofExcept (openCollection opening record)
  modify fun e => { e with collections := e.collections.insert config.id collection }
  pure record

/-- What removing a file or directory gives. -/
inductive Removal where
  | removed
  | notFound
  | failed (msg : String)

def removeFiles (walFile checkpointDir : Removal) : ServerM Unit := do
  match walFile with
  | .failed msg => throw (.walIo msg)
  | _ => pure ()
  match checkpointDir with
  | .failed msg => throw (.io msg)
  | _ => pure ()

/-- Delete a collection: catalog entry, in-memory state, then its files. -/
def deleteCollection (fault : Option String) (walFile checkpointDir : Removal) (id : Uuid) :
    ServerM Unit := do
  onCatalog (RedbCatalog.deleteCollection fault id)
  modify fun e => { e with collections := e.collections.erase id }
  removeFiles walFile checkpointDir

/-! ## Reading -/

def getCollection (text : UuidText) (e : Engine) (tenant database name : String) :
    Except EngineError (Option CollectionRecord) :=
  match e.catalog.getCollection text tenant database name with
  | .ok record => .ok record
  | .error err => .error (.catalog err)

def getCollectionById (e : Engine) (id : Uuid) : Option CollectionRecord :=
  e.catalog.getCollectionById id

def listCollections (e : Engine) (tenant database : String) : List CollectionRecord :=
  e.catalog.listCollections tenant database

def collection (e : Engine) (id : Uuid) : Except EngineError Collection :=
  match e.collections.lookup id with
  | some c => .ok c
  | none => .error (.collectionNotFound id.toString)

def count (e : Engine) (id : Uuid) : Except EngineError ℕ := do
  let coll ← e.collection id
  pure coll.count

/-- Records by id, `none` for unknown ids. -/
def get (e : Engine) (id : Uuid) (ids : List Id) : Except EngineError (List (Option Record)) := do
  let coll ← e.collection id
  pure (ids.map coll.get)

def query (K : Kernels) (e : Engine) (id : Uuid) (embedding : Embedding) (k : ℕ)
    (options : QueryOptions) : Except EngineError (List ScoredPoint) := do
  let coll ← e.collection id
  ofCollection (coll.query K embedding k options)

/-! ## Writing -/

/-- What a collection's methods wrote to its row of the catalog, if that is
still there. -/
def storeRow (catalog : RedbCatalog) (id : Uuid) (row : CatalogRow) : RedbCatalog :=
  match catalog.collections.lookup id.toString with
  | none => catalog
  | some record => { catalog with
      collections := catalog.collections.insert id.toString { record with
        config := { record.config with dimension := row.dimension }
        maxSeqId := row.logOffset } }

/-- Run a method on a collection under its lock. -/
def onCollection {α : Type} (id : Uuid) (m : EngineM α) : ServerM α := fun e =>
  match e.collection id with
  | .error err => .error err e
  | .ok coll =>
      let store (c : Collection) : Engine :=
        ⟨storeRow e.catalog id c.catalog, e.collections.insert id c⟩
      match m coll with
      | .ok a c => .ok a (store c)
      | .error err c => .error (.ofCollection err) (store c)

end Engine

end Rekha.Server
