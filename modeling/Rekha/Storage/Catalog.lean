import Rekha.Core.UuidText
import Rekha.Lib.Outcome

/-!
# The catalog

Tenants, databases and collections, in four tables. Collections are stored under
the text of their id; a second table maps `(tenant, database, name)` to that
text. Each mutation is one write transaction: nothing of one that fails is kept.

A value decodes to what was encoded, so the tables hold the values themselves.
-/

namespace Rekha

structure CollectionRecord where
  config : CollectionConfig
  maxSeqId : ℕ
  totalElements : ℕ

inductive CatalogError where
  | notFound
  | alreadyExists
  | invalidArgument (msg : String)
  | storage (msg : String)
  | serialization (msg : String)
deriving DecidableEq

/-- The tables. In the first two only the presence of a key counts. -/
structure RedbCatalog where
  tenants : FinMap String Unit := ∅
  databases : FinMap (String × String) Unit := ∅
  collections : FinMap String CollectionRecord := ∅
  collectionByName : FinMap (String × String × String) String := ∅

/-- A catalog method; a failure leaves whatever it had committed. -/
abbrev CatalogM := EStateM CatalogError RedbCatalog

def CollectionConfig.nameKey (config : CollectionConfig) : String × String × String :=
  (config.tenant, config.database, config.name)

namespace RedbCatalog

/-- A write transaction. With a `fault` one of the store's own steps fails. -/
def writeTxn {α : Type} (fault : Option String)
    (body : RedbCatalog → Except CatalogError (α × RedbCatalog)) : CatalogM α := fun c =>
  match fault with
  | some msg => .error (.storage msg) c
  | none =>
      match body c with
      | .ok (a, c') => .ok a c'
      | .error e => .error e c

def createTenant (fault : Option String) (name : String) : CatalogM Unit :=
  if name = "" then
    throw (.invalidArgument "tenant name must not be empty")
  else writeTxn fault fun c =>
    if (c.tenants.lookup name).isSome then .error .alreadyExists
    else .ok ((), { c with tenants := c.tenants.insert name () })

def createDatabase (fault : Option String) (tenant name : String) : CatalogM Unit :=
  if name = "" then
    throw (.invalidArgument "database name must not be empty")
  else writeTxn fault fun c =>
    if (c.tenants.lookup tenant).isNone then .error .notFound
    else if (c.databases.lookup (tenant, name)).isSome then .error .alreadyExists
    else .ok ((), { c with databases := c.databases.insert (tenant, name) () })

def createCollection (fault : Option String) (config : CollectionConfig) :
    CatalogM CollectionRecord :=
  if config.name = "" then
    throw (.invalidArgument "collection name must not be empty")
  else writeTxn fault fun c =>
    let record : CollectionRecord := ⟨config, 0, 0⟩
    if (c.collectionByName.lookup config.nameKey).isSome then .error .alreadyExists
    else .ok (record, { c with
      collections := c.collections.insert config.id.toString record
      collectionByName := c.collectionByName.insert config.nameKey config.id.toString })

def getCollectionRecord (c : RedbCatalog) (id : Uuid) : Option CollectionRecord :=
  c.collections.lookup id.toString

def getCollection (text : UuidText) (c : RedbCatalog) (tenant database name : String) :
    Except CatalogError (Option CollectionRecord) :=
  match c.collectionByName.lookup (tenant, database, name) with
  | none => .ok none
  | some idStr =>
      match text.parseStr idStr with
      | .error e => .error (.serialization e)
      -- an entry without a record reads as no collection
      | .ok id => .ok (c.getCollectionRecord id)

def getCollectionById (c : RedbCatalog) (id : Uuid) : Option CollectionRecord :=
  c.getCollectionRecord id

/-- Every record, in the order of the table's keys. -/
def listCollectionsAll (c : RedbCatalog) : List CollectionRecord :=
  (c.collections.entries.mergeSort fun a b => decide (a.1 ≤ b.1)).map Sigma.snd

def listCollections (c : RedbCatalog) (tenant database : String) : List CollectionRecord :=
  c.listCollectionsAll.filter fun record =>
    decide (record.config.tenant = tenant) && decide (record.config.database = database)

def updateRecord (fault : Option String) (id : Uuid) (f : CollectionRecord → CollectionRecord) :
    CatalogM Unit :=
  writeTxn fault fun c =>
    match c.collections.lookup id.toString with
    | none => .error .notFound
    | some record => .ok ((), { c with
        collections := c.collections.insert id.toString (f record) })

def updateCollectionMetadata (fault : Option String) (id : Uuid) (metadata : Metadata) :
    CatalogM Unit :=
  updateRecord fault id fun record =>
    { record with config := { record.config with metadata := some metadata } }

def deleteCollection (fault : Option String) (id : Uuid) : CatalogM Unit :=
  writeTxn fault fun c =>
    match c.collections.lookup id.toString with
    | none => .error .notFound
    | some record => .ok ((), { c with
        collections := c.collections.erase id.toString
        collectionByName := c.collectionByName.erase record.config.nameKey })

def advanceLogOffset (fault : Option String) (id : Uuid) (seq : ℕ) : CatalogM Unit :=
  updateRecord fault id fun record => { record with maxSeqId := max record.maxSeqId seq }

def updateCollectionDimension (fault : Option String) (id : Uuid) (dimension : ℕ) :
    CatalogM Unit :=
  updateRecord fault id fun record =>
    { record with config := { record.config with dimension := dimension } }

end RedbCatalog

/-! ## Calls -/

inductive CatalogCall where
  | createTenant (name : String)
  | createDatabase (tenant name : String)
  | createCollection (config : CollectionConfig)
  | updateCollectionMetadata (id : Uuid) (metadata : Metadata)
  | deleteCollection (id : Uuid)
  | advanceLogOffset (id : Uuid) (seq : ℕ)
  | updateCollectionDimension (id : Uuid) (dimension : ℕ)

namespace CatalogCall

def run (fault : Option String) : CatalogCall → CatalogM Unit
  | .createTenant name => RedbCatalog.createTenant fault name
  | .createDatabase tenant name => RedbCatalog.createDatabase fault tenant name
  | .createCollection config => discard (RedbCatalog.createCollection fault config)
  | .updateCollectionMetadata id metadata =>
      RedbCatalog.updateCollectionMetadata fault id metadata
  | .deleteCollection id => RedbCatalog.deleteCollection fault id
  | .advanceLogOffset id seq => RedbCatalog.advanceLogOffset fault id seq
  | .updateCollectionDimension id dimension =>
      RedbCatalog.updateCollectionDimension fault id dimension

end CatalogCall

end Rekha
