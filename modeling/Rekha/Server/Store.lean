import Rekha.Engine.Rows
import Rekha.Server.Names

/-!
# The server as a store

What the Chroma routes are for: a store of named collections, each a table of
rows by id. The engine behind the routes, with its catalog, logs, buffers and
checkpoints, is shown to be one: as long as the files are in order and no handler
panics, every reply is a step of the store, and a restart is none. A write that the
index refuses is reported as failed, and done.
-/

namespace Rekha.Server

open Outcome RedbCatalog Collection

/-! ## The store -/

structure Store where
  ids : String × String × String → Option Uuid
  rows : Uuid → Option Rows

namespace Store

def empty : Store := ⟨fun _ => none, fun _ => none⟩

/-- Where a path leads: a segment that reads as an id is one. -/
def resolve (text : UuidText) (s : Store) (tenant database name : String) : Option Uuid :=
  match text.parseStr name with
  | .ok id => if (s.rows id).isSome then some id else none
  | .error _ => s.ids (tenant, database, name)

def create (s : Store) (key : String × String × String) (id : Uuid) : Store :=
  ⟨Function.update s.ids key (some id), Function.update s.rows id (some fun _ => none)⟩

def drop (s : Store) (key : String × String × String) (id : Uuid) : Store :=
  ⟨Function.update s.ids key none, Function.update s.rows id none⟩

def write (s : Store) (id : Uuid) (rows : Rows) : Store :=
  ⟨s.ids, Function.update s.rows id (some rows)⟩

end Store

/-! ## Requests -/

/-- What a client or the operator asks for, with what the request meets on the
way: faults of the catalog, the id drawn for a new collection, the outcomes of
removing files and of a replicated write. -/
inductive Request where
  | create (fault : Option String) (order : HashOrder) (id : Uuid) (tenant database : String)
      (req : ChromaCreateCollectionRequest)
  | find (tenant database name : String)
  | list (tenant database : String)
  | drop (fault : Option String) (walFile checkpointDir : Engine.Removal)
      (raft : Option (Except String Unit)) (tenant database name : String)
  | record (tenant database name : String) (req : RecordRequest)
  | restart (orders : Uuid → HashOrder)

inductive Reply where
  | collection (status : ℕ) (res : ChromaCollectionResponse)
  | collections (res : List ChromaCollectionResponse)
  | record (res : RecordResponse)
  | restarted

/-- The files of the collections, as a new process finds them. -/
def Engine.openings (e : Engine) (orders : Uuid → HashOrder) (id : Uuid) : Engine.Opening :=
  match e.collections.lookup id with
  | some c => .files c.wal.file c.dir (orders id)
  | none => .files WalFile.empty {} (orders id)

/-- End the process and start it over its files. -/
def Engine.restart (orders : Uuid → HashOrder) : ServerM Reply := fun e =>
  match Engine.open e.catalog (e.openings orders) with
  | .ok e' => .ok .restarted e'
  | .error err => .error err e

def Request.handle (text : UuidText) (K : Kernels) : Request → ServerM Reply
  | .create fault order id tenant database req =>
      (fun r => .collection r.1 r.2) <$> createCollectionChroma text fault
        (.files WalFile.empty {} order) id tenant database req
  | .find tenant database name => do
      let e ← get
      let res ← Outcome.ofExcept (getCollectionChroma text e tenant database name)
      pure (.collection 200 res)
  | .list tenant database => do
      let e ← get
      pure (.collections (listCollectionsChroma e tenant database))
  | .drop fault walFile checkpointDir raft tenant database name =>
      (fun res => .collection 200 res) <$> deleteCollectionChroma text fault walFile checkpointDir
        raft tenant database name
  | .record tenant database name req => .record <$> req.handle text K tenant database name
  | .restart orders => Engine.restart orders

/-- The failures of a check, of the catalog and of the index. The others are an append
that the log refuses, a file that cannot be removed, and a panic. -/
def EngineError.IsClean : EngineError → Prop
  | .catalog _ | .validation _ | .collectionNotFound _ | .index _ => True
  | .wal _ | .walIo _ | .io _ | .panicked _ => False

instance : (err : EngineError) → Decidable err.IsClean
  | .catalog _ | .validation _ | .collectionNotFound _ | .index _ => .isTrue trivial
  | .wal _ | .walIo _ | .io _ | .panicked _ => .isFalse id

/-- The failures a run may meet. A process that does not come up answers nothing. -/
def Request.MayMeet : Request → EngineError → Prop
  | .restart _, _ => False
  | .create .., err | .find .., err | .list .., err | .drop .., err | .record .., err => err.IsClean

instance (err : EngineError) : (req : Request) → Decidable (req.MayMeet err)
  | .restart _ => .isFalse id
  | .create .. | .find .. | .list .. | .drop .. | .record .. =>
      inferInstanceAs (Decidable err.IsClean)

/-! ## The steps of the store -/

namespace RecordRequest

def ops : RecordRequest → List Operation
  | .add _ req => addOps req.ids req.embeddings req.metadatas req.documents
  | .upsert _ req => upsertOps req.ids req.embeddings req.metadatas req.documents
  | .update req => updateOps req.ids req.metadatas req.documents
  | .delete ids => ids.map .delete
  | .query _ | .get _ | .count => []

/-- A request that puts vectors into the buffer, and may flush it. -/
def IsPut : RecordRequest → Prop
  | .add .. | .upsert .. => True
  | .update _ | .delete _ | .query _ | .get _ | .count => False

def IsQuery : RecordRequest → Prop
  | .query _ => True
  | .add .. | .upsert .. | .update _ | .delete _ | .get _ | .count => False

/-- What a write needs: an add new ids, an update live ones. -/
def Admits (rows : Rows) : RecordRequest → Prop
  | .add _ req => req.ids.Nodup ∧ ∀ id ∈ req.ids, rows id = none
  | .update req => ∀ id ∈ req.ids, (rows id).isSome
  | .upsert .. | .delete _ | .query _ | .get _ | .count => True

/-- What a request to a collection is answered, apart from the vectors of a get
and the hits of a query. -/
def Answers (rows : Rows) : RecordRequest → RecordResponse → Prop
  | .get req, .get res =>
      res.ids = (req.ids.getD []).filter (fun id => (rows id).isSome) ∧
      res.metadatas = (req.ids.getD []).map (fun id => (rows id).bind Row.metadata) ∧
      res.documents = (req.ids.getD []).map fun id => (rows id).bind Row.document
  | .query _, .query _ => True
  | .count, .count n => rows.Counts n
  | .add .., .empty | .upsert .., .empty | .update _, .empty | .delete _, .empty => True
  | _, _ => False

end RecordRequest

/-- A request that only looks up what is there. -/
def Request.IsLookup : Request → Prop
  | .find .. | .list .. | .record _ _ _ (.get _) | .record _ _ _ .count => True
  | _ => False

def Request.IsQuery : Request → Prop
  | .record _ _ _ req => req.IsQuery
  | .create .. | .find .. | .list .. | .drop .. | .restart _ => False

def Request.Misses (text : UuidText) (s : Store) : Request → Prop
  | .find tenant database name | .drop _ _ _ _ tenant database name =>
      s.ids (tenant, database, name) = none
  | .record tenant database name _ => s.resolve text tenant database name = none
  | .create .. | .list .. | .restart _ => False

/-- **A step of the store**: a request, its reply, and the store behind it. -/
inductive Store.Step (text : UuidText) : Store → Request → Except EngineError Reply → Store → Prop
  | created {s : Store} {fault : Option String} {order : HashOrder} {id : Uuid}
      {tenant database : String} {req : ChromaCreateCollectionRequest}
      {res : ChromaCollectionResponse} : s.ids (tenant, database, req.name) = none →
      s.rows id = none → res.id = id.toString → res.name = req.name →
      Step text s (.create fault order id tenant database req) (.ok (.collection 201 res))
        (s.create (tenant, database, req.name) id)
  | existing {s : Store} {fault : Option String} {order : HashOrder} {drawn id : Uuid}
      {tenant database : String} {req : ChromaCreateCollectionRequest}
      {res : ChromaCollectionResponse} : req.getOrCreate = true →
      s.ids (tenant, database, req.name) = some id → res.id = id.toString → res.name = req.name →
      Step text s (.create fault order drawn tenant database req) (.ok (.collection 200 res)) s
  | found {s : Store} {tenant database name : String} {id : Uuid}
      {res : ChromaCollectionResponse} : s.ids (tenant, database, name) = some id →
      res.id = id.toString → res.name = name →
      Step text s (.find tenant database name) (.ok (.collection 200 res)) s
  | listed {s : Store} {tenant database : String} {res : List ChromaCollectionResponse} :
      (res.map fun r => r.name).Nodup →
      (∀ name idText, (name, idText) ∈ res.map (fun r => (r.name, r.id)) ↔
        ∃ id, s.ids (tenant, database, name) = some id ∧ id.toString = idText) →
      Step text s (.list tenant database) (.ok (.collections res)) s
  | dropped {s : Store} {fault : Option String} {walFile checkpointDir : Engine.Removal}
      {raft : Option (Except String Unit)} {tenant database name : String} {id : Uuid}
      {res : ChromaCollectionResponse} : s.ids (tenant, database, name) = some id →
      res.id = id.toString → res.name = name →
      Step text s (.drop fault walFile checkpointDir raft tenant database name)
        (.ok (.collection 200 res)) (s.drop (tenant, database, name) id)
  /-- A deletion that is not replicated is reported as failed and done. -/
  | droppedHere {s : Store} {fault : Option String} {walFile checkpointDir : Engine.Removal}
      {msg text' : String} {tenant database name : String} {id : Uuid} :
      s.ids (tenant, database, name) = some id →
      Step text s (.drop fault walFile checkpointDir (some (.error msg)) tenant database name)
        (.error (.validation text')) (s.drop (tenant, database, name) id)
  | answered {s : Store} {tenant database name : String} {req : RecordRequest}
      {res : RecordResponse} {id : Uuid} {rows : Rows} :
      s.resolve text tenant database name = some id → s.rows id = some rows →
      req.Admits rows → req.Answers rows res →
      Step text s (.record tenant database name req) (.ok (.record res))
        (s.write id (req.ops.foldl Rows.step rows))
  /-- A put whose flush the index refuses is reported as failed and done. -/
  | unindexed {s : Store} {tenant database name : String} {req : RecordRequest} {err : IndexError}
      {id : Uuid} {rows : Rows} :
      s.resolve text tenant database name = some id → s.rows id = some rows → req.IsPut →
      req.Admits rows → Step text s (.record tenant database name req) (.error (.index err))
        (s.write id (req.ops.foldl Rows.step rows))
  | restarted {s : Store} {orders : Uuid → HashOrder} :
      Step text s (.restart orders) (.ok .restarted) s
  | rejected {s : Store} {req : Request} {err : EngineError} : req.MayMeet err →
      (∀ missing, err = .collectionNotFound missing → req.Misses text s) →
      (∀ cause, err = .index cause → req.IsQuery) →
      (req.IsLookup → req.Misses text s) → Step text s req (.error err) s

/-! ## The engine as a store -/

def Engine.store (e : Engine) : Store where
  ids key := (e.catalog.collectionByName.lookup key).bind fun s =>
    (e.catalog.collections.lookup s).map fun record => record.config.id
  rows id := (e.collections.lookup id).map Collection.rows

/-- What holds of an engine that serves requests. -/
structure Served (e : Engine) : Prop where
  keyed : e.catalog.Keyed
  names : e.catalog.NamesAgree
  inStep : ∀ id, (e.catalog.collections.lookup id.toString).isSome ↔ id ∈ e.collections
  sound : ∀ id c, e.collections.lookup id = some c → Sound c

section Abstraction

variable {text : UuidText} {e : Engine} {tenant database name : String} {id : Uuid}

theorem Served.ids_eq_some (h : Served e) {key : String × String × String} :
    e.store.ids key = some id ↔ ∃ record, e.catalog.collections.lookup id.toString = some record ∧
      record.config.nameKey = key ∧ record.config.id = id := by
  show (e.catalog.collectionByName.lookup key).bind _ = some id ↔ _
  rw [Option.bind_eq_some_iff]
  constructor
  · rintro ⟨s, hs, hid⟩
    obtain ⟨record, hrecord, rfl⟩ := Option.map_eq_some_iff.mp hid
    obtain ⟨record', hrecord', hname⟩ := (h.names key s).mp hs
    obtain rfl := Option.some.inj (hrecord.symm.trans hrecord')
    rw [h.keyed s record hrecord]
    exact ⟨record, hrecord, hname, rfl⟩
  · rintro ⟨record, hrecord, hname, hid⟩
    refine ⟨id.toString, (h.names key _).mpr ⟨record, hrecord, hname⟩, ?_⟩
    rw [hrecord, Option.map_some, hid]

theorem Served.isSome_rows (h : Served e) :
    (e.store.rows id).isSome ↔ (e.catalog.collections.lookup id.toString).isSome := by
  show ((e.collections.lookup id).map _).isSome ↔ _
  rw [Option.isSome_map, h.inStep]
  exact AList.lookup_isSome

theorem Served.resolves (h : Served e) (text : UuidText) (tenant database name : String) :
    resolveCollection text e tenant database name =
      match e.store.resolve text tenant database name with
      | some id => .ok id
      | none => .error (.collectionNotFound name) := by
  cases hparse : text.parseStr name with
  | ok id =>
      simp only [Store.resolve, hparse]
      cases hrecord : e.getCollectionById id with
      | none =>
          have hnone : ¬ (e.store.rows id).isSome := by
            rw [h.isSome_rows, show e.catalog.collections.lookup id.toString = none from hrecord]
            exact Bool.false_ne_true
          rw [if_neg hnone, resolve_missing_id hparse hrecord]
      | some record =>
          have hsome : (e.store.rows id).isSome := by
            rw [h.isSome_rows,
              show e.catalog.collections.lookup id.toString = some record from hrecord]
            rfl
          rw [if_pos hsome, resolve_id hparse hrecord, record_of_id h.keyed hrecord]
  | error msg =>
      simp only [Store.resolve, hparse]
      rcases resolve_name tenant database hparse h.keyed h.names with
        ⟨hnone, hr⟩ | ⟨record, hrecord, hname, hr⟩
      · have hids : e.store.ids (tenant, database, name) = none := by
          show (e.catalog.collectionByName.lookup _).bind _ = none
          rw [hnone, Option.bind_none]
        rw [hr, hids]
      · rw [hr, h.ids_eq_some.mpr ⟨record, hrecord, hname, rfl⟩]

theorem Served.named (h : Served e) (text : UuidText) (tenant database name : String) :
    (e.store.ids (tenant, database, name) = none ∧
      e.getCollection text tenant database name = .ok none) ∨
    ∃ record, e.getCollection text tenant database name = .ok (some record) ∧
      e.catalog.collections.lookup record.config.id.toString = some record ∧
      e.store.ids (tenant, database, name) = some record.config.id ∧
      record.config.nameKey = (tenant, database, name) := by
  cases hs : e.catalog.collectionByName.lookup (tenant, database, name) with
  | none =>
      refine Or.inl ⟨?_, ?_⟩
      · show (e.catalog.collectionByName.lookup _).bind _ = none
        rw [hs, Option.bind_none]
      · rw [Engine.getCollection, getCollection_of_none text hs]
  | some s =>
      obtain ⟨record, hrecord, hname⟩ := (h.names _ _).mp hs
      obtain rfl := h.keyed s record hrecord
      refine Or.inr ⟨record, ?_, hrecord, h.ids_eq_some.mpr ⟨record, hrecord, hname, rfl⟩, hname⟩
      rw [Engine.getCollection, getCollection_of_lookup text h.keyed hs hrecord]

theorem Store.ext_iff {s s' : Store} (hids : ∀ key id, s.ids key = some id ↔ s'.ids key = some id)
    (hrows : ∀ id, s.rows id = s'.rows id) : s = s' := by
  obtain ⟨ids, rows⟩ := s
  obtain ⟨ids', rows'⟩ := s'
  obtain rfl : ids = ids' := funext fun key => Option.ext fun id => hids key id
  obtain rfl : rows = rows' := funext hrows
  rfl

end Abstraction

/-! ## What the requests do to it -/

section Effects

variable {e : Engine} {config : CollectionConfig} {coll c' : Collection} {id : Uuid}

theorem Served.rows_none (h : Served e)
    (hnone : e.catalog.collections.lookup id.toString = none) : e.store.rows id = none := by
  rw [← Option.not_isSome_iff_eq_none, h.isSome_rows, hnone]
  exact Bool.false_ne_true

theorem Served.create (h : Served e)
    (hnew : e.catalog.collections.lookup config.id.toString = none) (hname : config.name ≠ "")
    (hfree : e.catalog.collectionByName.lookup config.nameKey = none)
    {order : HashOrder}
    (hopen : Engine.openCollection (.files WalFile.empty {} order) ⟨config, 0, 0⟩ = .ok coll) :
    Served ⟨e.catalog.withCollection config, e.collections.insert config.id coll⟩ ∧
      Engine.store ⟨e.catalog.withCollection config, e.collections.insert config.id coll⟩ =
        e.store.create config.nameKey config.id := by
  obtain ⟨hsound, hrows⟩ : Sound coll ∧ coll.rows = (fresh config).rows := by
    unfold Engine.openCollection ofCollection at hopen
    dsimp only at hopen
    split at hopen
    · rename_i c hc
      obtain rfl := Except.ok.inj hopen
      exact (sound_fresh config).opened hc
    · cases hopen
  have hserved : Served ⟨e.catalog.withCollection config, e.collections.insert config.id coll⟩ := by
    refine ⟨h.keyed.effect (.create config hname hfree),
      NamesAgree.withCollection h.names hnew hfree, fun id => ?_, fun id c hc => ?_⟩
    · dsimp only
      rw [lookup_withCollection, AList.mem_insert, ← h.inStep id]
      split
      · rename_i hid
        exact iff_of_true rfl (Or.inl hid)
      · rename_i hid
        exact (or_iff_right hid).symm
    · dsimp only at hc
      rw [FinMap.lookup_insert_ite] at hc
      split at hc
      · obtain rfl := Option.some.inj hc
        exact hsound
      · exact h.sound id c hc
  refine ⟨hserved, Store.ext_iff (fun key id => ?_) fun id => ?_⟩
  · rw [hserved.ids_eq_some]
    show (∃ record, (e.catalog.withCollection config).collections.lookup id.toString = some record ∧
      _) ↔ Function.update e.store.ids config.nameKey (some config.id) key = some id
    rw [lookup_withCollection, Function.update_apply]
    split
    · rename_i hid
      subst hid
      split
      · rename_i hkey
        exact iff_of_true ⟨_, rfl, hkey.symm, rfl⟩ rfl
      · rename_i hkey
        refine iff_of_false ?_ ?_
        · rintro ⟨record, hrecord, hname, -⟩
          obtain rfl := Option.some.inj hrecord
          exact hkey hname.symm
        · rw [h.ids_eq_some, hnew]
          rintro ⟨record, hrecord, -⟩
          cases hrecord
    · rename_i hid
      split
      · rename_i hkey
        subst hkey
        refine iff_of_false ?_ fun hsome => hid (Option.some.inj hsome).symm
        rintro ⟨record, hrecord, hname, -⟩
        rw [← hname, h.names.lookup_name hrecord] at hfree
        cases hfree
      · exact h.ids_eq_some.symm
  · show ((e.collections.insert config.id coll).lookup id).map Collection.rows =
      Function.update e.store.rows config.id (some fun _ => none) id
    rw [FinMap.lookup_insert_ite, Function.update_apply]
    split
    · rw [Option.map_some, hrows]
      rfl
    · rfl

theorem Served.drop (h : Served e) {record : CollectionRecord}
    (hrecord : e.catalog.collections.lookup record.config.id.toString = some record) :
    Served ⟨e.catalog.withoutCollection record.config.id record,
        e.collections.erase record.config.id⟩ ∧
      Engine.store ⟨e.catalog.withoutCollection record.config.id record,
        e.collections.erase record.config.id⟩ =
        e.store.drop record.config.nameKey record.config.id := by
  have hserved : Served ⟨e.catalog.withoutCollection record.config.id record,
      e.collections.erase record.config.id⟩ := by
    refine ⟨h.keyed.effect (.delete _ record hrecord), UniqueIndex.Agrees.erase h.names hrecord,
      fun id => ?_, fun id c hc => ?_⟩
    · dsimp only
      rw [lookup_withoutCollection, AList.mem_erase, ← h.inStep id]
      split
      · rename_i hid
        exact iff_of_false (by simp) fun hmem => hmem.1 hid
      · rename_i hid
        exact (and_iff_right hid).symm
    · dsimp only at hc
      rw [FinMap.lookup_erase_ite] at hc
      split at hc
      · cases hc
      · exact h.sound id c hc
  refine ⟨hserved, Store.ext_iff (fun key id => ?_) fun id => ?_⟩
  · rw [hserved.ids_eq_some]
    show (∃ record', (e.catalog.withoutCollection record.config.id record).collections.lookup
      id.toString = some record' ∧ _) ↔
        Function.update e.store.ids record.config.nameKey none key = some id
    rw [lookup_withoutCollection, Function.update_apply]
    split
    · rename_i hid
      subst hid
      refine iff_of_false ?_ ?_
      · rintro ⟨record', hrecord', -⟩
        cases hrecord'
      · split
        · simp
        · rename_i hkey
          rw [h.ids_eq_some, hrecord]
          rintro ⟨record', hrecord', hname, -⟩
          obtain rfl := Option.some.inj hrecord'
          exact hkey hname.symm
    · rename_i hid
      split
      · rename_i hkey
        subst hkey
        refine iff_of_false ?_ (by simp)
        rintro ⟨record', hrecord', hname, hid'⟩
        have := h.names.lookup_name hrecord'
        rw [hname, h.names.lookup_name hrecord] at this
        exact hid (hexText.toString_inj.mp (Option.some.inj this)).symm
      · exact h.ids_eq_some.symm
  · show ((e.collections.erase record.config.id).lookup id).map Collection.rows =
      Function.update e.store.rows record.config.id none id
    rw [FinMap.lookup_erase_ite, Function.update_apply]
    split
    · rfl
    · rfl

theorem Served.write (h : Served e) (hmem : id ∈ e.collections) (hsound : Sound c') :
    Served ⟨Engine.storeRow e.catalog id c'.catalog, e.collections.insert id c'⟩ ∧
      Engine.store ⟨Engine.storeRow e.catalog id c'.catalog, e.collections.insert id c'⟩ =
        e.store.write id c'.rows := by
  obtain ⟨record, hrecord⟩ := Option.isSome_iff_exists.mp ((h.inStep id).mpr hmem)
  have hrow : Engine.storeRow e.catalog id c'.catalog = { e.catalog with
      collections := e.catalog.collections.insert id.toString { record with
        config := { record.config with dimension := c'.catalog.dimension }
        maxSeqId := c'.catalog.logOffset } } := by
    rw [Engine.storeRow, hrecord]
  rw [hrow]
  have hserved : Served ⟨{ e.catalog with
      collections := e.catalog.collections.insert id.toString { record with
        config := { record.config with dimension := c'.catalog.dimension }
        maxSeqId := c'.catalog.logOffset } }, e.collections.insert id c'⟩ := by
    refine ⟨h.keyed.effect (.rewrite (a := .updateCollectionDimension id c'.catalog.dimension) id
      record _ hrecord rfl rfl), UniqueIndex.Agrees.rewrite h.names hrecord rfl, fun id' => ?_,
      fun id' c hc => ?_⟩
    · dsimp only
      rw [FinMap.lookup_insert_ite, AList.mem_insert, ← h.inStep id']
      simp only [hexText.toString_inj]
      split
      · rename_i hid
        exact iff_of_true rfl (Or.inl hid)
      · rename_i hid
        exact (or_iff_right hid).symm
    · dsimp only at hc
      rw [FinMap.lookup_insert_ite] at hc
      split at hc
      · obtain rfl := Option.some.inj hc
        exact hsound
      · exact h.sound id' c hc
  refine ⟨hserved, Store.ext_iff (fun key id' => ?_) fun id' => ?_⟩
  · show _ ↔ e.store.ids key = some id'
    rw [hserved.ids_eq_some, h.ids_eq_some]
    dsimp only
    rw [FinMap.lookup_insert_ite]
    simp only [hexText.toString_inj]
    split
    · rename_i hid
      subst hid
      rw [hrecord]
      simp only [Option.some.injEq, exists_eq_left']
      rfl
    · rfl
  · show ((e.collections.insert id c').lookup id').map Collection.rows =
      Function.update e.store.rows id (some c'.rows) id'
    rw [FinMap.lookup_insert_ite, Function.update_apply]
    split
    · rfl
    · rfl

end Effects

end Rekha.Server
