import Rekha.Cluster.AppliedLog
import Rekha.Server.TwoApis

/-!
# Collections and the cluster's metadata

A server that is part of a cluster writes to the Raft log what it did to its own
engine: after a native creation, and after every deletion. The table of collections
in the metadata is in step with the open collections for as long as every call that
opens or closes one is a native creation, or a deletion that gets past the files,
and its write is applied (`metadata_in_step_iff`). What Chroma creates is never in
the table.
-/

namespace Rekha.Cluster

open Server Outcome RedbCatalog Collection

/-! ## The node that takes the requests -/

/-- What `client_write` does to the log, and what it says. -/
inductive RaftWrite where
  | applied
  | lost (msg : String)
  /-- Reported as failed, but in the log. -/
  | unreported (msg : String)

/-- The engine of a node, and the metadata its state machine holds. -/
structure Leader where
  engine : Server.Engine := {}
  data : ClusterData := ClusterData.new

abbrev LeaderM := EStateM Server.EngineError Leader

def onEngine {α : Type} (m : ServerM α) : LeaderM α := fun l =>
  match m l.engine with
  | .ok a e => .ok a { l with engine := e }
  | .error err e => .error err { l with engine := e }

/-- Replicate an operation; a failure is reported as a failed `change`. -/
def clientWrite (write : RaftWrite) (op : ClusterOperation) (change : String) : LeaderM Unit :=
  fun l => match write with
    | .applied => .ok () { l with data := l.data.applyOperation op }
    | .lost e => .error (.validation s!"failed to replicate collection {change}: {e}") l
    | .unreported e => .error (.validation s!"failed to replicate collection {change}: {e}")
        { l with data := l.data.applyOperation op }

/-- The owner is node 1, whichever node this is. -/
def createCollection (write : RaftWrite) (opening : Engine.Opening) (id : Uuid)
    (tenant database : String) (req : Native.CreateCollectionRequest) :
    LeaderM Native.CollectionResponse := do
  let res ← onEngine (Native.createCollection opening id tenant database req)
  clientWrite write (.addCollection id req.name (req.dimension % 2 ^ 32) req.distance.name tenant
    database [1]) "creation"
  pure res

def deleteCollection (write : RaftWrite) (walFile checkpointDir : Engine.Removal) (id : Uuid) :
    LeaderM Unit := do
  onEngine (Native.deleteCollection walFile checkpointDir id)
  clientWrite write (.removeCollection id) "deletion"

def deleteCollectionChroma (text : UuidText) (fault : Option String)
    (walFile checkpointDir : Engine.Removal) (write : RaftWrite) (tenant database name : String) :
    LeaderM ChromaCollectionResponse := do
  let l ← get
  let record ← Outcome.ofExcept (namedCollection text l.engine tenant database name)
  onEngine (Engine.deleteCollection fault walFile checkpointDir record.config.id)
  clientWrite write (.removeCollection record.config.id) "deletion"
  pure (chromaResponse record)

/-- The requests that change something. -/
inductive NodeCall where
  | create (write : RaftWrite) (opening : Engine.Opening) (id : Uuid) (tenant database : String)
      (req : Native.CreateCollectionRequest)
  | createChroma (fault : Option String) (opening : Engine.Opening) (id : Uuid)
      (tenant database : String) (req : ChromaCreateCollectionRequest)
  | delete (write : RaftWrite) (walFile checkpointDir : Engine.Removal) (id : Uuid)
  | deleteChroma (fault : Option String) (walFile checkpointDir : Engine.Removal)
      (write : RaftWrite) (tenant database name : String)
  | record (id : Uuid) (req : RecordRequest)
  | recordChroma (tenant database name : String) (req : RecordRequest)

namespace NodeCall

/-- Run the handler; what it answers does not matter here. -/
def handle (text : UuidText) (K : Kernels) : NodeCall → LeaderM Unit
  | .create write opening id tenant database req =>
      discard (createCollection write opening id tenant database req)
  | .createChroma fault opening id tenant database req =>
      discard (onEngine (createCollectionChroma text fault opening id tenant database req))
  | .delete write walFile checkpointDir id => deleteCollection write walFile checkpointDir id
  | .deleteChroma fault walFile checkpointDir write tenant database name =>
      discard (deleteCollectionChroma text fault walFile checkpointDir write tenant database name)
  | .record id req => discard (onEngine (req.handleNative K id))
  | .recordChroma tenant database name req =>
      discard (onEngine (req.handle text K tenant database name))

def after (text : UuidText) (K : Kernels) (call : NodeCall) (l : Leader) : Leader :=
  final (call.handle text K l)

end NodeCall

/-! ## In step -/

/-- The metadata lists the open collections. -/
def InStep (l : Leader) : Prop := ∀ id, id ∈ l.data.collections ↔ id ∈ l.engine.collections

/-- The call opens or closes a collection. -/
def NodeCall.Changes (text : UuidText) (K : Kernels) (l : Leader) (call : NodeCall) : Prop :=
  ∃ id, ¬ (id ∈ (call.after text K l).engine.collections ↔ id ∈ l.engine.collections)

def RaftWrite.Applied : RaftWrite → Prop
  | .applied | .unreported _ => True
  | .lost _ => False

def Removed (walFile checkpointDir : Engine.Removal) : Prop :=
  (∀ msg, walFile ≠ .failed msg) ∧ ∀ msg, checkpointDir ≠ .failed msg

/-- The cluster hears of what the call did. -/
def NodeCall.Tells : NodeCall → Prop
  | .create write .. => write.Applied
  | .delete write walFile checkpointDir _ | .deleteChroma _ walFile checkpointDir write .. =>
      Removed walFile checkpointDir ∧ write.Applied
  | .createChroma .. => False
  | .record .. | .recordChroma .. => True

/-! ## What a call does to both -/

/-- The two sets of ids behind a call that opens or closes at most one. -/
inductive Moves (l l' : Leader) (tells : Prop) : Prop
  | still : (∀ id, id ∈ l'.engine.collections ↔ id ∈ l.engine.collections) →
      (∀ id, id ∈ l'.data.collections ↔ id ∈ l.data.collections) → Moves l l' tells
  | opens (i : Uuid) :
      (∀ id, id ∈ l'.engine.collections ↔ id = i ∨ id ∈ l.engine.collections) →
      (∀ id, id ∈ l'.data.collections ↔ (tells ∧ id = i) ∨ id ∈ l.data.collections) →
      Moves l l' tells
  | closes (i : Uuid) :
      (∀ id, id ∈ l'.engine.collections ↔ id ≠ i ∧ id ∈ l.engine.collections) →
      (∀ id, id ∈ l'.data.collections ↔ ¬ (tells ∧ id = i) ∧ id ∈ l.data.collections) →
      Moves l l' tells

theorem in_step_iff_of_still {l l' : Leader} {tells : Prop} (hl : InStep l) (htells : ¬ tells)
    (hdata : ∀ id, id ∈ l'.data.collections ↔ id ∈ l.data.collections) :
    InStep l' ↔
      ((∃ id, ¬ (id ∈ l'.engine.collections ↔ id ∈ l.engine.collections)) → tells) := by
  constructor
  · rintro hl' ⟨id, hid⟩
    refine absurd ?_ hid
    rw [← hl', hdata, hl]
  · intro hquiet id
    have hid : id ∈ l'.engine.collections ↔ id ∈ l.engine.collections := by
      by_contra hid
      exact htells (hquiet ⟨id, hid⟩)
    rw [hid, hdata, hl]

theorem Moves.in_step_iff {l l' : Leader} {tells : Prop} (h : Moves l l' tells) (hl : InStep l) :
    InStep l' ↔
      ((∃ id, ¬ (id ∈ l'.engine.collections ↔ id ∈ l.engine.collections)) → tells) := by
  cases h with
  | still hengine hdata =>
      refine iff_of_true (fun id => ?_) ?_
      · rw [hdata, hl, hengine]
      · rintro ⟨id, hid⟩
        exact absurd (hengine id) hid
  | opens i hengine hdata =>
      by_cases htells : tells
      · refine iff_of_true (fun id => ?_) fun _ => htells
        rw [hdata, hl, hengine, and_iff_right htells]
      · refine in_step_iff_of_still hl htells fun id => ?_
        rw [hdata, or_iff_right fun h => htells h.1]
  | closes i hengine hdata =>
      by_cases htells : tells
      · refine iff_of_true (fun id => ?_) fun _ => htells
        rw [hdata, hl, hengine, and_iff_right htells]
      · refine in_step_iff_of_still hl htells fun id => ?_
        rw [hdata, and_iff_right fun h => htells h.1]

section Engine

variable {e e' : Server.Engine} {id i : Uuid} {err : Server.EngineError}

theorem collections_of_createCollection_error {fault : Option String} {opening : Engine.Opening}
    {config : CollectionConfig}
    (h : Engine.createCollection fault opening config e = .error err e') :
    e'.collections = e.collections := by
  rcases bind_error.mp h with h | ⟨record, e₁, hcatalog, h⟩
  · unfold Engine.onCatalog at h
    split at h
    · cases h
    · obtain ⟨-, rfl⟩ := EStateM.Result.error.inj h
      rfl
  · obtain ⟨c, -, rfl⟩ := Engine.onCatalog_ok.mp hcatalog
    rcases bind_error.mp h with h | ⟨coll, e₂, -, h⟩
    · obtain ⟨-, rfl⟩ := ofExcept_error.mp h
      rfl
    · cases h

theorem collections_of_createCollectionChroma_error {text : UuidText} {fault : Option String}
    {opening : Engine.Opening} {tenant database : String} {req : ChromaCreateCollectionRequest}
    (h : createCollectionChroma text fault opening id tenant database req e = .error err e') :
    e'.collections = e.collections := by
  rcases bind_error.mp h with h | ⟨_, e₁, hvalid, h⟩
  · obtain ⟨-, rfl⟩ := ofExcept_error.mp h
    rfl
  · obtain ⟨-, rfl⟩ := ofExcept_ok.mp hvalid
    rcases bind_error.mp h with h | ⟨_, e₁, hget, h⟩
    · cases h
    · obtain ⟨rfl, rfl⟩ := get_ok.mp hget
      rcases bind_error.mp h with h | ⟨found, e₁, hfound, h⟩
      · obtain ⟨-, rfl⟩ := ofExcept_error.mp h
        rfl
      · obtain ⟨-, rfl⟩ := ofExcept_ok.mp hfound
        cases found with
        | some record => cases h
        | none =>
            rcases bind_error.mp h with h | ⟨record, e₂, -, h⟩
            · exact collections_of_createCollection_error h
            · cases h

theorem createCollection_opens (opening : Engine.Opening) (id : Uuid) (tenant database : String)
    (req : Native.CreateCollectionRequest) (e : Server.Engine) :
    (∃ err e', Native.createCollection opening id tenant database req e = .error err e' ∧
      e'.collections = e.collections) ∨
    ∃ res e' coll, Native.createCollection opening id tenant database req e = .ok res e' ∧
      e'.collections = e.collections.insert id coll := by
  cases hv : Native.validateCreate req with
  | error err =>
      refine Or.inl ⟨err, e, ?_, rfl⟩
      exact checked_error hv _
  | ok u =>
      have hstart : Native.createCollection opening id tenant database req = (do
          let record ← Engine.createCollection none opening
            (Native.createConfig id tenant database req)
          let e ← get
          Outcome.ofExcept (Native.counted e record)) := checked_ok hv _
      rw [hstart]
      cases hcreate : Engine.createCollection none opening
          (Native.createConfig id tenant database req) e with
      | error err e' =>
          exact Or.inl ⟨err, e', bind_of_error hcreate,
            collections_of_createCollection_error hcreate⟩
      | ok record e' =>
          obtain ⟨-, rfl, coll, -, rfl⟩ := Engine.createCollection_ok.mp hcreate
          let e' : Server.Engine :=
            ⟨e.catalog.withCollection (Native.createConfig id tenant database req),
              e.collections.insert id coll⟩
          have hopen : (⟨Native.createConfig id tenant database req, 0, 0⟩ :
              CollectionRecord).config.id ∈ e'.collections :=
            (AList.mem_insert _).mpr (Or.inl rfl)
          obtain ⟨res, hcounted⟩ := Native.counted_of_mem hopen
          exact Or.inr ⟨res, e', coll, (bind_of_ok hcreate).trans ((bind_of_ok
            (get_ok.mpr ⟨rfl, rfl⟩)).trans (ofExcept_ok.mpr ⟨hcounted, rfl⟩)), rfl⟩

/-- A deletion that fails in the catalog closes nothing; any other closes its
collection and goes on to the files. -/
theorem deleteCollection_closes (fault : Option String) (walFile checkpointDir : Engine.Removal)
    (id : Uuid) (e : Server.Engine) :
    (∃ err, Engine.deleteCollection fault walFile checkpointDir id e = .error err e) ∨
    ∃ e', e'.collections = e.collections.erase id ∧
      Engine.deleteCollection fault walFile checkpointDir id e =
        Engine.removeFiles walFile checkpointDir e' := by
  cases hdelete : RedbCatalog.deleteCollection fault id e.catalog with
  | error err c =>
      obtain rfl : c = e.catalog := writeTxn_error hdelete
      refine Or.inl ⟨.catalog err, bind_of_error ?_⟩
      rw [Engine.onCatalog, hdelete]
  | ok u c =>
      refine Or.inr ⟨⟨c, e.collections.erase id⟩, rfl, ?_⟩
      exact bind_of_ok (Engine.onCatalog_ok.mpr ⟨_, hdelete, rfl⟩)

theorem removeFiles_cases (walFile checkpointDir : Engine.Removal) (e : Server.Engine) :
    (Removed walFile checkpointDir ∧ Engine.removeFiles walFile checkpointDir e = .ok () e) ∨
    ¬ Removed walFile checkpointDir ∧
      ∃ err, Engine.removeFiles walFile checkpointDir e = .error err e := by
  cases walFile with
  | failed msg => exact Or.inr ⟨fun h => h.1 msg rfl, _, rfl⟩
  | removed | notFound =>
      cases checkpointDir with
      | failed msg => exact Or.inr ⟨fun h => h.2 msg rfl, _, rfl⟩
      | removed | notFound =>
          refine Or.inl ⟨⟨fun msg h => ?_, fun msg h => ?_⟩, rfl⟩
          · cases h
          · cases h

theorem mem_onCollection {α : Type} (m : EngineM α) :
    i ∈ (final (Engine.onCollection id m e)).collections ↔ i ∈ e.collections := by
  unfold Engine.onCollection
  cases hcoll : e.collection id with
  | error err => rfl
  | ok c =>
      have hmem : id ∈ e.collections := by
        by_contra hclosed
        rw [Engine.collection, AList.lookup_eq_none.mpr hclosed] at hcoll
        cases hcoll
      have hinsert : ∀ c', i ∈ e.collections.insert id c' ↔ i ∈ e.collections := fun c' => by
        rw [AList.mem_insert]
        exact or_iff_right_of_imp fun h => h ▸ hmem
      dsimp only
      cases m c with
      | ok a c' => exact hinsert c'
      | error err c' => exact hinsert c'

theorem mem_act (K : Kernels) (req : RecordRequest) :
    i ∈ (final (req.act K id e)).collections ↔ i ∈ e.collections := by
  cases req with
  | add | upsert | update | delete =>
      rw [RecordRequest.act, ActsOn.final_map]
      exact mem_onCollection _
  | query req =>
      rw [RecordRequest.act, read_eq (fun e => req.queryEmbeddings.mapM fun embedding =>
        e.query K id embedding req.nResults ⟨0, req.whereFilter, 4⟩), final_ofExcept]
  | get req =>
      rw [RecordRequest.act, read_eq (fun e => e.get id (req.ids.getD [])), final_ofExcept]
  | count =>
      rw [RecordRequest.act, ActsOn.final_map]
      show i ∈ (final (Outcome.ofExcept (e.count id) e)).collections ↔ _
      rw [final_ofExcept]

theorem mem_handle (text : UuidText) (K : Kernels) (tenant database name : String)
    (req : RecordRequest) :
    i ∈ (final (req.handle text K tenant database name e)).collections ↔ i ∈ e.collections := by
  rw [RecordRequest.handle_eq_route]
  cases hv : req.validate with
  | error err => rw [recordRoute_rejected rfl, final]
  | ok u =>
      cases hr : resolveCollection text e tenant database name with
      | error err => rw [recordRoute_unresolved rfl hr, final]
      | ok id =>
          rw [recordRoute_resolved rfl hr]
          exact mem_act K req

theorem mem_handleNative (K : Kernels) (req : RecordRequest) :
    i ∈ (final (req.handleNative K id e)).collections ↔ i ∈ e.collections := by
  cases hv : req.validateNative with
  | error err => rw [RecordRequest.handleNative_rejected hv, final]
  | ok u =>
      by_cases hget : ∃ r, req = .get r ∧ r.ids.getD [] = []
      · obtain ⟨r, rfl, hnil⟩ := hget
        rw [RecordRequest.handleNative_empty hnil, final]
      · have hsome : ∀ r, req = .get r → r.ids.getD [] = [] → id ∈ e.collections :=
          fun r hr hnil => absurd ⟨r, hr, hnil⟩ hget
        rw [RecordRequest.handleNative_accepted hv hsome, ActsOn.final_map]
        exact mem_act K req

end Engine


/-! ### The calls -/

section Calls

variable {text : UuidText} {K : Kernels} {l : Leader} {α : Type}

theorem onEngine_ok {m : ServerM α} {a : α} {e : Server.Engine} (h : m l.engine = .ok a e) :
    onEngine m l = .ok a { l with engine := e } := by
  unfold onEngine
  rw [h]

theorem onEngine_error {m : ServerM α} {err : Server.EngineError} {e : Server.Engine}
    (h : m l.engine = .error err e) : onEngine m l = .error err { l with engine := e } := by
  unfold onEngine
  rw [h]

theorem final_onEngine (m : ServerM α) (l : Leader) :
    final (onEngine m l) = { l with engine := final (m l.engine) } := by
  unfold onEngine
  cases m l.engine <;> rfl

theorem final_discard (m : LeaderM α) (l : Leader) : final (discard m l) = final (m l) := by
  show final (EStateM.map _ m l) = _
  unfold EStateM.map
  cases m l <;> rfl

theorem final_bind_pure {β : Type} (m : LeaderM α) (b : β) (l : Leader) :
    final ((do let _ ← m; pure b : LeaderM β) l) = final (m l) := by
  show final (EStateM.bind m _ l) = _
  unfold EStateM.bind
  cases m l <;> rfl

theorem engine_clientWrite (write : RaftWrite) (op : ClusterOperation) (change : String)
    (l : Leader) : (final (clientWrite write op change l)).engine = l.engine := by
  cases write <;> rfl

theorem mem_clientWrite_add (write : RaftWrite) (i : Uuid) (name : String) (dimension : ℕ)
    (distance tenant database : String) (owners : List ℕ) (change : String) (l : Leader)
    (id : Uuid) :
    id ∈ (final (clientWrite write
        (.addCollection i name dimension distance tenant database owners) change
        l)).data.collections ↔ (write.Applied ∧ id = i) ∨ id ∈ l.data.collections := by
  cases write with
  | applied | unreported msg =>
      exact (AList.mem_insert _).trans (or_congr_left (and_iff_right trivial).symm)
  | lost msg => exact (or_iff_right fun h => h.1).symm

theorem mem_clientWrite_remove (write : RaftWrite) (i : Uuid) (change : String) (l : Leader)
    (id : Uuid) :
    id ∈ (final (clientWrite write (.removeCollection i) change l)).data.collections ↔
      ¬ (write.Applied ∧ id = i) ∧ id ∈ l.data.collections := by
  cases write with
  | applied | unreported msg =>
      exact AList.mem_erase.trans (and_congr_left fun _ => not_congr (and_iff_right trivial).symm)
  | lost msg => exact (and_iff_right fun h => h.1).symm

theorem moves_create (write : RaftWrite) (opening : Engine.Opening) (id : Uuid)
    (tenant database : String) (req : Native.CreateCollectionRequest) (l : Leader) :
    Moves l (final (createCollection write opening id tenant database req l)) write.Applied := by
  rcases createCollection_opens opening id tenant database req l.engine with
    ⟨err, e', hrun, hsame⟩ | ⟨res, e', coll, hrun, hinsert⟩
  · have hfail : createCollection write opening id tenant database req l =
        .error err { l with engine := e' } := bind_of_error (onEngine_error hrun)
    rw [hfail]
    refine .still (fun i => ?_) fun _ => Iff.rfl
    show i ∈ e'.collections ↔ _
    rw [hsame]
  · have hmade : createCollection write opening id tenant database req l = _ :=
      bind_of_ok (onEngine_ok hrun)
    rw [hmade, final_bind_pure]
    refine .opens id (fun i => ?_) fun i => mem_clientWrite_add ..
    rw [engine_clientWrite]
    show i ∈ e'.collections ↔ _
    rw [hinsert]
    exact AList.mem_insert _

theorem moves_delete (fault : Option String) (walFile checkpointDir : Engine.Removal)
    (write : RaftWrite) (id : Uuid) (l : Leader) :
    Moves l (final ((do
      onEngine (Engine.deleteCollection fault walFile checkpointDir id)
      clientWrite write (.removeCollection id) "deletion" : LeaderM Unit) l))
      (Removed walFile checkpointDir ∧ write.Applied) := by
  rcases deleteCollection_closes fault walFile checkpointDir id l.engine with
    ⟨err, hrun⟩ | ⟨e', herase, hrun⟩
  · rw [bind_of_error (onEngine_error hrun)]
    exact .still (fun _ => Iff.rfl) fun _ => Iff.rfl
  · have hclosed : ∀ i, i ∈ e'.collections ↔ i ≠ id ∧ i ∈ l.engine.collections := fun i => by
      rw [herase]
      exact AList.mem_erase
    rcases removeFiles_cases walFile checkpointDir e' with
      ⟨hremoved, hfiles⟩ | ⟨hkept, err, hfiles⟩
    · rw [bind_of_ok (onEngine_ok (hrun.trans hfiles))]
      refine .closes id (fun i => ?_) fun i => ?_
      · rw [engine_clientWrite]
        exact hclosed i
      · rw [mem_clientWrite_remove, and_iff_right hremoved]
    · rw [bind_of_error (onEngine_error (hrun.trans hfiles))]
      exact .closes id hclosed fun i => (and_iff_right fun h => hkept h.1.1).symm

theorem moves_createChroma (fault : Option String) (opening : Engine.Opening) (id : Uuid)
    (tenant database : String) (req : ChromaCreateCollectionRequest) (l : Leader) :
    Moves l (final (onEngine
      (createCollectionChroma text fault opening id tenant database req) l)) False := by
  rw [final_onEngine]
  cases hrun : createCollectionChroma text fault opening id tenant database req l.engine with
  | ok p e' =>
      obtain ⟨status, res⟩ := p
      rcases createCollectionChroma_ok hrun with ⟨record, -, -, -, rfl⟩ | ⟨-, -, -, coll, rfl⟩
      · exact .still (fun _ => Iff.rfl) fun _ => Iff.rfl
      · refine .opens id (fun i => AList.mem_insert _) fun i => ?_
        exact (or_iff_right fun h => h.1).symm
  | error err e' =>
      refine .still (fun i => ?_) fun _ => Iff.rfl
      show i ∈ e'.collections ↔ _
      rw [collections_of_createCollectionChroma_error hrun]

theorem moves_deleteChroma (fault : Option String) (walFile checkpointDir : Engine.Removal)
    (write : RaftWrite) (tenant database name : String) (l : Leader) :
    Moves l (final (deleteCollectionChroma text fault walFile checkpointDir write tenant database
      name l)) (Removed walFile checkpointDir ∧ write.Applied) := by
  cases hnamed : namedCollection text l.engine tenant database name with
  | error err =>
      have hfail : deleteCollectionChroma text fault walFile checkpointDir write tenant database
          name l = .error err l := by
        refine (bind_of_ok (get_ok.mpr ⟨rfl, rfl⟩)).trans (bind_of_error ?_)
        exact ofExcept_error.mpr ⟨hnamed, rfl⟩
      rw [hfail]
      exact .still (fun _ => Iff.rfl) fun _ => Iff.rfl
  | ok record =>
      have hstart : deleteCollectionChroma text fault walFile checkpointDir write tenant database
          name l = (do
            let _ ← (do
              onEngine (Engine.deleteCollection fault walFile checkpointDir record.config.id)
              clientWrite write (.removeCollection record.config.id) "deletion" : LeaderM Unit)
            pure (chromaResponse record) : LeaderM ChromaCollectionResponse) l := by
        refine (bind_of_ok (get_ok.mpr ⟨rfl, rfl⟩)).trans
          ((bind_of_ok (ofExcept_ok.mpr ⟨hnamed, rfl⟩)).trans ?_)
        rw [bind_assoc]
      rw [hstart, final_bind_pure]
      exact moves_delete ..

/-- **What a call does**, and whether the cluster hears of it. -/
theorem NodeCall.moves (text : UuidText) (K : Kernels) (call : NodeCall) (l : Leader) :
    Moves l (call.after text K l) call.Tells := by
  unfold NodeCall.after
  cases call with
  | create write opening id tenant database req =>
      rw [NodeCall.handle, final_discard]
      exact moves_create ..
  | createChroma fault opening id tenant database req =>
      rw [NodeCall.handle, final_discard]
      exact moves_createChroma ..
  | delete write walFile checkpointDir id => exact moves_delete ..
  | deleteChroma fault walFile checkpointDir write tenant database name =>
      rw [NodeCall.handle, final_discard]
      exact moves_deleteChroma ..
  | record id req =>
      rw [NodeCall.handle, final_discard, final_onEngine]
      exact .still (fun _ => mem_handleNative K req) fun _ => Iff.rfl
  | recordChroma tenant database name req =>
      rw [NodeCall.handle, final_discard, final_onEngine]
      exact .still (fun _ => mem_handle text K tenant database name req) fun _ => Iff.rfl

end Calls

/-! ## Runs -/

/-- The states a node goes through from its start, each with the call made in it. -/
inductive Leads (text : UuidText) (K : Kernels) : List (Leader × NodeCall) → Leader → Prop
  | start : Leads text K [] {}
  | call {log : List (Leader × NodeCall)} {l : Leader} (call : NodeCall) : Leads text K log l →
      Leads text K (log ++ [(l, call)]) (call.after text K l)

/-- **The metadata stays in step** with the open collections throughout a run exactly
if the cluster hears of every call that opens or closes one. -/
theorem metadata_in_step_iff {text : UuidText} {K : Kernels} {log : List (Leader × NodeCall)}
    {l : Leader} (h : Leads text K log l) :
    (∀ p ∈ log, InStep p.1) ∧ InStep l ↔
      ∀ p ∈ log, p.2.Changes text K p.1 → p.2.Tells := by
  induction h with
  | start =>
      refine iff_of_true ⟨fun p hp => absurd hp List.not_mem_nil, fun id => Iff.rfl⟩ ?_
      exact fun p hp => absurd hp List.not_mem_nil
  | @call log l call _ ih =>
      have hstep := fun hl => (call.moves text K l).in_step_iff hl
      constructor
      · rintro ⟨hbefore, hafter⟩ p hp
        have hl := hbefore (l, call) (List.mem_append_right _ (List.mem_singleton_self _))
        rcases List.mem_append.mp hp with hp | hp
        · exact ih.mp ⟨fun p hp => hbefore p (List.mem_append_left _ hp), hl⟩ p hp
        · obtain rfl := List.mem_singleton.mp hp
          exact (hstep hl).mp hafter
      · intro htells
        obtain ⟨hbefore, hl⟩ := ih.mpr fun p hp => htells p (List.mem_append_left _ hp)
        refine ⟨fun p hp => ?_, (hstep hl).mpr (htells (l, call) ?_)⟩
        · rcases List.mem_append.mp hp with hp | hp
          · exact hbefore p hp
          · obtain rfl := List.mem_singleton.mp hp
            exact hl
        · exact List.mem_append_right _ (List.mem_singleton_self _)

/-- Two creations and a deletion that the cluster hears of, and two ways on: a deletion
whose write is lost, and a creation through Chroma. -/
theorem metadata_in_step_demo :
    let K := exactKernels fun _ _ _ => ⟨0⟩
    let files := Engine.Opening.files WalFile.empty {} K.order
    let l₁ := NodeCall.after hexText K (.create .applied files ⟨1⟩ "t" "d" ⟨"docs", 1, .l2⟩) {}
    let l₂ := NodeCall.after hexText K (.create .applied files ⟨2⟩ "t" "d" ⟨"notes", 1, .l2⟩) l₁
    let l₃ := NodeCall.after hexText K (.delete .applied .removed .notFound ⟨1⟩) l₂
    InStep l₁ ∧ InStep l₂ ∧ InStep l₃ ∧ ⟨2⟩ ∈ l₃.data.collections ∧
      ¬ InStep (NodeCall.after hexText K (.delete (.lost "no leader") .removed .removed ⟨2⟩) l₃) ∧
      ¬ InStep (NodeCall.after hexText K
        (.createChroma none files ⟨3⟩ "t" "d" (demoRequest "docs")) l₃) := by
  intro K files l₁ l₂ l₃
  have hrun : Leads hexText K [({}, _), (l₁, _), (l₂, _)] l₃ := .call _ (.call _ (.call _ .start))
  obtain ⟨hbefore, h₃⟩ := (metadata_in_step_iff hrun).mpr fun p hp _ => by
    simp only [List.mem_cons, List.not_mem_nil, or_false] at hp
    rcases hp with rfl | rfl | rfl
    · trivial
    · trivial
    · exact ⟨⟨fun _ => Engine.Removal.noConfusion, fun _ => Engine.Removal.noConfusion⟩, trivial⟩
  have hout : ∀ call : NodeCall, call.Changes hexText K l₃ → ¬ call.Tells →
      ¬ InStep (call.after hexText K l₃) := by
    intro call hchanges htells hstep
    refine htells ((metadata_in_step_iff (hrun.call call)).mp ⟨fun p hp => ?_, hstep⟩
      (l₃, call) (List.mem_append_right _ (List.mem_singleton_self _)) hchanges)
    rcases List.mem_append.mp hp with hp | hp
    · exact hbefore p hp
    · obtain rfl := List.mem_singleton.mp hp
      exact h₃
  refine ⟨hbefore (l₁, _) (List.mem_cons_of_mem _ List.mem_cons_self),
    hbefore (l₂, _) (List.mem_cons_of_mem _ (List.mem_cons_of_mem _ List.mem_cons_self)), h₃,
    by decide +kernel,
    hout _ ⟨⟨2⟩, by decide +kernel⟩ fun h => h.2, hout _ ⟨⟨3⟩, by decide +kernel⟩ fun h => h⟩

end Rekha.Cluster
