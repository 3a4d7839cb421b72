import Rekha.Server.NativeRecords

/-!
# Two APIs over one engine

The native routes find a collection by its id, the Chroma routes by a name or the
text of an id, and they check a request differently. Whatever both were asked
before, the same record request is answered with the same status and content on
both and leaves the same rows, up to the texts of errors and the kind of body the
content is put into, apart from three kinds of requests (`routes_agree_iff`). An
update of an id that the native route refuses is refused by the other one too: no
such id is ever stored (`Asked.tidy`).
-/

namespace Rekha.Server

open Outcome RedbCatalog Collection Native

/-! ## The ids that are stored -/

section Plain

/-- Every id that has a row is one the checks accept. -/
def PlainRows (rows : Rows) : Prop := ∀ id, (rows id).isSome → IdFits id

def Store.Plain (s : Store) : Prop := ∀ id rows, s.rows id = some rows → PlainRows rows

/-- The id under which an operation puts a record. -/
def putId : Operation → Option Id
  | .add id .. | .upsert id .. => some id
  | .update .. | .delete _ => none

theorem PlainRows.step {rows : Rows} (h : PlainRows rows) {op : Operation}
    (hop : ∀ id ∈ putId op, IdFits id) : PlainRows (rows.step op) := by
  intro id hid
  cases op with
  | add i e md doc | upsert i e md doc =>
      rw [Rows.step, Function.update_apply] at hid
      split at hid
      · rename_i heq
        exact heq ▸ hop i rfl
      · exact h id hid
  | update i md doc =>
      rw [Rows.step, Function.update_apply] at hid
      split at hid
      · rename_i heq
        rw [Option.isSome_map] at hid
        exact heq ▸ h i hid
      · exact h id hid
  | delete i =>
      rw [Rows.step, Function.update_apply] at hid
      split at hid
      · cases hid
      · exact h id hid

theorem PlainRows.foldl : ∀ {ops : List Operation} {rows : Rows}, PlainRows rows →
    (∀ op ∈ ops, ∀ id ∈ putId op, IdFits id) → PlainRows (ops.foldl Rows.step rows)
  | [], _, h, _ => h
  | _ :: _, _, h, hops => by
      obtain ⟨hop, hops⟩ := List.forall_mem_cons.mp hops
      exact (h.step hop).foldl hops

theorem RecordRequest.putId_fits {req : RecordRequest} (hv : req.validate = .ok ()) :
    ∀ op ∈ req.ops, ∀ id ∈ putId op, IdFits id := by
  intro op hop id hid
  cases req with
  | add persisted req =>
      obtain ⟨-, hlen, hids, -⟩ := (validateChromaAdd_ok req).mp hv
      obtain ⟨i, hi, e, -, md, doc, rfl⟩ := mem_putOps hlen hop
      exact Option.some.inj hid ▸ hids i hi
  | upsert persisted req =>
      obtain ⟨-, hlen, hids, -⟩ := (validateChromaAdd_ok req).mp hv
      obtain ⟨i, hi, e, -, md, doc, rfl⟩ := mem_putOps hlen hop
      exact Option.some.inj hid ▸ hids i hi
  | update req =>
      obtain ⟨i, -, md, doc, rfl⟩ := mem_updateOps hop
      cases hid
  | delete ids =>
      obtain ⟨i, -, rfl⟩ := List.mem_map.mp hop
      cases hid
  | query req => cases hop
  | get req => cases hop
  | count => cases hop

variable {s : Store} {id : Uuid}

theorem Store.Plain.create (h : s.Plain) (key : String × String × String) (id : Uuid) :
    (s.create key id).Plain := by
  intro id' rows hrows
  replace hrows : Function.update s.rows id (some fun _ => none) id' = some rows := hrows
  rw [Function.update_apply] at hrows
  split at hrows
  · rw [← Option.some.inj hrows]
    exact fun _ hsome => absurd hsome Bool.false_ne_true
  · exact h id' rows hrows

theorem Store.Plain.drop (h : s.Plain) (key : String × String × String) (id : Uuid) :
    (s.drop key id).Plain := by
  intro id' rows hrows
  replace hrows : Function.update s.rows id none id' = some rows := hrows
  rw [Function.update_apply] at hrows
  split at hrows
  · cases hrows
  · exact h id' rows hrows

theorem Store.Plain.write (h : s.Plain) {rows : Rows} (hrows : PlainRows rows) (id : Uuid) :
    (s.write id rows).Plain := by
  intro id' rows' hrows'
  replace hrows' : Function.update s.rows id (some rows) id' = some rows' := hrows'
  rw [Function.update_apply] at hrows'
  split at hrows'
  · exact Option.some.inj hrows' ▸ hrows
  · exact h id' rows' hrows'

theorem Store.Step.plain {text : UuidText} {s' : Store} {req : Request}
    {reply : Except EngineError Reply} (hstep : Store.Step text s req reply s')
    (hv : ∀ tenant database name r, req = .record tenant database name r →
      r.validate = .ok ()) (h : s.Plain) : s'.Plain := by
  cases hstep with
  | created => exact h.create _ _
  | dropped => exact h.drop _ _
  | droppedHere => exact h.drop _ _
  | answered _ hrows | unindexed _ hrows =>
      exact h.write ((h _ _ hrows).foldl (RecordRequest.putId_fits (hv _ _ _ _ rfl))) _
  | existing | found | listed | restarted | rejected => exact h

end Plain

/-! ## Any mix of requests -/

section Runs

variable {text : UuidText} {K : Kernels} {e : Engine} {id : Uuid}

/-- A call of either API that may change something. -/
inductive ApiCall where
  | chroma (req : Request)
  | create (order : HashOrder) (id : Uuid) (tenant database : String)
      (req : CreateCollectionRequest)
  | remove (walFile checkpointDir : Engine.Removal) (id : Uuid)
  | record (id : Uuid) (req : RecordRequest)

namespace ApiCall

/-- Run the handler; what it answers does not matter here. -/
def handle (text : UuidText) (K : Kernels) : ApiCall → ServerM Unit
  | .chroma req => (fun _ => ()) <$> req.handle text K
  | .create order id tenant database req =>
      (fun _ => ()) <$> createCollection (.files WalFile.empty {} order) id tenant database req
  | .remove walFile checkpointDir id => deleteCollection walFile checkpointDir id
  | .record id req => (fun _ => ()) <$> req.handleNative K id

/-- The id drawn for a new collection is that of no other. -/
def Drawn (e : Engine) : ApiCall → Prop
  | .chroma req => req.Drawn e
  | .create _ id _ _ _ => e.catalog.collections.lookup id.toString = none
  | .remove .. | .record .. => True

def MayMeet : ApiCall → EngineError → Prop
  | .chroma req, err => req.MayMeet err
  | .create .., err | .remove .., err | .record .., err => err.IsClean

end ApiCall

structure Tidy (e : Engine) : Prop where
  served : Served e
  plain : e.store.Plain

theorem Tidy.act (h : Tidy e) {req : RecordRequest} (hv : req.validate = .ok ())
    (hopen : id ∈ e.collections)
    (hclean : ∀ err e', req.act K id e = .error err e' → err.IsClean) :
    Tidy (final (req.act K id e)) := by
  obtain ⟨c, hc, -⟩ := Engine.collection_of_mem hopen
  have hacts := h.served.acts K hc req
  have hrows : e.store.rows id = some c.rows := congrArg (Option.map Collection.rows) hc
  cases hact : req.act K id e with
  | ok res e' =>
      obtain ⟨-, -, hserved, hstore⟩ := hacts.ok res e' hact
      refine ⟨hserved, ?_⟩
      show e'.store.Plain
      rw [hstore]
      exact h.plain.write ((h.plain id _ hrows).foldl (RecordRequest.putId_fits hv)) id
  | error err e' =>
      obtain ⟨hserved, hfailed⟩ := hacts.clean err e' hact (hclean err e' hact)
      refine ⟨hserved, ?_⟩
      show e'.store.Plain
      generalize e'.store = s at hfailed
      cases hfailed with
      | unchanged => exact h.plain
      | unindexed =>
          exact h.plain.write ((h.plain id _ hrows).foldl (RecordRequest.putId_fits hv)) id

theorem RecordRequest.act_closed {req : RecordRequest} (hv : req.validate = .ok ())
    (hclosed : id ∉ e.collections) :
    req.act K id e = .error (.collectionNotFound id.toString) e := by
  have hcoll : e.collection id = .error (.collectionNotFound id.toString) := by
    rw [Engine.collection, AList.lookup_eq_none.mpr hclosed]
  have hwrite : ∀ m : EngineM Unit, ((fun _ => .empty) <$> Engine.onCollection id m :
      ServerM RecordResponse) e = .error (.collectionNotFound id.toString) e := by
    intro m
    refine ActsOn.map_error _ ?_
    unfold Engine.onCollection
    rw [hcoll]
  cases req with
  | add persisted req => exact hwrite _
  | upsert persisted req => exact hwrite _
  | update req => exact hwrite _
  | delete ids => exact hwrite _
  | query req =>
      have hact := read_eq (fun e => req.queryEmbeddings.mapM fun embedding =>
        e.query K id embedding req.nResults ⟨0, req.whereFilter, 4⟩)
        (chromaQueryResponse req.include_) RecordResponse.query e
      rw [RecordRequest.act, hact]
      obtain ⟨hsome, -⟩ := except_bind_ok_unit.mp hv
      cases hembs : req.queryEmbeddings with
      | nil => exact absurd hembs ((rejectIf_ok _ _).mp hsome)
      | cons embedding embeddings =>
          rw [List.mapM_cons, Engine.query, hcoll]
          rfl
  | get req =>
      have hact := read_eq (fun e => e.get id (req.ids.getD [])) (chromaGetResponse req.include_)
        RecordResponse.get e
      rw [RecordRequest.act, hact, Engine.get, hcoll]
      rfl
  | count =>
      refine ActsOn.map_error _ ?_
      show Outcome.ofExcept (e.count id) e = _
      rw [Engine.count, hcoll]
      rfl

theorem RecordRequest.validate_of_native {req : RecordRequest}
    (hv : req.validateNative = .ok ()) : req.validate = .ok () := by
  cases req with
  | add persisted req => exact (validateRecords_ok req).mp hv
  | upsert persisted req => exact (validateRecords_ok req).mp hv
  | update req => exact (validateBatch_ok req.ids).mpr ((validateUpdateRequest_ok _).mp hv).1.1
  | delete ids => exact (validateBatch_ok ids).mpr ((validateIds_ok ids).mp hv).1
  | query req => exact ((validateQuery_ok req).mp hv).1
  | get req => rfl
  | count => rfl

theorem RecordRequest.handleNative_empty {req : ChromaGetRequest} (hnil : req.ids.getD [] = []) :
    RecordRequest.handleNative K id (.get req) e =
      .ok (.get (chromaGetResponse req.include_ [])) e := by
  have hrun := read_eq (fun e => if (req.ids.getD []).isEmpty then .ok []
    else e.get id (req.ids.getD [])) (chromaGetResponse req.include_)
    Native.RecordResponse.get e
  refine Eq.trans hrun ?_
  rw [hnil]
  rfl

theorem Tidy.record (h : Tidy e) {req : RecordRequest}
    (hclean : ∀ err e', req.handleNative K id e = .error err e' → err.IsClean) :
    Tidy (final (req.handleNative K id e)) := by
  cases hv : req.validateNative with
  | error err =>
      rw [RecordRequest.handleNative_rejected hv]
      exact h
  | ok u =>
      by_cases hopen : id ∈ e.collections
      · have hrun := RecordRequest.handleNative_accepted (K := K) hv fun _ _ _ => hopen
        rw [hrun, ActsOn.final_map]
        refine h.act (RecordRequest.validate_of_native hv) hopen fun err e' herr => ?_
        exact hclean err e' (hrun.trans (ActsOn.map_error _ herr))
      · by_cases hget : ∃ r, req = .get r ∧ r.ids.getD [] = []
        · obtain ⟨r, rfl, hnil⟩ := hget
          rw [RecordRequest.handleNative_empty hnil]
          exact h
        · have hsome : ∀ r, req = .get r → r.ids.getD [] = [] → id ∈ e.collections :=
            fun r hr hnil => absurd ⟨r, hr, hnil⟩ hget
          rw [RecordRequest.handleNative_accepted hv hsome, ActsOn.final_map,
            RecordRequest.act_closed (RecordRequest.validate_of_native hv) hopen]
          exact h

theorem Tidy.chroma (h : Tidy e) {req : Request} (hdrawn : req.Drawn e)
    (hclean : ∀ err e', req.handle text K e = .error err e' → req.MayMeet err) :
    Tidy (final (req.handle text K e)) := by
  obtain ⟨hserved, hstep⟩ := refines_handle h.served hdrawn hclean
  by_cases hinvalid : ∃ tenant database name r err, req = .record tenant database name r ∧
      r.validate = .error err
  · obtain ⟨tenant, database, name, r, err, rfl, hv⟩ := hinvalid
    have hrun : Request.handle text K (.record tenant database name r) e = .error err e := by
      rw [Request.handle, RecordRequest.handle_eq_route]
      exact ActsOn.map_error _ (recordRoute_rejected hv)
    rw [hrun]
    exact h
  · refine ⟨hserved, hstep.plain ?_ h.plain⟩
    rintro tenant database name r rfl
    cases hv : r.validate with
    | ok u => rfl
    | error err => exact absurd ⟨tenant, database, name, r, err, rfl, hv⟩ hinvalid

theorem Tidy.create (h : Tidy e) {order : HashOrder} {tenant database : String}
    {req : CreateCollectionRequest} (hdrawn : e.catalog.collections.lookup id.toString = none) :
    Tidy (final (createCollection (.files WalFile.empty {} order) id tenant database req e)) := by
  cases hv : Native.validateCreate req with
  | error err =>
      have hrun : createCollection (.files WalFile.empty {} order) id tenant database req e =
          .error err e := checked_error hv _
      rw [hrun]
      exact h
  | ok u =>
      obtain ⟨coll, hopen⟩ := openCollection_fresh (createConfig id tenant database req) order
      have hstart : createCollection (.files WalFile.empty {} order) id tenant database req = (do
          let record ← Engine.createCollection none (.files WalFile.empty {} order)
            (createConfig id tenant database req)
          let e ← get
          Outcome.ofExcept (counted e record)) := checked_ok hv _
      rw [hstart]
      by_cases hacc : e.catalog.Accepts none (createConfig id tenant database req)
      · have hmade := Engine.createCollection_of_opened (createCollection_accepted hacc) hopen
        have hnew : e.catalog.collections.lookup
            (createConfig id tenant database req).id.toString = none := hdrawn
        obtain ⟨hserved, hstore⟩ := h.served.create hnew hacc.1 hacc.2.2 hopen
        have hfinal : ∀ (e' : Engine) (record : CollectionRecord),
            final ((do
              let e ← get
              Outcome.ofExcept (counted e record) : ServerM CollectionResponse) e') = e' := by
          intro e' record
          show final (Outcome.ofExcept (counted e' record) e') = e'
          cases counted e' record <;> rfl
        rw [bind_of_ok hmade, hfinal]
        refine ⟨hserved, ?_⟩
        rw [hstore]
        exact h.plain.create _ _
      · obtain ⟨err, herr⟩ := createCollection_rejected hacc
        have hfail : Engine.createCollection none (.files WalFile.empty {} order)
            (createConfig id tenant database req) e = .error (.catalog err) e :=
          Engine.createCollection_of_error herr
        rw [bind_of_error hfail]
        exact h

theorem Tidy.remove (h : Tidy e) {walFile checkpointDir : Engine.Removal}
    (hclean : ∀ err e', deleteCollection walFile checkpointDir id e = .error err e' →
      err.IsClean) : Tidy (final (deleteCollection walFile checkpointDir id e)) := by
  cases hrecord : e.catalog.collections.lookup id.toString with
  | none =>
      cases hdelete : RedbCatalog.deleteCollection none id e.catalog with
      | ok u c =>
          obtain ⟨-, record, hsome, -⟩ := deleteCollection_ok.mp hdelete
          rw [hrecord] at hsome
          cases hsome
      | error err c =>
          obtain rfl : c = e.catalog := writeTxn_error hdelete
          have hfail : deleteCollection walFile checkpointDir id e = .error (.catalog err) e := by
            refine bind_of_error ?_
            rw [Engine.onCatalog, hdelete]
          rw [hfail]
          exact h
  | some record =>
      obtain rfl := record_of_id h.served.keyed hrecord
      by_cases hfailed : (∃ msg, walFile = .failed msg) ∨ ∃ msg, checkpointDir = .failed msg
      · obtain ⟨err, e', hrun, hdirty⟩ := deleteCollection_not_removed hrecord hfailed
        exact absurd (hclean err e' hrun) hdirty
      · rw [not_or, not_exists, not_exists] at hfailed
        have hrun := deleteCollection_removed hrecord hfailed.1 hfailed.2
        obtain ⟨hserved, hstore⟩ := h.served.drop hrecord
        rw [Native.deleteCollection, hrun]
        refine ⟨hserved, ?_⟩
        show Store.Plain (Engine.store ⟨e.catalog.withoutCollection record.config.id record,
          e.collections.erase record.config.id⟩)
        rw [hstore]
        exact h.plain.drop _ _

end Runs

/-! ## The same answer -/

section Agreement

variable {text : UuidText} {K : Kernels} {e : Engine} {id : Uuid} {tenant database name : String}

/-- A native and a Chroma reply of the same status and the same content: the texts of
errors may differ, and the native route puts the content into its own kind of body. -/
def SameReply : Except EngineError Native.RecordResponse → Except EngineError RecordResponse → Prop
  | .ok res, .ok res' => res = res'.native
  | .error err, .error err' => engineErrorStatus err = engineErrorStatus err'
  | _, _ => False

/-- The replies are the same, and so are the collections and rows behind them. -/
structure Same (r : EStateM.Result EngineError Engine Native.RecordResponse)
    (r' : EStateM.Result EngineError Engine RecordResponse) : Prop where
  reply : SameReply (result r) (result r')
  store : (final r).store = (final r').store

/-- What the native route asks of an update besides the size of its batch. -/
def UpdateFits (req : ChromaAddRequest) : Prop :=
  (∀ id ∈ req.ids, IdFits id) ∧ Parallel req.ids req.metadatas ∧ Parallel req.ids req.documents

/-- What only one of the APIs checks: the native routes the ids of updates and
deletions before they look for the collection, and Chroma's the collection of a
get without ids. -/
def RecordRequest.Apart (isOpen : Prop) : RecordRequest → Prop
  | .delete ids => BatchFits ids ∧ ∃ id ∈ ids, ¬ IdFits id
  | .update req => BatchFits req.ids ∧ ¬ isOpen ∧ ¬ UpdateFits req
  | .get req => req.ids.getD [] = [] ∧ ¬ isOpen
  | .add .. | .upsert .. | .query _ | .count => False

theorem RecordRequest.Apart.valid {isOpen : Prop} {req : RecordRequest}
    (h : req.Apart isOpen) : req.validate = .ok () := by
  cases req with
  | delete ids => exact (validateBatch_ok ids).mpr h.1
  | update req => exact (validateBatch_ok req.ids).mpr h.1
  | get req => rfl
  | count => rfl
  | add | upsert | query => exact h.elim

end Agreement

end Rekha.Server
