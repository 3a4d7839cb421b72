import Rekha.Server.Rectangular
import Rekha.Server.StoreRefinement

/-!
# The native record routes

`/collections/{id}/{route}`: the collection is given by its id, and a request is
checked more strictly than on the Chroma routes. Adds and upserts are checked for
the same things in another order, updates and deletions for their ids as well,
queries for their vectors.
-/

namespace Rekha.Server

open Outcome RedbCatalog Collection

namespace Native

/-! ## Checks -/

def validateIds (ids : List Id) : Except EngineError Unit := do
  validateBatch ids
  rejectFirst (fun id => decide (id = "") || decide (maxIdLength < id.utf8ByteSize))
    (fun id => if id = "" then "id must not be empty"
      else s!"id exceeds max length {maxIdLength}: {id}") ids

def validateEmbeddings (embeddings : List Embedding) : Except EngineError Unit := do
  rejectIf (embeddings = []) "embeddings must not be empty"
  rejectFirst (fun emb => emb.isEmpty || decide (maxDimension < emb.length))
    (fun emb => if emb.isEmpty then "embedding must not be empty"
      else s!"embedding dimension {emb.length} exceeds max {maxDimension}") embeddings

/-- The fields are those of the Chroma route. -/
abbrev AddRequest := ChromaAddRequest

abbrev UpsertRequest := ChromaAddRequest

structure UpdateRequest where
  ids : List Id
  metadatas : Option (List (Option Metadata))
  documents : Option (List (Option Document))

/-- What `validate_add_request` and `validate_upsert_request` both check. -/
def validateRecords (req : ChromaAddRequest) : Except EngineError Unit := do
  validateIds req.ids
  validateEmbeddings req.embeddings
  rejectIf (req.ids.length ≠ req.embeddings.length)
    s!"ids len {req.ids.length} != embeddings len {req.embeddings.length}"
  validateParallel "metadatas" req.ids req.metadatas
  validateParallel "documents" req.ids req.documents

def validateAddRequest (req : AddRequest) : Except EngineError Unit := validateRecords req

def validateUpsertRequest (req : UpsertRequest) : Except EngineError Unit := validateRecords req

def validateDeleteRequest (ids : List Id) : Except EngineError Unit := validateIds ids

def validateUpdateRequest (req : UpdateRequest) : Except EngineError Unit := do
  validateIds req.ids
  validateParallel "metadatas" req.ids req.metadatas
  validateParallel "documents" req.ids req.documents

/-! ## Handlers -/

def addRecords (persisted : Bool) (id : Uuid) (req : AddRequest) : ServerM Unit := do
  Outcome.ofExcept (validateAddRequest req)
  Engine.onCollection id (add persisted req.ids req.embeddings req.metadatas req.documents)

def upsertRecords (persisted : Bool) (id : Uuid) (req : UpsertRequest) : ServerM Unit := do
  Outcome.ofExcept (validateUpsertRequest req)
  Engine.onCollection id (upsert persisted req.ids req.embeddings req.metadatas req.documents)

def updateRecords (id : Uuid) (req : UpdateRequest) : ServerM Unit := do
  Outcome.ofExcept (validateUpdateRequest req)
  Engine.onCollection id (update req.ids req.metadatas req.documents)

def deleteRecords (id : Uuid) (ids : List Id) : ServerM Unit := do
  Outcome.ofExcept (validateDeleteRequest ids)
  Engine.onCollection id (delete ids)

structure CountResponse where
  count : ℕ

def countRecords (id : Uuid) : ServerM CountResponse := do
  let e ← get
  let count ← Outcome.ofExcept (e.count id)
  pure ⟨count⟩

/-- The body of a successful response. A write has none. -/
inductive RecordResponse where
  | noBody
  | query (res : QueryResponse)
  | get (res : GetResponse)
  | count (res : CountResponse)

end Native

namespace RecordRequest

/-- Run the native handler of a request. Nothing comes between two of its
queries. -/
def handleNative (K : Kernels) (id : Uuid) : RecordRequest → ServerM Native.RecordResponse
  | .add persisted req => (fun _ => .noBody) <$> Native.addRecords persisted id req
  | .upsert persisted req => (fun _ => .noBody) <$> Native.upsertRecords persisted id req
  | .update req =>
      (fun _ => .noBody) <$> Native.updateRecords id ⟨req.ids, req.metadatas, req.documents⟩
  | .delete ids => (fun _ => .noBody) <$> Native.deleteRecords id ids
  | .query req => .query <$> do
      let e ← MonadState.get
      Outcome.ofExcept (Native.queryRecords K (fun _ => e) id req)
  | .get req => .get <$> Native.getRecords id ⟨req.ids, req.include_⟩
  | .count => .count <$> Native.countRecords id

def validateNative : RecordRequest → Except EngineError Unit
  | .add _ req => Native.validateAddRequest req
  | .upsert _ req => Native.validateUpsertRequest req
  | .update req => Native.validateUpdateRequest ⟨req.ids, req.metadatas, req.documents⟩
  | .delete ids => Native.validateDeleteRequest ids
  | .query req => Native.validateQuery req
  | .get _ | .count => .ok ()

end RecordRequest

open Native

/-! ## What the checks accept -/

section Checks

variable {α : Type}

/-- An id that the native routes accept. -/
def IdFits (id : Id) : Prop := id ≠ "" ∧ id.utf8ByteSize ≤ maxIdLength

def VectorFits (emb : Embedding) : Prop := emb ≠ [] ∧ emb.length ≤ maxDimension

def BatchFits (ids : List Id) : Prop := ids ≠ [] ∧ ids.length ≤ maxBatchSize

/-- An optional list is as long as the ids. -/
def Parallel (ids : List Id) (opt : Option (List α)) : Prop :=
  ∀ l, opt = some l → l.length = ids.length

theorem except_bind_ok_unit {x y : Except EngineError Unit} :
    (do x; y) = .ok () ↔ x = .ok () ∧ y = .ok () := by
  rw [except_bind_ok]
  exact ⟨fun ⟨_, hx, hy⟩ => ⟨hx, hy⟩, fun ⟨hx, hy⟩ => ⟨(), hx, hy⟩⟩

theorem rejectIf_ok (bad : Prop) [Decidable bad] (msg : String) :
    rejectIf bad msg = .ok () ↔ ¬ bad := by
  unfold rejectIf
  split
  · rename_i hbad
    exact iff_of_false (fun h => by cases h) (not_not_intro hbad)
  · rename_i hgood
    exact iff_of_true rfl hgood

theorem rejectFirst_ok (bad : α → Bool) (msg : α → String) (l : List α) :
    rejectFirst bad msg l = .ok () ↔ ∀ a ∈ l, bad a = false := by
  unfold rejectFirst
  cases hfind : l.find? bad with
  | some a =>
      refine iff_of_false (fun h => by cases h) fun h => ?_
      have hbad := List.find?_some hfind
      rw [h a (List.mem_of_find?_eq_some hfind)] at hbad
      cases hbad
  | none =>
      refine iff_of_true rfl fun a ha => ?_
      exact Bool.eq_false_iff.mpr (List.find?_eq_none.mp hfind a ha)

theorem validateParallel_ok (what : String) (ids : List Id) (opt : Option (List α)) :
    validateParallel what ids opt = .ok () ↔ Parallel ids opt := by
  cases opt with
  | none => exact iff_of_true rfl fun _ h => by cases h
  | some l =>
      have hok : validateParallel what ids (some l) = .ok () ↔ ¬ l.length ≠ ids.length :=
        rejectIf_ok _ _
      rw [hok, not_not]
      exact ⟨fun h _ hl => Option.some.inj hl ▸ h, fun h => h l rfl⟩

theorem validateBatch_ok (ids : List Id) : validateBatch ids = .ok () ↔ BatchFits ids := by
  unfold validateBatch
  rw [except_bind_ok_unit, rejectIf_ok, rejectIf_ok, not_lt]
  exact Iff.rfl

theorem rejectFirst_ids (msg : Id → String) (ids : List Id) :
    rejectFirst (fun id => decide (id = "") || decide (maxIdLength < id.utf8ByteSize)) msg ids =
      .ok () ↔ ∀ id ∈ ids, IdFits id := by
  rw [rejectFirst_ok]
  simp only [Bool.or_eq_false_iff, decide_eq_false_iff_not, not_lt]
  exact Iff.rfl

theorem rejectFirst_vectors (msg : Embedding → String) (embeddings : List Embedding) :
    rejectFirst (fun emb => emb.isEmpty || decide (maxDimension < emb.length)) msg embeddings =
      .ok () ↔ ∀ emb ∈ embeddings, VectorFits emb := by
  rw [rejectFirst_ok]
  simp only [Bool.or_eq_false_iff, decide_eq_false_iff_not, not_lt, List.isEmpty_eq_false_iff]
  exact Iff.rfl

theorem validateIds_ok (ids : List Id) :
    validateIds ids = .ok () ↔ BatchFits ids ∧ ∀ id ∈ ids, IdFits id := by
  unfold validateIds
  rw [except_bind_ok_unit, validateBatch_ok, rejectFirst_ids]

theorem validateChromaAdd_ok (req : ChromaAddRequest) : validateChromaAdd req = .ok () ↔
    BatchFits req.ids ∧ req.ids.length = req.embeddings.length ∧ (∀ id ∈ req.ids, IdFits id) ∧
      (∀ emb ∈ req.embeddings, VectorFits emb) ∧ Parallel req.ids req.metadatas ∧
      Parallel req.ids req.documents := by
  unfold validateChromaAdd
  simp only [except_bind_ok_unit, validateBatch_ok, rejectIf_ok, rejectFirst_vectors,
    rejectFirst_ids, validateParallel_ok, not_not]

theorem validateRecords_ok (req : ChromaAddRequest) :
    validateRecords req = .ok () ↔ validateChromaAdd req = .ok () := by
  rw [validateChromaAdd_ok]
  unfold validateRecords validateEmbeddings
  simp only [except_bind_ok_unit, validateIds_ok, rejectIf_ok, rejectFirst_vectors,
    validateParallel_ok, not_not]
  constructor
  · rintro ⟨⟨hbatch, hids⟩, ⟨-, hvectors⟩, hlen, hm, hd⟩
    exact ⟨hbatch, hlen, hids, hvectors, hm, hd⟩
  · rintro ⟨hbatch, hlen, hids, hvectors, hm, hd⟩
    refine ⟨⟨hbatch, hids⟩, ⟨?_, hvectors⟩, hlen, hm, hd⟩
    intro hnil
    rw [hnil] at hlen
    exact hbatch.1 (List.eq_nil_of_length_eq_zero hlen)

theorem validateUpdateRequest_ok (req : UpdateRequest) :
    validateUpdateRequest req = .ok () ↔ (BatchFits req.ids ∧ ∀ id ∈ req.ids, IdFits id) ∧
      Parallel req.ids req.metadatas ∧ Parallel req.ids req.documents := by
  unfold validateUpdateRequest
  rw [except_bind_ok_unit, except_bind_ok_unit, validateIds_ok, validateParallel_ok,
    validateParallel_ok]

theorem validateQuery_ok (req : QueryRequest) :
    validateQuery req = .ok () ↔ validateChromaQuery req = .ok () ∧
      ∀ emb ∈ req.queryEmbeddings, VectorFits emb := by
  unfold validateQuery validateChromaQuery
  simp only [except_bind_ok_unit, rejectIf_ok, rejectFirst_vectors, not_or]
  tauto

end Checks

/-! ## The handlers as a check and an action -/

section Handlers

variable {K : Kernels} {id : Uuid} {e : Engine} {c : Collection}

/-- The response of a Chroma query as the native route returns it. -/
def paddedQuery (res : ChromaQueryResponse) : QueryResponse :=
  let k := (res.ids.head?.map List.length).getD 0
  { ids := res.ids.map (padTo k "")
    distances := res.distances.map fun column => column.map (padTo k infinity)
    metadatas := res.metadatas.map fun column => column.map (padTo k none)
    documents := res.documents.map fun column => column.map (padTo k none) }

/-- The native response of the same content: a write has no body instead of an empty
object, a count is the field of an object, the rows of a query are padded. -/
def RecordResponse.native : RecordResponse → Native.RecordResponse
  | .empty => .noBody
  | .query res => .query (paddedQuery res)
  | .get res => .get res
  | .count n => .count ⟨n⟩

theorem queryResponse_eq (include_ : List String) (allResults : List (List ScoredPoint)) :
    queryResponse include_ allResults =
      paddedQuery (chromaQueryResponse include_ allResults) := by
  have hk : (((chromaQueryResponse include_ allResults).ids.head?).map List.length).getD 0 =
      (allResults.head?.map List.length).getD 0 := by
    cases allResults with
    | nil => rfl
    | cons results rest => exact List.length_map _
  unfold queryResponse paddedQuery
  rw [hk]
  simp only [chromaQueryResponse, apply_ite (Option.map _), Option.map_some, Option.map_none]

theorem queryAll_eq (K : Kernels) (e : Engine) (id : Uuid) (req : QueryRequest) :
    queryAll K (fun _ => e) id req = req.queryEmbeddings.mapM fun embedding =>
      e.query K id embedding req.nResults ⟨0, req.whereFilter, 4⟩ := by
  have hmap : (req.queryEmbeddings.zipIdx.map Prod.fst).mapM (fun embedding =>
      e.query K id embedding req.nResults ⟨0, req.whereFilter, 4⟩) =
        queryAll K (fun _ => e) id req := List.mapM_map
  rw [← hmap, List.zipIdx_map_fst]

theorem map_of_ofExcept {α β : Type} {m : ServerM α} {x : Except EngineError α} (f : α → β)
    (h : m e = Outcome.ofExcept x e) : (f <$> m) e = Outcome.ofExcept (x.map f) e := by
  cases x with
  | error err => exact ActsOn.map_error f h
  | ok a => exact ActsOn.map_ok f h

theorem checked_ok {α : Type} {x : Except EngineError Unit} (hx : x = .ok ()) (m : ServerM α) :
    (do Outcome.ofExcept x; m) = m := by
  subst hx
  rfl

theorem checked_error {α : Type} {x : Except EngineError Unit} {err : EngineError}
    (hx : x = .error err) (m : ServerM α) :
    (do Outcome.ofExcept x; m : ServerM α) e = .error err e := by
  subst hx
  rfl

theorem queryRecords_ok_eq {req : QueryRequest} (hv : validateQuery req = .ok ()) :
    queryRecords K (fun _ => e) id req = (req.queryEmbeddings.mapM fun embedding =>
      e.query K id embedding req.nResults ⟨0, req.whereFilter, 4⟩).map fun allResults =>
        paddedQuery (chromaQueryResponse req.include_ allResults) := by
  unfold queryRecords
  rw [hv, queryAll_eq]
  simp only [queryResponse_eq]
  rfl

namespace RecordRequest

theorem handleNative_rejected {req : RecordRequest} {err : EngineError}
    (hv : req.validateNative = .error err) : req.handleNative K id e = .error err e := by
  cases req with
  | add persisted req => exact ActsOn.map_error _ (checked_error hv _)
  | upsert persisted req => exact ActsOn.map_error _ (checked_error hv _)
  | update req => exact ActsOn.map_error _ (checked_error hv _)
  | delete ids => exact ActsOn.map_error _ (checked_error hv _)
  | query req =>
      have hquery : queryRecords K (fun _ => e) id req = .error err := by
        unfold queryRecords
        rw [show validateQuery req = .error err from hv]
        rfl
      have hrun : (do
          let e ← MonadState.get
          Outcome.ofExcept (queryRecords K (fun _ => e) id req) : ServerM _) e = .error err e := by
        show Outcome.ofExcept (queryRecords K (fun _ => e) id req) e = _
        rw [hquery]
        rfl
      exact ActsOn.map_error _ hrun
  | get req => cases hv
  | count => cases hv

theorem native_empty (m : ServerM Unit) :
    RecordResponse.native <$> ((fun _ => .empty) <$> m) =
      ((fun _ => .noBody) <$> m : ServerM Native.RecordResponse) := by
  rw [Functor.map_map]
  rfl

/-- What it accepts, it does as the Chroma handler does on a collection that was
found. -/
theorem handleNative_accepted {req : RecordRequest} (hv : req.validateNative = .ok ())
    (hget : ∀ r, req = .get r → r.ids.getD [] = [] → id ∈ e.collections) :
    req.handleNative K id e = (RecordResponse.native <$> req.act K id : ServerM _) e := by
  cases req with
  | add persisted req =>
      have hrun : addRecords persisted id req = _ := checked_ok hv _
      rw [handleNative, act, native_empty, hrun]
  | upsert persisted req =>
      have hrun : upsertRecords persisted id req = _ := checked_ok hv _
      rw [handleNative, act, native_empty, hrun]
  | update req =>
      have hrun : updateRecords id ⟨req.ids, req.metadatas, req.documents⟩ = _ := checked_ok hv _
      rw [handleNative, act, native_empty, hrun]
  | delete ids =>
      have hrun : deleteRecords id ids = _ := checked_ok hv _
      rw [handleNative, act, native_empty, hrun]
  | query req =>
      have hact := read_eq (fun e => req.queryEmbeddings.mapM fun embedding =>
        e.query K id embedding req.nResults ⟨0, req.whereFilter, 4⟩)
        (chromaQueryResponse req.include_) RecordResponse.query e
      have hrun : (do
          let e ← MonadState.get
          Outcome.ofExcept (queryRecords K (fun _ => e) id req) : ServerM _) e =
            Outcome.ofExcept (queryRecords K (fun _ => e) id req) e := rfl
      rw [handleNative, map_of_ofExcept _ hrun, act, map_of_ofExcept _ hact,
        queryRecords_ok_eq hv]
      cases req.queryEmbeddings.mapM fun embedding =>
        e.query K id embedding req.nResults ⟨0, req.whereFilter, 4⟩ <;> rfl
  | get req =>
      have hact := read_eq (fun e => e.get id (req.ids.getD [])) (chromaGetResponse req.include_)
        RecordResponse.get e
      have hrun := read_eq
        (fun e => if (req.ids.getD []).isEmpty then .ok [] else e.get id (req.ids.getD []))
        (chromaGetResponse req.include_) Native.RecordResponse.get e
      have hsame : (if (req.ids.getD []).isEmpty then .ok [] else e.get id (req.ids.getD [])) =
          e.get id (req.ids.getD []) := by
        split
        · rename_i hnil
          obtain ⟨c, _, hcoll⟩ := Engine.collection_of_mem (hget req rfl (List.isEmpty_iff.mp hnil))
          rw [Engine.get, hcoll, List.isEmpty_iff.mp hnil]
          rfl
        · rfl
      rw [handleNative, act, map_of_ofExcept _ hact, ← hsame]
      refine hrun.trans ?_
      cases (if (req.ids.getD []).isEmpty then .ok [] else e.get id (req.ids.getD [])) <;> rfl
  | count =>
      have hact : (RecordResponse.count <$> (do
          let e ← MonadState.get
          Outcome.ofExcept (e.count id)) : ServerM _) e =
            Outcome.ofExcept ((e.count id).map .count) e := map_of_ofExcept _ rfl
      have hrun := read_eq (fun e => e.count id) CountResponse.mk Native.RecordResponse.count e
      rw [handleNative, act, map_of_ofExcept _ hact]
      refine hrun.trans ?_
      cases e.count id <;> rfl

end RecordRequest

end Handlers

end Rekha.Server
