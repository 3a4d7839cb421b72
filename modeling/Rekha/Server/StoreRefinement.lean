import Rekha.Server.GetAligned
import Rekha.Server.Listing
import Rekha.Server.Store

/-!
# Every reply is a step of the store

One request after the other: what the handler answers and leaves behind is a
step of the abstract store. Along every run in which the files are in order and no
handler panics the replies are those of a run of the store, restarts included.
-/

namespace Rekha.Server

open Outcome RedbCatalog Collection

/-! ## The methods of a collection -/

/-- What a method does to the rows of a collection. -/
structure WritesRows (m : EngineM Unit) (ops : List Operation) (admits : Rows → Prop)
    (isPut : Prop) : Prop where
  ok : ∀ c c' u, Sound c → m c = .ok u c' →
    Sound c' ∧ c'.rows = ops.foldl Rows.step c.rows ∧ admits c.rows
  rejected : ∀ c c' msg, Sound c → m c = .error (.validation msg) c' →
    Sound c' ∧ c'.rows = c.rows
  unindexed : ∀ c c' err, Sound c → m c = .error (.index err) c' →
    Sound c' ∧ c'.rows = ops.foldl Rows.step c.rows ∧ admits c.rows ∧ isPut
  found : Raises Found m

theorem validates_notIndex {x : Except Rekha.EngineError Unit} (h : Validates x) :
    ∀ err, x = .error err → err.NotIndex := by
  intro err hx cause hcause
  obtain ⟨msg, hmsg⟩ := h err hx
  rw [hmsg] at hcause
  cases hcause

theorem writesRows_add (persisted : Bool) (req : ChromaAddRequest) :
    WritesRows (add persisted req.ids req.embeddings req.metadatas req.documents)
      (addOps req.ids req.embeddings req.metadatas req.documents)
      (fun rows => req.ids.Nodup ∧ ∀ id ∈ req.ids, rows id = none) True where
  ok c c' u hc h := by
    obtain ⟨hc', hrows⟩ := hc.call (a := .add persisted req.ids req.embeddings req.metadatas
      req.documents) (accepted_eq_ok.mpr ⟨u, h⟩)
    obtain ⟨d, c₁, _, _, _, hinfer, hvalid, -⟩ := putBatch_ok h
    exact ⟨hc', hrows, add_fresh hinfer hvalid⟩
  rejected c c' msg hc h := hc.putBatch_rejected h
  unindexed c c' err hc h := by
    obtain ⟨hc', hrows, d, c₁, hinfer, hvalid⟩ := hc.putBatch_unindexed
      (fun _ => validates_notIndex (Validates.bind (Validates.checkCounts _ _ _ _ _ _)
        (Validates.checkNewIds _ _ _)))
      (fun _ hv => accepts_addOps hv) h
    exact ⟨hc', hrows, add_fresh hinfer hvalid, trivial⟩
  found := raises_add persisted req

theorem writesRows_upsert (persisted : Bool) (req : ChromaAddRequest) :
    WritesRows (upsert persisted req.ids req.embeddings req.metadatas req.documents)
      (upsertOps req.ids req.embeddings req.metadatas req.documents) (fun _ => True) True where
  ok c c' u hc h := by
    obtain ⟨hc', hrows⟩ := hc.call (a := .upsert persisted req.ids req.embeddings req.metadatas
      req.documents) (accepted_eq_ok.mpr ⟨u, h⟩)
    exact ⟨hc', hrows, trivial⟩
  rejected c c' msg hc h := hc.putBatch_rejected h
  unindexed c c' err hc h := by
    obtain ⟨hc', hrows, -⟩ := hc.putBatch_unindexed
      (fun _ => validates_notIndex (Validates.checkCounts _ _ _ _ _ _))
      (fun _ hv => accepts_upsertOps hv) h
    exact ⟨hc', hrows, trivial, trivial⟩
  found := raises_upsert persisted req

theorem writesRows_update (req : ChromaAddRequest) :
    WritesRows (update req.ids req.metadatas req.documents)
      (updateOps req.ids req.metadatas req.documents)
      (fun rows => ∀ id ∈ req.ids, (rows id).isSome) False where
  ok c c' u hc h := by
    obtain ⟨hc', hrows⟩ := hc.call (a := .update req.ids req.metadatas req.documents)
      (accepted_eq_ok.mpr ⟨u, h⟩)
    exact ⟨hc', hrows, update_live h⟩
  rejected c c' msg hc h := by
    obtain rfl := update_rejected h
    exact ⟨hc, rfl⟩
  unindexed c c' err _ h := by
    have hraises : Raises EngineError.NotIndex (update req.ids req.metadatas req.documents) :=
      raises_update_of (fun _ _ => by simp) (fun _ _ => by simp) (fun _ _ => by simp) req
    exact absurd rfl (hraises c _ c' h err)
  found := raises_update req

theorem writesRows_delete (ids : List Id) :
    WritesRows (delete ids) (ids.map .delete) (fun _ => True) False where
  ok c c' u hc h := by
    obtain ⟨hc', hrows⟩ := hc.call (a := .delete ids) (accepted_eq_ok.mpr ⟨u, h⟩)
    exact ⟨hc', hrows, trivial⟩
  rejected c c' msg hc h := by
    have hraises : Raises EngineError.NotValidation (delete ids) :=
      (fails_written (fun _ _ => by simp) (fun _ _ => by simp) _).raises
    exact absurd rfl (hraises c _ c' h msg)
  unindexed c c' err _ h := by
    have hraises : Raises EngineError.NotIndex (delete ids) :=
      (fails_written (fun _ _ => by simp) (fun _ _ => by simp) _).raises
    exact absurd rfl (hraises c _ c' h err)
  found := raises_delete ids

/-! ## Requests to a collection -/

namespace RecordRequest

/-- What a request does once its collection is found. -/
def act (K : Kernels) : RecordRequest → Uuid → ServerM RecordResponse
  | .add persisted req, id => (fun _ => .empty) <$> Engine.onCollection id
      (Rekha.add persisted req.ids req.embeddings req.metadatas req.documents)
  | .upsert persisted req, id => (fun _ => .empty) <$> Engine.onCollection id
      (Rekha.upsert persisted req.ids req.embeddings req.metadatas req.documents)
  | .update req, id => (fun _ => .empty) <$> Engine.onCollection id
      (Rekha.update req.ids req.metadatas req.documents)
  | .delete ids, id => (fun _ => .empty) <$> Engine.onCollection id (Rekha.delete ids)
  | .query req, id => .query <$> do
      let e ← MonadState.get
      let allResults ← Outcome.ofExcept (req.queryEmbeddings.mapM fun embedding =>
        e.query K id embedding req.nResults ⟨0, req.whereFilter, 4⟩)
      pure (chromaQueryResponse req.include_ allResults)
  | .get req, id => .get <$> do
      let e ← MonadState.get
      let records ← Outcome.ofExcept (e.get id (req.ids.getD []))
      pure (chromaGetResponse req.include_ records)
  | .count, id => .count <$> do
      let e ← MonadState.get
      Outcome.ofExcept (e.count id)

theorem handle_eq_route (text : UuidText) (K : Kernels) (tenant database name : String)
    (req : RecordRequest) : req.handle text K tenant database name =
      recordRoute text tenant database name req.validate (req.act K) := by
  cases req <;> exact map_recordRoute _

theorem actsOn_act (K : Kernels) (req : RecordRequest) (id : Uuid) : ActsOn id (req.act K id) := by
  cases req with
  | add persisted req => exact (ActsOn.onCollection (raises_add persisted req)).map _
  | upsert persisted req => exact (ActsOn.onCollection (raises_upsert persisted req)).map _
  | update req => exact (ActsOn.onCollection (raises_update req)).map _
  | delete ids => exact (ActsOn.onCollection (raises_delete ids)).map _
  | query req => exact (actsOn_query K id req).map _
  | get req => exact (actsOn_get id req).map _
  | count => exact (actsOn_count id).map _

end RecordRequest

theorem RecordRequest.not_isLookup_of_isQuery {req : RecordRequest} (h : req.IsQuery)
    (tenant database name : String) : ¬ (Request.record tenant database name req).IsLookup := by
  cases req with
  | query req => exact fun hlookup => hlookup
  | add | upsert | update | delete | get | count => exact h.elim

section Records

variable {e : Engine} {id : Uuid} {c : Collection}

theorem Store.write_self {s : Store} {rows : Rows} (h : s.rows id = some rows) :
    s.write id rows = s := by
  obtain ⟨ids, allRows⟩ := s
  have hsome : some rows = allRows id := h.symm
  rw [Store.write, hsome, Function.update_eq_self]

/-- What a request that fails on the collection `id` leaves behind: nothing has
changed, or everything was done and the index refused it. -/
inductive Failed (e : Engine) (id : Uuid) (rows : Rows) (req : RecordRequest) :
    EngineError → Store → Prop
  | unchanged {err : EngineError} : (∀ cause, err = .index cause → req.IsQuery) →
      Failed e id rows req err e.store
  | unindexed {cause : IndexError} : req.IsPut → req.Admits rows →
      Failed e id rows req (.index cause) (e.store.write id (req.ops.foldl Rows.step rows))

/-- What a reply of the collection `id` leaves behind. -/
structure Acts (e : Engine) (id : Uuid) (rows : Rows) (req : RecordRequest)
    (r : EStateM.Result EngineError Engine RecordResponse) : Prop where
  ok : ∀ res e', r = .ok res e' → req.Admits rows ∧ req.Answers rows res ∧ Served e' ∧
    e'.store = e.store.write id (req.ops.foldl Rows.step rows)
  clean : ∀ err e', r = .error err e' → err.IsClean →
    Served e' ∧ Failed e id rows req err e'.store
  answered : ∀ err e', r = .error err e' → ∀ tenant database name,
    ¬ (Request.record tenant database name req).IsLookup

theorem Served.acts_write (h : Served e) (hc : e.collections.lookup id = some c)
    {req : RecordRequest} {m : EngineM Unit} (hm : WritesRows m req.ops req.Admits req.IsPut)
    (hanswers : req.Answers c.rows .empty)
    (hwrite : ∀ tenant database name, ¬ (Request.record tenant database name req).IsLookup) :
    Acts e id c.rows req (((fun _ => .empty) <$> Engine.onCollection id m : ServerM _) e) := by
  have hcoll : e.collection id = .ok c := by rw [Engine.collection, hc]
  have hmem : id ∈ e.collections := AList.lookup_isSome.mp (by rw [hc]; rfl)
  have hrows : e.store.rows id = some c.rows := congrArg (Option.map Collection.rows) hc
  have hsound := h.sound id c hc
  cases hrun : m c with
  | ok u c' =>
      obtain ⟨hc', hafter, hadmits⟩ := hm.ok c c' u hsound hrun
      have hok : Engine.onCollection id m e =
          .ok u ⟨Engine.storeRow e.catalog id c'.catalog, e.collections.insert id c'⟩ := by
        unfold Engine.onCollection
        rw [hcoll]
        dsimp only
        rw [hrun]
      rw [ActsOn.map_ok _ hok]
      obtain ⟨hserved, hstore⟩ := h.write hmem hc'
      rw [hafter] at hstore
      constructor
      · intro res e' hres
        obtain ⟨rfl, rfl⟩ := EStateM.Result.ok.inj hres
        exact ⟨hadmits, hanswers, hserved, hstore⟩
      · intro err e' hres
        cases hres
      · intro _ _ _
        exact hwrite
  | error err c' =>
      have herror : Engine.onCollection id m e = .error (.ofCollection err)
          ⟨Engine.storeRow e.catalog id c'.catalog, e.collections.insert id c'⟩ := by
        unfold Engine.onCollection
        rw [hcoll]
        dsimp only
        rw [hrun]
      rw [ActsOn.map_error _ herror]
      constructor
      · intro res e' hres
        cases hres
      · intro err' e' hres hclean
        obtain ⟨rfl, rfl⟩ := EStateM.Result.error.inj hres
        cases err with
        | validation msg =>
            obtain ⟨hc', hafter⟩ := hm.rejected c c' msg hsound hrun
            obtain ⟨hserved, hstore⟩ := h.write hmem hc'
            rw [hafter, Store.write_self hrows] at hstore
            exact ⟨hserved, hstore ▸ .unchanged fun _ hcause => by cases hcause⟩
        | index cause =>
            obtain ⟨hc', hafter, hadmits, hput⟩ := hm.unindexed c c' cause hsound hrun
            obtain ⟨hserved, hstore⟩ := h.write hmem hc'
            rw [hafter] at hstore
            have hfailed : Failed e id c.rows req (.index cause) _ := .unindexed hput hadmits
            exact ⟨hserved, hstore ▸ hfailed⟩
        | collectionNotFound missing => exact absurd rfl (hm.found c _ c' hrun missing)
        | wal err => cases hclean
        | panicked msg => cases hclean
      · intro _ _ _
        exact hwrite

theorem except_map_ok {α β : Type} {x : Except EngineError α} {f : α → β} {b : β}
    (h : x.map f = .ok b) : ∃ a, x = .ok a ∧ f a = b := by
  cases x with
  | error err => cases h
  | ok a => exact ⟨a, rfl, Except.ok.inj h⟩

theorem read_eq {α β γ : Type} (f : Engine → Except EngineError α) (g : α → β) (k : β → γ)
    (e : Engine) : (k <$> (do
      let e ← MonadState.get
      let a ← Outcome.ofExcept (f e)
      pure (g a)) : ServerM γ) e = Outcome.ofExcept ((f e).map fun a => k (g a)) e := by
  show EStateM.map k (EStateM.bind (Outcome.ofExcept (f e)) fun a => pure (g a)) e = _
  unfold EStateM.map EStateM.bind Outcome.ofExcept
  cases f e <;> rfl

theorem Served.acts_read (h : Served e) (hc : e.collections.lookup id = some c)
    (req : RecordRequest) (hops : req.ops = []) (hadmits : req.Admits c.rows)
    {x : Except EngineError RecordResponse} (hx : ∀ res, x = .ok res → req.Answers c.rows res)
    (herror : ∀ err, x = .error err → req.IsQuery) :
    Acts e id c.rows req (Outcome.ofExcept x e) := by
  have hrows : e.store.rows id = some c.rows := congrArg (Option.map Collection.rows) hc
  constructor
  · intro res e' hres
    obtain ⟨hok, rfl⟩ := ofExcept_ok.mp hres
    rw [hops]
    exact ⟨hadmits, hx res hok, h, (Store.write_self hrows).symm⟩
  · intro err e' hres _
    obtain ⟨hfail, rfl⟩ := ofExcept_error.mp hres
    exact ⟨h, .unchanged fun _ _ => herror err hfail⟩
  · intro err e' hres tenant database name
    obtain ⟨hfail, -⟩ := ofExcept_error.mp hres
    exact RecordRequest.not_isLookup_of_isQuery (herror err hfail) tenant database name

theorem answers_get {req : ChromaGetRequest} (hc : Sound c) :
    RecordRequest.Answers c.rows (.get req)
      (.get (chromaGetResponse req.include_ ((req.ids.getD []).map c.get))) := by
  have hget : ∀ i, c.get i = (c.records.lookup i).map fun r =>
      { r with embedding := (c.loadVector i).or r.embedding } := fun _ => rfl
  refine ⟨?_, ?_, ?_⟩
  · show ((req.ids.getD []).map c.get).filterMap _ = _
    rw [List.filterMap_map]
    induction req.ids.getD [] with
    | nil => rfl
    | cons i ids ih =>
        rw [List.filterMap_cons, List.filter_cons, ih, isSome_rows, Function.comp_apply, hget]
        cases hr : c.records.lookup i with
        | none => rfl
        | some r =>
            have hid := hc.derived.offsets.keyed i r hr
            simp [hid]
  · show ((req.ids.getD []).map c.get).map _ = _
    rw [List.map_map]
    apply List.map_congr_left
    intro i _
    rw [Function.comp_apply, hget, rows_eq]
    cases c.records.lookup i <;> rfl
  · show ((req.ids.getD []).map c.get).map _ = _
    rw [List.map_map]
    apply List.map_congr_left
    intro i _
    rw [Function.comp_apply, hget, rows_eq]
    cases c.records.lookup i <;> rfl

theorem Served.acts (h : Served e) (K : Kernels) (hc : e.collections.lookup id = some c)
    (req : RecordRequest) : Acts e id c.rows req (req.act K id e) := by
  have hcoll : e.collection id = .ok c := by rw [Engine.collection, hc]
  cases req with
  | add persisted req =>
      exact h.acts_write hc (writesRows_add persisted req) trivial fun _ _ _ h => h
  | upsert persisted req =>
      exact h.acts_write hc (writesRows_upsert persisted req) trivial fun _ _ _ h => h
  | update req =>
      exact h.acts_write hc (writesRows_update req) trivial fun _ _ _ h => h
  | delete ids =>
      exact h.acts_write hc (writesRows_delete ids) trivial fun _ _ _ h => h
  | query req =>
      have hact := read_eq (fun e => req.queryEmbeddings.mapM fun embedding =>
        e.query K id embedding req.nResults ⟨0, req.whereFilter, 4⟩)
        (chromaQueryResponse req.include_) RecordResponse.query e
      rw [RecordRequest.act, hact]
      refine h.acts_read hc (.query req) rfl trivial (fun res hres => ?_) fun _ _ => trivial
      obtain ⟨allResults, -, rfl⟩ := except_map_ok hres
      exact trivial
  | get req =>
      have hact := read_eq (fun e => e.get id (req.ids.getD [])) (chromaGetResponse req.include_)
        RecordResponse.get e
      rw [RecordRequest.act, hact, Engine.get, hcoll]
      refine h.acts_read hc (.get req) rfl trivial (fun res hres => ?_) fun _ herr => by cases herr
      obtain rfl := Except.ok.inj hres
      exact answers_get (h.sound id c hc)
  | count =>
      have hcount : e.count id = .ok c.count := by
        rw [Engine.count, hcoll]
        rfl
      have hread : (do
          let e ← MonadState.get
          Outcome.ofExcept (e.count id) : ServerM ℕ) e = .ok c.count e :=
        bind_ok.mpr ⟨e, e, rfl, ofExcept_ok.mpr ⟨hcount, rfl⟩⟩
      have hact : RecordRequest.act K .count id e = Outcome.ofExcept (.ok (.count c.count)) e :=
        ActsOn.map_ok _ hread
      rw [hact]
      refine h.acts_read hc .count rfl trivial (fun res hres => ?_) fun _ herr => by cases herr
      obtain rfl := Except.ok.inj hres
      exact counts_rows c

end Records

/-! ## Checks -/

/-- A failure that does not say that a collection is missing. -/
def NotMissing {α : Type} (x : Except EngineError α) : Prop :=
  ∀ err, x = .error err → ∀ missing, err ≠ .collectionNotFound missing

/-- Whoever makes this check reports a bad request. -/
def BadRequest {α : Type} (x : Except EngineError α) : Prop :=
  ∀ err, x = .error err → engineErrorStatus err = 400

section Checks

variable {α : Type}

theorem BadRequest.notMissing {x : Except EngineError α} (h : BadRequest x) : NotMissing x := by
  rintro err hx missing rfl
  cases h _ hx

theorem BadRequest.notIndex {x : Except EngineError α} (h : BadRequest x) :
    ∀ err, x = .error err → ∀ cause, err ≠ .index cause := by
  rintro err hx cause rfl
  cases h _ hx

theorem BadRequest.bind {x y : Except EngineError Unit} (hx : BadRequest x) (hy : BadRequest y) :
    BadRequest (do x; y) := by
  intro err h
  cases hcase : x with
  | ok u =>
      rw [hcase] at h
      exact hy err h
  | error err' =>
      rw [hcase] at h
      exact Except.error.inj h ▸ hx err' hcase

theorem badRequest_rejectIf (bad : Prop) [Decidable bad] (msg : String) :
    BadRequest (rejectIf bad msg) := by
  intro err h
  unfold rejectIf at h
  split at h
  · rw [← Except.error.inj h]
    rfl
  · cases h

theorem badRequest_rejectFirst (bad : α → Bool) (msg : α → String) (l : List α) :
    BadRequest (rejectFirst bad msg l) := by
  intro err h
  unfold rejectFirst at h
  split at h
  · rw [← Except.error.inj h]
    rfl
  · cases h

theorem badRequest_validateParallel (what : String) (ids : List Id) (opt : Option (List α)) :
    BadRequest (validateParallel what ids opt) := by
  unfold validateParallel
  split
  · exact fun _ h => by cases h
  · exact badRequest_rejectIf _ _

theorem badRequest_validateBatch (ids : List Id) : BadRequest (validateBatch ids) :=
  (badRequest_rejectIf _ _).bind (badRequest_rejectIf _ _)

theorem badRequest_validateChromaAdd (req : ChromaAddRequest) :
    BadRequest (validateChromaAdd req) :=
  (badRequest_validateBatch _).bind <| (badRequest_rejectIf _ _).bind <|
    (badRequest_rejectFirst _ _ _).bind <| (badRequest_rejectFirst _ _ _).bind <|
      (badRequest_validateParallel _ _ _).bind (badRequest_validateParallel _ _ _)

theorem RecordRequest.badRequest_validate (req : RecordRequest) : BadRequest req.validate := by
  cases req with
  | add persisted req => exact badRequest_validateChromaAdd req
  | upsert persisted req => exact badRequest_validateChromaAdd req
  | update req => exact badRequest_validateBatch req.ids
  | delete ids => exact badRequest_validateBatch ids
  | query req =>
      exact (badRequest_rejectIf _ _).bind <|
        (badRequest_rejectIf _ _).bind (badRequest_rejectIf _ _)
  | get req => exact fun _ h => by cases h
  | count => exact fun _ h => by cases h

theorem badRequest_validateCreate (req : ChromaCreateCollectionRequest) :
    BadRequest (validateCreate req) :=
  ((badRequest_rejectIf _ _).bind (badRequest_rejectIf _ _)).bind (badRequest_rejectIf _ _)

end Checks

/-! ## One request -/

/-- What a request leaves behind is a store, and its reply one of its steps, if
it met no failure but those a run may meet. -/
def Refines (text : UuidText) (e : Engine) (req : Request)
    (r : EStateM.Result EngineError Engine Reply) : Prop :=
  (∀ err e', r = .error err e' → req.MayMeet err) →
    Served (final r) ∧ Store.Step text e.store req (result r) (final r).store

section Requests

variable {text : UuidText} {K : Kernels} {e : Engine} {tenant database name : String}

theorem refines_rejected (h : Served e) {req : Request} {err : EngineError}
    (hmiss : ∀ missing, err = .collectionNotFound missing → req.Misses text e.store)
    (hindex : ∀ cause, err ≠ .index cause)
    (hlookup : req.IsLookup → req.Misses text e.store) : Refines text e req (.error err e) :=
  fun hclean => ⟨h, .rejected (hclean err e rfl) hmiss (fun cause hcause =>
    absurd hcause (hindex cause)) hlookup⟩

theorem Served.resolves_rows (h : Served e) {id : Uuid}
    (hr : e.store.resolve text tenant database name = some id) :
    ∃ c, e.collections.lookup id = some c := by
  have hsome : (e.store.rows id).isSome := by
    cases hparse : text.parseStr name with
    | ok id' =>
        rw [Store.resolve, hparse] at hr
        dsimp only at hr
        split at hr
        · obtain rfl := Option.some.inj hr
          assumption
        · cases hr
    | error msg =>
        rw [Store.resolve, hparse] at hr
        obtain ⟨record, hrecord, -, -⟩ := h.ids_eq_some.mp hr
        rw [h.isSome_rows, hrecord]
        rfl
  obtain ⟨rows, hrows⟩ := Option.isSome_iff_exists.mp hsome
  obtain ⟨c, hc, -⟩ := Option.map_eq_some_iff.mp hrows
  exact ⟨c, hc⟩

theorem refines_record (h : Served e) (req : RecordRequest) :
    Refines text e (.record tenant database name req)
      (Request.handle text K (.record tenant database name req) e) := by
  rw [Request.handle, RecordRequest.handle_eq_route]
  have hresolves := h.resolves text tenant database name
  cases hv : req.validate with
  | error err =>
      rw [ActsOn.map_error _ (recordRoute_rejected rfl)]
      apply refines_rejected h
      · intro missing hmissing
        exact absurd hmissing (req.badRequest_validate.notMissing err hv missing)
      · exact req.badRequest_validate.notIndex err hv
      · intro hlookup
        cases req with
        | get req => cases hv
        | count => cases hv
        | add | upsert | update | delete | query => cases hlookup
  | ok u =>
      cases hr : e.store.resolve text tenant database name with
      | none =>
          rw [hr] at hresolves
          rw [ActsOn.map_error _ (recordRoute_unresolved rfl hresolves)]
          exact refines_rejected h (fun _ _ => hr) (fun _ => EngineError.noConfusion) fun _ => hr
      | some id =>
          rw [hr] at hresolves
          obtain ⟨c, hc⟩ := h.resolves_rows hr
          have hacts := h.acts K hc req
          have hrows : e.store.rows id = some c.rows := congrArg (Option.map Collection.rows) hc
          have hmem : id ∈ e.collections := AList.lookup_isSome.mp (by rw [hc]; rfl)
          cases hact : req.act K id e with
          | ok res e' =>
              rw [ActsOn.map_ok _ ((recordRoute_resolved rfl hresolves).trans hact)]
              obtain ⟨hadmits, hanswers, hserved, hstore⟩ := hacts.ok res e' hact
              intro _
              refine ⟨hserved, ?_⟩
              show Store.Step text e.store _ (.ok (.record res)) e'.store
              rw [hstore]
              exact .answered hr hrows hadmits hanswers
          | error err e' =>
              rw [ActsOn.map_error _ ((recordRoute_resolved rfl hresolves).trans hact)]
              intro hclean
              obtain ⟨hserved, hfailed⟩ := hacts.clean err e' hact (hclean err e' rfl)
              refine ⟨hserved, ?_⟩
              show Store.Step text e.store _ (.error err) e'.store
              generalize e'.store = s at hfailed
              cases hfailed with
              | unchanged hindex =>
                  refine .rejected (hclean err e' rfl) (fun missing hmissing => ?_) hindex
                    fun hlookup => ?_
                  · have hfound := (req.actsOn_act K id).found e missing hmem
                    rw [hact, hmissing] at hfound
                    exact absurd rfl hfound
                  · exact absurd hlookup (hacts.answered err e' hact tenant database name)
              | unindexed hput hadmits => exact .unindexed hr hrows hput hadmits

theorem openCollection_fresh (config : CollectionConfig) (order : HashOrder) :
    ∃ coll, Engine.openCollection (.files WalFile.empty {} order) ⟨config, 0, 0⟩ = .ok coll := by
  obtain ⟨coll, hopen⟩ := (fits_fresh config).open_succeeds order
  refine ⟨coll, ?_⟩
  have hopen' : openDisk config ⟨WalFile.empty, {}, ⟨config.dimension, 0⟩⟩ order = .ok coll := hopen
  unfold Engine.openCollection ofCollection
  dsimp only
  rw [hopen']

section Creation

variable {fault : Option String} {opening : Engine.Opening} {id : Uuid}
  {req : ChromaCreateCollectionRequest}

theorem createCollectionChroma_invalid {err : EngineError} (hv : validateCreate req = .error err) :
    createCollectionChroma text fault opening id tenant database req e = .error err e := by
  exact bind_of_error (ofExcept_error.mpr ⟨hv, rfl⟩)

theorem createCollectionChroma_existing {record : CollectionRecord}
    (hv : validateCreate req = .ok ()) (hget : req.getOrCreate = true)
    (hfound : e.getCollection text tenant database req.name = .ok (some record)) :
    createCollectionChroma text fault opening id tenant database req e =
      .ok (200, chromaResponse record) e := by
  refine bind_ok.mpr ⟨(), e, ofExcept_ok.mpr ⟨hv, rfl⟩, bind_ok.mpr ⟨e, e, rfl, ?_⟩⟩
  rw [if_pos hget]
  exact bind_ok.mpr ⟨some record, e, ofExcept_ok.mpr ⟨hfound, rfl⟩, rfl⟩

theorem createCollectionChroma_new (fault : Option String) (opening : Engine.Opening) (id : Uuid)
    (hv : validateCreate req = .ok ())
    (hnone : (if req.getOrCreate then e.getCollection text tenant database req.name
      else .ok none) = .ok none) :
    createCollectionChroma text fault opening id tenant database req e = (do
      let record ← Engine.createCollection fault opening (chromaConfig id tenant database req)
      pure (201, chromaResponse record) : ServerM (ℕ × ChromaCollectionResponse)) e :=
  (bind_of_ok (ofExcept_ok.mpr ⟨hv, rfl⟩)).trans <| (bind_of_ok (get_ok.mpr ⟨rfl, rfl⟩)).trans <|
    bind_of_ok (ofExcept_ok.mpr ⟨hnone, rfl⟩)

theorem refines_new (h : Served e) {order : HashOrder}
    (hdrawn : e.catalog.collections.lookup id.toString = none) (hv : validateCreate req = .ok ())
    (hnone : (if req.getOrCreate then e.getCollection text tenant database req.name
      else .ok none) = .ok none) :
    Refines text e (.create fault order id tenant database req)
      (Request.handle text K (.create fault order id tenant database req) e) := by
  have hrun := createCollectionChroma_new fault (.files WalFile.empty {} order) id hv hnone
  obtain ⟨coll, hopen⟩ := openCollection_fresh (chromaConfig id tenant database req) order
  by_cases hacc : e.catalog.Accepts fault (chromaConfig id tenant database req)
  · have hmade := Engine.createCollection_of_opened (createCollection_accepted hacc) hopen
    rw [Request.handle, ActsOn.map_ok _ (hrun.trans (bind_of_ok hmade))]
    have hnew : e.catalog.collections.lookup
        (chromaConfig id tenant database req).id.toString = none := hdrawn
    obtain ⟨hserved, hstore⟩ := h.create hnew hacc.1 hacc.2.2 hopen
    have hfree : e.store.ids (tenant, database, req.name) = none := by
      show (e.catalog.collectionByName.lookup _).bind _ = none
      rw [show e.catalog.collectionByName.lookup (tenant, database, req.name) = none from
        hacc.2.2, Option.bind_none]
    intro _
    refine ⟨hserved, ?_⟩
    have hstep : Store.Step text e.store (.create fault order id tenant database req)
        (.ok (.collection 201 (chromaResponse ⟨chromaConfig id tenant database req, 0, 0⟩)))
        (e.store.create (tenant, database, req.name) id) :=
      .created hfree (h.rows_none hdrawn) rfl rfl
    exact hstore ▸ hstep
  · obtain ⟨err, herr⟩ := createCollection_rejected hacc
    have hfail : Engine.createCollection fault (.files WalFile.empty {} order)
        (chromaConfig id tenant database req) e = .error (.catalog err) e :=
      Engine.createCollection_of_error herr
    rw [Request.handle, ActsOn.map_error _ (hrun.trans (bind_of_error hfail))]
    exact refines_rejected h (fun _ hmissing => by cases hmissing)
      (fun _ => EngineError.noConfusion) fun hlookup => hlookup.elim

theorem refines_create (h : Served e) {order : HashOrder}
    (hdrawn : e.catalog.collections.lookup id.toString = none) :
    Refines text e (.create fault order id tenant database req)
      (Request.handle text K (.create fault order id tenant database req) e) := by
  cases hv : validateCreate req with
  | error err =>
      rw [Request.handle, ActsOn.map_error _ (createCollectionChroma_invalid hv)]
      apply refines_rejected h
      · intro missing hmissing
        exact absurd hmissing ((badRequest_validateCreate req).notMissing err hv missing)
      · exact (badRequest_validateCreate req).notIndex err hv
      · exact fun hlookup => hlookup.elim
  | ok u =>
      by_cases hget : req.getOrCreate = true
      · rcases h.named text tenant database req.name with
          ⟨-, hnone⟩ | ⟨record, hrecord, -, hids, hname⟩
        · exact refines_new h hdrawn hv (by rw [if_pos hget, hnone])
        · rw [Request.handle, ActsOn.map_ok _ (createCollectionChroma_existing hv hget hrecord)]
          intro _
          exact ⟨h, .existing hget hids rfl (congrArg (fun key => key.2.2) hname)⟩
      · exact refines_new h hdrawn hv (by rw [if_neg hget])

end Creation

theorem refines_find (h : Served e) :
    Refines text e (.find tenant database name)
      (Request.handle text K (.find tenant database name) e) := by
  rcases h.named text tenant database name with
    ⟨hids, hnone⟩ | ⟨record, hrecord, -, hids, hname⟩
  · have hget : getCollectionChroma text e tenant database name =
        .error (.collectionNotFound name) := by
      unfold getCollectionChroma namedCollection
      rw [hnone]
      rfl
    have hfail : (Outcome.ofExcept (getCollectionChroma text e tenant database name) :
        ServerM ChromaCollectionResponse) e = .error (.collectionNotFound name) e :=
      ofExcept_error.mpr ⟨hget, rfl⟩
    have hrun : Request.handle text K (.find tenant database name) e =
        .error (.collectionNotFound name) e :=
      (bind_of_ok (get_ok.mpr ⟨rfl, rfl⟩)).trans (bind_of_error hfail)
    rw [hrun]
    exact refines_rejected h (fun _ _ => hids) (fun _ => EngineError.noConfusion) fun _ => hids
  · have hget : getCollectionChroma text e tenant database name = .ok (chromaResponse record) := by
      unfold getCollectionChroma namedCollection
      rw [hrecord]
      rfl
    have hrun : Request.handle text K (.find tenant database name) e =
        .ok (.collection 200 (chromaResponse record)) e :=
      bind_ok.mpr ⟨e, e, rfl, bind_ok.mpr ⟨_, e, ofExcept_ok.mpr ⟨hget, rfl⟩, rfl⟩⟩
    rw [hrun]
    intro _
    exact ⟨h, .found hids rfl (congrArg (fun key => key.2.2) hname)⟩

/-! ### Deleting -/

section Deletion

variable {fault : Option String} {walFile checkpointDir : Engine.Removal}
  {raft : Option (Except String Unit)}

theorem deleteCollection_removed {record : CollectionRecord}
    (hrecord : e.catalog.collections.lookup record.config.id.toString = some record)
    (hwal : ∀ msg, walFile ≠ .failed msg) (hdir : ∀ msg, checkpointDir ≠ .failed msg) :
    Engine.deleteCollection none walFile checkpointDir record.config.id e =
      .ok () ⟨e.catalog.withoutCollection record.config.id record,
        e.collections.erase record.config.id⟩ := by
  have hdelete : RedbCatalog.deleteCollection none record.config.id e.catalog =
      .ok () (e.catalog.withoutCollection record.config.id record) :=
    deleteCollection_ok.mpr ⟨rfl, record, hrecord, rfl⟩
  refine bind_ok.mpr ⟨(), _, Engine.onCatalog_ok.mpr ⟨_, hdelete, rfl⟩, ?_⟩
  refine bind_ok.mpr ⟨(), _, modify_ok.mpr rfl, ?_⟩
  cases walFile with
  | failed msg => exact absurd rfl (hwal msg)
  | removed | notFound =>
      cases checkpointDir with
      | failed msg => exact absurd rfl (hdir msg)
      | removed | notFound => rfl

theorem deleteCollection_not_removed {record : CollectionRecord}
    (hrecord : e.catalog.collections.lookup record.config.id.toString = some record)
    (hfailed : (∃ msg, walFile = .failed msg) ∨ ∃ msg, checkpointDir = .failed msg) :
    ∃ err e', Engine.deleteCollection none walFile checkpointDir record.config.id e =
      .error err e' ∧ ¬ err.IsClean := by
  have hdelete : RedbCatalog.deleteCollection none record.config.id e.catalog =
      .ok () (e.catalog.withoutCollection record.config.id record) :=
    deleteCollection_ok.mpr ⟨rfl, record, hrecord, rfl⟩
  have hrun : Engine.deleteCollection none walFile checkpointDir record.config.id e =
      Engine.removeFiles walFile checkpointDir
        ⟨e.catalog.withoutCollection record.config.id record,
          e.collections.erase record.config.id⟩ :=
    (bind_of_ok (Engine.onCatalog_ok.mpr ⟨_, hdelete, rfl⟩)).trans rfl
  rw [hrun]
  cases walFile with
  | failed msg => exact ⟨_, _, rfl, fun h => h⟩
  | removed | notFound =>
      rcases hfailed with ⟨msg, hmsg⟩ | ⟨msg, rfl⟩
      · cases hmsg
      · exact ⟨_, _, rfl, fun h => h⟩

theorem refines_drop (h : Served e) :
    Refines text e (.drop fault walFile checkpointDir raft tenant database name)
      (Request.handle text K (.drop fault walFile checkpointDir raft tenant database name) e) := by
  rcases h.named text tenant database name with
    ⟨hids, hnone⟩ | ⟨record, hfound, hrecord, hids, hname⟩
  · have hnamed : (Outcome.ofExcept (namedCollection text e tenant database name) :
        ServerM CollectionRecord) e = .error (.collectionNotFound name) e := by
      unfold namedCollection
      rw [hnone]
      rfl
    have hrun : deleteCollectionChroma text fault walFile checkpointDir raft tenant database
        name e = .error (.collectionNotFound name) e :=
      (bind_of_ok (get_ok.mpr ⟨rfl, rfl⟩)).trans (bind_of_error hnamed)
    rw [Request.handle, ActsOn.map_error _ hrun]
    exact refines_rejected h (fun _ _ => hids) (fun _ => EngineError.noConfusion) fun _ => hids
  · have hnamed : (Outcome.ofExcept (namedCollection text e tenant database name) :
        ServerM CollectionRecord) e = .ok record e := by
      unfold namedCollection
      rw [hfound]
      rfl
    have hstart : deleteCollectionChroma text fault walFile checkpointDir raft tenant database
        name e = _ := (bind_of_ok (get_ok.mpr ⟨rfl, rfl⟩)).trans (bind_of_ok hnamed)
    rw [Request.handle]
    cases fault with
    | some msg =>
        have hfail : Engine.deleteCollection (some msg) walFile checkpointDir record.config.id e =
            .error (.catalog (.storage msg)) e := bind_of_error rfl
        rw [ActsOn.map_error _ (hstart.trans (bind_of_error hfail))]
        exact refines_rejected h (fun _ hmissing => by cases hmissing)
          (fun _ => EngineError.noConfusion) fun hlookup => hlookup.elim
    | none =>
        by_cases hfailed : (∃ msg, walFile = .failed msg) ∨ ∃ msg, checkpointDir = .failed msg
        · obtain ⟨err, e', hrun, hdirty⟩ := deleteCollection_not_removed hrecord hfailed
          rw [ActsOn.map_error _ (hstart.trans (bind_of_error hrun))]
          intro hclean
          exact absurd (hclean err e' rfl) hdirty
        · rw [not_or, not_exists, not_exists] at hfailed
          have hrun := deleteCollection_removed hrecord hfailed.1 hfailed.2
          obtain ⟨hserved, hstore⟩ := h.drop hrecord
          rw [hname] at hstore
          have hstart' := hstart.trans (bind_of_ok hrun)
          have hdropped : ∀ {r : Option (Except String Unit)},
              Store.Step text e.store (.drop none walFile checkpointDir r tenant database name)
                (.ok (.collection 200 (chromaResponse record)))
                (e.store.drop (tenant, database, name) record.config.id) :=
            .dropped hids rfl (congrArg (fun key => key.2.2) hname)
          rcases raft with _ | (msg | u)
          · rw [ActsOn.map_ok _ hstart']
            intro _
            exact ⟨hserved, hstore ▸ hdropped⟩
          · rw [ActsOn.map_error _ hstart']
            intro _
            have hstep : Store.Step text e.store
                (.drop none walFile checkpointDir (some (.error msg)) tenant database name)
                (.error (.validation s!"failed to replicate collection deletion: {msg}"))
                (e.store.drop (tenant, database, name) record.config.id) := .droppedHere hids
            exact ⟨hserved, hstore ▸ hstep⟩
          · rw [ActsOn.map_ok _ hstart']
            intro _
            exact ⟨hserved, hstore ▸ hdropped⟩

end Deletion

/-! ### Listing -/

theorem refines_list (h : Served e) :
    Refines text e (.list tenant database) (Request.handle text K (.list tenant database) e) := by
  have hmem : ∀ record, record ∈ e.listCollections tenant database ↔
      e.catalog.collections.lookup record.config.id.toString = some record ∧
        record.config.tenant = tenant ∧ record.config.database = database := by
    intro record
    simp only [Engine.listCollections, RedbCatalog.listCollections, List.mem_filter,
      mem_listCollectionsAll, Bool.and_eq_true, decide_eq_true_eq]
    refine and_congr_left fun _ => ⟨?_, fun hs => ⟨_, hs⟩⟩
    rintro ⟨s, hs⟩
    rw [h.keyed s record hs]
    exact hs
  have hids : ((e.listCollections tenant database).map fun record => record.config.id).Nodup :=
    Native.Clients.nodup_listing h.keyed tenant database
  intro _
  refine ⟨h, .listed ?_ fun name idText => ?_⟩
  · rw [listCollectionsChroma, List.map_map]
    refine (List.nodup_map_iff_inj_on (List.Nodup.of_map _ hids)).mpr ?_
    intro r hr r' hr' hname
    obtain ⟨hr, htenant, hdatabase⟩ := (hmem r).mp hr
    obtain ⟨hr', htenant', hdatabase'⟩ := (hmem r').mp hr'
    have hkey : r.config.nameKey = r'.config.nameKey := by
      rw [CollectionConfig.nameKey, CollectionConfig.nameKey, htenant, htenant', hdatabase,
        hdatabase']
      exact congrArg (fun n => (tenant, database, n)) hname
    have hentry := h.names.lookup_name hr
    rw [hkey, h.names.lookup_name hr'] at hentry
    rw [← Option.some.inj hentry, hr'] at hr
    exact (Option.some.inj hr).symm
  · rw [listCollectionsChroma, List.map_map, List.mem_map]
    constructor
    · rintro ⟨record, hrecord, hpair⟩
      obtain ⟨hlookup, htenant, hdatabase⟩ := (hmem record).mp hrecord
      obtain ⟨hname, hid⟩ := Prod.ext_iff.mp hpair
      refine ⟨record.config.id, h.ids_eq_some.mpr ⟨record, hlookup, ?_, rfl⟩, hid⟩
      rw [CollectionConfig.nameKey, htenant, hdatabase]
      exact congrArg (fun n => (tenant, database, n)) hname
    · rintro ⟨id, hid, rfl⟩
      obtain ⟨record, hlookup, hname, rfl⟩ := h.ids_eq_some.mp hid
      obtain ⟨htenant, hrest⟩ := Prod.ext_iff.mp hname
      obtain ⟨hdatabase, hname⟩ := Prod.ext_iff.mp hrest
      exact ⟨record, (hmem record).mpr ⟨hlookup, htenant, hdatabase⟩, Prod.ext hname rfl⟩

/-! ### Restarting -/

/-- Every collection that is open after the loop was open before or was opened
from a record. -/
theorem openAll_opened {openings : Uuid → Engine.Opening} :
    ∀ {records : List CollectionRecord} {collections collections' : FinMap Uuid Collection},
      Engine.openAll openings records collections = .ok collections' →
        ∀ id c, collections'.lookup id = some c → collections.lookup id = some c ∨
          ∃ record ∈ records, record.config.id = id ∧
            Engine.openCollection (openings id) record = .ok c
  | [], collections, collections', h, id, c, hc => by
      obtain rfl := Except.ok.inj h
      exact Or.inl hc
  | record :: records, collections, collections', h, id, c, hc => by
      rw [Engine.openAll] at h
      cases hopen : Engine.openCollection (openings record.config.id) record with
      | error err =>
          rw [hopen] at h
          cases h
      | ok c₀ =>
          rw [hopen] at h
          rcases openAll_opened h id c hc with hold | ⟨record', hmem, hid, hopen'⟩
          · rw [FinMap.lookup_insert_ite] at hold
            split at hold
            · rename_i hid
              obtain rfl := hid
              rw [Option.some.inj hold] at hopen
              exact Or.inr ⟨record, List.mem_cons_self, rfl, hopen⟩
            · exact Or.inl hold
          · exact Or.inr ⟨record', List.mem_cons_of_mem _ hmem, hid, hopen'⟩

theorem refines_restart (h : Served e) (orders : Uuid → HashOrder) :
    Refines text e (.restart orders) (Request.handle text K (.restart orders) e) := by
  rw [Request.handle, Engine.restart, Engine.open]
  cases hall : Engine.openAll (e.openings orders) e.catalog.listCollectionsAll ∅ with
  | error err => exact fun hclean => (hclean err e rfl).elim
  | ok collections =>
      have hmem : ∀ id, id ∈ collections ↔ id ∈ e.collections := by
        intro id
        rw [Engine.openAll_mem hall id, or_iff_right (AList.notMem_empty id)]
        show e.catalog.Lists id ↔ _
        rw [h.keyed.lists_iff, h.inStep]
      have hopened : ∀ id c', collections.lookup id = some c' →
          ∃ c, e.collections.lookup id = some c ∧ Sound c' ∧ c'.rows = c.rows := by
        intro id c' hc'
        obtain hold | ⟨record, -, -, hopen⟩ := openAll_opened hall id c' hc'
        · cases hold
        · obtain ⟨c, hc⟩ := Option.isSome_iff_exists.mp (AList.lookup_isSome.mpr
            ((hmem id).mp (AList.lookup_isSome.mp (by rw [hc']; rfl))))
          rw [Engine.openings, hc] at hopen
          unfold Engine.openCollection ofCollection at hopen
          dsimp only at hopen
          split at hopen
          · rename_i c₀ hdisk
            obtain rfl := Except.ok.inj hopen
            exact ⟨c, hc, (h.sound id c hc).opened hdisk⟩
          · cases hopen
      have hserved : Served ⟨e.catalog, collections⟩ := by
        refine ⟨h.keyed, h.names, fun id => (h.inStep id).trans (hmem id).symm, fun id c' hc' => ?_⟩
        obtain ⟨c, -, hsound, -⟩ := hopened id c' hc'
        exact hsound
      have hstore : Engine.store ⟨e.catalog, collections⟩ = e.store := by
        refine Store.ext_iff (fun _ _ => Iff.rfl) fun id => ?_
        show (collections.lookup id).map Collection.rows = (e.collections.lookup id).map _
        cases hc' : collections.lookup id with
        | some c' =>
            obtain ⟨c, hc, -, hrows⟩ := hopened id c' hc'
            rw [hc, Option.map_some, Option.map_some, hrows]
        | none =>
            have hnone : e.collections.lookup id = none := by
              rw [AList.lookup_eq_none] at hc' ⊢
              exact fun hid => hc' ((hmem id).mpr hid)
            rw [hnone]
      intro _
      refine ⟨hserved, ?_⟩
      have hstep : Store.Step text e.store (.restart orders) (.ok .restarted) e.store := .restarted
      exact hstore ▸ hstep

/-- The id drawn for a new collection is that of no other. -/
def Request.Drawn (e : Engine) : Request → Prop
  | .create _ _ id _ _ _ => e.catalog.collections.lookup id.toString = none
  | .find .. | .list .. | .drop .. | .record .. | .restart _ => True

instance (e : Engine) : (req : Request) → Decidable (req.Drawn e)
  | .create _ _ id _ _ _ =>
      inferInstanceAs (Decidable (e.catalog.collections.lookup id.toString = none))
  | .find .. | .list .. | .drop .. | .record .. | .restart _ => .isTrue trivial

theorem refines_handle (h : Served e) {req : Request} (hdrawn : req.Drawn e) :
    Refines text e req (req.handle text K e) := by
  cases req with
  | create fault order id tenant database req => exact refines_create h hdrawn
  | find tenant database name => exact refines_find h
  | list tenant database => exact refines_list h
  | drop fault walFile checkpointDir raft tenant database name => exact refines_drop h
  | record tenant database name req => exact refines_record h req
  | restart orders => exact refines_restart h orders

end Requests

/-! ## Runs -/

section Runs

variable {text : UuidText} {K : Kernels}

inductive Store.Run (text : UuidText) : List (Request × Except EngineError Reply) → Store → Prop
  | nil : Run text [] .empty
  | snoc {log : List (Request × Except EngineError Reply)} {s s' : Store} {req : Request}
      {reply : Except EngineError Reply} : Run text log s → Step text s req reply s' →
      Run text (log ++ [(req, reply)]) s'

/-- What a server without data answers one request after the other, when every
new id is drawn fresh, the files are in order, no handler panics and every restart
comes up. -/
inductive Serves (text : UuidText) (K : Kernels) :
    List (Request × Except EngineError Reply) → Engine → Prop
  | nil : Serves text K [] {}
  | snoc {log : List (Request × Except EngineError Reply)} {e : Engine} {req : Request} :
      Serves text K log e → req.Drawn e →
      (∀ err e', req.handle text K e = .error err e' → req.MayMeet err) →
      Serves text K (log ++ [(req, result (req.handle text K e))]) (final (req.handle text K e))

/-- The replies to a list of requests, and the engine behind them. -/
def serveAll (text : UuidText) (K : Kernels) :
    List Request → Engine → List (Request × Except EngineError Reply) × Engine
  | [], e => ([], e)
  | req :: reqs, e =>
      let r := req.handle text K e
      let served := serveAll text K reqs (final r)
      ((req, result r) :: served.1, served.2)

/-- No request draws an id again or meets a failure that a run may not meet. -/
def servable (text : UuidText) (K : Kernels) : List Request → Engine → Bool
  | [], _ => true
  | req :: reqs, e =>
      let r := req.handle text K e
      let clean := match result r with
        | .ok _ => true
        | .error err => decide (req.MayMeet err)
      decide (req.Drawn e) && (clean && servable text K reqs (final r))

theorem Serves.all : ∀ {reqs : List Request} {log : List (Request × Except EngineError Reply)}
    {e : Engine}, Serves text K log e → servable text K reqs e = true →
      Serves text K (log ++ (serveAll text K reqs e).1) (serveAll text K reqs e).2
  | [], log, e, h, _ => by
      rw [serveAll, List.append_nil]
      exact h
  | req :: reqs, log, e, h, hservable => by
      rw [servable, Bool.and_eq_true, Bool.and_eq_true, decide_eq_true_eq] at hservable
      obtain ⟨hdrawn, hclean, hrest⟩ := hservable
      have hstep := h.snoc hdrawn fun err e' herror => by
        rw [herror] at hclean
        exact of_decide_eq_true hclean
      have hall := hstep.all hrest
      rw [List.append_assoc] at hall
      exact hall

end Runs

end Rekha.Server
