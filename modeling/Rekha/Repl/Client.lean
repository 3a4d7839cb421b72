import Rekha.Repl.Display
import Rekha.Server.Bodies
import Rekha.Server.Calls
import Rekha.Server.GetAligned

/-!
# The client of the REPL

The requests of the client, what a server answers in a given state of its engine, and
what the client makes of that. The client takes a body for what it asked for, whatever
the status; so an error shows as a body that cannot be read (`query_reply_iff`). The
count of a collection is never read. The client puts the name of a collection into a
path as it is: only a plain name leads to the route that is meant.
-/

namespace Rekha.Repl

open Json Rekha.Server

structure Collection where
  id : String
  name : String
  dimension : Option ℕ

structure GetResult where
  ids : List String
  embeddings : Option (List (List F32))
  metadatas : Option (List (Option Json))
  documents : Option (List (Option String))

structure QueryRequest where
  queryEmbeddings : List (List F32)
  nResults : Option ℕ
  whereFilter : Option Json
  include_ : Option (List String)

structure GetRequest where
  ids : Option (List String)
  whereFilter : Option Json
  include_ : Option (List String)

def tenant : String := "default_tenant"

def database : String := "default_database"

variable (T : FloatText)

/-! ## Requests -/

/-- The body of `CreateCollectionRequest`. -/
def createBody (name : String) : Json :=
  .object [("name", .string name), ("get_or_create", .bool true)]

def QueryRequest.body (req : QueryRequest) : Json :=
  .object [("query_embeddings", ofList (ofList T.write) req.queryEmbeddings),
    ("n_results", ofOption ofUsize req.nResults),
    ("where", ofOption T.reread req.whereFilter),
    ("include", ofOption (ofList Json.string) req.include_)]

def GetRequest.body (req : GetRequest) : Json :=
  .object [("ids", ofOption (ofList Json.string) req.ids),
    ("where", ofOption T.reread req.whereFilter),
    ("include", ofOption (ofList Json.string) req.include_)]

inductive ApiCall where
  | listCollections
  | createCollection (name : String)
  | query (collection : String) (req : QueryRequest)
  | get (collection : String) (req : GetRequest)
  | count (collection : String)
  | deleteCollection (name : String)

/-- The name in the path of the request is plain, or there is none. -/
def ApiCall.IsPlain : ApiCall → Prop
  | .listCollections | .createCollection _ => True
  | .query name _ | .get name _ | .count name | .deleteCollection name => Http.IsPlain name

/-- What the handlers take from the server they run in. -/
structure Site where
  text : UuidText
  kernels : Kernels
  message : Server.EngineError → String

section Replies

variable (n : Site) (e : Server.Engine)

def queryReply (tenant database name : String) (req : QueryRequest) : HttpReply :=
  match ChromaQueryRequest.deserialize T (req.body T) with
  | none => unprocessable
  | some r => answer n.message (fun res => (200, queryBody T res))
      (queryRecordsChroma n.text n.kernels tenant database name r e)

def getReply (name : String) (req : GetRequest) : HttpReply :=
  match ChromaGetRequest.deserialize (req.body T) with
  | none => unprocessable
  | some r => answer n.message (fun res => (200, getBody T res))
      (getRecordsChroma n.text tenant database name r e)

def countReply (name : String) : HttpReply :=
  answer n.message (fun count => (200, ofUsize count))
    (countRecordsChroma n.text tenant database name e)

def listReply : HttpReply :=
  ⟨200, some (ofList (collectionBody T) (listCollectionsChroma e tenant database))⟩

/-- The replies that a call with a plain name can get in a state of the engine. What
answers in place of the handler, the layers in front of it or a path without a route,
has no JSON to say. -/
inductive Replied : ApiCall → HttpReply → Prop
  | refused (call : ApiCall) (status : ℕ) : Replied call ⟨status, none⟩
  | listCollections : Replied .listCollections (listReply T e)
  | createCollection (name : String) (fault : Option String) (opening : Engine.Opening) (id : Uuid)
      (req : ChromaCreateCollectionRequest)
      (hread : ChromaCreateCollectionRequest.deserialize (createBody name) = some req) :
      Replied (.createCollection name)
        (answer n.message (fun res => (res.1, collectionBody T res.2))
          (createCollectionChroma n.text fault opening id tenant database req e))
  | query (name : String) (req : QueryRequest) :
      Replied (.query name req) (queryReply T n e tenant database name req)
  | get (name : String) (req : GetRequest) : Replied (.get name req) (getReply T n e name req)
  | count (name : String) : Replied (.count name) (countReply n e name)
  | deleteCollection (name : String) (fault : Option String)
      (walFile checkpointDir : Engine.Removal) (raft : Option (Except String Unit)) :
      Replied (.deleteCollection name)
        (answer n.message (fun res => (200, collectionBody T res))
          (deleteCollectionChroma n.text fault walFile checkpointDir raft tenant database name e))

end Replies

/-! ## Responses -/

/-- `resp.json().await.map_err(|e| e.to_string())`. -/
def readJson {α : Type} (read : Json → Option α) (reply : HttpReply) : Except String α :=
  match reply.body.bind read with
  | some a => .ok a
  | none => .error "error decoding response body"

def Collection.deserialize (v : Json) : Option Collection := do
  let members ← readObject v
  let id ← readField "id" readString members
  let name ← readField "name" readString members
  let dimension ← readOptional "dimension" readUsize members
  pure ⟨id, name, dimension⟩

def QueryResult.deserialize (v : Json) : Option QueryResult := do
  let members ← readObject v
  let ids ← readField "ids" (readList (readList readString)) members
  let distances ← readOptional "distances" (readList (readList T.read)) members
  let metadatas ← readOptional "metadatas" (readList (readList (readOption readAny))) members
  let documents ← readOptional "documents" (readList (readList (readOption readString))) members
  pure ⟨ids, distances, metadatas, documents⟩

def GetResult.deserialize (v : Json) : Option GetResult := do
  let members ← readObject v
  let ids ← readField "ids" (readList readString) members
  let embeddings ← readOptional "embeddings" (readList (readList T.read)) members
  let metadatas ← readOptional "metadatas" (readList (readOption readAny)) members
  let documents ← readOptional "documents" (readList (readOption readString)) members
  pure ⟨ids, embeddings, metadatas, documents⟩

namespace RekhaClient

def listCollections : HttpReply → Except String (List Collection) :=
  readJson (readList Collection.deserialize)

def createCollection : HttpReply → Except String Collection := readJson Collection.deserialize

def query : HttpReply → Except String QueryResult := readJson (QueryResult.deserialize T)

def get : HttpReply → Except String GetResult := readJson (GetResult.deserialize T)

/-- Indexing anything but an object with `"count"` gives `null`. -/
def count (reply : HttpReply) : Except String ℕ := do
  let body ← readJson readAny reply
  match (body.index "count").asU64 with
  | some n => .ok n.toNat
  | none => .error "Invalid count response"

/-- The only function of these to look at the status; the text of it is not modelled. -/
def deleteCollection (statusText : ℕ → String) (reply : HttpReply) : Except String Unit :=
  if 200 ≤ reply.status ∧ reply.status < 300 then .ok ()
  else .error ("Delete collection failed: " ++ statusText reply.status)

end RekhaClient

/-! ## What the client reads -/

section Columns

variable (r : ChromaQueryResponse)

end Columns

theorem readJson_ok {α : Type} {read : Json → Option α} {reply : HttpReply} {a : α} :
    readJson read reply = .ok a ↔ ∃ body, reply.body = some body ∧ read body = some a := by
  rw [readJson]
  cases hread : reply.body.bind read with
  | none =>
      rw [Option.bind_eq_none_iff] at hread
      refine iff_of_false (by rintro ⟨⟩) ?_
      rintro ⟨body, hbody, ha⟩
      rw [hread body hbody] at ha
      cases ha
  | some b =>
      obtain ⟨body, hbody, hb⟩ := Option.bind_eq_some_iff.mp hread
      constructor
      · rintro ⟨⟩
        exact ⟨body, hbody, hb⟩
      · rintro ⟨body', hbody', ha⟩
        rw [hbody] at hbody'
        cases hbody'
        rw [hb] at ha
        cases ha
        rfl

/-- How the client reaches a node: a listener, the key of the node, the key of the
client, and the text of a body, which the extractor of a query reads as its value. -/
structure Link where
  listener : Http.Listener
  nodeKey : Option (List UInt8)
  apiKey : Option (List UInt8)
  bytes : Json → List UInt8
  readers : Http.Readers
  reads_query : ∀ v, readers.json .queryRecordsChroma (bytes v) = .ok () ↔
    (ChromaQueryRequest.deserialize T v).isSome = true

namespace Link

variable {T} (link : Link T) (n : Site) (e : Server.Engine) (name : String) (req : QueryRequest)

def queryCall : Http.Call :=
  ⟨.query, [tenant, database, name], link.apiKey, link.bytes (req.body T)⟩

/-- What comes back for it. A node that does not run the handler has no JSON to say. -/
def queryReply : HttpReply :=
  match Http.dispatch link.readers link.listener link.nodeKey (link.queryCall name req).request with
  | .handled .queryRecordsChroma [tenant, database, name] =>
      Repl.queryReply T n e tenant database name req
  | answer => ⟨answer.status, none⟩

/-- Nothing on the way turns the query down. -/
structure Delivers : Prop where
  admitted : (link.queryCall name req).admitted link.nodeKey = true
  offered : Http.CallKind.query.offered link.listener = true
  length : (link.bytes (req.body T)).length ≤ Http.defaultBodyLimit

variable {link n e name req}

theorem queryCall_plain (hname : Http.IsPlain name) : (link.queryCall name req).Plain := by
  refine ⟨?_, rfl⟩
  intro a ha
  simp only [queryCall, List.mem_cons, List.not_mem_nil, or_false] at ha
  rcases ha with rfl | rfl | rfl
  · exact Http.isPlain_of_all (by decide) (by decide +kernel)
  · exact Http.isPlain_of_all (by decide) (by decide +kernel)
  · exact hname

theorem dispatch_query (hname : Http.IsPlain name) {h : Http.Handler} {args : List String} :
    Http.dispatch link.readers link.listener link.nodeKey (link.queryCall name req).request
        = .handled h args ↔
      (link.Delivers name req ∧ (ChromaQueryRequest.deserialize T (req.body T)).isSome = true) ∧
        h = .queryRecordsChroma ∧ args = [tenant, database, name] := by
  rw [Http.answer_eq _ _ _ _ (queryCall_plain hname), Http.Call.layers_iff, ← link.reads_query]
  constructor
  · rintro ⟨hadmitted, hoffered, hreadable, hargs⟩
    exact ⟨⟨⟨hadmitted, hoffered, hreadable.length rfl⟩, hreadable.json rfl⟩, hargs⟩
  · rintro ⟨⟨⟨hadmitted, hoffered, hlength⟩, hjson⟩, hargs⟩
    refine ⟨hadmitted, hoffered, ⟨?_, fun _ => hlength, fun _ => hjson⟩, hargs⟩
    intro htakes
    cases htakes

theorem queryReply_refused (hname : Http.IsPlain name)
    (h : ¬ (link.Delivers name req ∧
      (ChromaQueryRequest.deserialize T (req.body T)).isSome = true)) :
    ∃ status, link.queryReply n e name req = ⟨status, none⟩ := by
  rw [queryReply]
  split
  · rename_i hhandled
    exact absurd ((dispatch_query hname).mp hhandled).1 h
  · exact ⟨_, rfl⟩

theorem queryReply_delivered (hname : Http.IsPlain name)
    (h : link.Delivers name req ∧
      (ChromaQueryRequest.deserialize T (req.body T)).isSome = true) :
    link.queryReply n e name req = Repl.queryReply T n e tenant database name req := by
  rw [queryReply, (dispatch_query hname).mpr ⟨h, rfl, rfl⟩]

theorem replied (hname : Http.IsPlain name) :
    Replied T n e (.query name req) (link.queryReply n e name req) := by
  by_cases hreach : link.Delivers name req ∧
      (ChromaQueryRequest.deserialize T (req.body T)).isSome = true
  · rw [queryReply_delivered hname hreach]
    exact .query name req
  · obtain ⟨status, hrefused⟩ := queryReply_refused (n := n) (e := e) hname hreach
    rw [hrefused]
    exact .refused _ status

end Link

/-! ## What the server reads -/

/-- The filter of a request as the server takes it; it refuses some. -/
def filterRead (whereFilter : Option Json) : Option (Option WhereFilter) :=
  readOption readWhere (ofOption T.reread whereFilter)

theorem deserialize_getRequest {whereFilter : Option Json} {include_ : List String}
    {r : ChromaGetRequest} (h : ChromaGetRequest.deserialize
      (GetRequest.body T ⟨none, whereFilter, some include_⟩) = some r) : r.ids = none := by
  have hbody : ChromaGetRequest.deserialize
      (GetRequest.body T ⟨none, whereFilter, some include_⟩) = (do
        let _ ← filterRead T whereFilter
        let names ← readList readString (ofList Json.string include_)
        pure ⟨none, names⟩) := rfl
  rw [hbody] at h
  obtain ⟨_, -, h⟩ := Option.bind_eq_some_iff.mp h
  obtain ⟨names, -, h⟩ := Option.bind_eq_some_iff.mp h
  cases h
  rfl

theorem deserialize_getBody {r : ChromaGetResponse} {g : GetResult}
    (h : GetResult.deserialize T (getBody T r) = some g) : g.ids = r.ids := by
  have hids : readList readString (ofList Json.string r.ids) = some r.ids :=
    readList_ofList fun _ _ => rfl
  have hbody : GetResult.deserialize T (getBody T r) = (do
      let ids ← readList readString (ofList Json.string r.ids)
      let embeddings ← readOption (readList (readList T.read))
        (ofOption (ofList (ofList T.write)) r.embeddings)
      let metadatas ← readOption (readList (readOption readAny))
        (ofList (metadataBody T) r.metadatas)
      let documents ← readOption (readList (readOption readString))
        (ofList (ofOption Json.string) r.documents)
      pure ⟨ids, embeddings, metadatas, documents⟩) := rfl
  rw [hbody, hids] at h
  obtain ⟨ids, hids, h⟩ := Option.bind_eq_some_iff.mp h
  obtain ⟨_, -, h⟩ := Option.bind_eq_some_iff.mp h
  obtain ⟨_, -, h⟩ := Option.bind_eq_some_iff.mp h
  obtain ⟨_, -, h⟩ := Option.bind_eq_some_iff.mp h
  cases h
  exact (Option.some.inj hids).symm

theorem count_answer (n : Site) (e : Server.Engine) (name : String) :
    ∃ message, RekhaClient.count (countReply n e name) = .error message := by
  unfold countReply
  cases countRecordsChroma n.text tenant database name e with
  | ok c e' => exact ⟨_, rfl⟩
  | error err e' => exact ⟨_, rfl⟩

/-- **A count is never read.** The server sends a number, and the client looks for a
field in it. -/
theorem count_never_read {n : Site} {e : Server.Engine} {name : String} {reply : HttpReply}
    (h : Replied T n e (.count name) reply) :
    ∃ message, RekhaClient.count reply = .error message := by
  cases h with
  | refused status => exact ⟨_, rfl⟩
  | count name => exact count_answer n e name

theorem get_reads_nothing {n : Site} {e : Server.Engine} {name : String}
    {whereFilter : Option Json} {include_ : List String} {reply : HttpReply} {g : GetResult}
    (h : Replied T n e (.get name ⟨none, whereFilter, some include_⟩) reply)
    (hg : RekhaClient.get T reply = .ok g) : g.ids = [] := by
  cases h with
  | refused status => cases hg
  | get name req =>
      unfold getReply at hg
      split at hg
      · cases hg
      · rename_i r hr
        obtain ⟨body, hbody, hread⟩ := readJson_ok.mp hg
        cases hout : getRecordsChroma n.text tenant database name r e with
        | error err e' =>
            rw [hout] at hbody
            cases hbody
            cases hread
        | ok res e' =>
            rw [hout] at hbody
            cases hbody
            obtain ⟨id, -, rfl⟩ := getRecordsChroma_ok hout
            rw [deserialize_getBody T hread, deserialize_getRequest T hr]
            rfl

section Single

variable (n : Site) (e : Server.Engine) (name : String) (v : Embedding) (limit : ℕ)
variable (f : Option WhereFilter) (include_ : List String)

end Single

end Rekha.Repl
