import Rekha.Core.UuidText
import Rekha.Lib.Routing

/-!
# Routes and keys

The tables of the three routers, the layers that a request passes before any
route sees it, and the extractors that it passes before its handler runs. No two
patterns overlap, so a path has at most one route.
-/

namespace Rekha.Http

open Routing

/-! ## Routes -/

inductive Method where
  | get
  | post
  | delete
deriving DecidableEq

inductive Handler where
  | createCollection
  | listCollections
  | getCollection
  | deleteCollection
  | addRecords
  | upsertRecords
  | updateRecords
  | deleteRecords
  | queryRecords
  | getRecords
  | countRecords
  | healthHandler
  | readyHandler
  | authIdentity
  | createTenant
  | getTenant
  | listDatabases
  | createDatabase
  | getDatabase
  | heartbeat
  | version
  | preFlightChecks
  | createCollectionChroma
  | listCollectionsChroma
  | getCollectionChroma
  | deleteCollectionChroma
  | addRecordsChroma
  | upsertRecordsChroma
  | updateRecordsChroma
  | deleteRecordsChroma
  | queryRecordsChroma
  | getRecordsChroma
  | countRecordsChroma
  | raftAppendEntries
  | raftVote
  | raftInstallSnapshot
  | raftMembership
  | raftAddLearner
  | raftRemoveMember
  | walDeltaHandler
  | walStatusHandler
deriving DecidableEq

/-- The handlers with an id in their path, `Path<Uuid>`. -/
def Handler.takesUuid : Handler → Bool
  | .getCollection | .deleteCollection | .addRecords | .upsertRecords | .updateRecords
  | .deleteRecords | .queryRecords | .getRecords | .countRecords | .walDeltaHandler
  | .walStatusHandler => true
  | _ => false

/-- The handlers with a request in their body, `Json<_>`. -/
def Handler.takesJson : Handler → Bool
  | .createCollection | .addRecords | .upsertRecords | .updateRecords | .deleteRecords
  | .queryRecords | .getRecords | .createTenant | .createDatabase | .createCollectionChroma
  | .addRecordsChroma | .upsertRecordsChroma | .updateRecordsChroma | .deleteRecordsChroma
  | .queryRecordsChroma | .getRecordsChroma | .raftAppendEntries | .raftVote
  | .raftInstallSnapshot | .raftAddLearner | .raftRemoveMember => true
  | _ => false

abbrev Route := Pattern String × List (Method × Handler)

/-- `{prefix}/{s}`. -/
def under (p : Pattern String) (s : String) : Pattern String := p ++ [.lit s]

/-- `/api/v2`. -/
def api : Pattern String := [.lit "api", .lit "v2"]

/-- `/api/v2/collections/{id}`. -/
def nativeCollection : Pattern String := api ++ [.lit "collections", .param]

/-- `/api/v2/tenants/{name}`. -/
def tenant : Pattern String := api ++ [.lit "tenants", .param]

/-- `/api/v2/tenants/{tenant}/databases`. -/
def tenantDatabases : Pattern String := under tenant "databases"

/-- `/api/v2/tenants/{tenant}/databases/{name}`. -/
def tenantDatabase : Pattern String := tenantDatabases ++ [.param]

/-- `/api/v2/tenants/{tenant}/databases/{database}/collections`. -/
def chromaCollections : Pattern String := under tenantDatabase "collections"

/-- `/api/v2/tenants/{tenant}/databases/{database}/collections/{name}`. -/
def chromaCollection : Pattern String := chromaCollections ++ [.param]

def chromaRouter : List Route :=
  [(under api "heartbeat", [(.get, .heartbeat)]),
    (under api "version", [(.get, .version)]),
    (under api "pre-flight-checks", [(.get, .preFlightChecks)]),
    (chromaCollections, [(.post, .createCollectionChroma), (.get, .listCollectionsChroma)]),
    (chromaCollection, [(.get, .getCollectionChroma), (.delete, .deleteCollectionChroma)]),
    (under chromaCollection "add", [(.post, .addRecordsChroma)]),
    (under chromaCollection "upsert", [(.post, .upsertRecordsChroma)]),
    (under chromaCollection "update", [(.post, .updateRecordsChroma)]),
    (under chromaCollection "delete", [(.post, .deleteRecordsChroma)]),
    (under chromaCollection "query", [(.post, .queryRecordsChroma)]),
    (under chromaCollection "get", [(.post, .getRecordsChroma)]),
    (under chromaCollection "count", [(.get, .countRecordsChroma)])]

def publicRoutes : List Route :=
  [(under api "collections", [(.post, .createCollection), (.get, .listCollections)]),
    (nativeCollection, [(.get, .getCollection), (.delete, .deleteCollection)]),
    (under nativeCollection "add", [(.post, .addRecords)]),
    (under nativeCollection "upsert", [(.post, .upsertRecords)]),
    (under nativeCollection "update", [(.post, .updateRecords)]),
    (under nativeCollection "delete", [(.post, .deleteRecords)]),
    (under nativeCollection "query", [(.post, .queryRecords)]),
    (under nativeCollection "get", [(.post, .getRecords)]),
    (under nativeCollection "count", [(.post, .countRecords)]),
    ([.lit "health"], [(.get, .healthHandler)]),
    ([.lit "ready"], [(.get, .readyHandler)]),
    (under (under api "auth") "identity", [(.get, .authIdentity)]),
    (under api "tenants", [(.post, .createTenant)]),
    (tenant, [(.get, .getTenant)]),
    (tenantDatabases, [(.get, .listDatabases), (.post, .createDatabase)]),
    (tenantDatabase, [(.get, .getDatabase)])] ++ chromaRouter

/-- `/internal/raft`. -/
def internalRaft : Pattern String := [.lit "internal", .lit "raft"]

/-- `/internal/wal/{id}`. -/
def internalWal : Pattern String := [.lit "internal", .lit "wal", .param]

def internalRoutes : List Route :=
  [(under internalRaft "append_entries", [(.post, .raftAppendEntries)]),
    (under internalRaft "vote", [(.post, .raftVote)]),
    (under internalRaft "install_snapshot", [(.post, .raftInstallSnapshot)]),
    (under internalRaft "membership", [(.get, .raftMembership)]),
    (under internalRaft "add_learner", [(.post, .raftAddLearner)]),
    (under internalRaft "remove_member", [(.post, .raftRemoveMember)]),
    (under internalWal "delta", [(.get, .walDeltaHandler)]),
    (under internalWal "status", [(.get, .walStatusHandler)])]

/-- The three routers that a listener may serve. -/
inductive Listener where
  | router
  | publicRouter
  | internalRouter
deriving DecidableEq

def Listener.routes : Listener → List Route
  | .router => publicRoutes ++ internalRoutes
  | .publicRouter => publicRoutes
  | .internalRouter => internalRoutes ++ [([.lit "health"], [(.get, .healthHandler)])]

/-- A parameter takes a segment that is not empty. -/
def nonEmpty (s : String) : Bool := decide (s ≠ "")

theorem disjoint_routes (l : Listener) : disjoint nonEmpty l.routes = true := by
  cases l <;> decide +kernel

/-! ## The layers in front of the routes -/

/-- The bytes of a text without accents. -/
def ascii (s : String) : List UInt8 := s.toList.map fun c => UInt8.ofNat c.toNat

/-- A request as the server reads it, names of headers in lower case. -/
structure HttpRequest where
  method : Method
  path : List Char
  headers : List (String × List UInt8)
  body : List UInt8

def HttpRequest.header (r : HttpRequest) (name : String) : Option (List UInt8) :=
  r.headers.lookup name

def isVisibleAscii (b : UInt8) : Bool := decide (32 ≤ b ∧ b < 127 ∨ b = 9)

/-- The text of a header's value, where it has one. -/
def toStr (value : List UInt8) : Option (List UInt8) :=
  if value.all isVisibleAscii then some value else none

/-- What `middleware::auth` lets through. A token that is not text hides the other
header. -/
def authorized (apiKey : Option (List UInt8)) (r : HttpRequest) : Bool :=
  match apiKey with
  | none => true
  | some expected =>
      match ((r.header "x-chroma-token").or (r.header "x-api-key")).bind toStr with
      | some token => decide (token = expected)
      | none => false

/-- `32 * 1024 * 1024`. -/
def bodyLimit : ℕ := 33554432

inductive Answer where
  | badRequest
  | unauthorized
  | notFound
  | methodNotAllowed
  | payloadTooLarge
  | unsupportedMediaType
  | unprocessableEntity
  | handled (handler : Handler) (args : List String)
deriving DecidableEq

def Answer.status : Answer → ℕ
  | .badRequest => 400
  | .unauthorized => 401
  | .notFound => 404
  | .methodNotAllowed => 405
  | .payloadTooLarge => 413
  | .unsupportedMediaType => 415
  | .unprocessableEntity => 422
  | .handled _ _ => 200

/-! ## Extractors -/

/-- The limit of `axum` on a body that an extractor reads. Nothing disables it. -/
def defaultBodyLimit : ℕ := 2097152

/-- `application/json`, or a type with the suffix `+json`, whatever its parameters. -/
def isJsonContentType (value : List UInt8) : Bool :=
  let essence := (value.takeWhile fun b => b ≠ 59).filter fun b => b ≠ 32
  decide (essence = ascii "application/json") ||
    (ascii "application/").isPrefixOf essence && (ascii "+json").isSuffixOf essence

/-- Why a body is no request of its handler. -/
inductive JsonRejection where
  | jsonSyntaxError
  | jsonDataError

/-- What the extractors read with: ids, and bodies as the request of a handler. -/
structure Readers where
  uuid : UuidText
  json : Handler → List UInt8 → Except JsonRejection Unit

/-- The ids in the path that the handler takes can be read. -/
def Readers.readsIds (readers : Readers) (h : Handler) (args : List String) : Bool :=
  !h.takesUuid || args.all fun a => (readers.uuid.parseStr a).isOk

/-- The extractors of a handler: first the path, then the body. -/
def extract (readers : Readers) (h : Handler) (args : List String) (r : HttpRequest) : Answer :=
  if readers.readsIds h args then
    if h.takesJson then
      if (r.header "content-type").any isJsonContentType then
        -- the extractor's own limit, below the one of the routers
        if defaultBodyLimit < r.body.length then .payloadTooLarge
        else
          match readers.json h r.body with
          | .error .jsonSyntaxError => .badRequest
          | .error .jsonDataError => .unprocessableEntity
          | .ok _ => .handled h args
      else .unsupportedMediaType
    else .handled h args
  else .badRequest

def segments (path : List Char) : List String := (path.splitOn '/').tail.map String.ofList

/-- The outer layers come first: a request is refused for its size, then for its
key, and only then looked up. -/
def dispatch (readers : Readers) (l : Listener) (apiKey : Option (List UInt8))
    (r : HttpRequest) : Answer :=
  if bodyLimit < r.body.length then .payloadTooLarge
  else if authorized apiKey r then
    match lookup nonEmpty l.routes (segments r.path) with
    | none => .notFound
    | some (p, methods) =>
        match methods.lookup r.method with
        | none => .methodNotAllowed
        | some h => extract readers h (capture p (segments r.path)) r
  else .unauthorized

theorem extract_eq_handled_iff (readers : Readers) {h k : Handler} {args args' : List String}
    {r : HttpRequest} : extract readers k args' r = .handled h args ↔
      readers.readsIds k args' = true ∧
      (k.takesJson = true → (r.header "content-type").any isJsonContentType = true ∧
        r.body.length ≤ defaultBodyLimit ∧ readers.json k r.body = .ok ()) ∧
      k = h ∧ args' = args := by
  rw [extract]
  split
  case isFalse hids => simp [hids]
  case isTrue hids =>
    split
    case isFalse hjson => simp [hids, hjson]
    case isTrue hjson =>
      split
      case isFalse htype => simp [hjson, htype]
      case isTrue htype =>
        split
        case isTrue hlong =>
          constructor
          · intro hanswer
            cases hanswer
          · rintro ⟨-, hbody, -⟩
            exact absurd (hbody hjson).2.1 (Nat.not_le.mpr hlong)
        case isFalse hshort =>
          have hle : r.body.length ≤ defaultBodyLimit := Nat.le_of_not_lt hshort
          rcases hread : readers.json k r.body with (_ | _) | _ <;>
            simp [hids, hjson, htype, hle]

section Paths

/-- A pattern's own words hold no slash. -/
def Plain (p : Pattern String) : Prop := ∀ s, Segment.lit s ∈ p → '/' ∉ s.toList

/-- The text of a path that is made from a pattern. -/
def url (p : Pattern String) (args : List String) : List Char :=
  join '/' ((fill p args).map String.toList)

variable {p : Pattern String} {args : List String}

theorem segments_join {path : List String} (h : ∀ s ∈ path, '/' ∉ s.toList) :
    segments (join '/' (path.map String.toList)) = path := by
  have hplain : ∀ s ∈ path.map String.toList, '/' ∉ s := by
    intro s hs
    obtain ⟨t, ht, rfl⟩ := List.mem_map.mp hs
    exact h t ht
  rw [segments, splitOn_join hplain, List.tail_cons, List.map_map]
  exact List.map_id'' (fun s => String.ofList_toList) path

theorem segments_url (hp : Plain p) (hargs : ∀ a ∈ args, '/' ∉ a.toList) :
    segments (url p args) = fill p args := by
  apply segments_join
  intro s hs
  rcases mem_fill hs with hlit | harg
  · exact hp s hlit
  · exact hargs s harg

end Paths

end Rekha.Http
