import Mathlib.Data.List.DropRight
import Rekha.Server.Routes

/-!
# Calls between the programs

Every request that a program of this repository sends, and whether a handler gets
it. `call_handled_iff` settles it for each call, each listener and each key: the
Raft and replication calls carry no key and are refused by a node that has one, the
snapshot call is sent to a path that no listener serves, and the handlers of the
command line want an id where a user may type a name.
-/

namespace Rekha.Http

open Routing

/-! ## Senders -/

inductive Sender where
  | rekhaClient
  | cli
  | raftNetwork
  | walReplication
deriving DecidableEq

/-- The requests of `RekhaClient`, of the command line, of `RaftNetworkImpl` and of
`WalReplication`, in this order. -/
inductive CallKind where
  | heartbeat
  | listCollections
  | createCollection
  | add
  | query
  | get
  | count
  | delete
  | deleteCollection
  | collectionCreate
  | collectionList
  | collectionGet
  | collectionDelete
  | cliAdd
  | cliUpsert
  | cliUpdate
  | cliDelete
  | cliQuery
  | cliGet
  | cliCount
  | membershipList
  | membershipAdd
  | membershipRemove
  | appendEntries
  | vote
  | fullSnapshot
  | fetchDelta
deriving DecidableEq

/-- `{url}/api/v2/tenants/{tenant}/databases/{database}/collections`. -/
def clientCollections : Pattern String :=
  [.lit "api", .lit "v2", .lit "tenants", .param, .lit "databases", .param, .lit "collections"]

/-- `{url}/api/v2/tenants/{tenant}/databases/{database}/collections/{collection}`. -/
def clientCollection : Pattern String := clientCollections ++ [.param]

/-- `{url}/api/v2/collections`. -/
def cliCollections : Pattern String := [.lit "api", .lit "v2", .lit "collections"]

/-- `{url}/api/v2/collections/{collection_id}`. -/
def cliCollection : Pattern String := cliCollections ++ [.param]

/-- `{url}/internal/raft`. -/
def raft : Pattern String := [.lit "internal", .lit "raft"]

/-- `raft_install_snapshot` is routed below `raft`, but `full_snapshot` repeats the word. -/
def CallKind.path : CallKind → Pattern String
  | .heartbeat => [.lit "api", .lit "v2", .lit "heartbeat"]
  | .listCollections => clientCollections
  | .createCollection => clientCollections
  | .add => under clientCollection "add"
  | .query => under clientCollection "query"
  | .get => under clientCollection "get"
  | .count => under clientCollection "count"
  | .delete => under clientCollection "delete"
  | .deleteCollection => clientCollection
  | .collectionCreate => cliCollections
  | .collectionList => cliCollections
  | .collectionGet => cliCollection
  | .collectionDelete => cliCollection
  | .cliAdd => under cliCollection "add"
  | .cliUpsert => under cliCollection "upsert"
  | .cliUpdate => under cliCollection "update"
  | .cliDelete => under cliCollection "delete"
  | .cliQuery => under cliCollection "query"
  | .cliGet => under cliCollection "get"
  | .cliCount => under cliCollection "count"
  | .membershipList => under raft "membership"
  | .membershipAdd => under raft "add_learner"
  | .membershipRemove => under raft "remove_member"
  | .appendEntries => under raft "append_entries"
  | .vote => under raft "vote"
  | .fullSnapshot => under (under raft "raft") "install_snapshot"
  | .fetchDelta => under [.lit "internal", .lit "wal", .param] "delta"

def CallKind.method : CallKind → Method
  | .heartbeat | .listCollections | .count | .collectionList | .collectionGet | .membershipList
  | .fetchDelta => .get
  | .deleteCollection | .collectionDelete => .delete
  | _ => .post

def CallKind.sender : CallKind → Sender
  | .heartbeat | .listCollections | .createCollection | .add | .query | .get | .count | .delete
  | .deleteCollection => .rekhaClient
  | .appendEntries | .vote | .fullSnapshot => .raftNetwork
  | .fetchDelta => .walReplication
  | _ => .cli

/-- The function that a call is meant for. -/
def CallKind.handler : CallKind → Handler
  | .heartbeat => .heartbeat
  | .listCollections => .listCollectionsChroma
  | .createCollection => .createCollectionChroma
  | .add => .addRecordsChroma
  | .query => .queryRecordsChroma
  | .get => .getRecordsChroma
  | .count => .countRecordsChroma
  | .delete => .deleteRecordsChroma
  | .deleteCollection => .deleteCollectionChroma
  | .collectionCreate => .createCollection
  | .collectionList => .listCollections
  | .collectionGet => .getCollection
  | .collectionDelete => .deleteCollection
  | .cliAdd => .addRecords
  | .cliUpsert => .upsertRecords
  | .cliUpdate => .updateRecords
  | .cliDelete => .deleteRecords
  | .cliQuery => .queryRecords
  | .cliGet => .getRecords
  | .cliCount => .countRecords
  | .membershipList => .raftMembership
  | .membershipAdd => .raftAddLearner
  | .membershipRemove => .raftRemoveMember
  | .appendEntries => .raftAppendEntries
  | .vote => .raftVote
  | .fullSnapshot => .raftInstallSnapshot
  | .fetchDelta => .walDeltaHandler

/-- The calls that send their body with `json`. -/
def CallKind.sendsJson : CallKind → Bool
  | .createCollection | .add | .query | .get | .delete | .collectionCreate | .cliAdd | .cliUpsert
  | .cliUpdate | .cliDelete | .cliQuery | .cliGet | .membershipAdd | .membershipRemove
  | .appendEntries | .vote | .fullSnapshot => true
  | _ => false

theorem takesJson_handler (k : CallKind) : k.handler.takesJson = k.sendsJson := by
  cases k <;> rfl

/-- The calls that a listener has a route for. -/
def CallKind.offered (k : CallKind) (l : Listener) : Bool :=
  match k with
  | .fullSnapshot => false
  | .membershipList | .membershipAdd | .membershipRemove | .appendEntries | .vote | .fetchDelta =>
      decide (l ≠ .publicRouter)
  | _ => decide (l ≠ .internalRouter)

/-! ## Keys -/

/-- What `HeaderValue` may hold. -/
def isValid (b : UInt8) : Bool := decide (32 ≤ b ∧ b ≠ 127 ∨ b = 9)

def isBlank (b : UInt8) : Bool := decide (b = 32 ∨ b = 9)

/-- Blanks around a header's value are not part of it for the one who reads it. -/
def trimBlanks (value : List UInt8) : List UInt8 := (value.dropWhile isBlank).rdropWhile isBlank

/-- `RekhaClient::headers`: a key that no header can hold is left out. -/
def clientHeaders (apiKey : Option (List UInt8)) : List (String × List UInt8) :=
  match apiKey with
  | none => []
  | some key => if key.all isValid then [("x-chroma-token", trimBlanks key)] else []

theorem isVisibleAscii_of_isBlank {b : UInt8} (h : isBlank b = true) : isVisibleAscii b = true := by
  rcases of_decide_eq_true h with rfl | rfl <;> rfl

theorem isValid_of_isVisibleAscii {b : UInt8} (h : isVisibleAscii b = true) : isValid b = true := by
  apply decide_eq_true
  refine (of_decide_eq_true h).imp_left fun hb => ⟨hb.1, ?_⟩
  rintro rfl
  exact absurd hb.2 (by decide)

theorem mem_of_mem_trimBlanks {key : List UInt8} {b : UInt8} (h : b ∈ trimBlanks key) : b ∈ key :=
  (List.dropWhile_sublist isBlank).mem ((List.rdropWhile_prefix isBlank _).sublist.mem h)

theorem mem_trimBlanks_or_isBlank {key : List UInt8} {b : UInt8} (h : b ∈ key) :
    b ∈ trimBlanks key ∨ isBlank b = true := by
  rw [← key.takeWhile_append_dropWhile (p := isBlank)] at h
  rcases List.mem_append.mp h with h | h
  · exact .inr (List.mem_takeWhile_imp h)
  · rw [← (key.dropWhile isBlank).rdropWhile_append_rtakeWhile (p := isBlank)] at h
    rcases List.mem_append.mp h with h | h
    · exact .inl h
    · exact .inr (List.mem_rtakeWhile_imp h)

theorem all_trimBlanks (key : List UInt8) :
    (trimBlanks key).all isVisibleAscii = key.all isVisibleAscii := by
  rw [Bool.eq_iff_iff, List.all_eq_true, List.all_eq_true]
  constructor
  · intro h b hb
    exact (mem_trimBlanks_or_isBlank hb).elim (h b) isVisibleAscii_of_isBlank
  · intro h b hb
    exact h b (mem_of_mem_trimBlanks hb)

/-! ## Calls -/

/-- A call with its arguments and its JSON, if it sends any. The key is the
sender's own. -/
structure Call where
  kind : CallKind
  args : List String
  apiKey : Option (List UInt8)
  body : List UInt8

/-- Only `RekhaClient` sends its key. -/
def Call.sentKey (c : Call) : Option (List UInt8) :=
  if c.kind.sender = .rekhaClient then c.apiKey else none

/-- What stays as it is in a path: letters, digits, `-` and `_`. -/
def IsPlain (s : String) : Prop :=
  s ≠ "" ∧ ∀ c ∈ s.toList, c.isAlphanum = true ∨ c = '-' ∨ c = '_'

structure Call.Plain (c : Call) : Prop where
  args : ∀ a ∈ c.args, IsPlain a
  length : params c.kind.path = c.args.length

/-- What `json` adds to the headers of a request. -/
def CallKind.jsonHeaders (k : CallKind) : List (String × List UInt8) :=
  if k.sendsJson then [("content-type", ascii "application/json")] else []

def Call.request (c : Call) : HttpRequest where
  method := c.kind.method
  path := url c.kind.path c.args
  headers := clientHeaders c.sentKey ++ c.kind.jsonHeaders
  body := if c.kind.sendsJson then c.body else []

/-- A node without a key lets everyone in. A node with a key lets in a client with
this key, if it is text and no blank is cut off. -/
def Call.admitted (c : Call) (apiKey : Option (List UInt8)) : Bool :=
  match apiKey, c.sentKey with
  | none, _ => true
  | some _, none => false
  | some expected, some key => key.all isVisibleAscii && decide (trimBlanks key = expected)

theorem header_clientHeaders (key : List UInt8) : (clientHeaders (some key)).lookup "x-chroma-token"
    = if key.all isValid then some (trimBlanks key) else none := by
  rw [clientHeaders]
  split <;> rfl

theorem lookup_clientHeaders {name : String} (h : name ≠ "x-chroma-token")
    (apiKey : Option (List UInt8)) : (clientHeaders apiKey).lookup name = none := by
  cases apiKey with
  | none => rfl
  | some key =>
      rw [clientHeaders]
      split
      · rw [List.lookup_cons, beq_eq_false_iff_ne.mpr h]
        rfl
      · rfl

theorem lookup_jsonHeaders {name : String} (h : name ≠ "content-type") (k : CallKind) :
    k.jsonHeaders.lookup name = none := by
  rw [CallKind.jsonHeaders]
  split
  · rw [List.lookup_cons, beq_eq_false_iff_ne.mpr h]
    rfl
  · rfl

theorem header_request (c : Call) (name : String) : c.request.header name
    = ((clientHeaders c.sentKey).lookup name).or (c.kind.jsonHeaders.lookup name) :=
  List.lookup_append

theorem isJson_request (c : Call) :
    (c.request.header "content-type").any isJsonContentType = c.kind.sendsJson := by
  rw [header_request, lookup_clientHeaders (by decide), Option.none_or, CallKind.jsonHeaders]
  cases c.kind.sendsJson <;> decide

theorem bind_toStr_clientHeaders (key : List UInt8) :
    ((clientHeaders (some key)).lookup "x-chroma-token").bind toStr
      = if key.all isVisibleAscii then some (trimBlanks key) else none := by
  rw [header_clientHeaders]
  by_cases hvisible : key.all isVisibleAscii = true
  · have hvalid : key.all isValid = true := by
      rw [List.all_eq_true] at hvisible ⊢
      exact fun b hb => isValid_of_isVisibleAscii (hvisible b hb)
    rw [if_pos hvalid, if_pos hvisible, Option.bind_some, toStr, all_trimBlanks, if_pos hvisible]
  · rw [if_neg hvisible]
    split
    · rw [Option.bind_some, toStr, all_trimBlanks, if_neg hvisible]
    · rfl

theorem authorized_request (c : Call) (apiKey : Option (List UInt8)) :
    authorized apiKey c.request = c.admitted apiKey := by
  cases apiKey with
  | none => rfl
  | some expected =>
      have hplain : (clientHeaders c.sentKey).lookup "x-api-key" = none :=
        lookup_clientHeaders (by decide) c.sentKey
      rw [authorized, header_request, header_request, lookup_jsonHeaders (by decide),
        lookup_jsonHeaders (by decide), hplain, Option.or_none, Option.or_none, Option.or_none]
      cases hkey : c.sentKey with
      | none =>
          rw [Call.admitted.eq_def, hkey]
          rfl
      | some key =>
          rw [bind_toStr_clientHeaders, Call.admitted.eq_def, hkey]
          dsimp only
          cases key.all isVisibleAscii <;> rfl

/-! ## Answers -/

variable {k : CallKind} {l : Listener}

theorem any_routes (h : k.offered l = true) : (l.routes.any fun route =>
    decide (route.1 = k.path) && decide (route.2.lookup k.method = some k.handler)) = true := by
  revert h
  cases k <;> cases l <;> decide +kernel

theorem all_routes (h : k.offered l = false) :
    (l.routes.all fun route => !overlaps nonEmpty k.path route.1) = true := by
  revert h
  cases k <;> cases l <;> decide +kernel

theorem plain_path (k : CallKind) : Plain k.path := by
  cases k <;> simp [Plain, CallKind.path, clientCollections, clientCollection, cliCollections,
    cliCollection, raft, under]

theorem Call.Plain.segments {c : Call} (hc : c.Plain) :
    segments c.request.path = fill c.kind.path c.args := by
  apply segments_url (plain_path c.kind)
  intro a ha hslash
  rcases (hc.args a ha).2 _ hslash with h | h | h <;> exact absurd h (by decide)

theorem Call.Plain.takes {c : Call} (hc : c.Plain) :
    takes nonEmpty c.kind.path (fill c.kind.path c.args) = true :=
  takes_fill hc.length fun a ha => decide_eq_true (hc.args a ha).1

theorem answer_eq (readers : Readers) (l : Listener) (apiKey : Option (List UInt8)) (c : Call)
    (hc : c.Plain) : dispatch readers l apiKey c.request
      = if bodyLimit < c.request.body.length then .payloadTooLarge
        else if c.admitted apiKey then
          if c.kind.offered l then extract readers c.kind.handler c.args c.request else .notFound
        else .unauthorized := by
  rw [dispatch, authorized_request, hc.segments]
  congr 2
  cases hoffered : c.kind.offered l with
  | true =>
      obtain ⟨⟨p, methods⟩, hmem, hroute⟩ := List.any_eq_true.mp (any_routes hoffered)
      obtain ⟨hpath, hmethod⟩ := Bool.and_eq_true_iff.mp hroute
      obtain rfl : p = c.kind.path := of_decide_eq_true hpath
      have hlookup : lookup nonEmpty l.routes (fill c.kind.path c.args)
          = some (c.kind.path, methods) :=
        (lookup_eq_some_iff (disjoint_routes l)).mpr ⟨hmem, hc.takes⟩
      have hhandler : methods.lookup c.request.method = some c.kind.handler :=
        of_decide_eq_true hmethod
      simp only [hlookup, hhandler, capture_fill hc.length, if_true]
  | false =>
      have hlookup : lookup nonEmpty l.routes (fill c.kind.path c.args) = none := by
        rw [lookup, List.find?_eq_none]
        intro route hroute htakes
        have happart := List.all_eq_true.mp (all_routes hoffered) route hroute
        rw [overlaps_of_takes hc.takes htakes] at happart
        cases happart
      rw [hlookup]
      rfl

/-- The limit of the routers never decides: a body is small enough for it, or too
long for every extractor. -/
theorem Call.length_body_le {c : Call}
    (h : c.kind.sendsJson = true → c.body.length ≤ defaultBodyLimit) :
    c.request.body.length ≤ bodyLimit := by
  rw [Call.request]
  cases hjson : c.kind.sendsJson with
  | true => exact (h hjson).trans (by decide)
  | false => exact Nat.zero_le _

/-- What the handler of a call asks for: a readable id where it takes one, and a body
of at most two MiB that is its request where it takes JSON. -/
structure Call.Readable (readers : Readers) (c : Call) : Prop where
  ids : c.kind.handler.takesUuid = true → ∀ a ∈ c.args, ∃ u, readers.uuid.parseStr a = .ok u
  length : c.kind.sendsJson = true → c.body.length ≤ defaultBodyLimit
  json : c.kind.sendsJson = true → readers.json c.kind.handler c.body = .ok ()

theorem readsIds_iff {readers : Readers} {c : Call} :
    readers.readsIds c.kind.handler c.args = true ↔
      (c.kind.handler.takesUuid = true → ∀ a ∈ c.args, ∃ u, readers.uuid.parseStr a = .ok u) := by
  have hread : ∀ a, (readers.uuid.parseStr a).isOk = true ↔
      ∃ u, readers.uuid.parseStr a = .ok u := by
    intro a
    cases readers.uuid.parseStr a <;> simp [Except.isOk, Except.toBool]
  cases htakes : c.kind.handler.takesUuid <;>
    simp [Readers.readsIds, htakes, List.all_eq_true, hread]

theorem Call.extract_iff {readers : Readers} {c : Call} {h : Handler} {args : List String} :
    extract readers c.kind.handler c.args c.request = .handled h args ↔
      c.Readable readers ∧ h = c.kind.handler ∧ args = c.args := by
  rw [extract_eq_handled_iff, readsIds_iff, takesJson_handler, isJson_request]
  constructor
  · rintro ⟨hids, hbody, rfl, rfl⟩
    have hread : c.kind.sendsJson = true → c.body.length ≤ defaultBodyLimit ∧
        readers.json c.kind.handler c.body = .ok () := by
      intro hjson
      have hparts := (hbody hjson).2
      rwa [Call.request, if_pos hjson] at hparts
    exact ⟨⟨hids, fun hjson => (hread hjson).1, fun hjson => (hread hjson).2⟩, rfl, rfl⟩
  · rintro ⟨⟨hids, hlength, hread⟩, rfl, rfl⟩
    refine ⟨hids, ?_, rfl, rfl⟩
    intro hjson
    rw [Call.request, if_pos hjson]
    exact ⟨hjson, hlength hjson, hread hjson⟩

theorem Call.layers_iff {readers : Readers} {l : Listener} {apiKey : Option (List UInt8)}
    {c : Call} {h : Handler} {args : List String} :
    (if bodyLimit < c.request.body.length then .payloadTooLarge
      else if c.admitted apiKey then
        if c.kind.offered l then extract readers c.kind.handler c.args c.request else .notFound
      else .unauthorized) = Answer.handled h args ↔
      c.admitted apiKey = true ∧ c.kind.offered l = true ∧ c.Readable readers ∧
        h = c.kind.handler ∧ args = c.args := by
  constructor
  · intro hanswer
    split at hanswer
    · cases hanswer
    · split at hanswer
      · rename_i hadmitted
        split at hanswer
        · rename_i hoffered
          exact ⟨hadmitted, hoffered, Call.extract_iff.mp hanswer⟩
        · cases hanswer
      · cases hanswer
  · rintro ⟨hadmitted, hoffered, hreadable, hargs⟩
    have hsize := Call.length_body_le hreadable.length
    rw [if_neg (Nat.not_lt.mpr hsize), if_pos hadmitted, if_pos hoffered]
    exact Call.extract_iff.mpr ⟨hreadable, hargs⟩

/-- **When a call reaches a function.** It is then the one it was meant for, with the
arguments it was sent with. -/
theorem call_handled_iff (readers : Readers) (l : Listener) (apiKey : Option (List UInt8))
    (c : Call) (hc : c.Plain) (h : Handler) (args : List String) :
    dispatch readers l apiKey c.request = .handled h args ↔
      c.admitted apiKey = true ∧ c.kind.offered l = true ∧ c.Readable readers ∧
        h = c.kind.handler ∧ args = c.args := by
  rw [answer_eq readers l apiKey c hc]
  exact Call.layers_iff

def emptyObjectReaders : Readers where
  uuid := hexText
  json h body :=
    if body = ascii "\x7b\x7d" then
      if h = .getRecords ∨ h = .getRecordsChroma then .ok () else .error .jsonDataError
    else .error .jsonSyntaxError

theorem isPlain_of_all {s : String} (hne : s ≠ "")
    (h : (s.toList.all fun c => c.isAlphanum || c = '-' || c = '_') = true) : IsPlain s := by
  refine ⟨hne, ?_⟩
  intro c hc
  have hletter := List.all_eq_true.mp h c hc
  simp only [Bool.or_eq_true, decide_eq_true_eq] at hletter
  tauto

/-- A node with a key runs the get of a client whose key has a blank too many, and no
vote request. Without a key it runs the command line's get under an id, not under a
name, and no body that is not a request. -/
theorem call_handled_iff_demo :
    dispatch emptyObjectReaders .router (some [107])
        (Call.request ⟨.get, ["acme", "prod", "docs-1"], some [32, 107], ascii "\x7b\x7d"⟩)
      = .handled .getRecordsChroma ["acme", "prod", "docs-1"] ∧
    dispatch emptyObjectReaders .internalRouter (some [107])
        (Call.request ⟨.vote, [], none, ascii "\x7b\x7d"⟩) ≠ .handled .raftVote [] ∧
    dispatch emptyObjectReaders .publicRouter none (Call.request
        ⟨.cliGet, ["550e8400-e29b-41d4-a716-446655440000"], none, ascii "\x7b\x7d"⟩)
      = .handled .getRecords ["550e8400-e29b-41d4-a716-446655440000"] ∧
    dispatch emptyObjectReaders .publicRouter none (Call.request
        ⟨.cliGet, ["docs-1"], none, ascii "\x7b\x7d"⟩) ≠ .handled .getRecords ["docs-1"] ∧
    dispatch emptyObjectReaders .publicRouter none (Call.request
        ⟨.cliQuery, ["550e8400-e29b-41d4-a716-446655440000"], none, ascii "\x7b\x7d"⟩)
      ≠ .handled .queryRecords ["550e8400-e29b-41d4-a716-446655440000"] := by
  have hid : IsPlain "550e8400-e29b-41d4-a716-446655440000" :=
    isPlain_of_all (by decide) (by decide +kernel)
  have hdocs : IsPlain "docs-1" := isPlain_of_all (by decide) (by decide +kernel)
  have hone : ∀ {a : String}, IsPlain a → ∀ b ∈ [a], IsPlain b := by
    intro a ha b hb
    rwa [List.mem_singleton.mp hb]
  refine ⟨?_, ?_, ?_, ?_, ?_⟩
  · have hargs : ∀ a ∈ ["acme", "prod", "docs-1"], IsPlain a := by
      intro a ha
      simp only [List.mem_cons, List.not_mem_nil, or_false] at ha
      rcases ha with rfl | rfl | rfl
      · exact isPlain_of_all (by decide) (by decide +kernel)
      · exact isPlain_of_all (by decide) (by decide +kernel)
      · exact hdocs
    refine (call_handled_iff _ _ _ _ ⟨hargs, rfl⟩ _ _).mpr ⟨by decide, rfl, ⟨?_, ?_, ?_⟩, rfl, rfl⟩
    · intro htakes
      cases htakes
    · intro _
      decide
    · intro _
      rfl
  · intro hhandled
    have hadmitted := ((call_handled_iff _ _ _ _ ⟨fun a ha => absurd ha List.not_mem_nil, rfl⟩
      _ _).mp hhandled).1
    cases hadmitted
  · refine (call_handled_iff _ _ _ _ ⟨hone hid, rfl⟩ _ _).mpr
      ⟨rfl, rfl, ⟨?_, ?_, ?_⟩, rfl, rfl⟩
    · intro _ a ha
      rw [List.mem_singleton.mp ha]
      exact ⟨⟨0x550e8400e29b41d4a716446655440000⟩, by decide +kernel⟩
    · intro _
      decide
    · intro _
      rfl
  · intro hhandled
    obtain ⟨-, -, hreadable, -⟩ := (call_handled_iff _ _ _ _ ⟨hone hdocs, rfl⟩ _ _).mp hhandled
    obtain ⟨u, hu⟩ := hreadable.ids rfl "docs-1" List.mem_cons_self
    have hrefused : (emptyObjectReaders.uuid.parseStr "docs-1").isOk = false := by decide +kernel
    rw [hu] at hrefused
    cases hrefused
  · intro hhandled
    obtain ⟨-, -, hreadable, -⟩ := (call_handled_iff _ _ _ _ ⟨hone hid, rfl⟩ _ _).mp hhandled
    cases hreadable.json rfl

end Rekha.Http
