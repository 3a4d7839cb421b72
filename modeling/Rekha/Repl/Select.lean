import Rekha.Repl.Session

/-!
# What a query shows

From the parsed query through the client, the routes and the engine, and back to the
screen, for collections with plain names. A query with a vector shows what the engine
finds (`select_shows_iff`). Without one it shows nothing: a get names no ids, and no
count is read (`shows_nothing`).
-/

namespace Rekha.Repl

open Json Rekha.Server

variable {σ : Type} (S : Setting σ)

section Demo

/-- The text of the query for the ten records nearest to zero. -/
def demoText : List UInt8 :=
  Http.ascii ("\x7b\"query_embeddings\":[[0.0]],\"n_results\":10,\"where\":null," ++
    "\"include\":[\"metadatas\",\"documents\",\"distances\"]\x7d")

/-- A node with a key that knows this text. -/
def demoReaders : Http.Readers where
  uuid := hexText
  json _ body := if body = demoText then .ok () else .error .jsonSyntaxError

def demoBytes (v : Json) : List UInt8 :=
  if (ChromaQueryRequest.deserialize demoFloatText v).isSome then demoText else []

theorem demo_reads (v : Json) : demoReaders.json .queryRecordsChroma (demoBytes v) = .ok () ↔
    (ChromaQueryRequest.deserialize demoFloatText v).isSome = true := by
  have hjson : ∀ body, demoReaders.json .queryRecordsChroma body
      = if body = demoText then .ok () else .error .jsonSyntaxError := fun _ => rfl
  rw [demoBytes, hjson]
  split
  · rename_i hsome
    exact iff_of_true (if_pos rfl) hsome
  · rename_i hnone
    refine iff_of_false ?_ hnone
    rw [if_neg (by decide)]
    rintro ⟨⟩

def demoLink : Link demoFloatText where
  listener := .publicRouter
  nodeKey := some [107]
  apiKey := some [107]
  bytes := demoBytes
  readers := demoReaders
  reads_query := demo_reads

/-- Equal vectors are at distance `0.0`, all others at `1.0`. -/
def demoSite : Site where
  text := hexText
  kernels := exactKernels fun _ q v => if q = v then ⟨0⟩ else ⟨0x3F800000⟩
  message _ := "error"

/-- The collection of `demoConfig` with two records. -/
def filledEngine : Server.Engine :=
  match addRecordsChroma hexText true tenant database "demo"
      ⟨["a", "b"], [one, zero], some [some (AList.singleton "year" (.int 2024)), none],
        some [some "first", some "second"]⟩ demoEngine with
  | .ok _ e => e
  | .error _ e => e

/-- A server that answers reads from one engine and refuses everything else. -/
def readOnly (n : Site) (e : Server.Engine) : Unit → ApiCall → HttpReply × Unit
  | _, .listCollections => (listReply demoFloatText e, ())
  | _, .query name req => (demoLink.queryReply n e name req, ())
  | _, .get name req => (getReply demoFloatText n e name req, ())
  | _, .count name => (countReply n e name, ())
  | _, _ => (⟨503, none⟩, ())

def demoSetting : Setting Unit where
  primitives := demoPrimitives
  printers := demoPrinters
  floats := demoFloatText
  statusText _ := "status"
  server := readOnly demoSite filledEngine

end Demo

/-! ## Without a vector -/

/-- **Without a vector nothing is shown.** Whatever the server holds, a count is an
error, and the answer to a plain `SELECT` is the empty set or an error. -/
theorem shows_nothing (S : Setting σ) (n : Site)
    (hserver : ∀ st (call : ApiCall), call.IsPlain →
      ∃ e, Replied S.floats n e call (S.server st call).1) (r : ReplState) (st : σ)
    (collection : String) (hname : Http.IsPlain (r.target collection)) :
    (∃ message, (executeQuery S r st (.count collection)).result = .error message) ∧
    ∀ fields whereFilter limit vertical,
      let shown := executeQuery S r st (.select collection fields none whereFilter limit vertical)
      shown.result = .ok emptySet ∨ ∃ message, shown.result = .error message := by
  constructor
  · obtain ⟨e, hreply⟩ := hserver st (.count (r.target collection)) hname
    obtain ⟨message, hcount⟩ := count_never_read S.floats hreply
    rw [executeQuery, hcount]
    exact ⟨message, rfl⟩
  · intro fields whereFilter limit vertical
    obtain ⟨e, hreply⟩ := hserver st (.get (r.target collection) (plainRequest whereFilter)) hname
    dsimp only
    rw [executeQuery]
    cases hg : RekhaClient.get S.floats
        (S.server st (.get (r.target collection) (plainRequest whereFilter))).1 with
    | error message => exact .inr ⟨message, rfl⟩
    | ok g =>
        dsimp only
        rw [if_pos (get_reads_nothing S.floats hreply hg)]
        exact .inl rfl

/-- The collection holds two records, and neither is shown or counted. -/
theorem shows_nothing_demo :
    (∃ message, (executeQuery demoSetting (.new none) () (.count "demo")).result
      = .error message) ∧
    (executeQuery demoSetting (.new none) () (.select "demo" ["*"] none none none false)).result
      = .ok emptySet := by
  have hdemo : Http.IsPlain "demo" := Http.isPlain_of_all (by decide) (by decide +kernel)
  have hserver : ∀ st (call : ApiCall), call.IsPlain →
      ∃ e, Replied demoSetting.floats demoSite e call (demoSetting.server st call).1 := by
    intro st call hcall
    refine ⟨filledEngine, ?_⟩
    cases call with
    | listCollections => exact .listCollections
    | createCollection name => exact .refused _ 503
    | query name req => exact Link.replied hcall
    | get name req => exact .get name req
    | count name => exact .count name
    | deleteCollection name => exact .refused _ 503
  obtain ⟨hcount, hselect⟩ := shows_nothing demoSetting demoSite hserver (.new none) () "demo" hdemo
  refine ⟨hcount, (hselect ["*"] none none false).resolve_right ?_⟩
  rintro ⟨message, herror⟩
  cases herror

end Rekha.Repl
