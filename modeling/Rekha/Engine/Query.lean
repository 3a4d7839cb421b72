import Mathlib.Data.Finset.Card
import Mathlib.Data.Finset.Lattice.Fold
import Mathlib.Order.Lattice.Nat
import Rekha.Engine.Collection

/-!
# Queries

The read path: the exact scan, the merge of index hits with the buffer, and the
filtered query with its planner. What is not decided by the engine is collected
in `Kernels`: the distance function on floats, the graph walk of the index, the
iteration order of a hash map, and what `sort_by` does with incomparable
distances.
-/

namespace Rekha

/-- One query result; lower distance is closer. -/
structure ScoredPoint where
  id : Id
  distance : F32
  metadata : Option Metadata
  document : Option Document

structure QueryOptions where
  ef : ℕ := 0
  whereFilter : Option WhereFilter := none
  oversampling : ℕ := 4

structure Kernels where
  distance : Distance → Embedding → Embedding → F32
  find : GraphSearch
  order : HashOrder
  /-- `sort_by` under a comparator that is not a total order: some permutation. -/
  unordered : List ScoredPoint → List ScoredPoint
  unordered_perm : ∀ l, (unordered l).Perm l

/-- Members of a bitmap in ascending order. -/
def ascending (s : Finset ℕ) : List ℕ := (List.range (s.sup id + 1)).filter (· ∈ s)

/-- `sort_by(partial_cmp.unwrap_or(Equal))`: a stable sort as long as no distance
is NaN. -/
def sortByDistance (K : Kernels) (out : List ScoredPoint) : List ScoredPoint :=
  if out.any fun p => p.distance.isNaN then K.unordered out
  else out.insertionSort fun a b => a.distance.le b.distance = true

namespace Collection

/-- Exact scan over every live record that has an embedding. -/
def bruteForce (K : Kernels) (c : Collection) (query : Embedding) (space : Distance) :
    List ScoredPoint :=
  (K.order.iter c.records).filterMap fun e =>
    ((c.loadVector e.1).or e.2.embedding).map fun v =>
      ⟨e.1, K.distance space query v, e.2.metadata, e.2.document⟩

/-- `entry(id).or_insert(d)`. -/
def orInsert (dist : FinMap Id F32) (id : Id) (d : F32) : FinMap Id F32 :=
  if (dist.lookup id).isSome then dist else dist.insert id d

/-- Map an `(id, distance)` map into scored points with live payload. -/
def buildScored (K : Kernels) (c : Collection) (dist : FinMap Id F32) : List ScoredPoint :=
  (K.order.iter dist).map fun e =>
    ⟨e.1, e.2, (c.records.lookup e.1).bind Record.metadata,
      (c.records.lookup e.1).bind Record.document⟩

/-- The loop over the index hits that keeps the first distance of an id. -/
def insertHits (keep : Id → Bool) (dist : FinMap Id F32) (hits : List IndexHit) :
    FinMap Id F32 :=
  hits.foldl (fun dist hit => if keep hit.id then orInsert dist hit.id hit.distance else dist)
    dist

/-- The loop over the buffer that overrides the distance of an id. -/
def insertBuffer (K : Kernels) (keep : Record → Bool) (query : Embedding) (space : Distance)
    (dist : FinMap Id F32) (buffer : List Record) : FinMap Id F32 :=
  buffer.foldl (fun dist r =>
    match r.embedding with
    | some v => if keep r then dist.insert r.id (K.distance space query v) else dist
    | none => dist) dist

/-- Index hits plus a scan of the buffer, merged by id; the buffer wins. -/
def hybridSearch (K : Kernels) (c : Collection) (query : Embedding) (k ef : ℕ)
    (space : Distance) : Except EngineError (List ScoredPoint) :=
  match c.index.search K.find query k ef with
  | .error e => .error (.index e)
  | .ok hits =>
      .ok (buildScored K c
        (insertBuffer K (fun _ => true) query space (insertHits (fun _ => true) ∅ hits)
          c.buffer))

/-- The exact path: every candidate's in-memory embedding. -/
def insertCandidates (K : Kernels) (c : Collection) (query : Embedding) (space : Distance)
    (dist : FinMap Id F32) (offsets : List ℕ) : FinMap Id F32 :=
  offsets.foldl (fun dist offset =>
    match c.idByOffset.lookup offset with
    | none => dist
    | some id =>
        match c.records.lookup id with
        | none => dist
        | some record =>
            match record.embedding with
            -- a vector that only the segment holds is passed over
            | none => dist
            | some v => orInsert dist record.id (K.distance space query v)) dist

/-- Whether the offset of `id` is a candidate. -/
def isCandidate (c : Collection) (candidates : Finset ℕ) (id : Id) : Bool :=
  (c.offsets.lookup id).any fun offset => decide (offset ∈ candidates)

/-- Largest `usize`. -/
def usizeMax : ℕ := 2 ^ 64 - 1

/-- Metadata-filtered query: eligible buffer records, then either the exact scan
of the candidates or the over-fetched graph walk. -/
def filteredQuery (K : Kernels) (c : Collection) (query : Embedding) (k ef : ℕ)
    (space : Distance) (filter : WhereFilter) (oversampling : ℕ) :
    Except EngineError (List ScoredPoint) :=
  let dist := insertBuffer K (fun r => filterMatchesOpt filter r.metadata) query space ∅
    c.buffer
  let candidates := c.postings.evaluate filter
  if candidates.card ≤ c.config.hnsw.maxScan then
    .ok (buildScored K c (insertCandidates K c query space dist (ascending candidates)))
  else
    -- `saturating_mul`
    let fetch := min (k * max oversampling 1) usizeMax
    match c.index.search K.find query fetch ef with
    | .error e => .error (.index e)
    | .ok hits => .ok (buildScored K c (insertHits (c.isCandidate candidates) dist hits))

/-- Run a query: plan, score, sort ascending by distance, truncate to top-k. -/
def query (K : Kernels) (c : Collection) (query : Embedding) (k : ℕ)
    (options : QueryOptions) : Except EngineError (List ScoredPoint) :=
  if c.config.dimension ≠ 0 ∧ query.length ≠ c.config.dimension then
    .error (.validation
      s!"query: embedding dimension {query.length} != collection dimension {c.config.dimension}")
  else
    let k := max k 1
    let ef := if options.ef = 0 then c.config.hnsw.efSearch else options.ef
    let space := c.config.space
    let out : Except EngineError (List ScoredPoint) := match options.whereFilter with
      | none =>
          -- the planner counts the vectors it knows of, not the live records
          if c.index.len + c.buffer.length ≤ c.config.hnsw.maxScan then
            .ok (bruteForce K c query space)
          else hybridSearch K c query k ef space
      | some filter => filteredQuery K c query k ef space filter options.oversampling
    match out with
    | .error e => .error e
    | .ok out => .ok ((sortByDistance K out).take k)

end Collection

/-- A graph walk that looks at every vector and returns the `k` nearest. -/
def exactFind (distance : Distance → Embedding → Embedding → F32) : GraphSearch :=
  fun space inner query k _ =>
    .ok (((inner.entries.map fun e => (e.1, distance space query e.2)).insertionSort
      fun a b => a.2.le b.2 = true).take k)

def exactKernels (distance : Distance → Embedding → Embedding → F32) : Kernels where
  distance := distance
  find := exactFind distance
  order := ⟨fun m => m.entries, fun _ => List.Perm.refl _⟩
  unordered := id
  unordered_perm := fun _ => List.Perm.refl _

end Rekha
