import Mathlib.Data.List.Sort
import Rekha.Engine.Postings
import Rekha.Engine.Segment
import Rekha.Index.Usearch
import Rekha.Lib.Outcome
import Rekha.Wal.Log

/-!
# One collection

The state of one collection and the operations of the two-tier write pipeline:
writes go to the WAL, then to records, buffer and postings; flushes move the
buffer into the index; a checkpoint dumps the state to files and prunes the WAL.

What survives the process is carried along: the WAL file inside the handle, the
contents of the checkpoint directory (`dir`), and the collection's row of the
catalog. `disk` is their projection, and opening a collection starts from a
`Disk` only. File and catalog operations succeed unless a step is a modelled
failure. Counters (`seq`, offsets, rows, labels) are naturals.
-/

namespace Rekha

/-- A live record. `embedding` is `none` for a metadata-only record and for one
whose vector a checkpoint moved to a segment. -/
structure Record where
  id : Id
  embedding : Option Embedding
  metadata : Option Metadata
  document : Option Document
  seq : ℕ

/-- The state file `checkpoint.json`. -/
structure CheckpointMeta where
  flushedSeq : ℕ
  nextSeq : ℕ
  recordCount : ℕ

/-- Contents of `{id}.checkpoint/` as the collection writes them; a missing file is
`none`. -/
structure CheckpointDir where
  checkpointJson : Option CheckpointMeta := none
  recordsBin : Option (FinMap Id Record) := none
  indexBin : Option Graph := none
  indexMeta : Option IndexMeta := none
  segmentBin : Option Segment := none
  segmentIndexBin : Option (FinMap Id ℕ) := none

/-- The collection's row of the catalog, as far as the engine writes it. -/
structure CatalogRow where
  dimension : ℕ
  logOffset : ℕ

structure Disk where
  wal : WalFile
  dir : CheckpointDir
  catalog : CatalogRow

structure Collection where
  config : CollectionConfig
  wal : Wal
  records : FinMap Id Record
  buffer : List Record
  index : UsearchIndex
  flushedSeq : ℕ
  offsets : FinMap Id ℕ
  idByOffset : FinMap ℕ Id
  nextOffset : ℕ
  postings : Postings
  dir : CheckpointDir
  lastCheckpointSeq : ℕ
  segments : List Segment
  segmentIndex : FinMap Id ℕ
  catalog : CatalogRow

inductive EngineError where
  | wal (e : WalError)
  | index (e : IndexError)
  | collectionNotFound (id : Uuid)
  | validation (msg : String)
  | panicked (msg : String)

/-- A method on `&mut Collection`: a failure keeps what was already changed. -/
abbrev EngineM := EStateM EngineError Collection

structure HashOrder where
  iter : ∀ {ν : Type}, FinMap Id ν → List (Sigma fun _ : Id => ν)
  perm : ∀ {ν : Type} (m : FinMap Id ν), (iter m).Perm m.entries

/-- Lexicographic order of code points. -/
def lexLe : List ℕ → List ℕ → Bool
  | [], _ => true
  | _ :: _, [] => false
  | a :: l, b :: m => decide (a < b) || (decide (a = b) && lexLe l m)

/-- `Ord` of ids. -/
def idLe (a b : Id) : Bool := lexLe (a.toList.map Char.toNat) (b.toList.map Char.toNat)

namespace Collection

def disk (c : Collection) : Disk := ⟨c.wal.file, c.dir, c.catalog⟩

/-! ## Applying operations -/

def loadVector (c : Collection) (id : Id) : Option Embedding :=
  (c.segmentIndex.lookup id).bind fun offset =>
    c.segments.head?.bind fun s => s.getVector offset

/-- The internal offset for `id`, allocated on first use. -/
def offsetFor (c : Collection) (id : Id) : ℕ × Collection :=
  match c.offsets.lookup id with
  | some offset => (offset, c)
  | none =>
      (c.nextOffset, { c with
        nextOffset := c.nextOffset + 1
        offsets := c.offsets.insert id c.nextOffset
        idByOffset := c.idByOffset.insert c.nextOffset id })

/-- The `Add | Upsert` arm of `applyOperation`. -/
def applyPut (c : Collection) (id : Id) (embedding : Embedding)
    (metadata : Option Metadata) (document : Option Document) (seq : ℕ) : Collection :=
  let (offset, c) := c.offsetFor id
  let unindexed := match c.records.lookup id with
    | some old => c.postings.remove offset old.metadata
    | none => c.postings
  let record : Record := ⟨id, some embedding, metadata, document, seq⟩
  { c with
    postings := unindexed.insert offset metadata
    records := c.records.insert id record
    buffer := c.buffer.filter (fun r => decide (r.id ≠ id)) ++ [record] }

/-- The `Update` arm: an absent record is created without an embedding, and the
postings are touched only when the metadata changed. -/
def applyUpdate (c : Collection) (id : Id) (metadata : Option Metadata)
    (document : Option Document) (seq : ℕ) : Collection :=
  let old := (c.records.lookup id).getD ⟨id, none, none, none, seq⟩
  -- what the request leaves out is overwritten with nothing
  let record := { old with metadata := metadata, document := document, seq := seq }
  let c := { c with records := c.records.insert id record }
  if Metadata.optBeq old.metadata metadata then c
  else
    let (offset, c) := c.offsetFor id
    { c with postings := (c.postings.remove offset old.metadata).insert offset metadata }

/-- The `Delete` arm. -/
def applyDelete (c : Collection) (id : Id) : Collection :=
  let c := match c.offsets.lookup id with
    | none => c
    | some offset =>
        let unindexed := match c.records.lookup id with
          | some record => c.postings.remove offset record.metadata
          | none => c.postings
        { c with
          postings := unindexed.removeAll offset
          idByOffset := c.idByOffset.erase offset
          offsets := c.offsets.erase id }
  { c with
    records := c.records.erase id
    buffer := c.buffer.filter fun r => decide (r.id ≠ id)
    index := c.index.delete id }

/-- Apply one operation to records, buffer, postings and, on a delete, the index. -/
def applyOperation (c : Collection) (op : Operation) (seq : ℕ) : Collection :=
  match op with
  | .add id embedding metadata document | .upsert id embedding metadata document =>
      c.applyPut id embedding metadata document seq
  | .update id metadata document => c.applyUpdate id metadata document seq
  | .delete id => c.applyDelete id

def applyRecord (c : Collection) (r : WalRecord) : Collection := c.applyOperation r.op r.seq

/-- Append a whole batch to the WAL; a failure leaves the prefix it reached. -/
def appendOps : List Operation → EngineM (List WalRecord)
  | [] => pure []
  | op :: ops => do
      let c ← get
      match c.wal.append op with
      -- what was appended before stays in the log
      | .error e => throw (.wal e)
      | .ok (w, r) =>
          modify fun c => { c with wal := w }
          let rs ← appendOps ops
          pure (r :: rs)

/-- Commit a batch to the WAL first, then apply it to memory. -/
def writeOps (ops : List Operation) : EngineM Unit := do
  let appended ← appendOps ops
  modify fun c => appended.foldl applyRecord c

/-! ## Flushing and rebuilding the index -/

def indexAdd (id : Id) (embedding : Embedding) : EngineM Unit := fun c =>
  match c.index.add id embedding with
  | .ok _ x => .ok () { c with index := x }
  | .error e x => .error (.index e) { c with index := x }

/-- One buffered record enters the index; an id already there is deleted first. -/
def flushRecord (r : Record) (maxSeq : ℕ) : EngineM ℕ :=
  match r.embedding with
  | none => pure maxSeq
  | some embedding => do
      modify fun c =>
        if c.index.contains r.id then { c with index := c.index.delete r.id } else c
      indexAdd r.id embedding
      pure (max maxSeq r.seq)

def flushRecords : List Record → ℕ → EngineM ℕ
  | [], maxSeq => pure maxSeq
  | r :: batch, maxSeq => do
      let maxSeq ← flushRecord r maxSeq
      flushRecords batch maxSeq

def flushBuffer : EngineM Unit := do
  let c ← get
  modify fun c => { c with buffer := [] }
  let maxSeq ← flushRecords c.buffer 0
  modify fun c => { c with flushedSeq := max c.flushedSeq maxSeq }

def flushIfNeeded : EngineM Unit := do
  let c ← get
  if c.config.hnsw.batchSize ≤ c.buffer.length then flushBuffer else pure ()

def indexAddAll : List (Id × Embedding) → EngineM Unit
  | [] => pure ()
  | (id, embedding) :: rest => do
      indexAdd id embedding
      indexAddAll rest

/-- The vectors `vector` finds for the live records, sorted by id. -/
def sortedVectors (records : FinMap Id Record) (vector : Id → Record → Option Embedding) :
    List (Id × Embedding) :=
  (records.entries.filterMap fun e =>
    (vector e.1 e.2).map fun v => (e.1, v)).insertionSort fun a b => idLe a.1 b.1 = true

/-- The vectors a rebuild inserts: a segment's copy first, then the record's own. -/
def rebuildVectors (c : Collection) : List (Id × Embedding) :=
  sortedVectors c.records fun id r => (c.loadVector id).or r.embedding

def rebuildIndex : EngineM Unit := do
  modify fun c => { c with index := UsearchIndex.withHnsw c.config.space c.config.dimension }
  let c ← get
  indexAddAll c.rebuildVectors

/-! ## Checkpointing -/

end Collection

/-- The atomic durable steps a checkpoint takes. -/
inductive DurableStep where
  | replaceRecords (records : FinMap Id Record)
  | replaceIndexBin (inner : Graph)
  | replaceIndexMeta (m : IndexMeta)
  | removeIndexBin
  | removeIndexMeta
  | replaceCheckpointJson (m : CheckpointMeta)
  | replaceSegment (s : Segment)
  | replaceSegmentIndex (idx : FinMap Id ℕ)
  | removeSegments
  | removeSegmentIndex
  | advanceLogOffset (offset : ℕ)
  | pruneWal (keepFrom : ℕ)

/-- Effect of a step on the files and the catalog row; the catalog offset only
moves forward. -/
def DurableStep.apply (s : DurableStep) (d : Disk) : Disk :=
  match s with
  | .replaceRecords records => { d with dir := { d.dir with recordsBin := some records } }
  | .replaceIndexBin inner => { d with dir := { d.dir with indexBin := some inner } }
  | .replaceIndexMeta m => { d with dir := { d.dir with indexMeta := some m } }
  | .removeIndexBin => { d with dir := { d.dir with indexBin := none } }
  | .removeIndexMeta => { d with dir := { d.dir with indexMeta := none } }
  | .replaceCheckpointJson m => { d with dir := { d.dir with checkpointJson := some m } }
  | .replaceSegment s => { d with dir := { d.dir with segmentBin := some s } }
  | .replaceSegmentIndex idx => { d with dir := { d.dir with segmentIndexBin := some idx } }
  | .removeSegments => { d with dir := { d.dir with segmentBin := none } }
  | .removeSegmentIndex => { d with dir := { d.dir with segmentIndexBin := none } }
  | .advanceLogOffset offset =>
      { d with catalog := { d.catalog with logOffset := max d.catalog.logOffset offset } }
  | .pruneWal keepFrom => { d with wal := d.wal.keepAbove keepFrom }

namespace Collection

/-- Perform a durable step on the checkpoint directory or the catalog row. -/
def durably (s : DurableStep) : EngineM Unit := modify fun c =>
  { c with dir := (s.apply c.disk).dir, catalog := (s.apply c.disk).catalog }

def checkpointMeta (c : Collection) : CheckpointMeta :=
  ⟨c.flushedSeq, c.wal.lastSeq + 1, c.records.size⟩

/-- The records that carry an embedding in memory, sorted by id. -/
def segmentEntries (c : Collection) : List (Id × Embedding) :=
  sortedVectors c.records fun _ r => r.embedding

/-- Drop the embedding of every record with seq up to `flushedSeq`. -/
def stripRecords (flushedSeq : ℕ) (records : FinMap Id Record) : FinMap Id Record :=
  records.mapVals fun _ r =>
    if r.seq ≤ flushedSeq then { r with embedding := none } else r

/-- Persist the vectors to the segment file and map it. -/
def writeSegment : EngineM Unit := do
  let c ← get
  match c.segmentEntries with
  | [] =>
      -- no record has a vector: the files of an older checkpoint must not stay
      durably .removeSegments
      durably .removeSegmentIndex
      modify fun c => { c with segments := [], segmentIndex := ∅ }
  | entries =>
      match writeRows (SegmentWriter.new c.config.dimension) ∅ entries with
      | none => throw (.panicked "dimension mismatch")
      | some (w, idx) =>
          durably (.replaceSegment w.write)
          durably (.replaceSegmentIndex idx)
          modify fun c => { c with segments := [w.write], segmentIndex := idx }

/-- Dump the index, or remove the files of an older dump. -/
def saveIndex : EngineM Unit := do
  let c ← get
  if c.index.len ≠ 0 then
    durably (.replaceIndexBin c.index.inner)
    durably (.replaceIndexMeta c.index.savedMeta)
  else
    durably .removeIndexBin
    durably .removeIndexMeta

/-- Persist records, index and vectors, then prune the WAL to the tail above
`flushedSeq`. A no-op without live records. -/
def checkpoint : EngineM Unit := do
  let c ← get
  if c.records.size = 0 then pure ()
  else
    let m := c.checkpointMeta
    durably (.replaceRecords c.records)
    saveIndex
    -- until here checkpoint.json counts the records of the snapshot before
    durably (.replaceCheckpointJson m)
    writeSegment
    modify fun c => { c with records := stripRecords m.flushedSeq c.records }
    durably (.advanceLogOffset m.flushedSeq)
    modify fun c => { c with wal := c.wal.prune m.flushedSeq }
    -- a fully pruned log resumes where the checkpoint left off
    modify fun c => { c with wal := Wal.openFile c.wal.file (some m.nextSeq) }
    modify fun c => { c with lastCheckpointSeq := m.flushedSeq }

structure OptimizeStats where
  records : ℕ
  indexed : ℕ
  walBytesBefore : ℕ
  walBytesAfter : ℕ

/-- Flush everything, rebuild the index, checkpoint. -/
def optimize : EngineM OptimizeStats := do
  let c₀ ← get
  flushBuffer
  let c₁ ← get
  rebuildIndex
  checkpoint
  let c₂ ← get
  pure ⟨c₀.records.size, c₁.index.len, c₁.wal.sizeBytes, c₂.wal.sizeBytes⟩

/-- Checkpoint once the WAL has grown `syncThreshold` records past the last
checkpoint watermark. -/
def autoCheckpoint : EngineM Unit := do
  let c ← get
  if c.records.size = 0 then pure ()
  else if c.config.hnsw.syncThreshold ≤ c.wal.lastSeq - c.lastCheckpointSeq then checkpoint
  else pure ()

/-! ## Opening -/

/-- Fresh in-memory state over the files: the WAL is open, the index empty. -/
def new (config : CollectionConfig) (d : Disk) : Collection where
  config := config
  wal := Wal.openFile d.wal none
  records := ∅
  buffer := []
  index := UsearchIndex.withHnsw config.space config.dimension
  flushedSeq := 0
  offsets := ∅
  idByOffset := ∅
  nextOffset := 0
  postings := Postings.new
  dir := d.dir
  lastCheckpointSeq := 0
  segments := []
  segmentIndex := ∅
  catalog := d.catalog

/-- One iteration of the loop that re-derives offsets and postings. -/
def restoreOffset (c : Collection) (e : Sigma fun _ : Id => Record) : Collection :=
  { c with
    offsets := c.offsets.insert e.1 c.nextOffset
    idByOffset := c.idByOffset.insert c.nextOffset e.1
    postings := c.postings.insert c.nextOffset e.2.metadata
    nextOffset := c.nextOffset + 1 }

/-- The snapshot files, if they are usable: both present and of equal count. -/
def snapshotFiles (dir : CheckpointDir) : Option (CheckpointMeta × FinMap Id Record) :=
  match dir.checkpointJson, dir.recordsBin with
  | some m, some records => if records.size = m.recordCount then some (m, records) else none
  | _, _ => none

/-- Restore from the checkpoint directory; `none` sends the caller to a full
replay. -/
def loadCheckpoint (order : HashOrder) (c : Collection) : Option Collection :=
  match snapshotFiles c.dir with
  | none => none
  | some (m, records) =>
      let c := (order.iter records).foldl restoreOffset { c with
        records := records
        offsets := ∅
        idByOffset := ∅
        nextOffset := 0
        postings := Postings.new }
      -- a missing or corrupt index degrades to an empty one
      let index := match UsearchIndex.load c.dir.indexBin c.dir.indexMeta
          c.config.space c.config.dimension with
        | .ok x => x
        | .error _ => c.index
      let segments := c.dir.segmentBin.toList
      let segmentIndex := c.dir.segmentIndexBin.getD c.segmentIndex
      some { c with
        flushedSeq := m.flushedSeq
        lastCheckpointSeq := m.flushedSeq
        index := index
        segments := segments
        segmentIndex := segmentIndex
        -- what a segment holds is not kept in memory as well
        records := if segments.isEmpty then c.records
          else stripRecords m.flushedSeq c.records
        wal := Wal.openFile c.wal.file (some m.nextSeq) }

/-- Replay the WAL records above `flushedSeq`. -/
def replayAfter (flushedSeq : ℕ) (c : Collection) : Collection :=
  if flushedSeq < c.wal.lastSeq then
    (c.wal.readRange (flushedSeq + 1) c.wal.lastSeq).foldl applyRecord c
  else c

/-- The state of an opening collection before the flush policy is applied. -/
def restored (config : CollectionConfig) (d : Disk) (order : HashOrder) : Collection :=
  match loadCheckpoint order (new config d) with
  | some c => c.replayAfter c.flushedSeq
  | none => (new config d).replayAfter 0

def openDisk (config : CollectionConfig) (d : Disk) (order : HashOrder) :
    Except EngineError Collection :=
  match flushIfNeeded (restored config d order) with
  | .ok _ c => .ok c
  | .error e _ => .error e

/-- Reopen after the process ended: the configuration comes from the catalog. -/
def reopen (config : CollectionConfig) (d : Disk) (order : HashOrder) :
    Except EngineError Collection :=
  openDisk { config with dimension := d.catalog.dimension } d order

/-- The files of a collection that was just created. -/
def freshDisk (config : CollectionConfig) : Disk :=
  ⟨WalFile.empty, {}, ⟨config.dimension, 0⟩⟩

/-- A collection that was just created. -/
def fresh (config : CollectionConfig) : Collection := new config (freshDisk config)

/-! ## Validation -/

def checkSliceLengths {α : Type} (op : String) (ids : List Id) (opt : Option (List α))
    (what : String) : Except EngineError Unit :=
  match opt with
  | none => .ok ()
  | some slice =>
      if slice.length ≠ ids.length then
        .error (.validation s!"{op}: {ids.length} ids but {slice.length} {what}")
      else .ok ()

/-- Dimension `0` is unset: nothing is checked. -/
def checkDimensions (op : String) (embeddings : List Embedding) (dimension : ℕ) :
    Except EngineError Unit :=
  if dimension = 0 then .ok ()
  else match embeddings.find? fun e => decide (e.length ≠ dimension) with
    | some e => .error (.validation
        s!"{op}: embedding dimension {e.length} != collection dimension {dimension}")
    | none => .ok ()

/-- No id is live already and none repeats within the batch. -/
def checkNewIds (records : FinMap Id Record) : List Id → List Id → Except EngineError Unit
  | _, [] => .ok ()
  | seen, id :: ids =>
      if (records.lookup id).isSome then
        .error (.validation s!"add: id `{id}` already exists")
      else if id ∈ seen then
        .error (.validation s!"add: duplicate id `{id}` within the batch")
      else checkNewIds records (id :: seen) ids

/-- The checks `validate_add` and `validate_upsert` share. -/
def checkCounts (op : String) (c : Collection) (ids : List Id) (embeddings : List Embedding)
    (metadatas : Option (List (Option Metadata)))
    (documents : Option (List (Option Document))) : Except EngineError Unit := do
  if ids.length ≠ embeddings.length then
    throw (.validation s!"{op}: {ids.length} ids but {embeddings.length} embeddings")
  checkSliceLengths op ids metadatas "metadatas"
  checkSliceLengths op ids documents "documents"
  checkDimensions op embeddings c.config.dimension

def validateAdd (c : Collection) (ids : List Id) (embeddings : List Embedding)
    (metadatas : Option (List (Option Metadata)))
    (documents : Option (List (Option Document))) : Except EngineError Unit := do
  checkCounts "add" c ids embeddings metadatas documents
  checkNewIds c.records [] ids

def validateUpsert (c : Collection) (ids : List Id) (embeddings : List Embedding)
    (metadatas : Option (List (Option Metadata)))
    (documents : Option (List (Option Document))) : Except EngineError Unit :=
  checkCounts "upsert" c ids embeddings metadatas documents

def checkKnownIds (records : FinMap Id Record) : List Id → Except EngineError Unit
  | [] => .ok ()
  | id :: ids =>
      if (records.lookup id).isSome then checkKnownIds records ids
      else .error (.validation s!"update: id `{id}` not found")

def validateUpdate (c : Collection) (ids : List Id)
    (metadatas : Option (List (Option Metadata)))
    (documents : Option (List (Option Document))) : Except EngineError Unit := do
  checkSliceLengths "update" ids metadatas "metadatas"
  checkSliceLengths "update" ids documents "documents"
  checkKnownIds c.records ids

/-! ## Reading -/

/-- A record as `get` returns it: a segment's copy of the vector first. -/
def get (c : Collection) (id : Id) : Option Record :=
  (c.records.lookup id).map fun r =>
    { r with embedding := (c.loadVector id).or r.embedding }

def count (c : Collection) : ℕ := c.records.size

end Collection

end Rekha
