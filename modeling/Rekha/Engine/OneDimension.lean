import Rekha.Engine.SequenceIds
import Rekha.Engine.WalGrowth

/-!
# One dimension per collection

A collection without a dimension takes it from its first put and tries to store
it in the catalog; if that fails, the log is said to bring it back. It does not:
a restart reads the catalog only, and over a disk that still holds vectors the
dimension is unset again. As long as no restart forgets it in this way, every
vector a run of calls can bring up (in memory, buffered, mapped from a segment or
on the disk) has the collection's dimension, whether the calls succeed or fail
(`Attempts.uniform`), and no length assertion fires (`one_dimension`).
-/

namespace Rekha

open Collection Outcome LastWrite

/-! ## The runs -/

/-- The call ends in this state, whether it succeeds or fails. A restart that fails
leaves no collection. -/
def Call.EndsIn (a : Call) (c c' : Collection) : Prop :=
  match a with
  | .restart order => reopen c.config c.disk order = .ok c'
  | a => (∃ u, a.exec c = .ok u c') ∨ ∃ e, a.exec c = .error e c'

/-- States reached from a fresh collection by calls that may fail, each meeting `ok`
in the state before it. -/
inductive Attempts (ok : Call → Collection → Prop) (config : CollectionConfig) :
    Collection → Prop
  | fresh : Attempts ok config (Collection.fresh config)
  | call {c c' : Collection} (a : Call) : Attempts ok config c → ok a c → a.EndsIn c c' →
      Attempts ok config c'

theorem Call.endsIn_of_run {a : Call} {c c' : Collection} (h : a.run c = .ok c') :
    a.EndsIn c c' := by
  cases a with
  | restart order => exact h
  | optimize =>
      obtain ⟨s, hs⟩ := accepted_eq_ok.mp h
      exact Or.inl ⟨(), bind_ok.mpr ⟨s, c', hs, rfl⟩⟩
  | _ =>
      obtain ⟨u, hu⟩ := accepted_eq_ok.mp h
      exact Or.inl ⟨u, hu⟩

def Call.NonEmpty (a : Call) : Prop := ∀ e ∈ a.embeddings, e ≠ []

/-- The disk brings no vector up: none from the snapshot and the log above it, none
from a segment. -/
def Disk.HoldsNoVector (d : Disk) : Prop :=
  ∀ id, d.memVector id = none ∧ d.dir.savedVector id = none

/-- The call does not forget a dimension that is still needed: a restart finds it in
the catalog, or no vector on the disk. -/
def Call.KeepsDimension (a : Call) (c : Collection) : Prop :=
  ∀ order, a = .restart order →
    c.catalog.dimension = c.config.dimension ∨ c.disk.HoldsNoVector

/-! ## The property -/

namespace Collection

/-- The embedding `get` shows. -/
def embedding (c : Collection) (id : Id) : Option Embedding := (c.get id).bind Record.embedding

/-- The vectors a query hands to the distance kernel. -/
def compared (c : Collection) (filter : Option WhereFilter) : List Embedding :=
  match filter with
  | none =>
      if c.index.len + c.buffer.length ≤ c.config.hnsw.maxScan then
        c.records.entries.filterMap fun e => (c.loadVector e.1).or e.2.embedding
      else c.buffer.filterMap Record.embedding
  | some filter =>
      (c.buffer.filter fun r => filterMatchesOpt filter r.metadata).filterMap Record.embedding ++
        if (c.postings.evaluate filter).card ≤ c.config.hnsw.maxScan then
          (ascending (c.postings.evaluate filter)).filterMap fun offset =>
            ((c.idByOffset.lookup offset).bind c.records.lookup).bind Record.embedding
        else []

/-- **One dimension**, and no assertion about lengths fires. -/
structure OneDimension (c : Collection) : Prop where
  /-- All embeddings of live records have one length. -/
  same : ∀ id e id' e', c.embedding id = some e → c.embedding id' = some e' →
    e.length = e'.length
  /-- It is the dimension of the collection, once that is set. -/
  config : c.config.dimension ≠ 0 → ∀ id e, c.embedding id = some e →
    e.length = c.config.dimension
  /-- The segment writer takes every vector. -/
  checkpoint : ∀ msg c', Collection.checkpoint c ≠ .error (.panicked msg) c'
  /-- An accepted query compares vectors of its own length only. -/
  query : ∀ (q : Embedding) (options : QueryOptions),
    ¬ (c.config.dimension ≠ 0 ∧ q.length ≠ c.config.dimension) →
      ∀ v ∈ c.compared options.whereFilter, v.length = q.length

/-! ## Only these vectors are compared -/

section Compared

variable {K : Kernels} {distance : Distance → Embedding → Embedding → F32} {c : Collection}
  {q : Embedding}

theorem insertBuffer_congr {keep : Record → Bool} {space : Distance} {dist : FinMap Id F32}
    {buffer : List Record} (h : ∀ r ∈ buffer, keep r → ∀ v, r.embedding = some v →
      distance space q v = K.distance space q v) :
    insertBuffer { K with distance := distance } keep q space dist buffer =
      insertBuffer K keep q space dist buffer := by
  refine List.foldl_ext _ _ _ fun dist r hr => ?_
  cases he : r.embedding with
  | none => rfl
  | some v =>
      dsimp only
      split
      · rename_i hkeep
        rw [h r hr hkeep v he]
      · rfl

theorem insertCandidates_congr {space : Distance} {dist : FinMap Id F32} {offsets : List ℕ}
    (h : ∀ v ∈ offsets.filterMap fun offset =>
        ((c.idByOffset.lookup offset).bind c.records.lookup).bind Record.embedding,
      distance space q v = K.distance space q v) :
    insertCandidates { K with distance := distance } c q space dist offsets =
      insertCandidates K c q space dist offsets := by
  refine List.foldl_ext _ _ _ fun dist offset hoffset => ?_
  cases hid : c.idByOffset.lookup offset with
  | none => rfl
  | some id =>
      cases hr : c.records.lookup id with
      | none => simp only [hr]
      | some r =>
          cases he : r.embedding with
          | none => simp only [hr, he]
          | some v =>
              have hv := h v (List.mem_filterMap.mpr ⟨offset, hoffset, by
                rw [hid, Option.bind_some, hr, Option.bind_some, he]⟩)
              simp only [hr, he, hv]

theorem bruteForce_congr {space : Distance} (h : ∀ v ∈ c.records.entries.filterMap fun e =>
      (c.loadVector e.1).or e.2.embedding, distance space q v = K.distance space q v) :
    bruteForce { K with distance := distance } c q space = bruteForce K c q space := by
  apply List.filterMap_congr
  intro e he
  have hmem := (K.order.perm c.records).mem_iff.mp he
  cases hv : (c.loadVector e.1).or e.2.embedding with
  | none => rfl
  | some v =>
      simp only [Option.map_some, h v (List.mem_filterMap.mpr ⟨e, hmem, hv⟩)]

/-- **A query compares no other vectors**: it depends on the kernel's distances to the
compared ones only. -/
theorem query_compared {options : QueryOptions} (k : ℕ)
    (h : ∀ space, ∀ v ∈ c.compared options.whereFilter,
      distance space q v = K.distance space q v) :
    c.query { K with distance := distance } q k options = c.query K q k options := by
  have hbuffer : ∀ {keep : Record → Bool} {space : Distance} {dist : FinMap Id F32},
      (∀ v ∈ (c.buffer.filter keep).filterMap Record.embedding,
        distance space q v = K.distance space q v) →
      insertBuffer { K with distance := distance } keep q space dist c.buffer =
        insertBuffer K keep q space dist c.buffer := by
    intro keep space dist hall
    refine insertBuffer_congr fun r hr hkeep v he => hall v ?_
    exact List.mem_filterMap.mpr ⟨r, List.mem_filter.mpr ⟨hr, hkeep⟩, he⟩
  unfold query
  split
  · rfl
  · cases hfilter : options.whereFilter with
    | none =>
        rw [hfilter] at h
        unfold compared at h
        by_cases hscan : c.index.len + c.buffer.length ≤ c.config.hnsw.maxScan
        · simp only [if_pos hscan] at h ⊢
          rw [bruteForce_congr (h _)]
          rfl
        · simp only [if_neg hscan] at h ⊢
          unfold hybridSearch
          dsimp only
          cases c.index.search K.find q (max k 1)
              (if options.ef = 0 then c.config.hnsw.efSearch else options.ef) with
          | error e => rfl
          | ok hits =>
              dsimp only
              rw [hbuffer fun v hv => h _ v (by rwa [List.filter_true] at hv)]
              rfl
    | some F =>
        rw [hfilter] at h
        unfold compared at h
        simp only [List.forall_mem_append] at h
        have hscored := @hbuffer (fun r => filterMatchesOpt F r.metadata) c.config.space ∅
          (h _).1
        unfold filteredQuery
        by_cases hscan : (c.postings.evaluate F).card ≤ c.config.hnsw.maxScan
        · simp only [if_pos hscan] at h ⊢
          rw [hscored, insertCandidates_congr (h _).2]
          rfl
        · simp only [if_neg hscan]
          rw [hscored]
          rfl

end Compared

/-! ## Every vector of a collection -/

/-- Every vector the collection can bring up satisfies `V`: those in memory, in the
buffer and in the mapped segment, and those an opening of its disk would find. -/
structure AllVectors (V : Embedding → Prop) (c : Collection) : Prop where
  memory : ∀ id e, c.memVector id = some e → V e
  buffer : ∀ b ∈ c.buffer, ∀ e, b.embedding = some e → V e
  mapped : ∀ id e, c.loadVector id = some e → V e
  logged : ∀ id e, c.disk.memVector id = some e → V e
  saved : ∀ id e, c.dir.savedVector id = some e → V e
  watermark : c.dir.watermark ≤ c.flushedSeq

section AllVectors

variable {V V' : Embedding → Prop} {c c' : Collection}

theorem AllVectors.mono (h : AllVectors V c) (hV : ∀ e, V e → V' e) : AllVectors V' c where
  memory := fun id e he => hV e (h.memory id e he)
  buffer := fun b hb e he => hV e (h.buffer b hb e he)
  mapped := fun id e he => hV e (h.mapped id e he)
  logged := fun id e he => hV e (h.logged id e he)
  saved := fun id e he => hV e (h.saved id e he)
  watermark := h.watermark

theorem allVectors_fresh (config : CollectionConfig) : AllVectors V (Collection.fresh config) where
  memory := by
    intro id e he
    cases he
  buffer := fun b hb => absurd hb List.not_mem_nil
  mapped := by
    intro id e he
    cases he
  logged := by
    intro id e he
    cases he
  saved := by
    intro id e he
    cases he
  watermark := le_refl _

theorem AllVectors.embedding (h : AllVectors V c) {id : Id} {e : Embedding}
    (he : c.embedding id = some e) : V e := by
  obtain ⟨r, hget, hemb⟩ := Option.bind_eq_some_iff.mp he
  obtain ⟨r₀, hr, rfl⟩ := Option.map_eq_some_iff.mp hget
  rcases Option.or_eq_some_iff.mp hemb with hload | ⟨-, hmem⟩
  · exact h.mapped id e hload
  · refine h.memory id e ?_
    rw [memVector, hr]
    exact hmem

theorem AllVectors.compared (h : AllVectors V c) {filter : Option WhereFilter} {v : Embedding}
    (hv : v ∈ c.compared filter) : V v := by
  have hbuffer : ∀ {p : Record → Bool}, v ∈ (c.buffer.filter p).filterMap Record.embedding →
      V v := by
    intro p hmem
    obtain ⟨b, hb, hemb⟩ := List.mem_filterMap.mp hmem
    exact h.buffer b (List.mem_of_mem_filter hb) v hemb
  cases filter with
  | none =>
      unfold Collection.compared at hv
      dsimp only at hv
      split at hv
      · obtain ⟨⟨id, r⟩, hmem, hemb⟩ := List.mem_filterMap.mp hv
        have hembedding : c.embedding id = some v := by
          rw [Collection.embedding, get, FinMap.mem_entries_iff.mp hmem]
          exact hemb
        exact h.embedding hembedding
      · obtain ⟨b, hb, hemb⟩ := List.mem_filterMap.mp hv
        exact h.buffer b hb v hemb
  | some F =>
      rcases List.mem_append.mp hv with hv | hv
      · exact hbuffer hv
      · split at hv
        · obtain ⟨offset, -, hemb⟩ := List.mem_filterMap.mp hv
          obtain ⟨r, hr, hemb⟩ := Option.bind_eq_some_iff.mp hemb
          obtain ⟨id, -, hr⟩ := Option.bind_eq_some_iff.mp hr
          refine h.memory id v ?_
          rw [memVector, hr]
          exact hemb
        · exact absurd hv List.not_mem_nil

end AllVectors

/-! ## What keeps them -/

theorem vector_of_vectorWrite {r : WalRecord} {id : Id} {e : Embedding}
    (h : vectorWrite r id = some (some e)) : r.op.vector = some e := by
  rw [vectorWrite] at h
  split at h
  · cases hop : r.op with
    | add key e' md doc =>
        rw [hop] at h
        exact Option.some.inj h
    | upsert key e' md doc =>
        rw [hop] at h
        exact Option.some.inj h
    | update key md doc =>
        rw [hop] at h
        cases h
    | delete key =>
        rw [hop] at h
        cases h
  · cases h

theorem vector_of_lastWrite {rs : List WalRecord} {id : Id} {e : Embedding}
    (h : lastWrite (fun r => vectorWrite r id) rs = some (some e)) :
    ∃ r ∈ rs, r.op.vector = some e := by
  obtain ⟨r, hr, hw⟩ := exists_of_lastWrite h
  exact ⟨r, hr, vector_of_vectorWrite hw⟩

theorem lastWrite_filter_seq {ν : Type} {w : WalRecord → Option ν} {f : ℕ} {v : ν} :
    ∀ {rs : List WalRecord}, rs.Pairwise (fun a b => a.seq < b.seq) →
      lastWrite w (rs.filter fun r => decide (f < r.seq)) = some v → lastWrite w rs = some v
  | [], _, h => h
  | r :: rs, hinc, h => by
      obtain ⟨hlt, hinc⟩ := List.pairwise_cons.mp hinc
      by_cases hr : f < r.seq
      · have hall : (r :: rs).filter (fun r => decide (f < r.seq)) = r :: rs := by
          refine List.filter_eq_self.mpr fun b hb => decide_eq_true ?_
          rcases List.mem_cons.mp hb with rfl | hb
          · exact hr
          · exact hr.trans (hlt b hb)
        rwa [hall] at h
      · rw [List.filter_cons_of_neg (by simpa using hr)] at h
        rw [lastWrite_cons, lastWrite_filter_seq hinc h]
        rfl

section Preserved

variable {V : Embedding → Prop} {c c' : Collection}

theorem memVector_append {d d' : Disk} {rs : List WalRecord} {id : Id} {e : Embedding}
    (hdir : d'.dir = d.dir) (hrecs : d'.wal.records = d.wal.records ++ rs)
    (h : d'.memVector id = some e) :
    d.memVector id = some e ∨ ∃ r ∈ rs, r.op.vector = some e := by
  rw [Disk.memVector, Disk.replayed, hdir, hrecs, List.filter_append, lastWrite_append] at h
  cases hnew : lastWrite (fun r => vectorWrite r id)
      (rs.filter fun r => decide (d.dir.watermark < r.seq)) with
  | none =>
      rw [hnew, Option.none_or] at h
      exact Or.inl h
  | some v =>
      rw [hnew, Option.some_or, Option.getD_some] at h
      rw [h] at hnew
      obtain ⟨r, hr, hop⟩ := vector_of_lastWrite hnew
      exact Or.inr ⟨r, List.mem_of_mem_filter hr, hop⟩

theorem AllVectors.append (h : AllVectors V c) {w : Wal} {rs : List WalRecord}
    (hrecs : w.file.records = c.wal.file.records ++ rs)
    (hrs : ∀ r ∈ rs, ∀ e, r.op.vector = some e → V e) : AllVectors V { c with wal := w } := by
  refine ⟨h.memory, h.buffer, h.mapped, ?_, h.saved, h.watermark⟩
  intro id e he
  have hdir : { c with wal := w }.disk.dir = c.disk.dir := rfl
  rcases memVector_append hdir hrecs he with hold | ⟨r, hr, hop⟩
  · exact h.logged id e hold
  · exact hrs r hr e hop

theorem AllVectors.applyRecord (h : AllVectors V c) {r : WalRecord}
    (hr : ∀ e, r.op.vector = some e → V e) : AllVectors V (c.applyRecord r) := by
  have hset := c.applyOperation_settled r.op r.seq
  simp only [settled, Settled.mk.injEq] at hset
  obtain ⟨-, hwal, hdir, hcat, hflushed, -, hsegs, hidx⟩ := hset
  have hdisk : (c.applyRecord r).disk = c.disk := by
    rw [disk, disk, Collection.applyRecord, hwal, hdir, hcat]
  refine ⟨?_, ?_, ?_, ?_, ?_, ?_⟩
  · intro id e he
    rw [memVector_applyRecord] at he
    simp only [overwrite] at he
    cases hw : vectorWrite r id with
    | none =>
        rw [hw] at he
        exact h.memory id e he
    | some v =>
        rw [hw, Option.getD_some] at he
        rw [he] at hw
        exact hr e (vector_of_vectorWrite hw)
  · intro b hb e he
    rw [Collection.applyRecord, applyOperation_buffer] at hb
    rcases mem_bufferAfter hb with ⟨hold, -⟩ | ⟨-, -, hemb, -⟩
    · exact h.buffer b hold e he
    · exact hr e (hemb.symm.trans he)
  · intro id e he
    refine h.mapped id e ?_
    rw [Collection.applyRecord, loadVector, hsegs, hidx] at he
    exact he
  · rw [hdisk]
    exact h.logged
  · rw [Collection.applyRecord, hdir]
    exact h.saved
  · rw [Collection.applyRecord, hdir, hflushed]
    exact h.watermark

theorem AllVectors.replay (rs : List WalRecord) (h : AllVectors V c)
    (hrs : ∀ r ∈ rs, ∀ e, r.op.vector = some e → V e) :
    AllVectors V (rs.foldl Collection.applyRecord c) :=
  List.foldlRecOn rs _ h fun _ hc r hr => hc.applyRecord (hrs r hr)

theorem AllVectors.of_eq (h : AllVectors V c) (hrecords : c'.records = c.records)
    (hbuffer : ∀ b ∈ c'.buffer, b ∈ c.buffer) (hsegments : c'.segments = c.segments)
    (hsegmentIndex : c'.segmentIndex = c.segmentIndex) (hwal : c'.wal = c.wal)
    (hdir : c'.dir = c.dir) (hflushed : c.flushedSeq ≤ c'.flushedSeq) : AllVectors V c' := by
  refine ⟨?_, fun b hb => h.buffer b (hbuffer b hb), ?_, ?_, ?_, ?_⟩
  · intro id e he
    rw [memVector, hrecords] at he
    exact h.memory id e he
  · intro id e he
    rw [loadVector, hsegments, hsegmentIndex] at he
    exact h.mapped id e he
  · intro id e he
    rw [Disk.memVector, Disk.replayed, disk, hwal, hdir] at he
    exact h.logged id e he
  · rw [hdir]
    exact h.saved
  · rw [hdir]
    exact h.watermark.trans hflushed

/-- **A checkpoint** leaves the vectors in memory. -/
theorem AllVectors.checkpoint (h : AllVectors V c) (hc : Collection.checkpoint c = .ok () c') :
    AllVectors V c' := by
  rcases checkpoint_ok hc with ⟨-, rfl⟩ | ⟨-, files, hfiles, rfl⟩
  · exact h
  have hstripped : ∀ id e, ((stripRecords c.flushedSeq c.records).lookup id).bind
      Record.embedding = some e → V e :=
    fun id e he => h.memory id e (memVector_of_stripped he)
  have hbase : ∀ id e, ((c.checkpointFiles files).baseRecords.lookup id).bind
      Record.embedding = some e → V e := by
    intro id e he
    rw [baseRecords_checkpointFiles] at he
    split at he
    · exact h.memory id e he
    · exact hstripped id e he
  have hsnap : snapshotFiles (c.checkpointFiles files) = some (c.checkpointMeta, c.records) :=
    snapshotFiles_eq_some.mpr ⟨rfl, rfl, rfl⟩
  have hwatermark : (c.checkpointFiles files).watermark = c.flushedSeq := by
    rw [CheckpointDir.watermark, hsnap]
    rfl
  have hlog : (c.checkpointed files).disk.replayed =
      c.disk.replayed.filter fun r => decide (c.flushedSeq < r.seq) := by
    have hold : c.dir.watermark ≤ c.flushedSeq := h.watermark
    show (c.wal.file.records.filter fun r => decide (c.flushedSeq < r.seq)).filter
        (fun r => decide ((c.checkpointFiles files).watermark < r.seq)) =
      (c.wal.file.records.filter fun r => decide (c.dir.watermark < r.seq)).filter _
    rw [hwatermark, List.filter_filter, List.filter_filter]
    apply List.filter_congr
    intro r _
    rw [Bool.and_self, eq_comm, Bool.and_eq_left_iff_imp, decide_eq_true_eq, decide_eq_true_eq]
    exact hold.trans_lt
  refine ⟨hstripped, h.buffer, ?_, ?_, ?_, hwatermark.le⟩
  · intro id e he
    rw [loadVector_checkpointed hfiles] at he
    exact h.memory id e he
  · intro id e he
    rw [Disk.memVector, hlog] at he
    cases hw : lastWrite (fun r => vectorWrite r id)
        (c.disk.replayed.filter fun r => decide (c.flushedSeq < r.seq)) with
    | none =>
        rw [hw] at he
        exact hbase id e he
    | some v =>
        rw [hw, Option.getD_some] at he
        rw [he] at hw
        have hinc : c.disk.replayed.Pairwise fun a b => a.seq < b.seq :=
          c.wal.file.increasing.filter _
        refine h.logged id e ?_
        rw [Disk.memVector, lastWrite_filter_seq hinc hw]
        rfl
  · intro id e he
    refine h.memory id e ?_
    rw [← loadVector_checkpointed hfiles, ← he]
    show _ = (c.checkpointFiles files).savedVector id
    rw [CheckpointDir.savedVector, hsnap, loadVector]
    cases files <;> rfl

/-- **An opening** brings up what its disk holds. -/
theorem allVectors_restored {config : CollectionConfig} {d : Disk} {order : HashOrder}
    (hmem : ∀ id e, d.memVector id = some e → V e)
    (hsaved : ∀ id e, d.dir.savedVector id = some e → V e) :
    AllVectors V (restored config d order) := by
  have hset := foldl_applyRecord_settled d.replayed (based config d order)
  rw [← restored_eq_foldl] at hset
  simp only [settled, Settled.mk.injEq] at hset
  obtain ⟨-, hwal, -, -, hflushed, -, -, -⟩ := hset
  have hdir := dir_restored config d order
  refine ⟨?_, ?_, ?_, ?_, ?_, ?_⟩
  · intro id e he
    exact hmem id e ((memVector_restored id).symm.trans he)
  · intro b hb e he
    rw [restored_eq_foldl, foldl_applyRecord_buffer, based_buffer] at hb
    obtain ⟨-, hw⟩ := vector_bufferOf hb
    refine hmem b.id e ?_
    rw [Disk.memVector, hw, Option.getD_some, he]
  · intro id e he
    rw [restored_eq_foldl, foldl_applyRecord_loadVector, based_loadVector] at he
    exact hsaved id e he
  · intro id e he
    refine hmem id e ?_
    rw [Disk.memVector, Disk.replayed, disk, hdir, hwal] at he
    dsimp only at he
    rw [based_log] at he
    exact he
  · rw [hdir]
    exact hsaved
  · rw [hdir, hflushed, based_watermark]

end Preserved

/-! ## The calls -/

/-- A vector of dimension `dim`, of a length a segment can state. -/
def HasDimension (dim : ℕ) (e : Embedding) : Prop := e.length = dim ∧ e ≠ [] ∧ e.length < 2 ^ 32

/-- Every vector has the dimension of the collection, and the catalog has that
dimension or none. A dimension given at the creation stays. -/
structure UniformAt (created dim : ℕ) (c : Collection) : Prop where
  config : c.config.dimension = dim
  catalog : c.catalog.dimension = 0 ∨ c.catalog.dimension = dim
  created : created ≠ 0 → dim = created ∧ c.catalog.dimension = created
  vectors : AllVectors (HasDimension dim) c

theorem length_lt_of_recordLen {op : Operation} {e : Embedding} (he : op.vector = some e)
    (hlen : op.recordLen ≤ 2 ^ 32 - 1) : e.length < 2 ^ 32 := by
  cases op with
  | add id e' md doc =>
      obtain rfl := Option.some.inj he
      simp only [Operation.recordLen, Operation.encodedLen] at hlen
      omega
  | upsert id e' md doc =>
      obtain rfl := Option.some.inj he
      simp only [Operation.recordLen, Operation.encodedLen] at hlen
      omega
  | update id md doc => cases he
  | delete id => cases he

section Uniform

variable {created dim : ℕ} {c c' : Collection}

theorem UniformAt.with_vectors (h : UniformAt created dim c) (hconfig : c'.config = c.config)
    (hcatalog : c'.catalog.dimension = c.catalog.dimension)
    (hvectors : AllVectors (HasDimension dim) c') : UniformAt created dim c' := by
  refine ⟨?_, ?_, ?_, hvectors⟩
  · rw [hconfig]
    exact h.config
  · rw [hcatalog]
    exact h.catalog
  · rw [hcatalog]
    exact h.created

theorem UniformAt.index (c : Collection) (x : UsearchIndex) (h : UniformAt created dim c) :
    UniformAt created dim { c with index := x } :=
  h.with_vectors rfl rfl (h.vectors.of_eq rfl (fun _ hb => hb) rfl rfl rfl rfl (le_refl _))

/-- A method that leaves uniform collections uniform, whether or not it fails. -/
abbrev EndsUniform {α : Type} (created dim : ℕ) (x : EngineM α) : Prop :=
  Ends (UniformAt created dim) x (UniformAt created dim) (UniformAt created dim)

theorem keepsUniform_flushBuffer :
    Keeps (UniformAt created dim) (fun _ => True) flushBuffer := by
  refine keeps_flushBuffer (fun c x _ h => h.index c x) ?_ ?_ fun _ _ _ _ => trivial
  · intro c' h
    exact h.with_vectors rfl rfl (h.vectors.of_eq rfl
      (fun _ hb => absurd hb List.not_mem_nil) rfl rfl rfl rfl (le_refl _))
  · intro c' m h
    exact h.with_vectors rfl rfl
      (h.vectors.of_eq rfl (fun _ hb => hb) rfl rfl rfl rfl (le_max_left _ _))

theorem endsUniform_flushBuffer : EndsUniform created dim flushBuffer :=
  keepsUniform_flushBuffer.ends

theorem endsUniform_flushIfNeeded : EndsUniform created dim flushIfNeeded :=
  (keeps_flushIfNeeded keepsUniform_flushBuffer).ends

theorem endsUniform_rebuildIndex : EndsUniform created dim rebuildIndex :=
  Keeps.ends (keeps_rebuildIndex UniformAt.index fun _ => trivial)

/-- The vectors of a batch that validation let through. -/
def FitsUniform (dim : ℕ) (ops : List Operation) : Prop :=
  ∀ op ∈ ops, ∀ e, op.vector = some e → e.length = dim ∧ e ≠ []

theorem UniformAt.append {w : Wal} {r : WalRecord} {op : Operation}
    (h : UniformAt created dim c) (happ : c.wal.append op = .ok (w, r))
    (hop : ∀ e, op.vector = some e → e.length = dim ∧ e ≠ []) :
    UniformAt created dim { c with wal := w } := by
  have hfits := Wal.recordLen_of_append happ
  obtain ⟨rfl, hrecs, -⟩ := Wal.append_ok happ
  refine h.with_vectors rfl rfl (h.vectors.append hrecs ?_)
  intro r hr e he
  obtain rfl := List.mem_singleton.mp hr
  exact ⟨(hop e he).1, (hop e he).2, length_lt_of_recordLen he hfits⟩

theorem endsUniform_writeOps {ops : List Operation} (hops : FitsUniform dim ops) :
    EndsUniform created dim (writeOps ops) := by
  have happ : Keeps (UniformAt created dim) (fun _ => True) (appendOps ops) :=
    keeps_appendOps (fun _ => trivial) fun op hop _ _ _ h happ => h.append happ (hops op hop)
  refine (keeps_writeOps happ ?_).ends
  intro c w _ hfits hlogged
  have hset := foldl_applyRecord_settled (numbered c.wal.lastSeq ops) { c with wal := w }
  simp only [settled, Settled.mk.injEq] at hset
  obtain ⟨hconfig, -, -, hcatalog, -⟩ := hset
  refine hlogged.with_vectors hconfig (congrArg CatalogRow.dimension hcatalog)
    (hlogged.vectors.replay _ ?_)
  intro r hr e he
  have hop := op_mem_of_mem_numbered hr
  exact ⟨(hops _ hop e he).1, (hops _ hop e he).2, length_lt_of_recordLen he (hfits _ hop)⟩

theorem UniformAt.writerFits (h : UniformAt created dim c) : WriterFits c := by
  rintro ⟨id, e⟩ he
  have hmem : c.memVector id = some e := by
    rw [segmentEntries, mem_sortedVectors] at he
    rw [memVector, Option.bind_eq_some_iff]
    exact he
  obtain ⟨hlen, -, hlt⟩ := h.vectors.memory id e hmem
  show e.length = c.config.dimension % 2 ^ 32
  rw [h.config, ← hlen, Nat.mod_eq_of_lt hlt]

theorem endsUniform_checkpoint : EndsUniform created dim Collection.checkpoint := by
  intro c hc
  refine ⟨?_, ?_⟩
  · intro u c' hok
    refine hc.with_vectors ?_ ?_ (hc.vectors.checkpoint hok)
    · rcases checkpoint_ok hok with ⟨-, rfl⟩ | ⟨-, files, -, rfl⟩ <;> rfl
    · rcases checkpoint_ok hok with ⟨-, rfl⟩ | ⟨-, files, -, rfl⟩ <;> rfl
  · intro e c' herr
    obtain ⟨u, c'', hok⟩ := succeeds_checkpoint hc.writerFits
    rw [hok] at herr
    cases herr

theorem endsUniform_autoCheckpoint : EndsUniform created dim autoCheckpoint := by
  apply Triple.get_bind
  intro c _
  split
  · exact Triple.pure () fun _ h => h
  · split
    · exact endsUniform_checkpoint
    · exact Triple.pure () fun _ h => h

theorem endsUniform_persistDimension (persisted : Bool) {inferred : Option ℕ}
    (hinferred : ∀ d, inferred = some d → d = dim) :
    EndsUniform created dim (persistDimension persisted inferred) := by
  refine Keeps.ends (keeps_persistDimension persisted ?_)
  intro d hd c h
  obtain rfl := hinferred d hd
  refine ⟨h.config, Or.inr rfl, ?_, ?_⟩
  · exact fun hne => ⟨(h.created hne).1, (h.created hne).1⟩
  · exact h.vectors.of_eq rfl (fun _ hb => hb) rfl rfl rfl rfl (le_refl _)

theorem UniformAt.inferred (h : UniformAt created dim c) {es : List Embedding} :
    UniformAt created (c.inferred es).config.dimension (c.inferred es) := by
  cases es with
  | nil =>
      show UniformAt created c.config.dimension c
      rw [h.config]
      exact h
  | cons e es =>
      rw [Collection.inferred]
      split
      · rename_i hzero
        rw [h.config] at hzero
        subst hzero
        refine ⟨rfl, Or.inl ?_, ?_, ?_⟩
        · rcases h.catalog with hcat | hcat
          · exact hcat
          · exact hcat
        · exact fun hne => absurd (h.created hne).1.symm hne
        · refine AllVectors.mono
            (h.vectors.of_eq rfl (fun _ hb => hb) rfl rfl rfl rfl (le_refl _)) ?_
          rintro v ⟨hlen, hne, -⟩
          exact absurd (List.length_eq_zero_iff.mp hlen) hne
      · rw [h.config]
        exact h

theorem fitsUniform_putOps {mk : Id → Embedding → Option Metadata → Option Document → Operation}
    (hvec : ∀ id e md doc, (mk id e md doc).vector = some e) {op : String} {ids : List Id}
    {es : List Embedding} {ms : Option (List (Option Metadata))}
    {ds : Option (List (Option Document))} (hne : ∀ e ∈ es, e ≠ [])
    (hc : c'.config.dimension = (c.inferred es).config.dimension)
    (h : checkCounts op c' ids es ms ds = .ok ()) :
    FitsUniform (c.inferred es).config.dimension (putOps mk ids es ms ds) := by
  obtain ⟨hlen, hdim⟩ := checkCounts_ok h
  intro op' hop e he
  obtain ⟨id, -, e', he', md, doc, rfl⟩ := mem_putOps hlen hop
  rw [hvec] at he
  obtain rfl := Option.some.inj he
  refine ⟨?_, hne _ he'⟩
  rcases checkDimensions_ok hdim he' with hzero | hfits
  · rw [hc] at hzero
    cases es with
    | nil => exact absurd he' List.not_mem_nil
    | cons e₀ es =>
        rw [Collection.inferred] at hzero
        split at hzero
        · exact absurd (List.length_eq_zero_iff.mp hzero) (hne e₀ List.mem_cons_self)
        · rename_i hset
          exact absurd hzero hset
  · rw [hfits, hc]

theorem UniformAt.putBatch (h : UniformAt created dim c) {persisted : Bool}
    {validate : Collection → Except EngineError Unit} {es : List Embedding}
    {ops : List Operation} (hops : ∀ c', c'.config.dimension = (c.inferred es).config.dimension →
      validate c' = .ok () → FitsUniform (c.inferred es).config.dimension ops) :
    (∀ u c', putBatch persisted validate es ops c = .ok u c' →
        UniformAt created (c.inferred es).config.dimension c') ∧
      ∀ e c', putBatch persisted validate es ops c = .error e c' →
        UniformAt created (c.inferred es).config.dimension c' := by
  obtain ⟨o, hinfer⟩ := inferDimension_run es c
  have ho : ∀ d, o = some d → d = (c.inferred es).config.dimension := by
    intro d hd
    rcases inferDimension_ok hinfer with ⟨hnone, -⟩ | ⟨e, rest, -, -, hsome, hc'⟩
    · rw [hnone] at hd
      cases hd
    · rw [hc']
      exact Option.some.inj (hd.symm.trans hsome)
  have hrest : EndsUniform created (c.inferred es).config.dimension (do
      let c ← MonadState.get
      Outcome.ofExcept (validate c)
      persistDimension persisted o
      writeOps ops
      flushIfNeeded
      autoCheckpoint) := by
    apply Triple.get_bind
    intro c' hc'
    refine Triple.ofExcept_bind (fun _ _ _ h => h) fun u hok => ?_
    exact Triple.bind (endsUniform_persistDimension persisted ho) fun _ =>
      Triple.bind (endsUniform_writeOps (hops c' hc'.config hok)) fun _ =>
      Triple.bind endsUniform_flushIfNeeded fun _ => endsUniform_autoCheckpoint
  have hstart := hrest (c.inferred es) h.inferred
  unfold Rekha.putBatch
  refine ⟨?_, ?_⟩
  · intro u c' hok
    obtain ⟨o', c₁, hrun, hok⟩ := bind_ok.mp hok
    rw [hinfer] at hrun
    cases hrun
    exact hstart.1 u c' hok
  · intro e c' herr
    rcases bind_error.mp herr with herr | ⟨o', c₁, hrun, herr⟩
    · rw [hinfer] at herr
      cases herr
    · rw [hinfer] at hrun
      cases hrun
      exact hstart.2 e c' herr

theorem fitsUniform_of_no_vectors {ops : List Operation} (h : ∀ op ∈ ops, op.vector = none) :
    FitsUniform dim ops := by
  intro op hop e he
  rw [h op hop] at he
  cases he

/-- **A call leaves a uniform collection uniform**, whether or not it fails. -/
theorem UniformAt.exec (h : UniformAt created dim c) {a : Call} (hne : a.NonEmpty)
    (hrestart : ∀ order, a ≠ .restart order) :
    ∃ dim', (∀ u c', a.exec c = .ok u c' → UniformAt created dim' c') ∧
      ∀ e c', a.exec c = .error e c' → UniformAt created dim' c' := by
  cases a with
  | add p ids es ms ds =>
      refine ⟨_, h.putBatch ?_⟩
      intro c' hc' hok
      exact fitsUniform_putOps (fun _ _ _ _ => rfl) hne hc' (validateAdd_ok hok).1
  | upsert p ids es ms ds =>
      refine ⟨_, h.putBatch ?_⟩
      intro c' hc' hok
      exact fitsUniform_putOps (fun _ _ _ _ => rfl) hne hc' hok
  | update ids ms ds =>
      have hops : FitsUniform dim (updateOps ids ms ds) := by
        apply fitsUniform_of_no_vectors
        intro op hop
        obtain ⟨id, -, md, doc, rfl⟩ := mem_updateOps hop
        rfl
      have hupdate : EndsUniform created dim (update ids ms ds) :=
        Triple.get_bind fun _ _ => Triple.ofExcept_bind (fun _ _ _ h => h) fun _ _ =>
          Triple.bind (endsUniform_writeOps hops) fun _ => endsUniform_autoCheckpoint
      exact ⟨dim, hupdate c h⟩
  | delete ids =>
      have hops : FitsUniform dim (ids.map .delete) := by
        apply fitsUniform_of_no_vectors
        intro op hop
        obtain ⟨id, -, rfl⟩ := List.mem_map.mp hop
        rfl
      have hdelete : EndsUniform created dim (delete ids) :=
        Triple.bind (endsUniform_writeOps hops) fun _ => endsUniform_autoCheckpoint
      exact ⟨dim, hdelete c h⟩
  | flush => exact ⟨dim, endsUniform_flushBuffer c h⟩
  | checkpoint => exact ⟨dim, endsUniform_checkpoint c h⟩
  | optimize =>
      have hoptimize : EndsUniform created dim Collection.optimize :=
        Triple.get_bind fun _ _ => Triple.bind endsUniform_flushBuffer fun _ =>
          Triple.get_bind fun _ _ => Triple.bind endsUniform_rebuildIndex fun _ =>
          Triple.bind endsUniform_checkpoint fun _ => Triple.get_bind fun _ _ =>
          Triple.pure _ fun _ h => h
      exact ⟨dim, Triple.bind hoptimize (fun _ => Triple.pure _ fun _ h => h) c h⟩
  | restart order => exact absurd rfl (hrestart order)

/-- **A restart** that finds the dimension in the catalog, or no vector on the disk,
leaves a uniform collection. -/
theorem UniformAt.restart (h : UniformAt created dim c) {order : HashOrder}
    (hkeeps : c.catalog.dimension = c.config.dimension ∨ c.disk.HoldsNoVector)
    (hopen : reopen c.config c.disk order = .ok c') :
    UniformAt created c.catalog.dimension c' := by
  have hvectors : AllVectors (HasDimension c.catalog.dimension) (Collection.restored
      { c.config with dimension := c.catalog.dimension } c.disk order) := by
    rcases hkeeps with hcatalog | hnone
    · rw [hcatalog, h.config]
      exact allVectors_restored h.vectors.logged h.vectors.saved
    · refine allVectors_restored ?_ ?_
      · intro id e he
        rw [(hnone id).1] at he
        cases he
      · intro id e he
        rw [(hnone id).2] at he
        cases he
  have hset := foldl_applyRecord_settled c.disk.replayed
    (based { c.config with dimension := c.catalog.dimension } c.disk order)
  rw [← restored_eq_foldl] at hset
  simp only [settled, Settled.mk.injEq] at hset
  obtain ⟨hconfig, -, -, hcatalog, -⟩ := hset
  rw [based_config] at hconfig
  rw [based_catalog] at hcatalog
  have hrestored : UniformAt created c.catalog.dimension (Collection.restored
      { c.config with dimension := c.catalog.dimension } c.disk order) := by
    refine ⟨?_, Or.inr ?_, ?_, hvectors⟩
    · rw [hconfig]
    · rw [hcatalog]
      rfl
    · intro hne
      rw [hcatalog]
      exact ⟨(h.created hne).2, (h.created hne).2⟩
  exact (endsUniform_flushIfNeeded _ hrestored).1 () c' (reopen_ok hopen)

theorem UniformAt.oneDimension (h : UniformAt created dim c) : OneDimension c where
  same := by
    intro id e id' e' he he'
    rw [(h.vectors.embedding he).1, (h.vectors.embedding he').1]
  config := by
    intro _ id e he
    rw [(h.vectors.embedding he).1, h.config]
  checkpoint := by
    intro msg c' herr
    obtain ⟨u, c'', hok⟩ := succeeds_checkpoint h.writerFits
    rw [hok] at herr
    cases herr
  query := by
    intro q options haccepted v hv
    obtain ⟨hlen, hne, -⟩ := h.vectors.compared hv
    rw [h.config] at haccepted
    rw [hlen]
    by_contra hq
    refine haccepted ⟨?_, fun heq => hq heq.symm⟩
    rintro rfl
    exact hne (List.length_eq_zero_iff.mp hlen)

theorem uniformAt_fresh (config : CollectionConfig) :
    UniformAt config.dimension config.dimension (Collection.fresh config) where
  config := rfl
  catalog := Or.inr rfl
  created := fun _ => ⟨rfl, rfl⟩
  vectors := allVectors_fresh config

end Uniform

end Collection

/-! ## Runs -/

theorem Attempts.uniform {config : CollectionConfig} {c : Collection}
    (h : Attempts (fun a c => a.NonEmpty ∧ a.KeepsDimension c) config c) :
    ∃ dim, UniformAt config.dimension dim c := by
  induction h with
  | fresh => exact ⟨_, uniformAt_fresh config⟩
  | call a _ hok hends ih =>
      obtain ⟨dim, hu⟩ := ih
      obtain ⟨hne, hkeeps⟩ := hok
      by_cases hrestart : ∃ order, a = .restart order
      · obtain ⟨order, rfl⟩ := hrestart
        exact ⟨_, hu.restart (hkeeps order rfl) hends⟩
      · have hother : ∀ order, a ≠ .restart order := not_exists.mp hrestart
        obtain ⟨dim', hok, herr⟩ := hu.exec hne hother
        refine ⟨dim', ?_⟩
        cases a with
        | restart order => exact absurd rfl (hother order)
        | _ =>
            rcases hends with ⟨u, hrun⟩ | ⟨e, hrun⟩
            · exact hok u _ hrun
            · exact herr e _ hrun

/-- **One dimension**: along every run of calls with non-empty embeddings whose restarts
find the dimension in the catalog, or no vector on the disk, whatever else fails. -/
theorem one_dimension {config : CollectionConfig} {c : Collection}
    (h : Attempts (fun a c => a.NonEmpty ∧ a.KeepsDimension c) config c) : OneDimension c := by
  obtain ⟨dim, hu⟩ := h.uniform
  exact hu.oneDimension

theorem Attempts.keepsDimension {config : CollectionConfig} {c : Collection}
    (hd : config.dimension ≠ 0) (h : Attempts (fun a _ => a.NonEmpty) config c) :
    Attempts (fun a c => a.NonEmpty ∧ a.KeepsDimension c) config c := by
  induction h with
  | fresh => exact Attempts.fresh
  | call a _ hne hends ih =>
      refine Attempts.call a ih ⟨hne, fun order _ => Or.inl ?_⟩ hends
      obtain ⟨dim, hu⟩ := ih.uniform
      rw [(hu.created hd).2, hu.config, (hu.created hd).1]

/-- **With a dimension from the start** there is nothing to forget. -/
theorem one_dimension_of_created {config : CollectionConfig} {c : Collection}
    (hd : config.dimension ≠ 0) (h : Attempts (fun a _ => a.NonEmpty) config c) :
    OneDimension c :=
  let ⟨_, hu⟩ := (h.keepsDimension hd).uniform
  hu.oneDimension

theorem Attempts.runAll {ok : Call → Collection → Prop} {config : CollectionConfig} :
    ∀ {calls : List Call} {c c' : Collection}, Attempts ok config c →
      (∀ a ∈ calls, ∀ c, ok a c) → Rekha.runAll calls c = .ok c' → Attempts ok config c'
  | [], c, c', h, _, hr => by
      obtain rfl := Except.ok.inj hr
      exact h
  | a :: calls, c, c', h, hall, hr => by
      obtain ⟨ha, hall⟩ := List.forall_mem_cons.mp hall
      rw [Rekha.runAll] at hr
      cases hrun : a.run c with
      | error e =>
          rw [hrun] at hr
          exact absurd hr (by simp)
      | ok c₁ =>
          rw [hrun] at hr
          exact Attempts.runAll (Attempts.call a h (ha c) (Call.endsIn_of_run hrun)) hall hr

/-- The catalog call goes through, and a restart finds the dimension. -/
theorem one_dimension_demo : ∃ c c', runAll [.add true ["a"] [one] none none]
    (Collection.fresh undimensioned) = .ok c ∧
      (Call.restart ⟨fun m => m.entries, fun _ => List.Perm.refl _⟩).run c = .ok c' ∧
      c'.config.dimension = 1 ∧ OneDimension c' := by
  let order : HashOrder := ⟨fun m => m.entries, fun _ => List.Perm.refl _⟩
  obtain ⟨c, hrun, hP⟩ : ∃ c, runAll [.add true ["a"] [one] none none]
      (Collection.fresh undimensioned) = .ok c ∧
      decide (c.catalog.dimension = c.config.dimension ∧
        (reopen c.config c.disk order).toOption.any fun c' =>
          decide (c'.config.dimension = 1)) = true :=
    exists_runAll (by decide +kernel)
  obtain ⟨hcatalog, hreopen⟩ := of_decide_eq_true hP
  cases hopen : reopen c.config c.disk order with
  | error e =>
      rw [hopen] at hreopen
      exact absurd hreopen (by simp [Except.toOption])
  | ok c' =>
      rw [hopen] at hreopen
      have hadd : Attempts (fun a c => a.NonEmpty ∧ a.KeepsDimension c) undimensioned c := by
        refine Attempts.fresh.runAll ?_ hrun
        intro a ha c
        rw [List.mem_singleton.mp ha]
        exact ⟨by simp [Call.NonEmpty, Call.embeddings, one], fun _ h => absurd h (by simp)⟩
      refine ⟨c, c', hrun, hopen, of_decide_eq_true hreopen, one_dimension
        (Attempts.call (.restart order) hadd ⟨?_, fun _ _ => Or.inl hcatalog⟩ hopen)⟩
      exact fun e he => absurd he List.not_mem_nil

/-- **The dimension is forgotten**: the catalog call fails, the restart leaves the
dimension unset over `a`, and a vector of another length is accepted. -/
theorem dimension_forgotten : ∃ c, Attempts (fun a _ => a.NonEmpty) undimensioned c ∧
    ¬ OneDimension c := by
  let calls : List Call := [.add false ["a"] [one] none none,
    .restart ⟨fun m => m.entries, fun _ => List.Perm.refl _⟩,
    .add true ["b"] [one ++ two] none none]
  obtain ⟨c, hrun, hP⟩ : ∃ c, runAll calls (Collection.fresh undimensioned) = .ok c ∧
      decide (c.embedding "a" = some one ∧ c.embedding "b" = some (one ++ two)) = true :=
    exists_runAll (by decide +kernel)
  obtain ⟨ha, hb⟩ := of_decide_eq_true hP
  refine ⟨c, Attempts.fresh.runAll ?_ hrun, fun h => ?_⟩
  · intro a hmem _
    simp only [calls, List.mem_cons, List.not_mem_nil, or_false] at hmem
    rcases hmem with rfl | rfl | rfl <;> simp [Call.NonEmpty, Call.embeddings, one, two]
  · exact absurd (h.same "a" _ "b" _ ha hb) (by decide)

end Rekha
