import Rekha.Engine.Engine

/-!
# What the operations do

One specification per operation of the collection, in terms of the parts of the
state the later developments look at; nothing after this file unfolds them.
Applying an operation leaves the `settled` part alone and acts on records,
buffer and index one id at a time; the monadic operations are inverted into the
state they end in.
-/

namespace Rekha

open Outcome

/-- What a write operation never touches. -/
structure Settled where
  config : CollectionConfig
  wal : Wal
  dir : CheckpointDir
  catalog : CatalogRow
  flushedSeq : ℕ
  lastCheckpointSeq : ℕ
  segments : List Segment
  segmentIndex : FinMap Id ℕ

def Operation.recordAfter (op : Operation) (seq : ℕ) (old : Option Record) : Option Record :=
  match op with
  | .add id e md doc | .upsert id e md doc => some ⟨id, some e, md, doc, seq⟩
  | .update id md doc =>
      some { old.getD ⟨id, none, none, none, seq⟩ with
        metadata := md, document := doc, seq := seq }
  | .delete _ => none

def Operation.bufferAfter (op : Operation) (seq : ℕ) (buffer : List Record) : List Record :=
  match op with
  | .add id e md doc | .upsert id e md doc =>
      buffer.filter (fun r => decide (r.id ≠ id)) ++ [⟨id, some e, md, doc, seq⟩]
  | .update _ _ _ => buffer
  | .delete id => buffer.filter fun r => decide (r.id ≠ id)

def Operation.indexAfter (op : Operation) (index : UsearchIndex) : UsearchIndex :=
  match op with
  | .delete id => index.delete id
  | _ => index

namespace Collection

def settled (c : Collection) : Settled :=
  ⟨c.config, c.wal, c.dir, c.catalog, c.flushedSeq, c.lastCheckpointSeq, c.segments,
    c.segmentIndex⟩

/-! ## Applying operations -/

theorem offsetFor_frame (c : Collection) (id : Id) :
    (c.offsetFor id).2.settled = c.settled ∧ (c.offsetFor id).2.records = c.records ∧
      (c.offsetFor id).2.buffer = c.buffer ∧ (c.offsetFor id).2.index = c.index ∧
      (c.offsetFor id).2.postings = c.postings := by
  rw [offsetFor]
  cases c.offsets.lookup id <;> exact ⟨rfl, rfl, rfl, rfl, rfl⟩

theorem applyOperation_settled (c : Collection) (op : Operation) (seq : ℕ) :
    (c.applyOperation op seq).settled = c.settled := by
  cases op with
  | add id e md doc => exact (c.offsetFor_frame id).1
  | upsert id e md doc => exact (c.offsetFor_frame id).1
  | update id md doc =>
      simp only [applyOperation, applyUpdate]
      split
      · rfl
      · exact (offsetFor_frame _ id).1
  | delete id =>
      simp only [applyOperation, applyDelete]
      cases c.offsets.lookup id <;> rfl

theorem applyPut_records (c : Collection) (id : Id) (e : Embedding) (md : Option Metadata)
    (doc : Option Document) (seq : ℕ) : (c.applyPut id e md doc seq).records =
      c.records.insert id ⟨id, some e, md, doc, seq⟩ := by
  simp only [applyPut, (c.offsetFor_frame id).2.1]

theorem applyUpdate_records (c : Collection) (id : Id) (md : Option Metadata)
    (doc : Option Document) (seq : ℕ) : (c.applyUpdate id md doc seq).records =
      c.records.insert id
        { (c.records.lookup id).getD ⟨id, none, none, none, seq⟩ with
          metadata := md, document := doc, seq := seq } := by
  simp only [applyUpdate]
  split
  · rfl
  · exact (offsetFor_frame _ id).2.1

theorem applyDelete_records (c : Collection) (id : Id) :
    (c.applyDelete id).records = c.records.erase id := by
  rw [applyDelete]
  cases c.offsets.lookup id <;> rfl

theorem lookup_applyOperation (c : Collection) (op : Operation) (seq : ℕ) (id : Id) :
    (c.applyOperation op seq).records.lookup id =
      if id = op.id then op.recordAfter seq (c.records.lookup id)
      else c.records.lookup id := by
  by_cases hid : id = op.id
  · subst hid
    rw [if_pos rfl]
    cases op with
    | add key e md doc =>
        rw [applyOperation, applyPut_records]
        exact AList.lookup_insert _
    | upsert key e md doc =>
        rw [applyOperation, applyPut_records]
        exact AList.lookup_insert _
    | update key md doc =>
        rw [applyOperation, applyUpdate_records]
        exact AList.lookup_insert _
    | delete key =>
        rw [applyOperation, applyDelete_records]
        exact AList.lookup_erase _ _
  · rw [if_neg hid]
    cases op with
    | add key e md doc =>
        rw [applyOperation, applyPut_records]
        exact AList.lookup_insert_ne hid
    | upsert key e md doc =>
        rw [applyOperation, applyPut_records]
        exact AList.lookup_insert_ne hid
    | update key md doc =>
        rw [applyOperation, applyUpdate_records]
        exact AList.lookup_insert_ne hid
    | delete key =>
        rw [applyOperation, applyDelete_records]
        exact AList.lookup_erase_ne hid

theorem applyOperation_buffer (c : Collection) (op : Operation) (seq : ℕ) :
    (c.applyOperation op seq).buffer = op.bufferAfter seq c.buffer := by
  cases op with
  | add id e md doc =>
      simp only [applyOperation, applyPut, (c.offsetFor_frame id).2.2.1]
      rfl
  | upsert id e md doc =>
      simp only [applyOperation, applyPut, (c.offsetFor_frame id).2.2.1]
      rfl
  | update id md doc =>
      simp only [applyOperation, applyUpdate]
      split
      · rfl
      · exact (offsetFor_frame _ id).2.2.1
  | delete id =>
      simp only [applyOperation, applyDelete]
      cases c.offsets.lookup id <;> rfl

theorem applyOperation_index (c : Collection) (op : Operation) (seq : ℕ) :
    (c.applyOperation op seq).index = op.indexAfter c.index := by
  cases op with
  | add id e md doc => exact (c.offsetFor_frame id).2.2.2.1
  | upsert id e md doc => exact (c.offsetFor_frame id).2.2.2.1
  | update id md doc =>
      simp only [applyOperation, applyUpdate]
      split
      · rfl
      · exact (offsetFor_frame _ id).2.2.2.1
  | delete id =>
      simp only [applyOperation, applyDelete]
      cases c.offsets.lookup id <;> rfl

theorem foldl_applyRecord_settled : ∀ (rs : List WalRecord) (c : Collection),
    (rs.foldl applyRecord c).settled = c.settled
  | [], _ => rfl
  | r :: rs, c => by
      rw [List.foldl_cons, foldl_applyRecord_settled rs, applyRecord,
        applyOperation_settled]

/-! ## Committing a batch -/

/-- The log records of a batch whose first operation gets seq `n + 1`. -/
def numbered (n : ℕ) : List Operation → List WalRecord
  | [] => []
  | op :: ops => ⟨n + 1, op⟩ :: numbered (n + 1) ops

theorem numbered_append (ops₂ : List Operation) : ∀ (ops₁ : List Operation) (n : ℕ),
    numbered n (ops₁ ++ ops₂) = numbered n ops₁ ++ numbered (n + ops₁.length) ops₂
  | [], n => rfl
  | op :: ops₁, n => by
      rw [List.cons_append, numbered, numbered_append ops₂ ops₁, numbered,
        List.cons_append, List.length_cons, Nat.add_assoc, Nat.add_comm 1]

theorem seq_of_mem_numbered {r : WalRecord} : ∀ {ops : List Operation} {n : ℕ},
    r ∈ numbered n ops → n < r.seq ∧ r.seq ≤ n + ops.length
  | [], n, h => by simp [numbered] at h
  | op :: ops, n, h => by
      rw [numbered, List.mem_cons] at h
      rcases h with rfl | h
      · simp only [List.length_cons]
        omega
      · have := seq_of_mem_numbered h
        simp only [List.length_cons]
        omega

theorem pairwise_numbered : ∀ (ops : List Operation) (n : ℕ),
    (numbered n ops).Pairwise fun r r' => r.seq < r'.seq
  | [], _ => List.Pairwise.nil
  | op :: ops, n => by
      rw [numbered]
      refine List.pairwise_cons.mpr ⟨?_, pairwise_numbered ops (n + 1)⟩
      intro r hr
      exact (seq_of_mem_numbered hr).1

theorem op_mem_of_mem_numbered {r : WalRecord} : ∀ {ops : List Operation} {n : ℕ},
    r ∈ numbered n ops → r.op ∈ ops
  | [], n, h => by simp [numbered] at h
  | op :: ops, n, h => by
      rw [numbered, List.mem_cons] at h
      rcases h with rfl | h
      · exact List.mem_cons_self
      · exact List.mem_cons_of_mem _ (op_mem_of_mem_numbered h)

theorem numbered_take : ∀ (ops : List Operation) (n k : ℕ),
    (numbered n ops).take k = numbered n (ops.take k)
  | [], n, k => by rw [numbered, List.take_nil, List.take_nil, numbered]
  | op :: ops, n, 0 => by rw [List.take_zero, List.take_zero, numbered]
  | op :: ops, n, k + 1 => by
      rw [numbered, List.take_succ_cons, numbered_take ops, List.take_succ_cons, numbered]

theorem length_numbered : ∀ (ops : List Operation) (n : ℕ),
    (numbered n ops).length = ops.length
  | [], _ => rfl
  | op :: ops, n => by rw [numbered, List.length_cons, length_numbered ops, List.length_cons]

theorem map_op_numbered : ∀ (ops : List Operation) (n : ℕ),
    (numbered n ops).map WalRecord.op = ops
  | [], _ => rfl
  | op :: ops, n => by rw [numbered, List.map_cons, map_op_numbered ops]

theorem appendOps_ok : ∀ {ops : List Operation} {c c' : Collection} {rs : List WalRecord},
    appendOps ops c = .ok rs c' →
      rs = numbered c.wal.lastSeq ops ∧ ∃ w : Wal, c' = { c with wal := w } ∧
        w.file.records = c.wal.file.records ++ numbered c.wal.lastSeq ops ∧
        w.lastSeq = c.wal.lastSeq + ops.length
  | [], c, c', rs, h => by
      rw [appendOps, pure_ok] at h
      obtain ⟨rfl, rfl⟩ := h
      exact ⟨rfl, c.wal, rfl, by simp [numbered], rfl⟩
  | op :: ops, c, c', rs, h => by
      rw [appendOps, bind_ok] at h
      obtain ⟨_, _, hget, h⟩ := h
      obtain ⟨rfl, rfl⟩ := get_ok.mp hget
      cases happ' : c.wal.append op with
      | error e =>
        rw [happ'] at h
        exact absurd h (by simp [throw_ok])
      | ok p =>
        obtain ⟨w, r⟩ := p
        have happ := happ'
        rw [happ'] at h
        simp only at h
        obtain ⟨hr, hrecs, hlast⟩ := Wal.append_ok happ
        rw [bind_ok] at h
        obtain ⟨_, c₁, hmod, h⟩ := h
        obtain rfl := modify_ok.mp hmod
        rw [bind_ok] at h
        obtain ⟨rs', c₂, hrest, h⟩ := h
        obtain ⟨rfl, rfl⟩ := pure_ok.mp h
        obtain ⟨hrs, w', hc, hrecs', hlast'⟩ := appendOps_ok hrest
        simp only at hrs hc hrecs' hlast'
        refine ⟨?_, w', hc, ?_, ?_⟩
        · rw [hr, hrs, hlast, numbered]
        · rw [hrecs', hrecs, hlast, hr, numbered, List.append_assoc, List.singleton_append]
        · rw [hlast', hlast, List.length_cons]
          omega

theorem recordLen_of_appendOps : ∀ {ops : List Operation} {c c' : Collection}
    {rs : List WalRecord}, appendOps ops c = .ok rs c' → ∀ op ∈ ops, op.recordLen ≤ 2 ^ 32 - 1
  | [], _, _, _, _ => fun _ hop => absurd hop List.not_mem_nil
  | op :: ops, c, c', rs, h => by
      unfold appendOps at h
      obtain ⟨_, _, hget, h⟩ := bind_ok.mp h
      obtain ⟨rfl, rfl⟩ := get_ok.mp hget
      cases happ : c.wal.append op with
      | error e =>
          rw [happ] at h
          exact absurd h (by simp [throw_ok])
      | ok p =>
          rw [happ] at h
          obtain ⟨_, c₁, -, h⟩ := bind_ok.mp h
          obtain ⟨rs', c₂, hrest, -⟩ := bind_ok.mp h
          exact List.forall_mem_cons.mpr
            ⟨Wal.recordLen_of_append happ, recordLen_of_appendOps hrest⟩

/-- **A committed batch**: the log grows by the numbered operations, then memory
replays them. -/
theorem writeOps_ok {ops : List Operation} {c c' : Collection} {u : Unit}
    (h : writeOps ops c = .ok u c') :
    ∃ w : Wal, w.file.records = c.wal.file.records ++ numbered c.wal.lastSeq ops ∧
      w.lastSeq = c.wal.lastSeq + ops.length ∧
      c' = (numbered c.wal.lastSeq ops).foldl applyRecord { c with wal := w } := by
  rw [writeOps, bind_ok] at h
  obtain ⟨rs, c₁, happ, h⟩ := h
  obtain ⟨rfl, w, rfl, hrecs, hlast⟩ := appendOps_ok happ
  exact ⟨w, hrecs, hlast, modify_ok.mp h⟩

theorem recordLen_of_writeOps {ops : List Operation} {c c' : Collection} {u : Unit}
    (h : writeOps ops c = .ok u c') :
    ∀ op ∈ ops, op.recordLen ≤ 2 ^ 32 - 1 := by
  obtain ⟨rs, c₁, happend, -⟩ := bind_ok.mp h
  exact recordLen_of_appendOps happend

/-! ## Flushing and rebuilding -/

theorem indexAdd_ok {id : Id} {e : Embedding} {c c' : Collection} {u : Unit} :
    indexAdd id e c = .ok u c' ↔
      ∃ x, c.index.add id e = .ok () x ∧ c' = { c with index := x } := by
  rw [indexAdd]
  cases c.index.add id e with
  | ok _ x => simp [eq_comm]
  | error e x => simp

/-- The index one buffered record leaves behind. -/
def reindexed (x : UsearchIndex) (r : Record) (e : Embedding) (x' : UsearchIndex) : Prop :=
  (if x.contains r.id then x.delete r.id else x).add r.id e = .ok () x'

theorem reindexed_iff_add {x x' : UsearchIndex} {r : Record} {e : Embedding} :
    reindexed x r e x' ↔ (x.delete r.id).add r.id e = .ok () x' := by
  unfold reindexed
  split
  · rfl
  · rename_i hc
    have habsent : x.labels.lookup r.id = none := by simpa [UsearchIndex.contains] using hc
    have hsame : x.delete r.id = x := by rw [UsearchIndex.delete, habsent]
    rw [hsame]

theorem flushRecord_ok {r : Record} {m m' : ℕ} {c c' : Collection}
    (h : flushRecord r m c = .ok m' c') :
    (r.embedding = none ∧ m' = m ∧ c' = c) ∨
      ∃ e x, r.embedding = some e ∧ reindexed c.index r e x ∧ m' = max m r.seq ∧
        c' = { c with index := x } := by
  rw [flushRecord] at h
  cases he : r.embedding with
  | none =>
      rw [he] at h
      obtain ⟨rfl, rfl⟩ := pure_ok.mp h
      exact Or.inl ⟨rfl, rfl, rfl⟩
  | some e =>
      rw [he] at h
      simp only at h
      rw [bind_ok] at h
      obtain ⟨_, c₁, hmod, h⟩ := h
      obtain rfl := modify_ok.mp hmod
      rw [bind_ok] at h
      obtain ⟨_, c₂, hadd, h⟩ := h
      obtain ⟨x, hx, rfl⟩ := indexAdd_ok.mp hadd
      obtain ⟨rfl, rfl⟩ := pure_ok.mp h
      refine Or.inr ⟨e, x, rfl, ?_, rfl, ?_⟩
      · rw [reindexed]
        split at hx
        · rename_i hc
          rw [if_pos hc]
          exact hx
        · rename_i hc
          rw [if_neg hc]
          exact hx
      · split <;> rfl

/-- The index after a batch entered it in order. -/
inductive Reindexed : UsearchIndex → List Record → UsearchIndex → Prop
  | nil (x : UsearchIndex) : Reindexed x [] x
  | skip {x x' : UsearchIndex} {r : Record} {batch : List Record} :
      r.embedding = none → Reindexed x batch x' → Reindexed x (r :: batch) x'
  | insert {x x₁ x' : UsearchIndex} {r : Record} {e : Embedding} {batch : List Record} :
      r.embedding = some e → reindexed x r e x₁ → Reindexed x₁ batch x' →
      Reindexed x (r :: batch) x'

/-- Highest seq among the records of a batch that carry an embedding, and `m`. -/
def maxSeq (m : ℕ) : List Record → ℕ
  | [] => m
  | r :: batch => maxSeq (if r.embedding.isSome then max m r.seq else m) batch

theorem flushRecords_ok : ∀ {batch : List Record} {m m' : ℕ} {c c' : Collection},
    flushRecords batch m c = .ok m' c' →
      m' = maxSeq m batch ∧ ∃ x, Reindexed c.index batch x ∧ c' = { c with index := x }
  | [], m, m', c, c', h => by
      obtain ⟨rfl, rfl⟩ := pure_ok.mp h
      exact ⟨rfl, c.index, Reindexed.nil _, rfl⟩
  | r :: batch, m, m', c, c', h => by
      rw [flushRecords, bind_ok] at h
      obtain ⟨m₁, c₁, hr, h⟩ := h
      rcases flushRecord_ok hr with ⟨hnone, rfl, rfl⟩ | ⟨e, x₁, hsome, hre, rfl, rfl⟩
      · obtain ⟨hm, x, hx, hc⟩ := flushRecords_ok h
        exact ⟨by rw [hm, maxSeq, hnone]; rfl, x, Reindexed.skip hnone hx, hc⟩
      · obtain ⟨hm, x, hx, hc⟩ := flushRecords_ok h
        exact ⟨by rw [hm, maxSeq, hsome]; rfl, x, Reindexed.insert hsome hre hx, hc⟩

/-- **A flush** empties the buffer into the index and moves the watermark. -/
theorem flushBuffer_ok {c c' : Collection} {u : Unit} (h : flushBuffer c = .ok u c') :
    ∃ x, Reindexed c.index c.buffer x ∧
      c' = { c with
        buffer := []
        index := x
        flushedSeq := max c.flushedSeq (maxSeq 0 c.buffer) } := by
  rw [flushBuffer, bind_ok] at h
  obtain ⟨_, _, hget, h⟩ := h
  obtain ⟨rfl, rfl⟩ := get_ok.mp hget
  rw [bind_ok] at h
  obtain ⟨_, c₁, hmod, h⟩ := h
  obtain rfl := modify_ok.mp hmod
  rw [bind_ok] at h
  obtain ⟨m, c₂, hflush, h⟩ := h
  obtain ⟨rfl, x, hx, rfl⟩ := flushRecords_ok hflush
  exact ⟨x, hx, modify_ok.mp h⟩

theorem flushIfNeeded_ok {c c' : Collection} {u : Unit} (h : flushIfNeeded c = .ok u c') :
    c' = c ∨ flushBuffer c = .ok () c' := by
  rw [flushIfNeeded, bind_ok] at h
  obtain ⟨_, _, hget, h⟩ := h
  obtain ⟨rfl, rfl⟩ := get_ok.mp hget
  split at h
  · exact Or.inr h
  · exact Or.inl (pure_ok.mp h).2.symm

/-- The index after plain inserts in order. -/
inductive Inserted : UsearchIndex → List (Id × Embedding) → UsearchIndex → Prop
  | nil (x : UsearchIndex) : Inserted x [] x
  | cons {x x₁ x' : UsearchIndex} {id : Id} {e : Embedding}
      {rest : List (Id × Embedding)} :
      x.add id e = .ok () x₁ → Inserted x₁ rest x' → Inserted x ((id, e) :: rest) x'

theorem indexAddAll_ok : ∀ {l : List (Id × Embedding)} {c c' : Collection} {u : Unit},
    indexAddAll l c = .ok u c' →
      ∃ x, Inserted c.index l x ∧ c' = { c with index := x }
  | [], c, c', u, h => by
      obtain ⟨rfl, rfl⟩ := pure_ok.mp h
      exact ⟨c.index, Inserted.nil _, rfl⟩
  | (id, e) :: rest, c, c', u, h => by
      rw [indexAddAll, bind_ok] at h
      obtain ⟨_, c₁, hadd, h⟩ := h
      obtain ⟨x₁, hx₁, rfl⟩ := indexAdd_ok.mp hadd
      obtain ⟨x, hx, hc⟩ := indexAddAll_ok h
      exact ⟨x, Inserted.cons hx₁ hx, hc⟩

/-- **A rebuild** replaces the index by one holding the rebuild vectors. -/
theorem rebuildIndex_ok {c c' : Collection} {u : Unit} (h : rebuildIndex c = .ok u c') :
    ∃ x, Inserted (UsearchIndex.withHnsw c.config.space c.config.dimension)
        c.rebuildVectors x ∧ c' = { c with index := x } := by
  rw [rebuildIndex, bind_ok] at h
  obtain ⟨_, c₁, hmod, h⟩ := h
  obtain rfl := modify_ok.mp hmod
  rw [bind_ok] at h
  obtain ⟨_, _, hget, h⟩ := h
  obtain ⟨rfl, rfl⟩ := get_ok.mp hget
  obtain ⟨x, hx, rfl⟩ := indexAddAll_ok h
  exact ⟨x, hx, rfl⟩

/-! ## Checkpointing -/

/-- The segment and row map a checkpoint writes: `none` where it panics, `some
none` when there is no vector to write. -/
def segmentFiles (c : Collection) : Option (Option (Segment × FinMap Id ℕ)) :=
  match c.segmentEntries with
  | [] => some none
  | entries =>
      (writeRows (SegmentWriter.new c.config.dimension) ∅ entries).map fun p =>
        some (p.1.write, p.2)

/-- The directory a completed checkpoint leaves. -/
def checkpointFiles (c : Collection) (files : Option (Segment × FinMap Id ℕ)) :
    CheckpointDir where
  checkpointJson := some c.checkpointMeta
  recordsBin := some c.records
  indexBin := if c.index.len ≠ 0 then some c.index.inner else none
  indexMeta := if c.index.len ≠ 0 then some c.index.savedMeta else none
  segmentBin := files.map Prod.fst
  segmentIndexBin := files.map Prod.snd

/-- The state a completed checkpoint leaves. -/
def checkpointed (c : Collection) (files : Option (Segment × FinMap Id ℕ)) : Collection :=
  { c with
    records := stripRecords c.flushedSeq c.records
    dir := c.checkpointFiles files
    catalog := { c.catalog with logOffset := max c.catalog.logOffset c.flushedSeq }
    wal := Wal.openFile (c.wal.file.keepAbove c.flushedSeq) (some (c.wal.lastSeq + 1))
    lastCheckpointSeq := c.flushedSeq
    segments := (files.map Prod.fst).toList
    segmentIndex := (files.map Prod.snd).getD ∅ }

theorem lookup_stripRecords (f : ℕ) (records : FinMap Id Record) (id : Id) :
    (stripRecords f records).lookup id = (records.lookup id).map fun r =>
      if r.seq ≤ f then { r with embedding := none } else r :=
  FinMap.lookup_mapVals _ _ _

theorem saveIndex_ok {c c' : Collection} {u : Unit} (h : saveIndex c = .ok u c') :
    c' = { c with dir := { c.dir with
      indexBin := if c.index.len ≠ 0 then some c.index.inner else none
      indexMeta := if c.index.len ≠ 0 then some c.index.savedMeta else none } } := by
  rw [saveIndex, bind_ok] at h
  obtain ⟨_, _, hget, h⟩ := h
  obtain ⟨rfl, rfl⟩ := get_ok.mp hget
  by_cases hlen : c.index.len ≠ 0
  · rw [if_pos hlen, bind_ok] at h
    obtain ⟨_, _, h₁, h₂⟩ := h
    obtain rfl := modify_ok.mp h₁
    obtain rfl := modify_ok.mp h₂
    simp only [if_pos hlen]
    rfl
  · rw [if_neg hlen, bind_ok] at h
    obtain ⟨_, _, h₁, h₂⟩ := h
    obtain rfl := modify_ok.mp h₁
    obtain rfl := modify_ok.mp h₂
    simp only [if_neg hlen]
    rfl

theorem writeSegment_ok {c c' : Collection} {u : Unit} (h : writeSegment c = .ok u c') :
    ∃ files, c.segmentFiles = some files ∧
      c' = { c with
        dir := { c.dir with
          segmentBin := files.map Prod.fst
          segmentIndexBin := files.map Prod.snd }
        segments := (files.map Prod.fst).toList
        segmentIndex := (files.map Prod.snd).getD ∅ } := by
  rw [writeSegment, bind_ok] at h
  obtain ⟨_, _, hget, h⟩ := h
  obtain ⟨rfl, rfl⟩ := get_ok.mp hget
  rw [segmentFiles]
  cases he : c.segmentEntries with
  | nil =>
      simp only [he, bind_ok] at h
      obtain ⟨_, _, h₁, _, _, h₂, h₃⟩ := h
      obtain rfl := modify_ok.mp h₁
      obtain rfl := modify_ok.mp h₂
      obtain rfl := modify_ok.mp h₃
      exact ⟨none, rfl, rfl⟩
  | cons e rest =>
      simp only [he] at h
      cases hw : writeRows (SegmentWriter.new c.config.dimension) ∅ (e :: rest) with
      | none =>
          rw [hw] at h
          exact absurd h (by simp [throw_ok])
      | some p =>
          obtain ⟨w, idx⟩ := p
          simp only [hw, bind_ok] at h
          obtain ⟨_, _, h₁, _, _, h₂, h₃⟩ := h
          obtain rfl := modify_ok.mp h₁
          obtain rfl := modify_ok.mp h₂
          obtain rfl := modify_ok.mp h₃
          exact ⟨some (w.write, idx), by simp only [hw, Option.map_some], rfl⟩

/-- **A completed checkpoint.** -/
theorem checkpoint_ok {c c' : Collection} {u : Unit} (h : checkpoint c = .ok u c') :
    (c.records.size = 0 ∧ c' = c) ∨
      (c.records.size ≠ 0 ∧
        ∃ files, c.segmentFiles = some files ∧ c' = c.checkpointed files) := by
  rw [checkpoint, bind_ok] at h
  obtain ⟨_, _, hget, h⟩ := h
  obtain ⟨rfl, rfl⟩ := get_ok.mp hget
  by_cases hsize : c.records.size = 0
  · rw [if_pos hsize] at h
    exact Or.inl ⟨hsize, (pure_ok.mp h).2.symm⟩
  · rw [if_neg hsize] at h
    simp only [bind_ok] at h
    obtain ⟨_, _, h₁, _, _, h₂, _, _, h₃, _, _, h₄, _, _, h₅, _, _, h₆, _, _, h₇, _, _, h₈, h₉⟩ := h
    obtain rfl := modify_ok.mp h₁
    obtain rfl := saveIndex_ok h₂
    obtain rfl := modify_ok.mp h₃
    obtain ⟨files, hfiles, rfl⟩ := writeSegment_ok h₄
    obtain rfl := modify_ok.mp h₅
    obtain rfl := modify_ok.mp h₆
    obtain rfl := modify_ok.mp h₇
    obtain rfl := modify_ok.mp h₈
    obtain rfl := modify_ok.mp h₉
    exact Or.inr ⟨hsize, files, hfiles, rfl⟩

theorem autoCheckpoint_ok {c c' : Collection} {u : Unit} (h : autoCheckpoint c = .ok u c') :
    (¬ (c.records.size ≠ 0 ∧
        c.config.hnsw.syncThreshold ≤ c.wal.lastSeq - c.lastCheckpointSeq) ∧ c' = c) ∨
      (c.records.size ≠ 0 ∧
        c.config.hnsw.syncThreshold ≤ c.wal.lastSeq - c.lastCheckpointSeq ∧
        checkpoint c = .ok () c') := by
  rw [autoCheckpoint, bind_ok] at h
  obtain ⟨_, _, hget, h⟩ := h
  obtain ⟨rfl, rfl⟩ := get_ok.mp hget
  by_cases hsize : c.records.size = 0
  · rw [if_pos hsize] at h
    exact Or.inl ⟨fun hc => hc.1 hsize, (pure_ok.mp h).2.symm⟩
  · rw [if_neg hsize] at h
    by_cases hdue : c.config.hnsw.syncThreshold ≤ c.wal.lastSeq - c.lastCheckpointSeq
    · rw [if_pos hdue] at h
      exact Or.inr ⟨hsize, hdue, h⟩
    · rw [if_neg hdue] at h
      exact Or.inl ⟨fun hc => hdue hc.2, (pure_ok.mp h).2.symm⟩

theorem optimize_ok {c c' : Collection} {s : OptimizeStats} (h : optimize c = .ok s c') :
    ∃ c₁ c₂, flushBuffer c = .ok () c₁ ∧ rebuildIndex c₁ = .ok () c₂ ∧
      checkpoint c₂ = .ok () c' := by
  rw [optimize] at h
  simp only [bind_ok] at h
  obtain ⟨_, _, h₁, _, c₁, h₂, _, _, h₃, _, c₂, h₄, _, c₃, h₅, _, _, h₆, h₇⟩ := h
  obtain ⟨rfl, rfl⟩ := get_ok.mp h₁
  obtain ⟨rfl, rfl⟩ := get_ok.mp h₃
  obtain ⟨rfl, rfl⟩ := get_ok.mp h₆
  obtain ⟨-, rfl⟩ := pure_ok.mp h₇
  exact ⟨_, _, h₂, h₄, h₅⟩

end Collection

/-! ## Calls -/

open Collection

theorem inferDimension_ok {es : List Embedding} {c c' : Collection} {d : Option ℕ}
    (h : inferDimension es c = .ok d c') :
    (d = none ∧ c' = c) ∨
      ∃ e rest, es = e :: rest ∧ c.config.dimension = 0 ∧ d = some e.length ∧
        c' = c.setDimension e.length := by
  rw [inferDimension, bind_ok] at h
  obtain ⟨_, _, hget, h⟩ := h
  obtain ⟨rfl, rfl⟩ := get_ok.mp hget
  cases es with
  | nil =>
      obtain ⟨rfl, rfl⟩ := pure_ok.mp h
      exact Or.inl ⟨rfl, rfl⟩
  | cons e rest =>
      simp only at h
      by_cases hdim : c.config.dimension = 0
      · rw [if_pos hdim, bind_ok] at h
        obtain ⟨_, _, hmod, h⟩ := h
        obtain rfl := modify_ok.mp hmod
        obtain ⟨rfl, rfl⟩ := pure_ok.mp h
        exact Or.inr ⟨e, rest, rfl, hdim, rfl, rfl⟩
      · rw [if_neg hdim] at h
        obtain ⟨rfl, rfl⟩ := pure_ok.mp h
        exact Or.inl ⟨rfl, rfl⟩

theorem persistDimension_ok {p : Bool} {d : Option ℕ} {c c' : Collection} {u : Unit}
    (h : persistDimension p d c = .ok u c') :
    c' = c ∨ ∃ dim, d = some dim ∧
      c' = { c with catalog := { c.catalog with dimension := dim } } := by
  cases d with
  | none => exact Or.inl (pure_ok.mp h).2.symm
  | some dim =>
      rw [persistDimension] at h
      cases p with
      | false => exact Or.inl (pure_ok.mp h).2.symm
      | true => exact Or.inr ⟨dim, rfl, modify_ok.mp h⟩

/-- **An accepted put batch**, phase by phase. -/
theorem putBatch_ok {p : Bool} {validate : Collection → Except EngineError Unit}
    {es : List Embedding} {ops : List Operation} {c c' : Collection} {u : Unit}
    (h : putBatch p validate es ops c = .ok u c') :
    ∃ d c₁ c₂ c₃ c₄, inferDimension es c = .ok d c₁ ∧ validate c₁ = .ok () ∧
      persistDimension p d c₁ = .ok () c₂ ∧ writeOps ops c₂ = .ok () c₃ ∧
      flushIfNeeded c₃ = .ok () c₄ ∧ autoCheckpoint c₄ = .ok () c' := by
  rw [putBatch] at h
  simp only [bind_ok] at h
  obtain ⟨d, c₁, h₁, _, _, h₂, _, _, h₃, _, c₂, h₄, _, c₃, h₅, _, c₄, h₆, h₇⟩ := h
  obtain ⟨rfl, rfl⟩ := get_ok.mp h₂
  obtain ⟨hval, rfl⟩ := ofExcept_ok.mp h₃
  exact ⟨d, _, c₂, c₃, c₄, h₁, hval, h₄, h₅, h₆, h₇⟩

theorem update_ok {ids : List Id} {ms : Option (List (Option Metadata))}
    {ds : Option (List (Option Document))} {c c' : Collection} {u : Unit}
    (h : update ids ms ds c = .ok u c') :
    c.validateUpdate ids ms ds = .ok () ∧
      ∃ c₁, writeOps (updateOps ids ms ds) c = .ok () c₁ ∧ autoCheckpoint c₁ = .ok () c' := by
  rw [update] at h
  simp only [bind_ok] at h
  obtain ⟨_, _, h₁, _, _, h₂, _, c₁, h₃, h₄⟩ := h
  obtain ⟨rfl, rfl⟩ := get_ok.mp h₁
  obtain ⟨hval, rfl⟩ := ofExcept_ok.mp h₂
  exact ⟨hval, c₁, h₃, h₄⟩

theorem delete_ok {ids : List Id} {c c' : Collection} {u : Unit}
    (h : delete ids c = .ok u c') :
    ∃ c₁, writeOps (ids.map .delete) c = .ok () c₁ ∧ autoCheckpoint c₁ = .ok () c' := by
  rw [delete, bind_ok] at h
  obtain ⟨_, c₁, h₁, h₂⟩ := h
  exact ⟨c₁, h₁, h₂⟩

theorem accepted_eq_ok {α : Type} {m : EngineM α} {c c' : Collection} :
    Call.accepted m c = .ok c' ↔ ∃ a, m c = .ok a c' := by
  rw [Call.accepted]
  cases m c <;> simp

end Rekha
