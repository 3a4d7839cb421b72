import Rekha.Engine.Steps
import Rekha.Index.Labels

/-!
# Opening a collection

What an opening starts from (`based`: the snapshot, or nothing), the replay of
the log tail on top of it, and why the flush that ends an opening goes through:
in a collection of fixed dimension the index stays well formed and every vector
that may reach it has the right length (`open_succeeds`).
-/

namespace Rekha

open Trace Outcome

namespace UsearchIndex

theorem Wf.reindex {x : UsearchIndex} {r : Record} {e : Embedding} (hx : x.Wf)
    (hlen : e.length = x.dimension) : ∃ x', Collection.reindexed x r e x' := by
  simp only [Collection.reindexed_iff_add]
  refine (hx.delete r.id).add_succeeds ?_ ?_
  · rw [(x.delete_dimension r.id).1]
    exact hlen
  · rw [labels_delete, if_pos rfl]

end UsearchIndex

namespace Collection

/-! ## The index along flushes and rebuilds -/

theorem reindexed_wf {x x' : UsearchIndex} {r : Record} {e : Embedding}
    (h : reindexed x r e x') (hx : x.Wf) : x'.Wf ∧ x'.dimension = x.dimension := by
  rw [reindexed_iff_add] at h
  refine ⟨(hx.delete r.id).add h, ?_⟩
  obtain ⟨-, -, -, rfl⟩ := UsearchIndex.add_ok h
  exact (x.delete_dimension r.id).1

theorem Reindexed.wf {x x' : UsearchIndex} {batch : List Record} (h : Reindexed x batch x')
    (hx : x.Wf) : x'.Wf ∧ x'.dimension = x.dimension := by
  induction h with
  | nil x => exact ⟨hx, rfl⟩
  | skip _ _ ih => exact ih hx
  | insert _ hre _ ih =>
      obtain ⟨hwf, hdim⟩ := reindexed_wf hre hx
      obtain ⟨hwf', hdim'⟩ := ih hwf
      exact ⟨hwf', hdim'.trans hdim⟩

theorem Inserted.wf {x x' : UsearchIndex} {l : List (Id × Embedding)} (h : Inserted x l x')
    (hx : x.Wf) : x'.Wf ∧ x'.dimension = x.dimension := by
  induction h with
  | nil x => exact ⟨hx, rfl⟩
  | cons hadd _ ih =>
      obtain ⟨hwf, hdim⟩ := ih (hx.add hadd)
      refine ⟨hwf, hdim.trans ?_⟩
      obtain ⟨-, -, -, rfl⟩ := UsearchIndex.add_ok hadd
      rfl

theorem applyRecord_index_wf {c : Collection} (r : WalRecord) (hx : c.index.Wf) :
    (c.applyRecord r).index.Wf ∧ (c.applyRecord r).index.dimension = c.index.dimension := by
  rw [applyRecord, applyOperation_index]
  cases r.op with
  | delete id => exact ⟨hx.delete id, (c.index.delete_dimension id).1⟩
  | _ => exact ⟨hx, rfl⟩

theorem foldl_applyRecord_index_wf : ∀ (rs : List WalRecord) {c : Collection}, c.index.Wf →
    (rs.foldl applyRecord c).index.Wf ∧
      (rs.foldl applyRecord c).index.dimension = c.index.dimension
  | [], _, hx => ⟨hx, rfl⟩
  | r :: rs, c, hx => by
      obtain ⟨hwf, hdim⟩ := applyRecord_index_wf r hx
      obtain ⟨hwf', hdim'⟩ := foldl_applyRecord_index_wf rs hwf
      exact ⟨hwf', hdim'.trans hdim⟩

theorem Reindexed.space {x x' : UsearchIndex} {batch : List Record} (h : Reindexed x batch x') :
    x'.space = x.space := by
  induction h with
  | nil x => rfl
  | skip _ _ ih => exact ih
  | insert _ hre _ ih =>
      rw [ih]
      rw [reindexed_iff_add] at hre
      obtain ⟨-, -, -, rfl⟩ := UsearchIndex.add_ok hre
      exact (UsearchIndex.delete_dimension _ _).2

theorem foldl_applyRecord_index_space : ∀ (rs : List WalRecord) (c : Collection),
    (rs.foldl applyRecord c).index.space = c.index.space
  | [], _ => rfl
  | r :: rs, c => by
      rw [List.foldl_cons, foldl_applyRecord_index_space rs, applyRecord, applyOperation_index]
      cases r.op with
      | delete id => exact (c.index.delete_dimension id).2
      | _ => rfl

/-! ## The buffer along a replay -/

/-- An operation with a vector buffers one record; the others add none, and only
an update leaves a buffered record of its id. -/
theorem mem_bufferAfter {op : Operation} {seq : ℕ} {buffer : List Record} {r : Record}
    (h : r ∈ op.bufferAfter seq buffer) :
    (r ∈ buffer ∧ (r.id = op.id → op.isUpdate)) ∨
      (r.seq = seq ∧ r.id = op.id ∧ r.embedding = op.vector ∧ op.vector.isSome) := by
  cases op with
  | add id e md doc =>
      rcases List.mem_append.mp h with h | h
      · obtain ⟨hr, hid⟩ := List.mem_filter.mp h
        exact Or.inl ⟨hr, fun he => absurd he (of_decide_eq_true hid)⟩
      · rw [List.mem_singleton.mp h]
        exact Or.inr ⟨rfl, rfl, rfl, rfl⟩
  | upsert id e md doc =>
      rcases List.mem_append.mp h with h | h
      · obtain ⟨hr, hid⟩ := List.mem_filter.mp h
        exact Or.inl ⟨hr, fun he => absurd he (of_decide_eq_true hid)⟩
      · rw [List.mem_singleton.mp h]
        exact Or.inr ⟨rfl, rfl, rfl, rfl⟩
  | update id md doc => exact Or.inl ⟨h, fun _ => trivial⟩
  | delete id =>
      obtain ⟨hr, hid⟩ := List.mem_filter.mp h
      exact Or.inl ⟨hr, fun he => absurd he (of_decide_eq_true hid)⟩

theorem mem_buffer_foldl {r : Record} : ∀ {rs : List WalRecord} {c : Collection},
    r ∈ (rs.foldl applyRecord c).buffer →
      r ∈ c.buffer ∨ ∃ w ∈ rs, r.seq = w.seq ∧ r.embedding = w.op.vector
  | [], _, h => Or.inl h
  | w :: rs, c, h => by
      rcases @mem_buffer_foldl r rs _ h with h | ⟨w', hw', hr⟩
      · rw [applyRecord, applyOperation_buffer] at h
        rcases mem_bufferAfter h with ⟨h, -⟩ | ⟨hseq, -, hemb, -⟩
        · exact Or.inl h
        · exact Or.inr ⟨w, List.mem_cons_self, hseq, hemb⟩
      · exact Or.inr ⟨w', List.mem_cons_of_mem _ hw', hr⟩

/-! ## Flushes that go through -/

theorem flushRecord_of_reindexed {r : Record} {e : Embedding} {m : ℕ} {c : Collection}
    {x : UsearchIndex} (he : r.embedding = some e) (hx : reindexed c.index r e x) :
    flushRecord r m c = .ok (max m r.seq) { c with index := x } := by
  rw [reindexed] at hx
  rw [flushRecord, he]
  simp only [bind_ok, pure_ok]
  refine ⟨(), _, modify_ok.mpr rfl, (), { c with index := x }, ?_, trivial, rfl⟩
  rw [indexAdd_ok]
  by_cases hc : c.index.contains r.id
  · simp only [if_pos hc] at hx ⊢
    exact ⟨x, hx, rfl⟩
  · simp only [if_neg hc] at hx ⊢
    exact ⟨x, hx, rfl⟩

theorem flushRecords_of_reindexed {x x' : UsearchIndex} {batch : List Record}
    (h : Reindexed x batch x') : ∀ {m : ℕ} {c : Collection}, c.index = x →
      ∃ m', flushRecords batch m c = .ok m' { c with index := x' } := by
  induction h with
  | nil x =>
      rintro m c rfl
      exact ⟨m, rfl⟩
  | skip hnone hrest ih =>
      rename_i r batch
      rintro m c rfl
      obtain ⟨m', h⟩ := ih (m := m) (c := c) rfl
      refine ⟨m', bind_ok.mpr ⟨m, c, ?_, h⟩⟩
      rw [flushRecord, hnone]
      rfl
  | insert hsome hre hrest ih =>
      rename_i x x₁ x' r e batch
      rintro m c rfl
      obtain ⟨m', h⟩ := ih (m := max m r.seq) (c := { c with index := x₁ }) rfl
      exact ⟨m', bind_ok.mpr ⟨_, _, flushRecord_of_reindexed hsome hre, h⟩⟩

theorem flushBuffer_succeeds_iff {c : Collection} :
    (∃ c', flushBuffer c = .ok () c') ↔ ∃ x, Reindexed c.index c.buffer x := by
  constructor
  · rintro ⟨c', h⟩
    obtain ⟨x, hx, -⟩ := flushBuffer_ok h
    exact ⟨x, hx⟩
  · rintro ⟨x, hx⟩
    obtain ⟨m, h⟩ := flushRecords_of_reindexed hx (m := 0) (c := { c with buffer := [] }) rfl
    refine ⟨{ c with buffer := [], index := x, flushedSeq := max c.flushedSeq m }, ?_⟩
    rw [flushBuffer]
    simp only [bind_ok]
    exact ⟨c, c, rfl, (), _, modify_ok.mpr rfl, m, _, h, modify_ok.mpr rfl⟩

theorem exists_reindexed : ∀ {batch : List Record} {x : UsearchIndex}, x.Wf →
    (∀ r ∈ batch, ∀ e, r.embedding = some e → e.length = x.dimension) →
      ∃ x', Reindexed x batch x'
  | [], x, _, _ => ⟨x, Reindexed.nil x⟩
  | r :: batch, x, hx, hfit => by
      have hrest : ∀ r' ∈ batch, ∀ e, r'.embedding = some e → e.length = x.dimension :=
        fun r' hr' => hfit r' (List.mem_cons_of_mem _ hr')
      cases he : r.embedding with
      | none =>
          obtain ⟨x', hx'⟩ := exists_reindexed hx hrest
          exact ⟨x', Reindexed.skip he hx'⟩
      | some e =>
          obtain ⟨x₁, hre⟩ := hx.reindex (r := r) (hfit r List.mem_cons_self e he)
          obtain ⟨hwf, hdim⟩ := reindexed_wf hre hx
          obtain ⟨x', hx'⟩ := exists_reindexed hwf fun r' hr' e' he' =>
            (hrest r' hr' e' he').trans hdim.symm
          exact ⟨x', Reindexed.insert he hre hx'⟩

/-- A flush goes through when the index is well formed and the buffered vectors
have its dimension. -/
theorem flushBuffer_succeeds {c : Collection} (hx : c.index.Wf)
    (hfit : ∀ r ∈ c.buffer, ∀ e, r.embedding = some e → e.length = c.index.dimension) :
    ∃ c', flushBuffer c = .ok () c' :=
  flushBuffer_succeeds_iff.mpr (exists_reindexed hx hfit)

theorem flushIfNeeded_succeeds_iff {c : Collection} :
    (∃ c', flushIfNeeded c = .ok () c') ↔
      (c.config.hnsw.batchSize ≤ c.buffer.length → ∃ c', flushBuffer c = .ok () c') := by
  rw [flushIfNeeded]
  simp only [bind_ok]
  constructor
  · rintro ⟨c', _, _, hget, h⟩ hlen
    obtain ⟨rfl, rfl⟩ := get_ok.mp hget
    rw [if_pos hlen] at h
    exact ⟨c', h⟩
  · intro h
    by_cases hlen : c.config.hnsw.batchSize ≤ c.buffer.length
    · obtain ⟨c', hc'⟩ := h hlen
      exact ⟨c', c, c, rfl, by rw [if_pos hlen]; exact hc'⟩
    · exact ⟨c, c, c, rfl, by rw [if_neg hlen]; rfl⟩

theorem flushIfNeeded_succeeds {c : Collection} (hx : c.index.Wf)
    (hfit : ∀ r ∈ c.buffer, ∀ e, r.embedding = some e → e.length = c.index.dimension) :
    ∃ c', flushIfNeeded c = .ok () c' :=
  flushIfNeeded_succeeds_iff.mpr fun _ => flushBuffer_succeeds hx hfit

/-! ## The state a replay starts from -/

/-- The snapshot's state, or the fresh one. -/
def based (config : CollectionConfig) (d : Disk) (order : HashOrder) : Collection :=
  (loadCheckpoint order (new config d)).getD (new config d)

theorem restored_eq (config : CollectionConfig) (d : Disk) (order : HashOrder) :
    restored config d order =
      (based config d order).replayAfter (based config d order).flushedSeq := by
  rw [restored, based]
  cases loadCheckpoint order (new config d) <;> rfl

theorem replayAfter_eq (c : Collection) (f : ℕ) : c.replayAfter f =
    (c.wal.file.records.filter fun r => decide (f < r.seq)).foldl applyRecord c := by
  rw [replayAfter]
  split
  · rw [Wal.readRange_lastSeq]
  · rename_i hlast
    have hnil : (c.wal.file.records.filter fun r => decide (f < r.seq)) = [] := by
      apply List.filter_eq_nil_iff.mpr
      intro r hr
      have := c.wal.le_lastSeq r hr
      simp only [decide_eq_true_eq]
      omega
    rw [hnil]
    rfl

theorem foldl_restoreOffset_frame : ∀ (l : List (Sigma fun _ : Id => Record))
    (c : Collection), (l.foldl restoreOffset c).settled = c.settled ∧
      (l.foldl restoreOffset c).records = c.records ∧
      (l.foldl restoreOffset c).buffer = c.buffer ∧
      (l.foldl restoreOffset c).index = c.index
  | [], _ => ⟨rfl, rfl, rfl, rfl⟩
  | e :: l, c => foldl_restoreOffset_frame l (c.restoreOffset e)

def loadedIndex (config : CollectionConfig) (d : Disk) : UsearchIndex :=
  match UsearchIndex.load d.dir.indexBin d.dir.indexMeta config.space config.dimension with
  | .ok x => x
  | .error _ => UsearchIndex.withHnsw config.space config.dimension

theorem based_none {config : CollectionConfig} {d : Disk} {order : HashOrder}
    (h : snapshotFiles d.dir = none) : based config d order = new config d := by
  rw [based, loadCheckpoint, show (new config d).dir = d.dir from rfl, h]
  rfl

/-- The state whose offsets and postings a snapshot's records then re-derive. -/
def unindexed (config : CollectionConfig) (d : Disk) (records : FinMap Id Record) :
    Collection :=
  { new config d with records := records }

/-- The state after the loop over a snapshot's records. -/
def reoffset (config : CollectionConfig) (d : Disk) (order : HashOrder)
    (records : FinMap Id Record) : Collection :=
  (order.iter records).foldl restoreOffset (unindexed config d records)

structure Loaded (cfg : CollectionConfig) (d : Disk) (order : HashOrder) (m : CheckpointMeta)
    (snapshot : FinMap Id Record) (c : Collection) : Prop where
  config : c.config = cfg
  dir : c.dir = d.dir
  catalog : c.catalog = d.catalog
  wal : c.wal = Wal.openFile d.wal (some m.nextSeq)
  flushedSeq : c.flushedSeq = m.flushedSeq
  lastCheckpointSeq : c.lastCheckpointSeq = m.flushedSeq
  buffer : c.buffer = []
  index : c.index = loadedIndex cfg d
  segments : c.segments = d.dir.segmentBin.toList
  segmentIndex : c.segmentIndex = d.dir.segmentIndexBin.getD ∅
  records : c.records =
    if d.dir.segmentBin.toList.isEmpty then snapshot else stripRecords m.flushedSeq snapshot
  offsets : c.offsets = (reoffset cfg d order snapshot).offsets
  idByOffset : c.idByOffset = (reoffset cfg d order snapshot).idByOffset
  nextOffset : c.nextOffset = (reoffset cfg d order snapshot).nextOffset
  postings : c.postings = (reoffset cfg d order snapshot).postings

/-- **An opening from a snapshot.** -/
theorem based_some {config : CollectionConfig} {d : Disk} {order : HashOrder}
    {m : CheckpointMeta} {records : FinMap Id Record}
    (h : snapshotFiles d.dir = some (m, records)) :
    Loaded config d order m records (based config d order) := by
  rw [based, loadCheckpoint, show (new config d).dir = d.dir from rfl, h]
  have hframe := foldl_restoreOffset_frame (order.iter records) (unindexed config d records)
  rw [← reoffset] at hframe
  obtain ⟨hset, hrecs, hbuf, hidx⟩ := hframe
  have hconfig := congrArg Settled.config hset
  have hdir := congrArg Settled.dir hset
  have hcatalog := congrArg Settled.catalog hset
  have hwal := congrArg Settled.wal hset
  have hsegidx := congrArg Settled.segmentIndex hset
  simp only [settled] at hconfig hdir hcatalog hwal hsegidx
  constructor
  · exact hconfig
  · exact hdir
  · exact hcatalog
  · show Wal.openFile (reoffset config d order records).wal.file (some m.nextSeq) = _
    rw [hwal]
    rfl
  · rfl
  · rfl
  · exact hbuf
  · show (match UsearchIndex.load (reoffset config d order records).dir.indexBin
        (reoffset config d order records).dir.indexMeta
        (reoffset config d order records).config.space
        (reoffset config d order records).config.dimension with
      | .ok x => x
      | .error _ => (reoffset config d order records).index) = _
    rw [hdir, hconfig, hidx]
    rfl
  · show (reoffset config d order records).dir.segmentBin.toList = _
    rw [hdir]
    rfl
  · show (reoffset config d order records).dir.segmentIndexBin.getD
      (reoffset config d order records).segmentIndex = _
    rw [hdir, hsegidx]
    rfl
  · show (if (reoffset config d order records).dir.segmentBin.toList.isEmpty
      then (reoffset config d order records).records
      else stripRecords m.flushedSeq (reoffset config d order records).records) = _
    rw [hdir, hrecs]
    rfl
  · rfl
  · rfl
  · rfl
  · rfl

theorem snapshotFiles_eq_some {dir : CheckpointDir} {m : CheckpointMeta}
    {records : FinMap Id Record} : snapshotFiles dir = some (m, records) ↔
      dir.checkpointJson = some m ∧ dir.recordsBin = some records ∧
        records.size = m.recordCount := by
  rw [snapshotFiles]
  cases dir.checkpointJson with
  | none => simp
  | some m' =>
      cases dir.recordsBin with
      | none => simp
      | some records' =>
          simp only
          split
          · rename_i hsize
            simp only [Option.some.injEq, Prod.mk.injEq]
            constructor
            · rintro ⟨rfl, rfl⟩
              exact ⟨rfl, rfl, hsize⟩
            · rintro ⟨rfl, rfl, -⟩
              exact ⟨rfl, rfl⟩
          · rename_i hsize
            simp only [reduceCtorEq, Option.some.injEq, false_iff, not_and]
            rintro rfl rfl
            exact hsize

theorem reopen_ok {config : CollectionConfig} {d : Disk} {order : HashOrder}
    {c : Collection} (h : reopen config d order = .ok c) :
    flushIfNeeded (restored { config with dimension := d.catalog.dimension } d order) =
      .ok () c := by
  rw [reopen, openDisk] at h
  split at h
  · rename_i u c' hflush
    rw [Except.ok.inj h] at hflush
    exact hflush
  · exact absurd h (by simp)

theorem reopen_of_flush {config : CollectionConfig} {d : Disk} {order : HashOrder}
    {c : Collection} (h : flushIfNeeded
      (restored { config with dimension := d.catalog.dimension } d order) = .ok () c) :
    reopen config d order = .ok c := by
  rw [reopen, openDisk, h]

/-! ## A fixed dimension -/

/-- Everything that holds or will hold a vector agrees on the dimension. -/
structure Fits (d : ℕ) (c : Collection) : Prop where
  config : c.config.dimension = d
  catalog : c.catalog.dimension = d
  wf : c.index.Wf
  dimension : c.index.dimension = d
  buffer : ∀ r ∈ c.buffer, ∀ e, r.embedding = some e → e.length = d
  log : ∀ r ∈ c.wal.file.records, ∀ e, r.op.vector = some e → e.length = d
  saved : ∀ x, UsearchIndex.load c.dir.indexBin c.dir.indexMeta c.config.space d = .ok x → x.Wf

section Fits

variable {d : ℕ} {c c' : Collection} {ops : List Operation}

theorem fits_fresh (config : CollectionConfig) :
    Fits config.dimension (Collection.fresh config) where
  config := rfl
  catalog := rfl
  wf := UsearchIndex.wf_withHnsw _ _
  dimension := rfl
  buffer := fun r hr => absurd hr List.not_mem_nil
  log := fun r hr => absurd hr List.not_mem_nil
  saved := fun x hx => by simp [fresh, new, freshDisk, UsearchIndex.load] at hx

theorem Fits.replay (h : Fits d c) {rs : List WalRecord}
    (hrs : ∀ r ∈ rs, ∀ e, r.op.vector = some e → e.length = d) :
    Fits d (rs.foldl applyRecord c) := by
  have hset := foldl_applyRecord_settled rs c
  obtain ⟨hwf, hdim⟩ := foldl_applyRecord_index_wf rs h.wf
  have hbuf : ∀ r ∈ (rs.foldl applyRecord c).buffer, ∀ e, r.embedding = some e →
      e.length = d := by
    intro r hr e he
    rcases mem_buffer_foldl hr with hr | ⟨w, hw, -, hemb⟩
    · exact h.buffer r hr e he
    · exact hrs w hw e (hemb.symm.trans he)
  generalize rs.foldl applyRecord c = c' at *
  simp only [settled, Settled.mk.injEq] at hset
  obtain ⟨hconfig, hwal, hdir, hcatalog, -⟩ := hset
  refine ⟨?_, ?_, hwf, hdim.trans h.dimension, hbuf, ?_, ?_⟩
  · rw [hconfig, h.config]
  · rw [hcatalog, h.catalog]
  · rw [hwal]
    exact h.log
  · rw [hdir, hconfig]
    exact h.saved

theorem Fits.commit (h : Fits d c) (hd : d ≠ 0) (hacc : c.Accepts ops)
    (hw : writeOps ops c = .ok () c') : Fits d c' := by
  obtain ⟨w, hrecs, -, rfl⟩ := writeOps_ok hw
  have hbatch : ∀ r ∈ numbered c.wal.lastSeq ops, ∀ e, r.op.vector = some e →
      e.length = d := by
    intro r hr e he
    rcases hacc.fits r.op (op_mem_of_mem_numbered hr) e he with hz | hlen
    · exact absurd (h.config.symm.trans hz) hd
    · exact hlen.trans h.config
  have hlogged : Fits d { c with wal := w } := by
    refine ⟨h.config, h.catalog, h.wf, h.dimension, h.buffer, fun r hr e he => ?_, h.saved⟩
    rcases List.mem_append.mp (hrecs ▸ hr) with hr | hr
    · exact h.log r hr e he
    · exact hbatch r hr e he
  exact hlogged.replay hbatch

theorem Fits.flush (h : Fits d c) (hf : flushBuffer c = .ok () c') : Fits d c' := by
  obtain ⟨x, hx, rfl⟩ := flushBuffer_ok hf
  obtain ⟨hwf, hdim⟩ := hx.wf h.wf
  exact ⟨h.config, h.catalog, hwf, hdim.trans h.dimension,
    fun r hr => absurd hr List.not_mem_nil, h.log, h.saved⟩

theorem Fits.flushIfNeeded (h : Fits d c)
    (hf : Collection.flushIfNeeded c = .ok () c') : Fits d c' := by
  rcases flushIfNeeded_ok hf with rfl | hf
  · exact h
  · exact h.flush hf

theorem Fits.rebuild (h : Fits d c) (hr : rebuildIndex c = .ok () c') : Fits d c' := by
  obtain ⟨x, hx, rfl⟩ := rebuildIndex_ok hr
  obtain ⟨hwf, hdim⟩ := hx.wf (UsearchIndex.wf_withHnsw _ _)
  exact ⟨h.config, h.catalog, hwf, hdim.trans h.config, h.buffer, h.log, h.saved⟩

theorem Fits.checkpoint (h : Fits d c) (hc : Collection.checkpoint c = .ok () c') :
    Fits d c' := by
  rcases checkpoint_ok hc with ⟨-, rfl⟩ | ⟨-, files, -, rfl⟩
  · exact h
  · refine ⟨h.config, h.catalog, h.wf, h.dimension, h.buffer, fun r hr => ?_, fun x hx => ?_⟩
    · exact h.log r (List.mem_of_mem_filter hr)
    · obtain ⟨inner, m, hbin, hmeta, -, rfl⟩ := UsearchIndex.load_ok hx
      simp only [checkpointed, checkpointFiles] at hbin hmeta
      split at hbin
      · rename_i hlen
        rw [if_pos hlen] at hmeta
        obtain rfl := Option.some.inj hbin
        obtain rfl := Option.some.inj hmeta
        exact h.wf.retag _ _
      · exact absurd hbin (by simp)

theorem Fits.based (h : Fits d c) (order : HashOrder) :
    Fits d (based { c.config with dimension := c.disk.catalog.dimension } c.disk order) := by
  have hdim : c.disk.catalog.dimension = d := h.catalog
  rw [hdim]
  cases hsnap : snapshotFiles c.disk.dir with
  | none =>
      rw [based_none hsnap]
      exact ⟨rfl, h.catalog, UsearchIndex.wf_withHnsw _ _, rfl,
        fun r hr => absurd hr List.not_mem_nil, h.log, h.saved⟩
  | some p =>
      have hl := @based_some { c.config with dimension := d } c.disk order _ _ hsnap
      refine ⟨by rw [hl.config], by rw [hl.catalog]; exact h.catalog, ?_, ?_, ?_, ?_, ?_⟩
      · rw [hl.index, loadedIndex]
        split
        · rename_i x hx
          exact h.saved x hx
        · exact UsearchIndex.wf_withHnsw _ _
      · rw [hl.index, loadedIndex]
        split
        · rename_i x hx
          obtain ⟨inner, m, -, -, -, rfl⟩ := UsearchIndex.load_ok hx
          rfl
        · rfl
      · rw [hl.buffer]
        exact fun r hr => absurd hr List.not_mem_nil
      · rw [hl.wal]
        exact h.log
      · rw [hl.dir, hl.config]
        exact h.saved

theorem Fits.replayAfter (h : Fits d c) (f : ℕ) : Fits d (c.replayAfter f) := by
  rw [replayAfter_eq]
  exact h.replay fun r hr => h.log r (List.mem_of_mem_filter hr)

theorem Fits.restored (h : Fits d c) (order : HashOrder) :
    Fits d (restored { c.config with dimension := c.disk.catalog.dimension } c.disk order) := by
  rw [restored_eq]
  exact (h.based order).replayAfter _

/-- **Reopening never fails** in a collection of fixed dimension. -/
theorem Fits.open_succeeds (h : Fits d c) (order : HashOrder) :
    ∃ c', reopen c.config c.disk order = .ok c' := by
  have hr := h.restored order
  obtain ⟨c', hc'⟩ := flushIfNeeded_succeeds hr.wf fun r hmem e he =>
    (hr.buffer r hmem e he).trans hr.dimension.symm
  exact ⟨c', reopen_of_flush hc'⟩

theorem Fits.step {p : Phase} (h : Fits d c) (hd : d ≠ 0) (hs : Step p ops c c') :
    Fits d c' := by
  cases hs with
  | infer dim hzero => exact absurd (h.config.symm.trans hzero) hd
  | persist => exact ⟨h.config, h.config, h.wf, h.dimension, h.buffer, h.log, h.saved⟩
  | commit hacc hw => exact h.commit hd hacc hw
  | flush hf => exact h.flush hf
  | checkpoint hc => exact h.checkpoint hc
  | rebuild hr => exact h.rebuild hr
  | restart order ho => exact (h.restored order).flushIfNeeded (reopen_ok ho)

end Fits

end Collection

end Rekha
