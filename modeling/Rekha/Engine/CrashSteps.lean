import Rekha.Engine.Persisted

/-!
# The steps of a checkpoint and the disks between them

A checkpoint replaces its files one by one. The process may die after any prefix
of these steps, and the next opening works on the files that prefix left
(`crashed`, `forall_crashed_iff`). There are four kinds of such disks: nothing
replaced, the marker missing or counting other records, the older marker over the
new records, and the new marker. For each kind one theorem says what recovery
from it takes.
-/

namespace Rekha

open Trace LastWrite UsearchIndex

namespace Collection

/-! ## The steps -/

/-- Dump the index, or remove an older dump. -/
def indexSteps (c : Collection) : List DurableStep :=
  if c.index.len ≠ 0 then [.replaceIndexBin c.index.inner, .replaceIndexMeta c.index.savedMeta]
  else [.removeIndexBin, .removeIndexMeta]

/-- The steps from the segment on; a panic of the writer cuts them off. -/
def segmentSteps (c : Collection) : List DurableStep :=
  match c.segmentFiles with
  | none => []
  | some files =>
      (match files with
        | some (s, idx) => [.replaceSegment s, .replaceSegmentIndex idx]
        | none => [.removeSegments, .removeSegmentIndex]) ++
        [.advanceLogOffset c.flushedSeq, .pruneWal c.flushedSeq]

def checkpointSteps (c : Collection) : List DurableStep :=
  if c.records.size = 0 then []
  else .replaceRecords c.records :: c.indexSteps ++
    .replaceCheckpointJson c.checkpointMeta :: c.segmentSteps

/-- The disk after the first `i` steps. -/
def crashed (c : Collection) (i : ℕ) : Disk :=
  (c.checkpointSteps.take i).foldl (fun d s => s.apply d) c.disk

/-! ## The disks a crash can leave -/

def savedBin (c : Collection) : Option Graph :=
  if c.index.len ≠ 0 then some c.index.inner else none

def savedIndexMeta (c : Collection) : Option IndexMeta :=
  if c.index.len ≠ 0 then some c.index.savedMeta else none

/-- The records are replaced, the marker is not; the index files may be. -/
def dumping (c : Collection) (bin : Option Graph) (im : Option IndexMeta) : Disk :=
  { c.disk with dir := { c.dir with
    recordsBin := some c.records, indexBin := bin, indexMeta := im } }

/-- The marker is written; the segment files are the given ones. -/
def marked (c : Collection) (s : Option Segment) (idx : Option (FinMap Id ℕ)) : Disk :=
  { c.disk with dir := {
    checkpointJson := some c.checkpointMeta
    recordsBin := some c.records
    indexBin := c.savedBin
    indexMeta := c.savedIndexMeta
    segmentBin := s
    segmentIndexBin := idx } }

/-- The catalog knows the watermark; the log may be pruned to it. -/
def advanced (c : Collection) (files : Option (Segment × FinMap Id ℕ)) (wal : WalFile) : Disk :=
  { wal := wal
    dir := c.checkpointFiles files
    catalog := { c.catalog with logOffset := max c.catalog.logOffset c.flushedSeq } }

section Crashed

variable {c c' : Collection}

theorem forall_take_foldl_cons {σ α : Type} {P : σ → Prop} {f : σ → α → σ} {d : σ} {a : α}
    {l : List α} : (∀ i, P (((a :: l).take i).foldl f d)) ↔
      P d ∧ ∀ i, P ((l.take i).foldl f (f d a)) := by
  constructor
  · exact fun h => ⟨h 0, fun i => h (i + 1)⟩
  · rintro ⟨h₀, h⟩ i
    cases i with
    | zero => exact h₀
    | succ i => exact h i

/-- **The disks of all prefixes.** -/
theorem forall_crashed_iff {P : Disk → Prop} (hsize : c.records.size ≠ 0) :
    (∀ i, P (c.crashed i)) ↔ P c.disk ∧ P (c.dumping c.dir.indexBin c.dir.indexMeta) ∧
      P (c.dumping c.savedBin c.dir.indexMeta) ∧ P (c.dumping c.savedBin c.savedIndexMeta) ∧
      P (c.marked c.dir.segmentBin c.dir.segmentIndexBin) ∧
      ∀ files, c.segmentFiles = some files →
        P (c.marked (files.map Prod.fst) c.dir.segmentIndexBin) ∧
        P (c.marked (files.map Prod.fst) (files.map Prod.snd)) ∧
        P (c.advanced files c.wal.file) ∧
        P (c.advanced files (c.wal.file.keepAbove c.flushedSeq)) := by
  have hindex : c.indexSteps.foldl (fun d s => s.apply d) (c.dumping c.dir.indexBin c.dir.indexMeta)
      = c.dumping c.savedBin c.savedIndexMeta := by
    rw [indexSteps, savedBin, savedIndexMeta]
    split <;> rfl
  have hsave : ∃ s₁ s₂, c.indexSteps = [s₁, s₂] ∧
      s₁.apply (c.dumping c.dir.indexBin c.dir.indexMeta) =
        c.dumping c.savedBin c.dir.indexMeta := by
    rw [indexSteps, savedBin]
    split
    · exact ⟨_, _, rfl, rfl⟩
    · exact ⟨_, _, rfl, rfl⟩
  obtain ⟨s₁, s₂, hsteps, hbin⟩ := hsave
  rw [hsteps, List.foldl_cons, List.foldl_cons, List.foldl_nil, hbin] at hindex
  simp only [crashed, checkpointSteps, if_neg hsize, hsteps, List.cons_append, List.nil_append,
    forall_take_foldl_cons]
  rw [show (DurableStep.replaceRecords c.records).apply c.disk =
    c.dumping c.dir.indexBin c.dir.indexMeta from rfl, hbin, hindex]
  refine and_congr_right fun _ => and_congr_right fun _ => and_congr_right fun _ =>
    and_congr_right fun _ => ?_
  rw [segmentSteps]
  cases hfiles : c.segmentFiles with
  | none =>
      simp only [List.take_nil, List.foldl_nil, forall_const, reduceCtorEq, false_implies, and_true]
      rfl
  | some files =>
      simp only [Option.some.injEq, forall_eq']
      cases files with
      | none =>
          simp only [List.cons_append, List.nil_append, forall_take_foldl_cons, List.take_nil,
            List.foldl_nil, forall_const]
          rfl
      | some p =>
          simp only [List.cons_append, List.nil_append, forall_take_foldl_cons, List.take_nil,
            List.foldl_nil, forall_const]
          rfl

/-- **All steps together** are what a completed checkpoint does to the disk. -/
theorem checkpoint_disk (h : Collection.checkpoint c = .ok () c') :
    c'.disk = c.crashed c.checkpointSteps.length := by
  rw [crashed, List.take_length]
  rcases checkpoint_ok h with ⟨hsize, rfl⟩ | ⟨hsize, files, hfiles, rfl⟩
  · rw [checkpointSteps, if_pos hsize]
    rfl
  · rw [checkpointSteps, if_neg hsize, segmentSteps, hfiles, indexSteps]
    cases files <;> by_cases hlen : c.index.len ≠ 0 <;>
      simp [DurableStep.apply, disk, checkpointed, checkpointFiles, Wal.openFile, hlen]

end Crashed

/-! ## Recovery from each disk -/

section Stages

variable {c : Collection} {h : List Operation} {d : Disk}

/-- The flush of the buffer the whole log rebuilds meets vectors of the catalog's
dimension only. -/
def LogFits (c : Collection) : Prop :=
  c.config.hnsw.batchSize ≤ (bufferOf c.wal.file.records).length →
    ∀ b ∈ bufferOf c.wal.file.records, ∀ e, b.embedding = some e →
      e.length = c.catalog.dimension

theorem openedIndex_dimension (dir : CheckpointDir) (space : Distance) (dimension : ℕ) :
    (dir.openedIndex space dimension).dimension = dimension := by
  rcases dir.openedIndex_cases space dimension with hempty | hload
  · rw [hempty]
    rfl
  · obtain ⟨inner, m, -, -, -, hx⟩ := UsearchIndex.load_ok hload
    rw [hx]

theorem logFits_iff {x : UsearchIndex} (hx : x.Wf) (hdim : x.dimension = c.catalog.dimension) :
    FlushFits c.config.hnsw.batchSize c.wal.file.records x ↔ LogFits c := by
  rw [FlushFits, LogFits, hdim]
  exact imp_congr_right fun _ => and_iff_left (hx.freeLabels _)

theorem Logged.content_kept (hl : Logged h c) {q : ℕ} (hq : q ≤ h.length) (id : Id) :
    (lastWrite (fun r => contentWrite r id) (numbered q (h.drop q))).getD (c.content id) =
      c.content id := by
  rw [hl.content, registers_split hq]
  cases lastWrite (fun r => contentWrite r id) (numbered q (h.drop q)) <;> rfl

theorem view_eq_iff (hcontent : ∀ id, d.content id = c.content id) :
    (∀ id, d.view id = c.view id) ↔ ∀ id r, c.records.lookup id = some r →
      (d.dir.savedVector id).or (d.memVector id) = (c.loadVector id).or r.embedding := by
  apply forall_congr'
  intro id
  rw [view_eq, Disk.view, hcontent, content, contentOf, memVector]
  cases hr : c.records.lookup id with
  | none => simp
  | some r => simp [Content.view]

theorem disk_content (hl : Logged h c) (id : Id) : c.disk.content id = c.content id := by
  have hrestored := (hl.restored c.config ⟨fun m => m.entries, fun _ => List.Perm.refl _⟩).content
  rw [restored_eq_foldl, content_foldl] at hrestored
  have := congrFun hrestored id
  rw [foldl_overwrite, ← hl.content, content, based_records] at this
  exact this

theorem disk_view (hl : Logged h c) (hp : Persisted c) (id : Id) :
    c.disk.view id = c.view id := by
  refine (view_eq_iff (disk_content hl)).mpr (fun id r hr => ?_) id
  have hmem : c.disk.memVector id = r.embedding := by
    rw [Disk.memVector, hl.replayed]
    refine (hp.memory id).symm.trans ?_
    rw [memVector, hr]
    rfl
  rw [hmem]
  exact congrArg (Option.or · r.embedding) (hp.savedVector hl id)

/-- **Nothing replaced**: a plain restart. -/
theorem recovers_disk_iff (hl : Logged h c) (hp : Persisted c) :
    Recovers c c.disk ↔ LogFits c := by
  have hx : (c.disk.dir.openedIndex c.config.space c.disk.catalog.dimension).Wf :=
    hp.graph.openedIndex _ _
  rw [recovers_iff hx.labelsBelow, hl.replayed,
    logFits_iff hx (openedIndex_dimension _ _ _), and_iff_left]
  exact disk_view hl hp

def loggedVector (c : Collection) (id : Id) : Option Embedding :=
  (lastWrite (fun r => vectorWrite r id) c.wal.file.records).getD none

theorem Logged.filter_zero (hl : Logged h c) :
    c.wal.file.records.filter (fun r => decide (0 < r.seq)) = c.wal.file.records := by
  refine List.filter_eq_self.mpr fun r hr => decide_eq_true ?_
  rw [hl.tail] at hr
  exact (Nat.zero_le _).trans_lt (seq_of_mem_numbered hr).1

/-- A disk without a usable snapshot: the log alone counts. -/
structure Unmarked (c : Collection) (d : Disk) : Prop where
  snapshot : snapshotFiles d.dir = none
  wal : d.wal = c.wal.file

section Unmarked

variable (hl : Logged h c) (hu : Unmarked c d)
include hl hu

theorem Unmarked.replayed : d.replayed = c.wal.file.records := by
  rw [Disk.replayed, CheckpointDir.watermark, hu.snapshot, hu.wal]
  exact hl.filter_zero

theorem Unmarked.content (id : Id) : d.content id =
    (lastWrite (fun r => contentWrite r id) c.wal.file.records).getD none := by
  rw [Disk.content, hu.replayed hl, CheckpointDir.baseRecords, hu.snapshot]
  rfl

theorem Unmarked.vector (id : Id) :
    (d.dir.savedVector id).or (d.memVector id) = c.loggedVector id := by
  rw [Disk.memVector, hu.replayed hl, CheckpointDir.baseRecords, CheckpointDir.savedVector,
    hu.snapshot]
  rfl

theorem Unmarked.flushFits_iff (hdim : d.catalog.dimension = c.catalog.dimension) :
    FlushFits c.config.hnsw.batchSize d.replayed
      (d.dir.openedIndex c.config.space d.catalog.dimension) ↔ LogFits c := by
  rw [CheckpointDir.openedIndex, hu.snapshot, hu.replayed hl]
  exact logFits_iff (wf_withHnsw _ _) hdim

theorem Unmarked.newer {id : Id} {r : Record} (hr : c.records.lookup id = some r)
    (hsome : (d.content id).isSome) : c.lastCheckpointSeq < r.seq := by
  rw [hl.newer_iff (hl.pruned.trans hl.flushed) hr, ← hl.tail]
  rw [hu.content hl] at hsome
  cases hw : lastWrite (fun r => contentWrite r id) c.wal.file.records with
  | none =>
      rw [hw] at hsome
      exact absurd hsome (by simp)
  | some v => rfl

theorem Unmarked.content_eq
    (hall : ∀ id r, c.records.lookup id = some r → c.lastCheckpointSeq < r.seq) (id : Id) :
    d.content id = c.content id := by
  have hp : c.lastCheckpointSeq ≤ h.length := hl.pruned.trans hl.flushed
  have hkept := hl.content_kept hp id
  rw [hu.content hl, hl.tail]
  cases hw : lastWrite (fun r => contentWrite r id)
      (numbered c.lastCheckpointSeq (h.drop c.lastCheckpointSeq)) with
  | some v =>
      rw [hw] at hkept
      exact hkept
  | none =>
      rw [Option.getD_none, Collection.content, contentOf]
      cases hr : c.records.lookup id with
      | none => rfl
      | some r =>
          have hnew := (hl.newer_iff hp hr).mp (hall id r hr)
          rw [hw] at hnew
          exact absurd hnew (by simp)

/-- **Recovery from the log alone.** -/
theorem Unmarked.recovers_iff (hdim : d.catalog.dimension = c.catalog.dimension) :
    Recovers c d ↔ LogFits c ∧ ∀ id r, c.records.lookup id = some r →
      c.lastCheckpointSeq < r.seq ∧ c.loggedVector id = (c.loadVector id).or r.embedding := by
  have hx : (d.dir.openedIndex c.config.space d.catalog.dimension).Wf := by
    rw [CheckpointDir.openedIndex, hu.snapshot]
    exact wf_withHnsw _ _
  rw [Collection.recovers_iff hx.labelsBelow, hu.flushFits_iff hl hdim]
  apply and_congr_right
  intro _
  constructor
  · intro hview
    have hnewer : ∀ id r, c.records.lookup id = some r → c.lastCheckpointSeq < r.seq := by
      intro id r hr
      refine hu.newer hl hr ?_
      have hid := congrArg Option.isSome (hview id)
      rwa [Disk.view, view_eq, Option.isSome_map, Option.isSome_map, Collection.content,
        contentOf, hr] at hid
    have hvec := (view_eq_iff (hu.content_eq hl hnewer)).mp hview
    exact fun id r hr => ⟨hnewer id r hr, (hu.vector hl id).symm.trans (hvec id r hr)⟩
  · intro hall
    refine (view_eq_iff (hu.content_eq hl fun id r hr => (hall id r hr).1)).mpr
      fun id r hr => ?_
    rw [hu.vector hl]
    exact (hall id r hr).2

end Unmarked

/-- A disk with a usable snapshot of the current records. -/
structure Snapped (c : Collection) (m : CheckpointMeta) (d : Disk) : Prop where
  snapshot : snapshotFiles d.dir = some (m, c.records)
  catalog : d.catalog.dimension = c.catalog.dimension

/-- What the snapshot's records keep of a vector: with a segment the ones up to the
watermark are dropped. -/
theorem Snapped.baseRecords {m : CheckpointMeta} (hs : Snapped c m d) :
    d.dir.baseRecords = if d.dir.segmentBin.isSome then stripRecords m.flushedSeq c.records
      else c.records := by
  rw [CheckpointDir.baseRecords, hs.snapshot]
  cases d.dir.segmentBin <;> rfl

theorem Snapped.savedVector {m : CheckpointMeta} (hs : Snapped c m d) (id : Id) :
    d.dir.savedVector id = ((d.dir.segmentIndexBin.getD ∅).lookup id).bind fun row =>
      d.dir.segmentBin.bind fun s => s.getVector row := by
  rw [CheckpointDir.savedVector, hs.snapshot]

theorem Snapped.content_eq {m : CheckpointMeta} (hl : Logged h c) (hs : Snapped c m d) {q : ℕ}
    (hq : q ≤ h.length) (hreplay : d.replayed = numbered q (h.drop q)) (id : Id) :
    d.content id = c.content id := by
  have hbase : contentOf d.dir.baseRecords = c.content := by
    rw [hs.baseRecords]
    split
    · exact contentOf_stripRecords _ _
    · rfl
  rw [Disk.content, hreplay, hbase]
  exact hl.content_kept hq id

/-- **Recovery under the old marker**, when the record count happens to agree. -/
theorem recovers_counted_iff {m : CheckpointMeta} (hl : Logged h c) (hp : Persisted c)
    (hs : Snapped c m d) (hm : m.flushedSeq = c.lastCheckpointSeq)
    (hreplay : d.replayed = c.wal.file.records) (hseg : d.dir.segmentBin = c.dir.segmentBin)
    (hidx : d.dir.segmentIndexBin = c.dir.segmentIndexBin)
    (hx : (d.dir.openedIndex c.config.space c.catalog.dimension).LabelsBelow) :
    Recovers c d ↔ FlushFits c.config.hnsw.batchSize c.wal.file.records
      (d.dir.openedIndex c.config.space c.catalog.dimension) := by
  rw [recovers_iff (hs.catalog ▸ hx), hs.catalog, hreplay, and_iff_left]
  refine (view_eq_iff (hs.content_eq hl (hl.pruned.trans hl.flushed)
    (hreplay.trans hl.tail))).mpr fun id r hr => ?_
  have hload : d.dir.savedVector id = c.loadVector id := by
    rw [hs.savedVector, hseg, hidx, loadVector, hp.segments, hp.segmentIndex]
    cases c.dir.segmentBin <;> rfl
  have hbase : (d.dir.baseRecords.lookup id).bind Record.embedding = c.memVector id := by
    rw [hs.baseRecords, memVector, hr, hseg]
    split
    · rename_i hsome
      rw [stripped_vector, hr, Option.bind_some, Option.bind_some]
      split
      · rename_i hle
        exact (hp.stripped hsome id r hr (hm ▸ hle)).symm
      · rfl
    · rw [hr]
  have hmem : d.memVector id = c.memVector id := by
    have hmemory := hp.memory id
    rw [Disk.memVector, hreplay, hbase]
    cases hw : lastWrite (fun r => vectorWrite r id) c.wal.file.records with
    | none => rfl
    | some v =>
        rw [hw] at hmemory
        exact hmemory.symm
  rw [hload, hmem, memVector, hr]
  rfl

theorem bufferOf_sublist (rs₁ rs₂ : List WalRecord) :
    (bufferOf rs₂).Sublist (bufferOf (rs₁ ++ rs₂)) := by
  have hmono : ∀ (rs : List WalRecord) (l l' : List Record), l.Sublist l' →
      (rs.foldl (fun buffer r => r.op.bufferAfter r.seq buffer) l).Sublist
        (rs.foldl (fun buffer r => r.op.bufferAfter r.seq buffer) l') := by
    intro rs
    induction rs with
    | nil => exact fun _ _ hsub => hsub
    | cons r rs ih =>
        intro l l' hsub
        refine ih _ _ ?_
        show (r.op.bufferAfter r.seq l).Sublist (r.op.bufferAfter r.seq l')
        cases r.op with
        | add id e md doc => exact (hsub.filter _).append_right _
        | upsert id e md doc => exact (hsub.filter _).append_right _
        | update id md doc => exact hsub
        | delete id => exact hsub.filter _
  rw [bufferOf, bufferOf, List.foldl_append]
  exact hmono rs₂ _ _ (List.nil_sublist _)

/-- **Recovery under the new marker**, in terms of the segment files. -/
theorem recovers_marked_iff (hl : Logged h c) (hp : Persisted c) (hlog : LogFits c)
    (hs : Snapped c c.checkpointMeta d)
    (hreplay : d.replayed = numbered c.flushedSeq (h.drop c.flushedSeq))
    (hgraph : GraphSaved d.dir) :
    Recovers c d ↔ ∀ id r, c.records.lookup id = some r →
      (d.dir.savedVector id).or
        (if d.dir.segmentBin.isSome ∧ r.seq ≤ c.flushedSeq then none else r.embedding) =
          (c.loadVector id).or r.embedding := by
  have hx := hgraph.openedIndex c.config.space d.catalog.dimension
  have hflush : FlushFits c.config.hnsw.batchSize d.replayed
      (d.dir.openedIndex c.config.space d.catalog.dimension) := by
    have hsplit := numbered_split (h.drop c.lastCheckpointSeq) c.lastCheckpointSeq
      (k := c.flushedSeq - c.lastCheckpointSeq)
      (by rw [List.length_drop]; have := hl.pruned; have := hl.flushed; omega)
    rw [List.drop_drop, Nat.add_sub_cancel' hl.pruned, ← hl.tail, ← hreplay] at hsplit
    have hsub : (bufferOf d.replayed).Sublist (bufferOf c.wal.file.records) := by
      rw [hsplit]
      exact bufferOf_sublist _ _
    intro hlen
    refine ⟨fun b hb e he => ?_, hx.freeLabels _⟩
    rw [openedIndex_dimension, hs.catalog]
    exact hlog (hlen.trans hsub.length_le) b (hsub.subset hb) e he
  rw [recovers_iff hx.labelsBelow, and_iff_right hflush,
    view_eq_iff (hs.content_eq hl hl.flushed hreplay)]
  refine forall_congr' fun id => forall_congr' fun r => imp_congr_right fun hr => ?_
  have hmem : d.memVector id =
      if d.dir.segmentBin.isSome ∧ r.seq ≤ c.flushedSeq then none else r.embedding := by
    rw [Disk.memVector, hreplay, hs.baseRecords]
    by_cases hsome : d.dir.segmentBin.isSome
    · rw [if_pos hsome]
      refine (hp.replay_stripped hl hr).trans ?_
      simp [hsome]
    · rw [if_neg hsome, if_neg fun hboth => hsome hboth.1]
      refine (hp.replay_kept hl id).trans ?_
      rw [memVector, hr]
      rfl
  rw [hmem]

end Stages

end Collection

end Rekha
