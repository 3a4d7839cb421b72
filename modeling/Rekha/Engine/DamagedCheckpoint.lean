import Rekha.Engine.CrashSteps
import Rekha.Engine.SegmentFile

/-!
# A damaged checkpoint directory

The log is meant to be the source of truth and the checkpoint an acceleration
that is safe to lose. A prune ends that: below its watermark the checkpoint is
the only copy. Here the files of the checkpoint directory are replaced by
anything, or removed, while the log and the catalog stay. The segment file is
taken byte by byte, since a header whose sizes overflow can make opening it, or
reading a row of it, panic. A live record survives exactly when what is left still
holds it (`keepsLive_iff`). Without a usable snapshot these are the records put
again since the prune (`keepsLive_log_iff`).
-/

namespace Rekha

open Trace LastWrite

/-! ## The files as they are found -/

/-- A checkpoint directory in any state: a file that does not decode counts as missing,
the segment file is what bytes it has. -/
structure FoundDir where
  checkpointJson : Option CheckpointMeta := none
  recordsBin : Option (FinMap Id Record) := none
  indexBin : Option Graph := none
  indexMeta : Option IndexMeta := none
  segmentBin : Option SegmentFile.Mmap := none
  segmentIndexBin : Option (FinMap Id ℕ) := none

namespace SegmentFile

/-- The block would end before it starts: the sizes overflow to less than nothing. -/
def SegmentHeader.EndsEarly (h : SegmentHeader) : Prop := h.dataEnd < headerSize

theorem fromFile_eq_none_iff {m : Mmap} :
    fromFile m = none ↔ ∃ h, readHeader m = .ok h ∧ h.EndsEarly := by
  cases hread : readHeader m with
  | error e =>
      have hopen : fromFile m = some (.error e) := by rw [fromFile, hread]
      rw [hopen]
      refine iff_of_false (fun h => ?_) ?_
      · cases h
      · rintro ⟨h, hok, -⟩
        cases hok
  | ok h =>
      have hheader := headerSize_le_of_readHeader hread
      simp only [Except.ok.injEq, exists_eq_left', SegmentHeader.EndsEarly]
      by_cases hbound : m.bytes.length < h.dataEnd
      · obtain ⟨e, hopen⟩ := fromFile_truncated hread hbound
        rw [hopen]
        refine iff_of_false (fun h => ?_) (not_lt.mpr (hheader.trans hbound.le))
        cases h
      have hslice : m.slice headerSize h.dataEnd = none ↔ h.dataEnd < headerSize := by
        rw [Mmap.slice, ite_eq_right_iff]
        simp only [reduceCtorEq, imp_false, not_and, not_le]
        exact ⟨fun hlt => by_contra fun hle => hbound (hlt (not_lt.mp hle)), fun hlt hle =>
          absurd hlt (not_lt.mpr hle)⟩
      rw [← hslice, fromFile, hread]
      simp only [if_neg hbound, Option.map_eq_none_iff]

namespace Segment

variable {s : Segment} {i : ℕ}

theorem length_row {v : List F32} (h : s.row i = some v) : v.length = s.dimension := by
  have hdim : s.dimension < 2 ^ 32 := s.header.dimension.toNat_lt
  rw [row, Option.map_eq_some_iff] at h
  obtain ⟨l, hl, rfl⟩ := h
  rw [Mmap.slice] at hl
  split at hl
  · rename_i hin
    obtain rfl := Option.some.inj hl
    have hbound := s.mmap.bound
    rw [length_castSlice, field, List.length_take, List.length_drop]
    unfold wrap at hin ⊢
    omega
  · cases hl

/-- A row, or zeros where it cannot be read. -/
def rowOrZeros (s : Segment) (i : ℕ) : List F32 :=
  (s.row i).getD (List.replicate s.dimension ⟨0⟩)

theorem length_rowOrZeros : (s.rowOrZeros i).length = s.dimension := by
  unfold rowOrZeros
  cases h : s.row i with
  | none => exact List.length_replicate
  | some v => exact length_row h

theorem length_flatMap_rows (s : Segment) (n : ℕ) :
    ((List.range n).flatMap s.rowOrZeros).length = n * s.dimension := by
  induction n with
  | zero => exact (Nat.zero_mul _).symm
  | succ n ih =>
      rw [List.range_succ, List.flatMap_append, List.length_append, ih, List.flatMap_singleton,
        length_rowOrZeros, Nat.succ_mul]

/-- The rows of a mapped file, with zeros for those that cannot be read. -/
def decoded (s : Segment) : Rekha.Segment :=
  ⟨s.dimension, s.len, (List.range s.len).flatMap s.rowOrZeros, s.length_flatMap_rows s.len⟩

theorem getVector_decoded (hi : i < s.len) : s.decoded.getVector i = some (s.rowOrZeros i) := by
  have hin : ¬ s.decoded.count ≤ i := not_le.mpr hi
  have hsplit : s.decoded.vectors = (List.range i).flatMap s.rowOrZeros ++ (s.rowOrZeros i ++
      ((List.range (s.len - (i + 1))).map (i + 1 + ·)).flatMap s.rowOrZeros) := by
    have hlen : s.len = i + 1 + (s.len - (i + 1)) := by omega
    show (List.range s.len).flatMap s.rowOrZeros = _
    conv_lhs => rw [hlen, List.range_add, List.range_succ, List.flatMap_append,
      List.flatMap_append, List.flatMap_singleton, List.append_assoc]
  have hdim : s.decoded.dimension = s.dimension := rfl
  have hfront := s.length_flatMap_rows i
  have hrow : (s.rowOrZeros i).length = s.dimension := length_rowOrZeros
  rw [Rekha.Segment.getVector, if_neg hin, hsplit, hdim, ← hfront, List.drop_left, ← hrow,
    List.take_left]

theorem getVector_of_readable {v : Option Embedding} (h : s.getVector i = some v) :
    s.decoded.getVector i = v := by
  rw [getVector] at h
  split at h
  · rename_i hle
    obtain rfl := Option.some.inj h
    exact if_pos hle
  · rename_i hlt
    obtain ⟨u, hu, rfl⟩ := Option.map_eq_some_iff.mp h
    rw [getVector_decoded (not_le.mp hlt), rowOrZeros, hu]
    rfl

end Segment

end SegmentFile

namespace FoundDir

/-- The files decoded, with the segment that was mapped. -/
def decoded (dir : FoundDir) (mapped : Option SegmentFile.Segment) : CheckpointDir where
  checkpointJson := dir.checkpointJson
  recordsBin := dir.recordsBin
  indexBin := dir.indexBin
  indexMeta := dir.indexMeta
  segmentBin := mapped.map SegmentFile.Segment.decoded
  segmentIndexBin := dir.segmentIndexBin

/-- Both snapshot files are there and agree. -/
def usable (dir : FoundDir) : Bool := (Collection.snapshotFiles (dir.decoded none)).isSome

/-- The loop over the segment files: one that does not open is passed over; `none`
where opening it panics. -/
def mapSegment (dir : FoundDir) : Option (Option SegmentFile.Segment) :=
  match dir.segmentBin with
  | none => some none
  | some m => (SegmentFile.fromFile m).map Except.toOption

/-- The segment an opening maps; without a usable snapshot it looks for none. -/
def mapped (dir : FoundDir) : Option SegmentFile.Segment :=
  if dir.usable then dir.mapSegment.getD none else none

/-- What an opening reads, unless it panics. -/
def files (dir : FoundDir) : CheckpointDir := dir.decoded dir.mapped

/-- A usable snapshot leads to a segment file whose block ends before it starts. -/
def Panics (dir : FoundDir) : Prop :=
  dir.usable = true ∧ ∃ m h, dir.segmentBin = some m ∧ SegmentFile.readHeader m = .ok h ∧
    h.EndsEarly

/-- The row of an id lies in the mapped file, or there is none. -/
def InFile (dir : FoundDir) (id : Id) : Prop :=
  ∀ s row, dir.mapped = some s → (dir.segmentIndexBin.getD ∅).lookup id = some row →
    row < s.len → (s.row row).isSome

end FoundDir

/-- A reopened collection and the segment it has mapped. -/
structure Reopened where
  coll : Collection
  segment : Option SegmentFile.Segment

namespace Reopened

/-- `load_vector`; `none` where the row is out of bounds of the file. -/
def loadVector (s : Reopened) (id : Id) : Option (Option Embedding) :=
  match s.coll.segmentIndex.lookup id, s.segment with
  | some row, some segment => segment.getVector row
  | _, _ => some none

def get (s : Reopened) (id : Id) : Option (Option Record) :=
  match s.coll.records.lookup id with
  | none => some none
  | some r => (s.loadVector id).map fun v => some { r with embedding := v.or r.embedding }

end Reopened

namespace Collection

/-- Reopen over files in any state; `none` is a panic. -/
def reopenFound (config : CollectionConfig) (wal : WalFile) (dir : FoundDir)
    (catalog : CatalogRow) (order : HashOrder) : Option (Except EngineError Reopened) :=
  let opened (mapped : Option SegmentFile.Segment) : Except EngineError Reopened :=
    (reopen config ⟨wal, dir.decoded mapped, catalog⟩ order).map fun c => ⟨c, mapped⟩
  -- without a usable snapshot no segment file is opened
  if dir.usable then dir.mapSegment.map opened else some (opened none)

/-- The disk after the process ended and the checkpoint directory was damaged. -/
def damaged (c : Collection) (dir : CheckpointDir) : Disk := { c.disk with dir := dir }

/-- Opening does not panic and succeeds, and `get` shows every live record of `c` as it
was. -/
def KeepsLive (c : Collection) (dir : FoundDir) : Prop :=
  ∀ order, ∃ s, reopenFound c.config c.wal.file dir c.catalog order = some (.ok s) ∧
    ∀ id v, c.view id = some v →
      ∃ r, s.get id = some (some r) ∧ (r.embedding, r.metadata, r.document) = v

/-- What is left on the disk holds a live record: the log above the prune and
above the surviving watermark wrote it, or the surviving snapshot has its
metadata and document; and the segment's copy, else the last vector in that log,
else the snapshot's, is the one `get` showed. -/
structure Backed (c : Collection) (d : Disk) (id : Id) (r : Record) : Prop where
  content : max c.lastCheckpointSeq d.dir.watermark < r.seq ∨
    ∃ s, d.dir.baseRecords.lookup id = some s ∧ s.metadata = r.metadata ∧
      s.document = r.document
  vector : (d.dir.savedVector id).or
      ((lastWrite (fun w => vectorWrite w id) d.replayed).getD
        ((d.dir.baseRecords.lookup id).bind Record.embedding)) =
    (c.loadVector id).or r.embedding

section Damaged

variable {h : List Operation} {c : Collection} {dir : CheckpointDir}

theorem Logged.replayed_damaged (hl : Logged h c) (dir : CheckpointDir) :
    ∃ q ≤ h.length, (c.damaged dir).replayed = numbered q (h.drop q) ∧
      ∀ n ≤ h.length, (q < n ↔ max c.lastCheckpointSeq dir.watermark < n) := by
  have hp : c.lastCheckpointSeq ≤ h.length := hl.pruned.trans hl.flushed
  have hlog : (c.damaged dir).replayed =
      (numbered c.lastCheckpointSeq (h.drop c.lastCheckpointSeq)).filter
        fun r => decide (dir.watermark < r.seq) := by
    rw [← hl.tail]
    rfl
  by_cases hlow : dir.watermark ≤ c.lastCheckpointSeq
  · refine ⟨c.lastCheckpointSeq, hp, ?_, fun n _ => by rw [max_eq_left hlow]⟩
    rw [hlog]
    refine List.filter_eq_self.mpr fun r hr => decide_eq_true ?_
    exact hlow.trans_lt (seq_of_mem_numbered hr).1
  · by_cases hhigh : dir.watermark ≤ h.length
    · refine ⟨dir.watermark, hhigh, ?_, fun n _ => by rw [max_eq_right (by omega)]⟩
      rw [hlog]
      exact filter_numbered (by omega) hhigh
    · refine ⟨h.length, le_refl _, ?_, fun n hn => by omega⟩
      rw [hlog, List.drop_length]
      apply List.filter_eq_nil_iff.mpr
      intro r hr
      have hseq := (seq_of_mem_numbered hr).2
      rw [List.length_drop] at hseq
      simp only [decide_eq_true_eq]
      omega

/-- What a replay from `q` says about a live record: its content if the record is
newer, nothing otherwise. -/
theorem Logged.content_above (hl : Logged h c) {q : ℕ} (hq : q ≤ h.length) {id : Id}
    {r : Record} (hr : c.records.lookup id = some r) :
    lastWrite (fun w => contentWrite w id) (numbered q (h.drop q)) =
      if q < r.seq then some (some r.content) else none := by
  have hnewer := hl.newer_iff hq hr
  have hkept := hl.content_kept hq id
  rw [Collection.content, contentOf, hr] at hkept
  cases hw : lastWrite (fun w => contentWrite w id) (numbered q (h.drop q)) with
  | none =>
      rw [hw] at hnewer
      rw [if_neg fun hlt => absurd (hnewer.mp hlt) (by simp)]
  | some v =>
      rw [hw] at hnewer hkept
      rw [if_pos (hnewer.mpr rfl)]
      exact congrArg some hkept

/-- A live record reads from the damaged disk as before exactly when the disk
backs it. -/
theorem Logged.view_damaged_iff (hl : Logged h c) {id : Id} {r : Record}
    (hr : c.records.lookup id = some r) :
    (c.damaged dir).view id = c.view id ↔ Backed c (c.damaged dir) id r := by
  obtain ⟨q, hq, hreplayed, hmax⟩ := hl.replayed_damaged dir
  have hcontent : c.content id = some r.content := by
    rw [Collection.content, contentOf, hr]
    rfl
  have hmem : c.memVector id = r.embedding := by
    rw [memVector, hr]
    rfl
  have hseq : r.seq ≤ h.length := by
    rw [hl.content] at hcontent
    exact seq_of_registers hcontent
  have hlast := hl.content_above hq hr
  have hnewer : q < r.seq ↔ max c.lastCheckpointSeq (c.damaged dir).dir.watermark < r.seq :=
    hmax r.seq hseq
  rw [view_eq, hcontent, hmem, Disk.view, Disk.content, hreplayed, hlast]
  by_cases hlt : q < r.seq
  · rw [if_pos hlt]
    simp only [Option.getD_some, Option.map_some, Option.some.injEq, Content.view, Prod.mk.injEq,
      and_true]
    exact ⟨fun hvec => ⟨Or.inl (hnewer.mp hlt), hvec⟩, Backed.vector⟩
  · rw [if_neg hlt, Option.getD_none, contentOf]
    constructor
    · intro hview
      cases hs : (c.damaged dir).dir.baseRecords.lookup id with
      | none =>
          rw [hs] at hview
          exact absurd hview (by simp)
      | some s =>
          rw [hs] at hview
          simp only [Option.map_some, Option.some.injEq, Content.view, Prod.mk.injEq] at hview
          obtain ⟨hvec, hmd, hdoc⟩ := hview
          exact ⟨Or.inr ⟨s, hs, hmd, hdoc⟩, hvec⟩
    · rintro ⟨hbacked, hvec⟩
      obtain ⟨s, hs, hmd, hdoc⟩ := hbacked.resolve_left fun hgt => hlt (hnewer.mpr hgt)
      change ((c.damaged dir).dir.savedVector id).or ((c.damaged dir).memVector id) = _ at hvec
      rw [hs, hvec]
      simp only [Option.map_some, Content.view, Record.content, hmd, hdoc]

/-- Opening decoded files shows every live record as it was exactly when the flush that
ends it goes through and every live record is backed by them. -/
theorem opens_damaged_iff {allowed : Call → Prop} {config : CollectionConfig}
    (hr : Reachable allowed config h c) (dir : CheckpointDir) :
    (∀ order, ∃ c', reopen c.config (c.damaged dir) order = .ok c' ∧
        ∀ id v, c.view id = some v → c'.view id = some v) ↔
      FlushGoes c.config.hnsw.batchSize (c.damaged dir).replayed
          (dir.openedIndex c.config.space c.catalog.dimension) ∧
        ∀ id r, c.records.lookup id = some r → Backed c (c.damaged dir) id r := by
  have hl := hr.logged
  have hopens : (∀ order, ∃ c', reopen c.config (c.damaged dir) order = .ok c' ∧
        ∀ id v, c.view id = some v → c'.view id = some v) ↔
      FlushGoes c.config.hnsw.batchSize (c.damaged dir).replayed
          (dir.openedIndex c.config.space c.catalog.dimension) ∧
        ∀ id v, c.view id = some v → (c.damaged dir).view id = some v :=
    opens_iff fun view => ∀ id v, c.view id = some v → view id = some v
  refine hopens.trans (and_congr_right fun _ => forall_congr' fun id => ?_)
  cases hlive : c.records.lookup id with
  | none =>
      have hnone : c.view id = none := by
        rw [view, get, hlive]
        rfl
      simp [hnone]
  | some r =>
      obtain ⟨v, hv⟩ : ∃ v, c.view id = some v := by
        rw [view, get, hlive]
        exact ⟨_, rfl⟩
      rw [hv]
      simp only [Option.some.injEq, forall_eq']
      rw [← hl.view_damaged_iff hlive, hv]

end Damaged

/-! ## Panics -/

section Found

variable {h : List Operation} {c c' : Collection} {config : CollectionConfig} {d : Disk}
  {dir : FoundDir} {order : HashOrder} {mapped : Option SegmentFile.Segment}

theorem reopen_segments (h : reopen config d order = .ok c') : ∃ config', c'.segments =
    (based config' d order).segments ∧ c'.segmentIndex = (based config' d order).segmentIndex := by
  refine ⟨{ config with dimension := d.catalog.dimension }, ?_⟩
  have hset := foldl_applyRecord_settled d.replayed
    (based { config with dimension := d.catalog.dimension } d order)
  rw [← restored_eq_foldl] at hset
  have hsegments := congrArg Settled.segments hset
  have hindex := congrArg Settled.segmentIndex hset
  rcases flushIfNeeded_ok (reopen_ok h) with rfl | hflushed
  · exact ⟨hsegments, hindex⟩
  · obtain ⟨x, -, rfl⟩ := flushBuffer_ok hflushed
    exact ⟨hsegments, hindex⟩

/-- A vector is read exactly if its row is in the file, and is then that of the
decoded rows. -/
theorem loadVector_reopened_iff (hsegments : c'.segments =
    (mapped.map SegmentFile.Segment.decoded).toList) {id : Id} {v : Option Embedding} :
    Reopened.loadVector ⟨c', mapped⟩ id = some v ↔ v = c'.loadVector id ∧
      ∀ s row, mapped = some s → c'.segmentIndex.lookup id = some row →
        row < s.len → (s.row row).isSome := by
  unfold Reopened.loadVector loadVector
  rw [hsegments]
  cases hrow : c'.segmentIndex.lookup id with
  | none =>
      constructor
      · rintro ⟨⟩
        refine ⟨rfl, fun s row _ h => ?_⟩
        cases h
      · rintro ⟨rfl, -⟩
        rfl
  | some row =>
      cases mapped with
      | none =>
          constructor
          · rintro ⟨⟩
            refine ⟨rfl, fun s row h => ?_⟩
            cases h
          · rintro ⟨rfl, -⟩
            rfl
      | some s =>
          show s.getVector row = some v ↔ v = s.decoded.getVector row ∧ _
          constructor
          · intro hv
            refine ⟨(SegmentFile.Segment.getVector_of_readable hv).symm, ?_⟩
            rintro s' row' ⟨⟩ ⟨⟩ hlt
            rw [SegmentFile.Segment.getVector, if_neg (not_le.mpr hlt)] at hv
            have hsome := congrArg Option.isSome hv
            rwa [Option.isSome_map] at hsome
          · rintro ⟨rfl, hread⟩
            obtain ⟨u, hu⟩ : ∃ u, s.getVector row = some u := by
              by_cases hlt : row < s.len
              · obtain ⟨u, hu⟩ := Option.isSome_iff_exists.mp (hread s row rfl rfl hlt)
                refine ⟨some u, ?_⟩
                rw [SegmentFile.Segment.getVector, if_neg (not_le.mpr hlt), hu]
                rfl
              · exact ⟨none, if_pos (not_lt.mp hlt)⟩
            rw [hu, SegmentFile.Segment.getVector_of_readable hu]

theorem get_reopened_iff (hsegments : c'.segments =
    (mapped.map SegmentFile.Segment.decoded).toList) {id : Id} {v : View} :
    (∃ r, Reopened.get ⟨c', mapped⟩ id = some (some r) ∧
        (r.embedding, r.metadata, r.document) = v) ↔
      c'.view id = some v ∧ ∀ s row, mapped = some s → c'.segmentIndex.lookup id = some row →
        row < s.len → (s.row row).isSome := by
  unfold Reopened.get
  rw [view, get]
  cases hr : c'.records.lookup id with
  | none => simp
  | some r =>
      simp only [Option.map_some, Option.some.injEq]
      constructor
      · rintro ⟨r', hget, rfl⟩
        obtain ⟨u, hu, hr'⟩ := Option.map_eq_some_iff.mp hget
        obtain rfl := Option.some.inj hr'
        obtain ⟨rfl, hread⟩ := (loadVector_reopened_iff hsegments).mp hu
        exact ⟨rfl, hread⟩
      · rintro ⟨rfl, hread⟩
        exact ⟨_, by rw [(loadVector_reopened_iff hsegments).mpr ⟨rfl, hread⟩]; rfl, rfl⟩

theorem reopenFound_eq_some_iff {s : Except EngineError Reopened} :
    reopenFound config d.wal dir d.catalog order = some s ↔ ¬ dir.Panics ∧
      s = (reopen config ⟨d.wal, dir.files, d.catalog⟩ order).map fun c => ⟨c, dir.mapped⟩ := by
  rw [reopenFound, FoundDir.Panics, FoundDir.files, FoundDir.mapped]
  cases husable : dir.usable with
  | false => simp [eq_comm]
  | true =>
      simp only [if_true, true_and]
      have hpanics : dir.mapSegment = none ↔ ∃ m h, dir.segmentBin = some m ∧
          SegmentFile.readHeader m = .ok h ∧ h.EndsEarly := by
        rw [FoundDir.mapSegment]
        cases dir.segmentBin with
        | none => simp
        | some m => simp [SegmentFile.fromFile_eq_none_iff]
      rw [← hpanics]
      cases dir.mapSegment with
      | none => simp
      | some mapped => simp [eq_comm]

theorem segments_reopened (h : reopen config ⟨d.wal, dir.files, d.catalog⟩ order = .ok c') :
    c'.segments = (dir.mapped.map SegmentFile.Segment.decoded).toList ∧
      ∀ id, (∀ s row, dir.mapped = some s → c'.segmentIndex.lookup id = some row →
        row < s.len → (s.row row).isSome) ↔ dir.InFile id := by
  obtain ⟨config', hsegments, hindex⟩ := reopen_segments h
  rw [hsegments, hindex]
  cases hsnap : snapshotFiles dir.files with
  | some p =>
      have hloaded := @based_some config' ⟨d.wal, dir.files, d.catalog⟩ order p.1 p.2 hsnap
      rw [hloaded.segments, hloaded.segmentIndex]
      exact ⟨rfl, fun id => Iff.rfl⟩
  | none =>
      have husable : dir.usable = false := congrArg Option.isSome hsnap
      have hnone : dir.mapped = none := by
        rw [FoundDir.mapped, husable]
        rfl
      rw [@based_none config' ⟨d.wal, dir.files, d.catalog⟩ order hsnap, hnone]
      refine ⟨rfl, fun id => iff_of_true (fun s row hs => ?_) fun s row hs => ?_⟩
      · cases hs
      · rw [hnone] at hs
        cases hs

end Found

section Found

variable {h : List Operation} {c : Collection} {dir : FoundDir}

theorem keepsLive_iff_opens (dir : FoundDir) :
    KeepsLive c dir ↔ ¬ dir.Panics ∧
      (∀ order, ∃ c', reopen c.config (c.damaged dir.files) order = .ok c' ∧
        ∀ id v, c.view id = some v → c'.view id = some v) ∧
      ∀ id r, c.records.lookup id = some r → dir.InFile id := by
  have hlive : ∀ {id}, (∃ v, c.view id = some v) ↔ ∃ r, c.records.lookup id = some r := by
    intro id
    rw [view, get]
    cases c.records.lookup id <;> simp
  constructor
  · intro hkeeps
    have hopened : ∀ order, ∃ c', reopen c.config (c.damaged dir.files) order = .ok c' ∧
        (∀ id v, c.view id = some v → c'.view id = some v ∧ dir.InFile id) ∧
          ¬ dir.Panics := by
      intro order
      obtain ⟨s, hs, hlive⟩ := hkeeps order
      obtain ⟨hpanics, hmap⟩ := (@reopenFound_eq_some_iff c.config c.disk dir order _).mp hs
      cases hreopen : reopen c.config ⟨c.disk.wal, dir.files, c.disk.catalog⟩ order with
      | error e =>
          rw [hreopen] at hmap
          cases hmap
      | ok c' =>
          rw [hreopen] at hmap
          obtain rfl := Except.ok.inj hmap
          obtain ⟨hsegments, hrows⟩ := segments_reopened hreopen
          refine ⟨c', hreopen, fun id v hv => ?_, hpanics⟩
          obtain ⟨hview, hread⟩ := (get_reopened_iff hsegments).mp (hlive id v hv)
          exact ⟨hview, (hrows id).mp hread⟩
    obtain ⟨c', -, hread, hpanics⟩ := hopened ⟨fun m => m.entries, fun _ => List.Perm.refl _⟩
    refine ⟨hpanics, fun order => ?_, fun id r hr => ?_⟩
    · obtain ⟨c', hreopen, hread, -⟩ := hopened order
      exact ⟨c', hreopen, fun id v hv => (hread id v hv).1⟩
    · obtain ⟨v, hv⟩ := hlive.mpr ⟨r, hr⟩
      exact (hread id v hv).2
  · rintro ⟨hpanics, hopens, hrows⟩ order
    obtain ⟨c', hreopen, hview⟩ := hopens order
    obtain ⟨hsegments, hfile⟩ := @segments_reopened c' c.config c.disk dir order hreopen
    refine ⟨⟨c', dir.mapped⟩, ?_, fun id v hv => ?_⟩
    · refine (@reopenFound_eq_some_iff c.config c.disk dir order _).mpr ⟨hpanics, ?_⟩
      exact (congrArg (Except.map fun c => Reopened.mk c dir.mapped) hreopen).symm
    · obtain ⟨r, hr⟩ := hlive.mp ⟨v, hv⟩
      exact (get_reopened_iff hsegments).mpr ⟨hview id v hv, (hfile id).mpr (hrows id r hr)⟩

/-- **Without a usable snapshot** the log alone has to hold every live record: each
was written since the prune, and its vector was. -/
theorem keepsLive_log_iff {allowed : Call → Prop} {config : CollectionConfig}
    (hr : Reachable allowed config h c) (hlost : dir.usable = false) :
    KeepsLive c dir ↔ LogFits c ∧ ∀ id r, c.records.lookup id = some r →
      c.lastCheckpointSeq < r.seq ∧ c.loggedVector id = (c.loadVector id).or r.embedding := by
  have hl := hr.logged
  have hnone : snapshotFiles dir.files = none :=
    Option.isNone_iff_eq_none.mp (Option.isSome_eq_false_iff.mp hlost)
  have hmapped : dir.mapped = none := by
    rw [FoundDir.mapped, hlost]
    rfl
  have hu : Unmarked c (c.damaged dir.files) := ⟨hnone, rfl⟩
  have hbelow : (dir.files.openedIndex c.config.space c.catalog.dimension).LabelsBelow := by
    rw [CheckpointDir.openedIndex, hnone]
    exact (UsearchIndex.wf_withHnsw _ _).labelsBelow
  have hwatermark : (c.damaged dir.files).dir.watermark = 0 := by
    show dir.files.watermark = 0
    rw [CheckpointDir.watermark, hnone]
  have hbase : ∀ id, (c.damaged dir.files).dir.baseRecords.lookup id = none := by
    intro id
    show dir.files.baseRecords.lookup id = none
    rw [CheckpointDir.baseRecords, hnone]
    rfl
  have hpanics : ¬ dir.Panics := by
    rintro ⟨husable, -⟩
    rw [hlost] at husable
    cases husable
  have hfile : ∀ id, dir.InFile id := by
    intro id s row hs
    rw [hmapped] at hs
    cases hs
  rw [keepsLive_iff_opens, and_iff_right hpanics, and_iff_left fun id _ _ => hfile id,
    opens_damaged_iff hr, flushGoes_iff hbelow]
  refine and_congr (hu.flushFits_iff hl rfl) (forall_congr' fun id => forall_congr' fun r =>
    imp_congr_right fun _ => ?_)
  rw [← hu.vector hl]
  constructor
  · rintro ⟨hcontent, hvec⟩
    rw [hwatermark, Nat.max_zero] at hcontent
    refine ⟨hcontent.resolve_right ?_, hvec⟩
    rintro ⟨s, hs, -⟩
    rw [hbase] at hs
    exact absurd hs (by simp)
  · rintro ⟨hnew, hvec⟩
    refine ⟨Or.inl ?_, hvec⟩
    rw [hwatermark, Nat.max_zero]
    exact hnew

/-- **Damage to the index files alone** loses no record: only the flush can fail. -/
theorem keepsLive_index_iff {allowed : Call → Prop} {config : CollectionConfig}
    (hr : Reachable allowed config h c)
    (hfiles : dir.files = { c.dir with indexBin := dir.indexBin, indexMeta := dir.indexMeta })
    (hpanics : ¬ dir.Panics) (hrows : ∀ id, dir.InFile id) :
    KeepsLive c dir ↔ FlushGoes c.config.hnsw.batchSize c.wal.file.records
      (dir.files.openedIndex c.config.space c.catalog.dimension) := by
  have hl := hr.logged
  have hreplayed : (c.damaged dir.files).replayed = c.wal.file.records := by
    rw [hfiles]
    exact hl.replayed
  rw [keepsLive_iff_opens, and_iff_right hpanics, and_iff_left fun id _ _ => hrows id,
    opens_damaged_iff hr, hreplayed, and_iff_left]
  intro id r hlive
  refine (hl.view_damaged_iff hlive).mp ?_
  rw [hfiles]
  exact disk_view hl hr.persisted id

end Found

end Collection

open Collection

end Rekha
