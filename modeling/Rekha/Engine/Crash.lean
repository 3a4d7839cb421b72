import Rekha.Engine.CrashSteps

/-!
# Crashes inside a checkpoint

A checkpoint recovers from a crash after each of its steps exactly when the state
before it satisfies `SurvivesCrash` (`crash_atomic_iff`). The condition has one
field per kind of disk a crash can leave. A second checkpoint after the number of
records changed loses the records the log was pruned of (`records_lost`), and
between the segment and its row map every flushed vector without an older row is
gone (`RowsAgree`).
-/

namespace Rekha

open Trace LastWrite UsearchIndex

namespace Collection

section Stages

variable {c : Collection} {h : List Operation} {d : Disk}

/-! ## The condition -/

/-- What the log alone would lose or change, it may not be asked for. -/
def LogSuffices (c : Collection) : Prop :=
  ∀ id r, c.records.lookup id = some r →
    c.lastCheckpointSeq < r.seq ∧ c.loggedVector id = (c.loadVector id).or r.embedding

/-- If the graph can be loaded with the labels of the older dump, then it holds no
vector under the labels the opening's flush hands out next. -/
def LabelsFit (c : Collection) : Prop :=
  c.index.len ≠ 0 → ∀ im, c.dir.indexMeta = some im → im.space = c.config.space.name →
    im.dimension = c.catalog.dimension → c.index.len = im.labels.size →
    c.config.hnsw.batchSize ≤ (bufferOf c.wal.file.records).length →
    ∀ j < (bufferOf c.wal.file.records).length, c.index.inner.lookup (im.nextLabel + j) = none

/-- The older row numbers point at the right vectors of the new segment. -/
def RowsAgree (c : Collection) : Prop :=
  ∀ id r, c.records.lookup id = some r →
    ((c.segmentIndex.lookup id).bind fun row => (c.segmentEntries[row]?).map Prod.snd).or
        (if r.seq ≤ c.flushedSeq then none else r.embedding) =
      (c.loadVector id).or r.embedding

/-- The segment writer meets vectors of its own dimension only. -/
def WriterFits (c : Collection) : Prop :=
  ∀ e ∈ c.segmentEntries, e.2.length = c.config.dimension % 2 ^ 32

/-- **The states whose checkpoint may crash anywhere.** -/
structure SurvivesCrash (c : Collection) : Prop where
  /-- The vectors of the log fit the catalog's dimension where they are flushed. -/
  log : LogFits c
  /-- Where the older marker counts other records, the log is complete. -/
  dropped : ∀ m, c.dir.checkpointJson = some m → c.records.size ≠ m.recordCount →
    LogSuffices c
  /-- Where it counts as many, the new graph does not clash with the old labels. -/
  labels : c.records.size ≠ 0 → ∀ m, c.dir.checkpointJson = some m →
    c.records.size = m.recordCount → LabelsFit c
  /-- No older segment, or none of the vectors up to the watermark is missing in it. -/
  unsegmented : c.dir.segmentBin.isSome → ∀ id r, c.records.lookup id = some r →
    c.loadVector id = none → r.seq ≤ c.flushedSeq → r.embedding = none
  /-- The segment written under the older row map gives every id its vector. -/
  rows : WriterFits c → c.segmentEntries ≠ [] → RowsAgree c
  /-- No vector is left in the older segment alone. -/
  copies : WriterFits c → SegmentCopiesInMemory c

/-! ## Stage by stage -/

theorem recovers_dumping_iff (hl : Logged h c) (hp : Persisted c) (hlog : LogFits c)
    {bin : Option Graph} {im : Option IndexMeta}
    (hx : ((c.dumping bin im).dir.openedIndex c.config.space c.catalog.dimension).LabelsBelow) :
    Recovers c (c.dumping bin im) ↔ ∀ m, c.dir.checkpointJson = some m →
      (c.records.size ≠ m.recordCount → LogSuffices c) ∧
      (c.records.size = m.recordCount → FlushFits c.config.hnsw.batchSize c.wal.file.records
        ((c.dumping bin im).dir.openedIndex c.config.space c.catalog.dimension)) := by
  cases hjson : c.dir.checkpointJson with
  | none =>
      have hu : Unmarked c (c.dumping bin im) :=
        ⟨by simp [snapshotFiles, dumping, disk, hjson], rfl⟩
      have hu' : Unmarked c c.disk := ⟨by simp [snapshotFiles, disk, hjson], rfl⟩
      rw [hu.recovers_iff hl rfl, ← hu'.recovers_iff hl rfl, recovers_disk_iff hl hp]
      exact ⟨fun _ m hm => absurd hm (by simp), fun _ => hlog⟩
  | some m =>
      simp only [Option.some.injEq, forall_eq']
      by_cases hsize : c.records.size = m.recordCount
      · have hs : Snapped c m (c.dumping bin im) :=
          ⟨snapshotFiles_eq_some.mpr ⟨hjson, rfl, hsize⟩, rfl⟩
        have hm : m.flushedSeq = c.lastCheckpointSeq := by
          rcases hl.snapshot with ⟨hnone, -⟩ | ⟨m', records, s, hm', -, -, hf, -⟩
          · rw [hjson] at hnone
            exact absurd hnone (by simp)
          · rw [hjson, Option.some.injEq] at hm'
            rw [hm', hf]
        have hreplay : (c.dumping bin im).replayed = c.wal.file.records := by
          rw [Disk.replayed, CheckpointDir.watermark, hs.snapshot]
          simp only [hm]
          rw [← hl.watermark]
          exact hl.replayed
        rw [recovers_counted_iff hl hp hs hm hreplay rfl rfl hx]
        exact ⟨fun hf => ⟨fun hne => absurd hsize hne, fun _ => hf⟩, fun hf => hf.2 hsize⟩
      · have hu : Unmarked c (c.dumping bin im) :=
          ⟨by simp [snapshotFiles, dumping, disk, hjson, hsize], rfl⟩
        rw [hu.recovers_iff hl rfl]
        exact ⟨fun hf => ⟨fun _ => hf.2, fun heq => absurd heq hsize⟩, fun hf => ⟨hlog, hf.1 hsize⟩⟩

theorem recovers_dumping_of_graphSaved (hl : Logged h c) (hp : Persisted c) (hlog : LogFits c)
    {bin : Option Graph} {im : Option IndexMeta} (hg : GraphSaved (c.dumping bin im).dir) :
    Recovers c (c.dumping bin im) ↔ ∀ m, c.dir.checkpointJson = some m →
      c.records.size ≠ m.recordCount → LogSuffices c := by
  have hx := hg.openedIndex c.config.space c.catalog.dimension
  rw [recovers_dumping_iff hl hp hlog hx.labelsBelow]
  refine forall_congr' fun m => imp_congr_right fun _ => and_iff_left fun _ => ?_
  exact (logFits_iff hx (openedIndex_dimension _ _ _)).mpr hlog

theorem flushFits_mixed_iff (hlog : LogFits c) {m : CheckpointMeta}
    (hsnap : snapshotFiles (c.dumping c.savedBin c.dir.indexMeta).dir = some (m, c.records)) :
    FlushFits c.config.hnsw.batchSize c.wal.file.records
      ((c.dumping c.savedBin c.dir.indexMeta).dir.openedIndex c.config.space
        c.catalog.dimension) ↔ LabelsFit c := by
  rw [CheckpointDir.openedIndex, hsnap]
  simp only
  cases hload : UsearchIndex.load (c.dumping c.savedBin c.dir.indexMeta).dir.indexBin
      (c.dumping c.savedBin c.dir.indexMeta).dir.indexMeta c.config.space
      c.catalog.dimension with
  | error e =>
      simp only
      rw [logFits_iff (wf_withHnsw _ _) rfl]
      refine ⟨fun _ hlen im him hspace hdim hsize => ?_, fun _ => hlog⟩
      have hbin : c.savedBin = some c.index.inner := if_pos hlen
      have hok := UsearchIndex.load_eq_ok_iff.mpr
        ⟨c.index.inner, im, hbin, him, hspace, hdim, hsize, rfl⟩
      exact absurd (hload.symm.trans hok) (by simp)
  | ok x =>
      obtain ⟨inner, im, hbin, him, hspace, hdim, hsize, rfl⟩ :=
        UsearchIndex.load_eq_ok_iff.mp hload
      change c.savedBin = some inner at hbin
      rw [savedBin] at hbin
      split at hbin
      · rename_i hlen
        obtain rfl := Option.some.inj hbin
        constructor
        · intro hf _ im' him' _ _ _ hmany
          obtain rfl : im = im' := Option.some.inj (him.symm.trans him')
          exact (hf hmany).2
        · exact fun hf hmany => ⟨hlog hmany, hf hlen im him hspace hdim hsize hmany⟩
      · exact absurd hbin (by simp)

theorem labelsBelow_mixed (hp : Persisted c) (space : Distance) (dimension : ℕ) :
    ((c.dumping c.savedBin c.dir.indexMeta).dir.openedIndex space dimension).LabelsBelow := by
  rcases (c.dumping c.savedBin c.dir.indexMeta).dir.openedIndex_cases space dimension with
    hempty | hload
  · rw [hempty]
    exact (wf_withHnsw _ _).labelsBelow
  · obtain ⟨inner, im, -, him, -, hx⟩ := UsearchIndex.load_ok hload
    obtain ⟨bin, -, hwf⟩ := hp.graph im him
    rw [hx]
    exact hwf.labelsBelow

theorem exists_segmentFiles_iff : (∃ files, c.segmentFiles = some files) ↔
    WriterFits c := by
  rw [segmentFiles, WriterFits]
  cases he : c.segmentEntries with
  | nil => exact ⟨fun _ e hmem => absurd hmem List.not_mem_nil, fun _ => ⟨none, rfl⟩⟩
  | cons e rest =>
      simp only [Option.map_eq_some_iff]
      have hrows := @exists_writeRows_iff (e :: rest) (SegmentWriter.new c.config.dimension) ∅
      constructor
      · rintro ⟨files, p, hp, -⟩
        exact hrows.mp ⟨p, hp⟩
      · intro h
        obtain ⟨p, hp⟩ := hrows.mpr h
        exact ⟨_, p, hp, rfl⟩

theorem getVector_segmentFiles {s : Segment} {idx : FinMap Id ℕ}
    (hfiles : c.segmentFiles = some (some (s, idx))) : c.segmentEntries ≠ [] ∧
      ∀ row, s.getVector row = (c.segmentEntries[row]?).map Prod.snd := by
  rw [segmentFiles] at hfiles
  cases he : c.segmentEntries with
  | nil =>
      rw [he] at hfiles
      exact absurd hfiles (by simp)
  | cons e rest =>
      rw [he] at hfiles
      obtain ⟨⟨w, idx'⟩, hrows, hw⟩ := Option.map_eq_some_iff.mp hfiles
      simp only [Option.some.injEq, Prod.mk.injEq] at hw
      obtain ⟨rfl, rfl⟩ := hw
      refine ⟨by simp, fun row => ?_⟩
      have hrow := getVector_writeRows_add hrows row
      rwa [show (SegmentWriter.new c.config.dimension).count = 0 from rfl, Nat.zero_add] at hrow

theorem snapped_marked (c : Collection) (s : Option Segment) (idx : Option (FinMap Id ℕ)) :
    Snapped c c.checkpointMeta (c.marked s idx) :=
  ⟨snapshotFiles_eq_some.mpr ⟨rfl, rfl, rfl⟩, rfl⟩

theorem snapped_advanced (c : Collection) (files : Option (Segment × FinMap Id ℕ))
    (wal : WalFile) : Snapped c c.checkpointMeta (c.advanced files wal) :=
  ⟨snapshotFiles_eq_some.mpr ⟨rfl, rfl, rfl⟩, rfl⟩

/-- Under the new marker the log is replayed from the flushed watermark, pruned or
not. -/
theorem Snapped.replayed (hl : Logged h c) (hs : Snapped c c.checkpointMeta d)
    (hwal : d.wal = c.wal.file ∨ d.wal = c.wal.file.keepAbove c.flushedSeq) :
    d.replayed = numbered c.flushedSeq (h.drop c.flushedSeq) := by
  rw [Disk.replayed, CheckpointDir.watermark, hs.snapshot, ← hl.tail_filter]
  rcases hwal with hwal | hwal
  · rw [hwal]
    rfl
  · rw [hwal]
    show (c.wal.file.records.filter _).filter _ = _
    rw [List.filter_filter]
    exact List.filter_congr fun r _ => Bool.and_self _

/-- **With the old segment files** the strip of the opening may take too much. -/
theorem recovers_marked_old_iff (hl : Logged h c) (hp : Persisted c) (hlog : LogFits c) :
    Recovers c (c.marked c.dir.segmentBin c.dir.segmentIndexBin) ↔
      (c.dir.segmentBin.isSome → ∀ id r, c.records.lookup id = some r →
        c.loadVector id = none → r.seq ≤ c.flushedSeq → r.embedding = none) := by
  have hs := snapped_marked c c.dir.segmentBin c.dir.segmentIndexBin
  rw [recovers_marked_iff hl hp hlog hs (hs.replayed hl (Or.inl rfl))
    (graphSaved_checkpointFiles hp.index none)]
  have hload : ∀ id, (c.marked c.dir.segmentBin c.dir.segmentIndexBin).dir.savedVector id =
      c.loadVector id := by
    intro id
    rw [hs.savedVector, loadVector, hp.segments, hp.segmentIndex]
    show ((c.dir.segmentIndexBin.getD ∅).lookup id).bind _ = _
    cases hseg : c.dir.segmentBin <;> simp [marked]
  constructor
  · intro hall hsome id r hr hnone hle
    have hid := hall id r hr
    rw [hload, hnone, if_pos ⟨hsome, hle⟩] at hid
    exact hid.symm
  · intro hcond id r hr
    rw [hload]
    cases hv : c.loadVector id with
    | some v => rfl
    | none =>
        rw [Option.none_or, Option.none_or]
        split
        · rename_i hboth
          exact (hcond hboth.1 id r hr hv hboth.2).symm
        · rfl

/-- **With the new segment under the old row numbers** an id may get another id's
vector. -/
theorem recovers_marked_rows_iff (hl : Logged h c) (hp : Persisted c) (hlog : LogFits c)
    {s : Segment} {idx : FinMap Id ℕ} (hfiles : c.segmentFiles = some (some (s, idx))) :
    Recovers c (c.marked (some s) c.dir.segmentIndexBin) ↔
      RowsAgree c := by
  have hs := snapped_marked c (some s) c.dir.segmentIndexBin
  rw [recovers_marked_iff hl hp hlog hs (hs.replayed hl (Or.inl rfl))
    (graphSaved_checkpointFiles hp.index none)]
  refine forall_congr' fun id => forall_congr' fun r => imp_congr_right fun _ => ?_
  have hload : (c.marked (some s) c.dir.segmentIndexBin).dir.savedVector id =
      (c.segmentIndex.lookup id).bind fun row => (c.segmentEntries[row]?).map Prod.snd := by
    rw [hs.savedVector, hp.segmentIndex]
    refine congrArg _ (funext fun row => ?_)
    exact (getVector_segmentFiles hfiles).2 row
  rw [hload, show (c.marked (some s) c.dir.segmentIndexBin).dir.segmentBin = some s from rfl]
  simp

/-- **With the new segment files** every id reads what memory held. -/
theorem recovers_mapped_iff (hl : Logged h c) (hp : Persisted c) (hlog : LogFits c)
    (hs : Snapped c c.checkpointMeta d)
    (hwal : d.wal = c.wal.file ∨ d.wal = c.wal.file.keepAbove c.flushedSeq)
    (hg : GraphSaved d.dir) (hload : ∀ id, d.dir.savedVector id = c.memVector id) :
    Recovers c d ↔ SegmentCopiesInMemory c := by
  rw [recovers_marked_iff hl hp hlog hs (hs.replayed hl hwal) hg]
  have hread : ∀ id r, c.records.lookup id = some r → (d.dir.savedVector id).or
      (if d.dir.segmentBin.isSome ∧ r.seq ≤ c.flushedSeq then none else r.embedding) =
        r.embedding := by
    intro id r hr
    rw [hload, memVector, hr, Option.bind_some]
    cases r.embedding with
    | some e => rfl
    | none =>
        rw [Option.none_or]
        exact ite_self _
  constructor
  · intro hall id r v hr hv
    have hid := hall id r hr
    rwa [hread id r hr, hv, Option.some_or] at hid
  · intro hcopies id r hr
    rw [hread id r hr]
    cases hv : c.loadVector id with
    | none => rfl
    | some v => exact hcopies id r v hr hv

theorem savedVector_of_files {files : Option (Segment × FinMap Id ℕ)}
    (hfiles : c.segmentFiles = some files) (hs : Snapped c c.checkpointMeta d)
    (hseg : d.dir.segmentBin = files.map Prod.fst)
    (hidx : d.dir.segmentIndexBin = files.map Prod.snd) (id : Id) :
    d.dir.savedVector id = c.memVector id := by
  rw [← loadVector_checkpointed hfiles, hs.savedVector, hseg, hidx]
  cases files <;> rfl

theorem recovers_segments_iff (hl : Logged h c) (hp : Persisted c) (hlog : LogFits c)
    {files : Option (Segment × FinMap Id ℕ)} (hfiles : c.segmentFiles = some files) :
    (Recovers c (c.marked (files.map Prod.fst) c.dir.segmentIndexBin) ∧
      Recovers c (c.marked (files.map Prod.fst) (files.map Prod.snd)) ∧
      Recovers c (c.advanced files c.wal.file) ∧
      Recovers c (c.advanced files (c.wal.file.keepAbove c.flushedSeq))) ↔
    SegmentCopiesInMemory c ∧ (c.segmentEntries ≠ [] → RowsAgree c) := by
  have hg := graphSaved_checkpointFiles hp.index files
  have hmapped := recovers_mapped_iff hl hp hlog
    (snapped_marked c (files.map Prod.fst) (files.map Prod.snd)) (Or.inl rfl) hg
    (savedVector_of_files hfiles (snapped_marked c _ _) rfl rfl)
  have hadvanced : ∀ wal, wal = c.wal.file ∨ wal = c.wal.file.keepAbove c.flushedSeq →
      (Recovers c (c.advanced files wal) ↔ SegmentCopiesInMemory c) := fun wal hwal =>
    recovers_mapped_iff hl hp hlog (snapped_advanced c files wal) hwal hg
      (savedVector_of_files hfiles (snapped_advanced c files wal) rfl rfl)
  rw [hmapped, hadvanced _ (Or.inl rfl), hadvanced _ (Or.inr rfl), and_self, and_self]
  cases files with
  | none =>
      have hempty : c.segmentEntries = [] := by
        by_contra hne
        rw [segmentFiles] at hfiles
        split at hfiles
        · rename_i hnil
          exact hne hnil
        · obtain ⟨p, -, hp'⟩ := Option.map_eq_some_iff.mp hfiles
          exact absurd hp' (by simp)
      have hs := snapped_marked c none c.dir.segmentIndexBin
      have hhalf := recovers_mapped_iff hl hp hlog hs (Or.inl rfl) hg fun id => by
        rw [hs.savedVector, memVector_eq_none_of_segmentFiles hfiles]
        cases (c.marked none c.dir.segmentIndexBin).dir.segmentIndexBin.getD ∅ |>.lookup id <;> rfl
      rw [Option.map_none, hhalf]
      exact ⟨fun hb => ⟨hb.2, fun hne => absurd hempty hne⟩, fun hb => ⟨hb.1, hb.1⟩⟩
  | some p =>
      obtain ⟨hne, -⟩ := getVector_segmentFiles hfiles
      rw [Option.map_some, recovers_marked_rows_iff hl hp hlog hfiles]
      exact ⟨fun hb => ⟨hb.2, fun _ => hb.1⟩, fun hb => ⟨hb.2 hne, hb.1⟩⟩

/-- A crash after any prefix of the steps is recovered from. -/
def CrashAtomic (c : Collection) : Prop := ∀ i, Recovers c (c.crashed i)

/-- **A checkpoint is crash-atomic exactly in the states that survive.** -/
theorem crash_atomic_iff {allowed : Call → Prop} {config : CollectionConfig}
    (hr : Reachable allowed config h c) : CrashAtomic c ↔ SurvivesCrash c := by
  have hl := hr.logged
  have hp := hr.persisted
  by_cases hsize : c.records.size = 0
  · have hcrashed : ∀ i, c.crashed i = c.disk := by
      intro i
      rw [crashed, checkpointSteps, if_pos hsize, List.take_nil]
      rfl
    have hnone := FinMap.lookup_eq_none_of_size_zero hsize
    have hlive : ∀ id r, c.records.lookup id ≠ some r := by
      intro id r hr'
      rw [hnone] at hr'
      exact absurd hr' (by simp)
    have hone : CrashAtomic c ↔ LogFits c := by
      rw [CrashAtomic, ← recovers_disk_iff hl hp]
      exact ⟨fun hall => hcrashed 0 ▸ hall 0, fun h i => (hcrashed i).symm ▸ h⟩
    rw [hone]
    exact ⟨fun hlog => ⟨hlog, fun _ _ _ id r hr' => absurd hr' (hlive id r),
      fun hne => absurd hsize hne, fun _ id r hr' => absurd hr' (hlive id r),
      fun _ _ id r hr' => absurd hr' (hlive id r),
      fun _ id r _ hr' => absurd hr' (hlive id r)⟩,
      SurvivesCrash.log⟩
  · rw [CrashAtomic, forall_crashed_iff hsize, recovers_disk_iff hl hp]
    have hold : GraphSaved (c.dumping c.dir.indexBin c.dir.indexMeta).dir := hp.graph
    have hnew : GraphSaved (c.dumping c.savedBin c.savedIndexMeta).dir :=
      graphSaved_checkpointFiles hp.index none
    have hmixed : ∀ m, c.dir.checkpointJson = some m → c.records.size = m.recordCount →
        snapshotFiles (c.dumping c.savedBin c.dir.indexMeta).dir = some (m, c.records) :=
      fun m hm heq => snapshotFiles_eq_some.mpr ⟨hm, rfl, heq⟩
    constructor
    · rintro ⟨hlog, h₁, h₂, -, h₄, hfiles⟩
      rw [recovers_dumping_of_graphSaved hl hp hlog hold] at h₁
      rw [recovers_dumping_iff hl hp hlog (labelsBelow_mixed hp _ _)] at h₂
      rw [recovers_marked_old_iff hl hp hlog] at h₄
      have hsegs : WriterFits c → SegmentCopiesInMemory c ∧ (c.segmentEntries ≠ [] →
          RowsAgree c) := by
        intro hfits
        obtain ⟨files, hf⟩ := exists_segmentFiles_iff.mpr hfits
        exact (recovers_segments_iff hl hp hlog hf).mp (hfiles files hf)
      exact ⟨hlog, h₁,
        fun _ m hm heq => (flushFits_mixed_iff hlog (hmixed m hm heq)).mp ((h₂ m hm).2 heq),
        h₄, fun hfits => (hsegs hfits).2, fun hfits => (hsegs hfits).1⟩
    · intro hs
      refine ⟨hs.log, ?_, ?_, ?_, ?_, fun files hf => ?_⟩
      · exact (recovers_dumping_of_graphSaved hl hp hs.log hold).mpr hs.dropped
      · exact (recovers_dumping_iff hl hp hs.log (labelsBelow_mixed hp _ _)).mpr fun m hm =>
          ⟨hs.dropped m hm, fun heq => (flushFits_mixed_iff hs.log (hmixed m hm heq)).mpr
            (hs.labels hsize m hm heq)⟩
      · exact (recovers_dumping_of_graphSaved hl hp hs.log hnew).mpr hs.dropped
      · exact (recovers_marked_old_iff hl hp hs.log).mpr hs.unsegmented
      · have hfits := exists_segmentFiles_iff.mp ⟨files, hf⟩
        exact (recovers_segments_iff hl hp hs.log hf).mpr ⟨hs.copies hfits, hs.rows hfits⟩

end Stages

end Collection

open Collection

/-- Records that were added, replaced, changed and deleted survive a crash anywhere in
their first checkpoint. -/
theorem crash_atomic_iff_demo : ∃ c, runAll [
    .add true ["a", "b", "c"] [zero, one, two] none (some [some "x", none, none]),
    .upsert true ["b"] [two] none none, .update ["a"] none (some [some "y"]), .delete ["c"]]
      (Collection.fresh demoConfig) = .ok c ∧ c.records.size = 2 ∧ CrashAtomic c := by
  obtain ⟨c, hrun, hP⟩ : ∃ c, runAll [
      .add true ["a", "b", "c"] [zero, one, two] none (some [some "x", none, none]),
      .upsert true ["b"] [two] none none, .update ["a"] none (some [some "y"]), .delete ["c"]]
        (Collection.fresh demoConfig) = .ok c ∧
      decide (c.records.size = 2 ∧ c.dir.checkpointJson.isNone ∧ c.dir.segmentBin.isNone ∧
        c.segmentIndex.size = 0 ∧
        ¬ c.config.hnsw.batchSize ≤ (bufferOf c.wal.file.records).length ∧
        c.records.entries.all fun e => decide (c.flushedSeq < e.2.seq)) = true :=
    exists_runAll (by decide +kernel)
  obtain ⟨hsize, hjson, hseg, hidx, hfew, hnew⟩ := of_decide_eq_true hP
  rw [Option.isNone_iff_eq_none] at hjson hseg
  have hr : Reachable (fun _ => True) demoConfig _ c :=
    Reachable.fresh.runAll (fun _ _ => trivial) hrun
  have hrow := FinMap.lookup_eq_none_of_size_zero hidx
  have hload : ∀ id, c.loadVector id = none := by
    intro id
    rw [loadVector, hrow]
    rfl
  refine ⟨c, hrun, hsize,
    (crash_atomic_iff hr).mpr ⟨fun hmany => absurd hmany hfew, ?_, ?_, ?_, ?_, ?_⟩⟩
  · intro m hm
    exact absurd (hjson.symm.trans hm) (by simp)
  · intro _ m hm
    exact absurd (hjson.symm.trans hm) (by simp)
  · intro hsome
    rw [hseg] at hsome
    exact absurd hsome (by simp)
  · intro _ _ id r hr'
    have hgt := of_decide_eq_true (List.all_eq_true.mp hnew _ (FinMap.mem_entries_iff.mpr hr'))
    rw [hrow, hload, if_neg (not_le.mpr hgt)]
    rfl
  · intro _ id r v _ hv
    rw [hload] at hv
    exact absurd hv (by simp)

/-- **A crash loses acknowledged records**: after a checkpoint the log no longer
holds `a`. Once the second checkpoint has replaced the records, the older marker
counts one record too few, and the opening falls back on the log. -/
theorem records_lost : ∃ h c, Reachable (fun _ => True) demoConfig h c ∧ ¬ CrashAtomic c := by
  let calls : List Call := [.add true ["a"] [one] none none, .flush, .checkpoint,
    .add true ["b"] [two] none none]
  let order : HashOrder := ⟨fun m => m.entries, fun _ => List.Perm.refl _⟩
  obtain ⟨c, hrun, hP⟩ : ∃ c, runAll calls (Collection.fresh demoConfig) = .ok c ∧
      ((c.records.lookup "a").isSome &&
        (reopen c.config (c.crashed 1) order).toOption.any fun c' =>
          (c'.records.lookup "a").isNone) = true :=
    exists_runAll (by decide +kernel)
  rw [Bool.and_eq_true] at hP
  obtain ⟨hlive, hlost⟩ := hP
  refine ⟨_, c, Reachable.fresh.runAll (fun _ _ => trivial) hrun, fun hatomic => ?_⟩
  obtain ⟨c', hopen, hview⟩ := hatomic 1 order
  rw [hopen] at hlost
  have hid := congrArg Option.isSome (hview "a")
  rw [view_eq, view_eq, Option.isSome_map, Option.isSome_map, content, content, contentOf,
    contentOf, Option.isSome_map, Option.isSome_map, hlive] at hid
  have hnone : (c'.records.lookup "a").isNone = true := hlost
  rw [← Option.not_isSome, hid] at hnone
  exact absurd hnone (by simp)

end Rekha
