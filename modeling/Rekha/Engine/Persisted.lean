import Rekha.Engine.Durable

/-!
# Memory and disk agree

Along every run the collection in memory is the one its disk describes: replaying
the log onto the snapshot gives the vectors in memory, the mapped segments are
the saved ones, and the index files are one dump (`Persisted`). Which vectors a
checkpoint's strip takes and a replay restores follows from the seqs: a live
record is newer than a watermark exactly when the log above it wrote the record
(`Logged.newer_iff`).
-/

namespace Rekha

open Trace LastWrite

namespace Collection

/-- The index files are one dump of a well formed index. -/
def GraphSaved (dir : CheckpointDir) : Prop :=
  ∀ m, dir.indexMeta = some m → ∃ bin, dir.indexBin = some bin ∧
    UsearchIndex.Wf ⟨bin, .l2, m.dimension, m.labels, m.ids, m.nextLabel⟩

/-- **Memory is what the disk describes.** -/
structure Persisted (c : Collection) : Prop where
  memory : ∀ id, c.memVector id =
    (lastWrite (fun r => vectorWrite r id) c.wal.file.records).getD
      ((c.dir.baseRecords.lookup id).bind Record.embedding)
  stripped : c.dir.segmentBin.isSome → ∀ id r, c.records.lookup id = some r →
    r.seq ≤ c.lastCheckpointSeq → r.embedding = none
  segments : c.segments = c.dir.segmentBin.toList
  segmentIndex : c.segmentIndex = c.dir.segmentIndexBin.getD ∅
  unmapped : c.dir.checkpointJson = none →
    c.dir.segmentBin = none ∧ c.dir.segmentIndexBin = none
  index : c.index.Wf
  graph : GraphSaved c.dir

theorem GraphSaved.openedIndex {dir : CheckpointDir} (h : GraphSaved dir) (space : Distance)
    (dimension : ℕ) : (dir.openedIndex space dimension).Wf := by
  rcases dir.openedIndex_cases space dimension with hempty | hload
  · rw [hempty]
    exact UsearchIndex.wf_withHnsw _ _
  · obtain ⟨inner, m, hbin, hmeta, -, hx⟩ := UsearchIndex.load_ok hload
    obtain ⟨bin, hbin', hwf⟩ := h m hmeta
    rw [hbin, Option.some.injEq] at hbin'
    subst hbin'
    rw [hx]
    exact hwf.retag _ _

theorem lookup_foldl_applyRecord {id : Id} {r : Record} : ∀ {rs : List WalRecord}
    {c : Collection}, (rs.foldl applyRecord c).records.lookup id = some r →
      c.records.lookup id = some r ∨ ∃ w ∈ rs, r.seq = w.seq
  | [], _, h => Or.inl h
  | w :: rs, c, h => by
      rcases @lookup_foldl_applyRecord id r rs _ h with h | ⟨w', hw', hseq⟩
      · rw [applyRecord, lookup_applyOperation] at h
        by_cases hid : id = w.op.id
        · rw [if_pos hid] at h
          right
          refine ⟨w, List.mem_cons_self, ?_⟩
          cases hop : w.op with
          | delete key =>
              rw [hop] at h
              exact absurd h (by simp [Operation.recordAfter])
          | add key e md doc =>
              rw [hop] at h
              rw [← Option.some.inj h]
          | upsert key e md doc =>
              rw [hop] at h
              rw [← Option.some.inj h]
          | update key md doc =>
              rw [hop] at h
              rw [← Option.some.inj h]
        · rw [if_neg hid] at h
          exact Or.inl h
      · exact Or.inr ⟨w', List.mem_cons_of_mem _ hw', hseq⟩

section Persisted

variable {c c' : Collection} {h ops : List Operation}

theorem persisted_fresh (config : CollectionConfig) : Persisted (Collection.fresh config) where
  memory := fun id => rfl
  stripped := fun hsome => absurd hsome (by simp [fresh, new, freshDisk])
  segments := rfl
  segmentIndex := rfl
  unmapped := fun _ => ⟨rfl, rfl⟩
  index := UsearchIndex.wf_withHnsw _ _
  graph := fun m hm => absurd hm (by simp [fresh, new, freshDisk])

theorem Persisted.commit (hp : Persisted c) (hl : Logged h c)
    (hw : writeOps ops c = .ok () c') : Persisted c' := by
  obtain ⟨w, hrecs, hlast, rfl⟩ := writeOps_ok hw
  have hset := foldl_applyRecord_settled (numbered c.wal.lastSeq ops) { c with wal := w }
  have hmem := memVector_foldl (numbered c.wal.lastSeq ops) { c with wal := w }
  have hlook := fun id r => @lookup_foldl_applyRecord id r (numbered c.wal.lastSeq ops)
    { c with wal := w }
  have hidx := foldl_applyRecord_index_wf (numbered c.wal.lastSeq ops)
    (c := { c with wal := w }) hp.index
  generalize (numbered c.wal.lastSeq ops).foldl applyRecord { c with wal := w } = c' at *
  simp only [settled, Settled.mk.injEq] at hset
  obtain ⟨-, hwal, hdir, -, -, hcheck, hsegs, hsegidx⟩ := hset
  refine ⟨fun id => ?_, fun hsome id r hr hle => ?_, ?_, ?_, ?_, hidx.1, ?_⟩
  · rw [hmem, hwal, hdir, hrecs, lastWrite_append]
    show (lastWrite _ _).getD (c.memVector id) = _
    rw [hp.memory]
    cases lastWrite (fun r => vectorWrite r id) (numbered c.wal.lastSeq ops) <;> rfl
  · rw [hcheck] at hle
    rcases hlook id r hr with hr | ⟨w', hw', hseq⟩
    · exact hp.stripped (hdir ▸ hsome) id r hr hle
    · have := (seq_of_mem_numbered hw').1
      rw [hl.last] at this
      have hbound := hl.pruned.trans hl.flushed
      omega
  · rw [hsegs, hdir]
    exact hp.segments
  · rw [hsegidx, hdir]
    exact hp.segmentIndex
  · rw [hdir]
    exact hp.unmapped
  · rw [hdir]
    exact hp.graph

theorem Persisted.flush (hp : Persisted c) (hf : flushBuffer c = .ok () c') : Persisted c' := by
  obtain ⟨x, hx, rfl⟩ := flushBuffer_ok hf
  exact ⟨hp.memory, hp.stripped, hp.segments, hp.segmentIndex, hp.unmapped, (hx.wf hp.index).1,
    hp.graph⟩

/-! ### What the log says about a live record -/

theorem registers_split {q : ℕ} (hq : q ≤ h.length) (id : Id) : registers h id =
    (lastWrite (fun r => contentWrite r id) (numbered q (h.drop q))).getD
      (registers (h.take q) id) := by
  have hsplit := numbered_split h 0 hq
  rw [Nat.zero_add] at hsplit
  rw [registers, registers, hsplit, List.foldl_append, foldl_overwrite]

theorem seq_of_contentWrite {w : WalRecord} {id : Id} {x : Content}
    (hw : contentWrite w id = some (some x)) : x.seq = w.seq := by
  rw [contentWrite] at hw
  split at hw
  · cases hop : w.op with
    | delete key =>
        rw [hop] at hw
        exact absurd hw (by simp)
    | add key e md doc =>
        rw [hop, Option.some.injEq, Option.some.injEq] at hw
        rw [← hw]
    | upsert key e md doc =>
        rw [hop, Option.some.injEq, Option.some.injEq] at hw
        rw [← hw]
    | update key md doc =>
        rw [hop, Option.some.injEq, Option.some.injEq] at hw
        rw [← hw]
  · exact absurd hw (by simp)

theorem seq_of_registers {id : Id} {x : Content} (hx : registers h id = some x) :
    x.seq ≤ h.length := by
  rw [registers, foldl_overwrite] at hx
  cases hw : lastWrite (fun r => contentWrite r id) (numbered 0 h) with
  | none =>
      rw [hw] at hx
      exact absurd hx (by simp)
  | some v =>
      rw [hw] at hx
      obtain ⟨w, hmem, hv⟩ := exists_of_lastWrite hw
      obtain rfl : v = some x := hx
      rw [seq_of_contentWrite hv]
      have := (seq_of_mem_numbered hmem).2
      rwa [Nat.zero_add] at this

/-- **A live record is newer than a watermark** exactly when the log above the
watermark wrote its content. -/
theorem Logged.newer_iff (hl : Logged h c) {q : ℕ} (hq : q ≤ h.length) {id : Id} {r : Record}
    (hr : c.records.lookup id = some r) : q < r.seq ↔
      (lastWrite (fun r => contentWrite r id) (numbered q (h.drop q))).isSome := by
  have hcontent : registers h id = some r.content := by
    rw [← hl.content, Collection.content, contentOf, hr]
    rfl
  rw [registers_split hq] at hcontent
  cases hw : lastWrite (fun r => contentWrite r id) (numbered q (h.drop q)) with
  | none =>
      rw [hw, Option.getD_none] at hcontent
      have hle := seq_of_registers hcontent
      rw [List.length_take, Nat.min_eq_left hq] at hle
      exact ⟨fun hlt => absurd (hlt.trans_le hle) (lt_irrefl _), fun hno => absurd hno (by simp)⟩
  | some v =>
      rw [hw, Option.getD_some] at hcontent
      obtain ⟨w, hmem, hv⟩ := exists_of_lastWrite hw
      rw [hcontent] at hv
      have hseq : r.seq = w.seq := seq_of_contentWrite hv
      rw [hseq]
      exact ⟨fun _ => rfl, fun _ => (seq_of_mem_numbered hmem).1⟩

theorem Logged.no_vector_above (hl : Logged h c) {q : ℕ} (hq : q ≤ h.length) {id : Id}
    {r : Record} (hr : c.records.lookup id = some r) (hle : r.seq ≤ q) :
    lastWrite (fun r => vectorWrite r id) (numbered q (h.drop q)) = none := by
  have hnone : lastWrite (fun r => contentWrite r id) (numbered q (h.drop q)) = none := by
    rw [← Option.not_isSome_iff_eq_none, ← hl.newer_iff hq hr]
    exact not_lt.mpr hle
  apply lastWrite_eq_none_iff.mpr
  intro w hw
  have hc := lastWrite_eq_none_iff.mp hnone w hw
  rw [contentWrite] at hc
  rw [vectorWrite]
  split
  · rename_i hid
    rw [if_pos hid] at hc
    cases hop : w.op <;> rw [hop] at hc <;> simp_all
  · rfl

theorem Logged.tail_filter (hl : Logged h c) :
    c.wal.file.records.filter (fun r => decide (c.flushedSeq < r.seq)) =
      numbered c.flushedSeq (h.drop c.flushedSeq) := by
  rw [hl.tail]
  exact filter_numbered hl.pruned hl.flushed

theorem Persisted.memory_above (hp : Persisted c) (hl : Logged h c) {id : Id}
    {v : Option Embedding} (hv : lastWrite (fun r => vectorWrite r id)
      (numbered c.flushedSeq (h.drop c.flushedSeq)) = some v) : c.memVector id = v := by
  have hsplit := numbered_split (h.drop c.lastCheckpointSeq) c.lastCheckpointSeq
    (k := c.flushedSeq - c.lastCheckpointSeq)
    (by rw [List.length_drop]; have := hl.pruned; have := hl.flushed; omega)
  rw [List.drop_drop, Nat.add_sub_cancel' hl.pruned] at hsplit
  rw [hp.memory, hl.tail, hsplit, lastWrite_append, hv]
  rfl

theorem Persisted.replay_stripped (hp : Persisted c) (hl : Logged h c) {id : Id} {r : Record}
    (hr : c.records.lookup id = some r) :
    (lastWrite (fun r => vectorWrite r id) (numbered c.flushedSeq (h.drop c.flushedSeq))).getD
        (((stripRecords c.flushedSeq c.records).lookup id).bind Record.embedding) =
      if r.seq ≤ c.flushedSeq then none else r.embedding := by
  rw [stripped_vector, hr, Option.bind_some]
  cases hv : lastWrite (fun r => vectorWrite r id)
      (numbered c.flushedSeq (h.drop c.flushedSeq)) with
  | none => rfl
  | some v =>
      have hmem := hp.memory_above hl hv
      rw [memVector, hr, Option.bind_some] at hmem
      rw [if_neg fun hle => by
        rw [hl.no_vector_above hl.flushed hr hle] at hv
        exact absurd hv (by simp), hmem]
      rfl

theorem Persisted.replay_kept (hp : Persisted c) (hl : Logged h c) (id : Id) :
    (lastWrite (fun r => vectorWrite r id) (numbered c.flushedSeq (h.drop c.flushedSeq))).getD
      (c.memVector id) = c.memVector id := by
  cases hv : lastWrite (fun r => vectorWrite r id)
      (numbered c.flushedSeq (h.drop c.flushedSeq)) with
  | none => rfl
  | some v => exact (hp.memory_above hl hv).symm

/-! ### The invariant -/

theorem memVector_eq_none_of_segmentFiles (hfiles : c.segmentFiles = some none) (id : Id) :
    c.memVector id = none := by
  rw [← loadVector_checkpointed hfiles id]
  rfl

theorem baseRecords_checkpointFiles (c : Collection)
    (files : Option (Segment × FinMap Id ℕ)) : (c.checkpointFiles files).baseRecords =
      if files.isNone then c.records else stripRecords c.flushedSeq c.records := by
  have hsnap : snapshotFiles (c.checkpointFiles files) = some (c.checkpointMeta, c.records) :=
    snapshotFiles_eq_some.mpr ⟨rfl, rfl, rfl⟩
  rw [CheckpointDir.baseRecords, hsnap]
  cases files <;> rfl

theorem graphSaved_checkpointFiles (hx : c.index.Wf)
    (files : Option (Segment × FinMap Id ℕ)) : GraphSaved (c.checkpointFiles files) := by
  intro m hm
  simp only [checkpointFiles] at hm ⊢
  by_cases hlen : c.index.len ≠ 0
  · rw [if_pos hlen] at hm ⊢
    obtain rfl := Option.some.inj hm
    exact ⟨_, rfl, hx.retag _ _⟩
  · rw [if_neg hlen] at hm
    exact absurd hm (by simp)

theorem Persisted.checkpoint (hp : Persisted c) (hl : Logged h c)
    (hc : Collection.checkpoint c = .ok () c') : Persisted c' := by
  rcases checkpoint_ok hc with ⟨-, rfl⟩ | ⟨-, files, hfiles, rfl⟩
  · exact hp
  · refine ⟨fun id => ?_, fun _ id r hr hle => ?_, rfl, rfl, fun hno => ?_, hp.index,
      graphSaved_checkpointFiles hp.index files⟩
    · show ((stripRecords c.flushedSeq c.records).lookup id).bind Record.embedding =
        (lastWrite _ (c.wal.file.records.filter fun r => decide (c.flushedSeq < r.seq))).getD
          (((c.checkpointFiles files).baseRecords.lookup id).bind Record.embedding)
      rw [hl.tail_filter, baseRecords_checkpointFiles]
      have hstrip : ((stripRecords c.flushedSeq c.records).lookup id).bind Record.embedding =
          (lastWrite (fun r => vectorWrite r id)
            (numbered c.flushedSeq (h.drop c.flushedSeq))).getD
            (((stripRecords c.flushedSeq c.records).lookup id).bind Record.embedding) := by
        cases hr : c.records.lookup id with
        | some r =>
            rw [hp.replay_stripped hl hr, stripped_vector, hr]
            rfl
        | none =>
            have hnone : ((stripRecords c.flushedSeq c.records).lookup id).bind
                Record.embedding = c.memVector id := by
              rw [stripped_vector, memVector, hr]
              rfl
            rw [hnone, hp.replay_kept hl]
      cases files with
      | some p => exact hstrip
      | none =>
          have hmem := memVector_eq_none_of_segmentFiles hfiles id
          have hnone : ((stripRecords c.flushedSeq c.records).lookup id).bind
              Record.embedding = none := by
            rw [memVector] at hmem
            rw [stripped_vector]
            cases hr : c.records.lookup id with
            | none => rfl
            | some r =>
                rw [hr] at hmem
                simp only [Option.bind_some] at hmem ⊢
                rw [hmem]
                exact ite_self _
          have hkept := hp.replay_kept hl id
          rw [hmem] at hkept
          rw [hnone]
          show none = (lastWrite _ _).getD (c.memVector id)
          rw [hmem, hkept]
    · change (stripRecords c.flushedSeq c.records).lookup id = some r at hr
      rw [lookup_stripRecords] at hr
      obtain ⟨r₀, -, rfl⟩ := Option.map_eq_some_iff.mp hr
      split
      · rfl
      · rename_i hgt
        rw [if_neg hgt] at hle
        exact absurd hle hgt
    · exact absurd hno (by simp [checkpointed, checkpointFiles])

theorem Logged.snapshotFiles_eq_none_iff (hl : Logged h c) :
    snapshotFiles c.dir = none ↔ c.dir.checkpointJson = none := by
  constructor
  · intro hnone
    rcases hl.snapshot with ⟨hjson, -⟩ | ⟨m, records, s, hm, hrec, hsize, -⟩
    · exact hjson
    · rw [snapshotFiles_eq_some.mpr ⟨hm, hrec, hsize⟩] at hnone
      exact absurd hnone (by simp)
  · intro hjson
    rw [snapshotFiles, hjson]

theorem Logged.watermark (hl : Logged h c) : c.dir.watermark = c.lastCheckpointSeq := by
  rw [CheckpointDir.watermark]
  rcases hl.snapshot with ⟨hjson, hzero⟩ | ⟨m, records, s, hm, hrec, hsize, hf, -⟩
  · rw [hl.snapshotFiles_eq_none_iff.mpr hjson, hzero]
  · rw [snapshotFiles_eq_some.mpr ⟨hm, hrec, hsize⟩]
    exact hf

theorem Logged.baseRecords_stripped (hl : Logged h c) (hsome : c.dir.segmentBin.isSome) {id : Id}
    {r : Record} (hr : c.dir.baseRecords.lookup id = some r)
    (hle : r.seq ≤ c.lastCheckpointSeq) : r.embedding = none := by
  rw [← hl.watermark] at hle
  rw [CheckpointDir.watermark] at hle
  rw [CheckpointDir.baseRecords] at hr
  cases hsnap : snapshotFiles c.dir with
  | none =>
      rw [hsnap] at hr
      exact absurd hr (by simp)
  | some p =>
      obtain ⟨s, hs⟩ := Option.isSome_iff_exists.mp hsome
      simp only [hsnap, hs] at hr hle
      change (stripRecords p.1.flushedSeq p.2).lookup id = some r at hr
      rw [lookup_stripRecords] at hr
      obtain ⟨r₀, -, rfl⟩ := Option.map_eq_some_iff.mp hr
      split
      · rfl
      · rename_i hgt
        rw [if_neg hgt] at hle
        exact absurd hle hgt

theorem Logged.replayed (hl : Logged h c) : c.disk.replayed = c.wal.file.records := by
  show c.wal.file.records.filter (fun r => decide (c.dir.watermark < r.seq)) = _
  rw [hl.watermark, hl.tail]
  exact filter_numbered (le_refl _) (hl.pruned.trans hl.flushed)

theorem Persisted.savedVector (hp : Persisted c) (hl : Logged h c) (id : Id) :
    c.dir.savedVector id = c.loadVector id := by
  rw [CheckpointDir.savedVector, loadVector, hp.segments, hp.segmentIndex]
  cases hsnap : snapshotFiles c.dir with
  | none =>
      rw [(hp.unmapped (hl.snapshotFiles_eq_none_iff.mp hsnap)).1]
      cases (c.dir.segmentIndexBin.getD ∅).lookup id <;> rfl
  | some p => cases c.dir.segmentBin <;> rfl

theorem Persisted.restored (hp : Persisted c) (hl : Logged h c) (config : CollectionConfig)
    (order : HashOrder) : Persisted (restored config c.disk order) := by
  have hmem : ∀ id, (Collection.restored config c.disk order).memVector id =
      c.disk.memVector id := memVector_restored
  have hlook := fun id r => @lookup_foldl_applyRecord id r c.disk.replayed
    (based config c.disk order)
  have hset := foldl_applyRecord_settled c.disk.replayed (based config c.disk order)
  have hidx := foldl_applyRecord_index_wf c.disk.replayed (c := based config c.disk order)
    (by rw [based_index]; exact hp.graph.openedIndex _ _)
  rw [← restored_eq_foldl] at hset hidx hlook
  have hdir : (based config c.disk order).dir = c.dir := based_dir
  have hresume := hl.resumes config order
  have hrecords : (based config c.disk order).records = c.disk.dir.baseRecords := based_records
  have hlog : (based config c.disk order).wal.file = c.disk.wal := based_log
  have hsegs : (based config c.disk order).segments = c.dir.segmentBin.toList ∧
      (based config c.disk order).segmentIndex = c.dir.segmentIndexBin.getD ∅ := by
    cases hsnap : snapshotFiles c.disk.dir with
    | none =>
        obtain ⟨hseg, hidx⟩ := hp.unmapped (hl.snapshotFiles_eq_none_iff.mp hsnap)
        rw [based_none hsnap, hseg, hidx]
        exact ⟨rfl, rfl⟩
    | some p => exact ⟨(based_some hsnap).segments, (based_some hsnap).segmentIndex⟩
  generalize Collection.restored config c.disk order = b' at *
  generalize based config c.disk order = b at *
  simp only [settled, Settled.mk.injEq] at hset
  obtain ⟨-, hwal, hdir', -, -, hcheck, hsegs', hsegidx'⟩ := hset
  refine ⟨fun id => ?_, fun hsome id r hr hle => ?_, ?_, ?_, ?_, hidx.1, ?_⟩
  · rw [hmem, Disk.memVector, hl.replayed, hwal, hdir', hdir, hlog]
    rfl
  · rw [hcheck, hresume.lastCheckpointSeq] at hle
    rw [hdir', hdir] at hsome
    rcases hlook id r hr with hr | ⟨w, hw, hseq⟩
    · rw [hrecords] at hr
      exact hl.baseRecords_stripped hsome hr hle
    · have hgt := of_decide_eq_true (List.mem_filter.mp hw).2
      rw [show c.disk.dir.watermark = c.lastCheckpointSeq from hl.watermark] at hgt
      omega
  · rw [hsegs', hdir', hdir, hsegs.1]
  · rw [hsegidx', hdir', hdir, hsegs.2]
  · rw [hdir', hdir]
    exact hp.unmapped
  · rw [hdir', hdir]
    exact hp.graph

theorem Persisted.step {p : Phase} (hp : Persisted c) (hl : Logged h c)
    (hs : Step p ops c c') : Persisted c' := by
  cases hs with
  | infer dim hzero =>
      exact ⟨hp.memory, hp.stripped, hp.segments, hp.segmentIndex, hp.unmapped, hp.index,
        hp.graph⟩
  | persist =>
      exact ⟨hp.memory, hp.stripped, hp.segments, hp.segmentIndex, hp.unmapped, hp.index,
        hp.graph⟩
  | commit hacc hw => exact hp.commit hl hw
  | flush hf => exact hp.flush hf
  | checkpoint hc => exact hp.checkpoint hl hc
  | rebuild hr =>
      obtain ⟨x, hx, rfl⟩ := rebuildIndex_ok hr
      exact ⟨hp.memory, hp.stripped, hp.segments, hp.segmentIndex, hp.unmapped,
        (hx.wf (UsearchIndex.wf_withHnsw _ _)).1, hp.graph⟩
  | restart order ho =>
      have hrestored := hp.restored hl { c.config with dimension := c.disk.catalog.dimension }
        order
      rcases flushIfNeeded_ok (reopen_ok ho) with rfl | hf
      · exact hrestored
      · exact hrestored.flush hf

end Persisted

end Collection

open Collection

theorem Reachable.persisted {allowed : Call → Prop} {config : CollectionConfig}
    {h : List Operation} {c : Collection} (hr : Reachable allowed config h c) :
    Persisted c := by
  have hboth := (hr.steps fun _ _ _ _ => trivial).invariant
    (I := fun h c => Logged h c ∧ Persisted c) ⟨logged_fresh config, persisted_fresh config⟩
    fun _ _ _ _ hi ⟨_, _, hs⟩ => ⟨hi.1.step hs, hi.2.step hi.1 hs⟩
  exact hboth.2

end Rekha
