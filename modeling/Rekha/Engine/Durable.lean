import Rekha.Engine.Buffer
import Rekha.Engine.Vectors

/-!
# What a disk holds

An opening turns files into a collection. What comes out is a function of the
disk alone, register by register: the content of an id, its vector in memory and
the segment's copy (`restored_view`). Whether the flush that ends the opening
goes through depends on the index files and on the buffer the log rebuilds;
together they say what recovery takes (`recovers_iff`).
-/

namespace Rekha

open Trace LastWrite

namespace UsearchIndex

/-! ## Labels -/

def LabelsBelow (x : UsearchIndex) : Prop :=
  ∀ id label, x.labels.lookup id = some label → label < x.nextLabel

/-- No stored vector occupies one of the next `n` labels. -/
def FreeLabels (x : UsearchIndex) (n : ℕ) : Prop :=
  ∀ j < n, x.inner.lookup (x.nextLabel + j) = none

/-- The label is free once these ids have left the index. -/
def Frees (x : UsearchIndex) (ids : List Id) (label : ℕ) : Prop :=
  x.inner.lookup label = none ∨ ∃ id ∈ ids, x.labels.lookup id = some label

variable {x x' : UsearchIndex} {id : Id} {e : Embedding} {label : ℕ}

theorem Wf.labelsBelow (hx : x.Wf) : LabelsBelow x := fun id label hl =>
  hx.below label (by rw [hx.ids_of_labels id label hl]; rfl)

theorem Wf.freeLabels (hx : x.Wf) (n : ℕ) : FreeLabels x n := by
  intro j _
  have hnone : (x.inner.lookup (x.nextLabel + j)).isSome = false := by
    rw [hx.graph]
    cases hl : (x.ids.lookup (x.nextLabel + j)).isSome with
    | false => rfl
    | true => exact absurd (hx.below _ hl) (by omega)
  simpa using hnone

theorem LabelsBelow.frees_iff (hx : LabelsBelow x) {ids : List Id} (hge : x.nextLabel ≤ label) :
    x.Frees ids label ↔ x.inner.lookup label = none := by
  refine ⟨?_, Or.inl⟩
  rintro (hfree | ⟨id, -, hl⟩)
  · exact hfree
  · exact absurd (hx id label hl) (by omega)

theorem frees_delete (x : UsearchIndex) (id : Id) (ids : List Id) (label : ℕ) :
    (x.delete id).Frees ids label ↔ x.Frees (id :: ids) label := by
  rw [UsearchIndex.delete]
  cases hl : x.labels.lookup id with
  | none =>
      refine or_congr Iff.rfl ?_
      constructor
      · rintro ⟨key, hkey, hkl⟩
        exact ⟨key, List.mem_cons_of_mem _ hkey, hkl⟩
      · rintro ⟨key, hkey, hkl⟩
        rcases List.mem_cons.mp hkey with rfl | hkey
        · rw [hl] at hkl
          exact absurd hkl (by simp)
        · exact ⟨key, hkey, hkl⟩
  | some held =>
      simp only [Frees, FinMap.lookup_erase_ite]
      by_cases hlabel : label = held
      · subst hlabel
        simp only [if_true, true_or, true_iff]
        exact Or.inr ⟨id, List.mem_cons_self, hl⟩
      · simp only [if_neg hlabel]
        refine or_congr Iff.rfl ?_
        constructor
        · rintro ⟨key, hkey, hkl⟩
          split at hkl
          · exact absurd hkl (by simp)
          · exact ⟨key, List.mem_cons_of_mem _ hkey, hkl⟩
        · rintro ⟨key, hkey, hkl⟩
          by_cases hid : key = id
          · rw [hid, hl, Option.some.injEq] at hkl
            exact absurd hkl.symm hlabel
          · refine ⟨key, (List.mem_cons.mp hkey).resolve_left hid, ?_⟩
            rw [if_neg hid]
            exact hkl

theorem frees_add (h : x.add id e = .ok () x') (ids : List Id) (hgt : x.nextLabel < label) :
    x'.Frees ids label ↔ x.Frees ids label := by
  obtain ⟨-, hnew, -, rfl⟩ := add_ok h
  simp only [Frees, FinMap.lookup_insert_ite, if_neg hgt.ne']
  refine or_congr Iff.rfl (exists_congr fun key => and_congr_right fun _ => ?_)
  by_cases hid : key = id
  · rw [if_pos hid, hid, hnew]
    simp [hgt.ne]
  · rw [if_neg hid]

end UsearchIndex

namespace CheckpointDir

/-- The records an opening starts from. -/
def baseRecords (dir : CheckpointDir) : FinMap Id Record :=
  match Collection.snapshotFiles dir with
  | none => ∅
  | some (m, records) =>
      if dir.segmentBin.toList.isEmpty then records
      else Collection.stripRecords m.flushedSeq records

/-- The seq above which an opening replays the log. -/
def watermark (dir : CheckpointDir) : ℕ :=
  match Collection.snapshotFiles dir with
  | none => 0
  | some (m, _) => m.flushedSeq

/-- The segment's copy of a vector: segments are mapped by a usable snapshot only. -/
def savedVector (dir : CheckpointDir) (id : Id) : Option Embedding :=
  match Collection.snapshotFiles dir with
  | none => none
  | some _ => ((dir.segmentIndexBin.getD ∅).lookup id).bind fun row =>
      dir.segmentBin.bind fun s => s.getVector row

def openedIndex (dir : CheckpointDir) (space : Distance) (dimension : ℕ) : UsearchIndex :=
  match Collection.snapshotFiles dir with
  | none => UsearchIndex.withHnsw space dimension
  | some _ =>
      match UsearchIndex.load dir.indexBin dir.indexMeta space dimension with
      | .ok x => x
      | .error _ => UsearchIndex.withHnsw space dimension

theorem openedIndex_cases (dir : CheckpointDir) (space : Distance) (dimension : ℕ) :
    dir.openedIndex space dimension = UsearchIndex.withHnsw space dimension ∨
      UsearchIndex.load dir.indexBin dir.indexMeta space dimension =
        .ok (dir.openedIndex space dimension) := by
  rw [openedIndex]
  split
  · exact Or.inl rfl
  · split
    · rename_i x hx
      exact Or.inr hx
    · exact Or.inl rfl

end CheckpointDir

namespace Disk

def replayed (d : Disk) : List WalRecord :=
  d.wal.records.filter fun r => decide (d.dir.watermark < r.seq)

def content (d : Disk) (id : Id) : Option Content :=
  (lastWrite (fun r => Collection.contentWrite r id) d.replayed).getD
    (Collection.contentOf d.dir.baseRecords id)

/-- The vector in memory of an id after the replay. -/
def memVector (d : Disk) (id : Id) : Option Embedding :=
  (lastWrite (fun r => Collection.vectorWrite r id) d.replayed).getD
    ((d.dir.baseRecords.lookup id).bind Record.embedding)

end Disk

/-- What a reader sees of a record: embedding, metadata and document. -/
abbrev View := Option Embedding × Option Metadata × Option Document

def Content.view (x : Content) (vector : Option Embedding) : View :=
  (vector, x.metadata, x.document)

def Disk.view (d : Disk) (id : Id) : Option View :=
  (d.content id).map fun x => x.view ((d.dir.savedVector id).or (d.memVector id))

/-- The records a log puts into an empty buffer. -/
def bufferOf (rs : List WalRecord) : List Record :=
  rs.foldl (fun buffer r => r.op.bufferAfter r.seq buffer) []

def Operation.deleted : Operation → List Id
  | .delete id => [id]
  | _ => []

def deletedIds (rs : List WalRecord) : List Id := rs.flatMap fun r => r.op.deleted

theorem deletedIds_cons (r : WalRecord) (rs : List WalRecord) :
    deletedIds (r :: rs) = r.op.deleted ++ deletedIds rs := List.flatMap_cons

namespace Collection

/-- What `get` shows of an id. -/
def view (c : Collection) (id : Id) : Option View :=
  (c.get id).map fun r => (r.embedding, r.metadata, r.document)

theorem view_eq (c : Collection) (id : Id) :
    c.view id = (c.content id).map fun x => x.view ((c.loadVector id).or (c.memVector id)) := by
  rw [view, get, content, contentOf, memVector]
  cases c.records.lookup id <;> rfl

/-! ## The state after an opening -/

section Restored

variable {config : CollectionConfig} {d : Disk} {order : HashOrder}

theorem based_records : (based config d order).records = d.dir.baseRecords := by
  rw [CheckpointDir.baseRecords]
  cases hsnap : snapshotFiles d.dir with
  | none =>
      rw [based_none hsnap]
      rfl
  | some p => exact (based_some hsnap).records

theorem based_watermark : (based config d order).flushedSeq = d.dir.watermark := by
  rw [CheckpointDir.watermark]
  cases hsnap : snapshotFiles d.dir with
  | none =>
      rw [based_none hsnap]
      rfl
  | some p => exact (based_some hsnap).flushedSeq

theorem based_log : (based config d order).wal.file = d.wal := by
  cases hsnap : snapshotFiles d.dir with
  | none =>
      rw [based_none hsnap]
      rfl
  | some p =>
      rw [(based_some hsnap).wal]
      rfl

theorem based_buffer : (based config d order).buffer = [] := by
  cases hsnap : snapshotFiles d.dir with
  | none =>
      rw [based_none hsnap]
      rfl
  | some p => exact (based_some hsnap).buffer

theorem based_config : (based config d order).config = config := by
  cases hsnap : snapshotFiles d.dir with
  | none =>
      rw [based_none hsnap]
      rfl
  | some p => exact (based_some hsnap).config

theorem based_index :
    (based config d order).index = d.dir.openedIndex config.space config.dimension := by
  rw [CheckpointDir.openedIndex]
  cases hsnap : snapshotFiles d.dir with
  | none =>
      rw [based_none hsnap]
      rfl
  | some p => exact (based_some hsnap).index

theorem based_loadVector (id : Id) :
    (based config d order).loadVector id = d.dir.savedVector id := by
  rw [CheckpointDir.savedVector, loadVector]
  cases hsnap : snapshotFiles d.dir with
  | none =>
      rw [based_none hsnap]
      rfl
  | some p =>
      rw [(based_some hsnap).segments, (based_some hsnap).segmentIndex]
      cases d.dir.segmentBin <;> rfl

theorem restored_eq_foldl :
    restored config d order = d.replayed.foldl applyRecord (based config d order) := by
  rw [restored_eq, replayAfter_eq, based_watermark, based_log]
  rfl

theorem based_catalog : (based config d order).catalog = d.catalog := by
  cases hsnap : snapshotFiles d.dir with
  | none =>
      rw [based_none hsnap]
      rfl
  | some p => exact (based_some hsnap).catalog

theorem based_dir : (based config d order).dir = d.dir := by
  cases hsnap : snapshotFiles d.dir with
  | none =>
      rw [based_none hsnap]
      rfl
  | some p => exact (based_some hsnap).dir

theorem dir_restored (config : CollectionConfig) (d : Disk) (order : HashOrder) :
    (restored config d order).dir = d.dir := by
  have hdir := congrArg Settled.dir (foldl_applyRecord_settled d.replayed (based config d order))
  rw [restored_eq_foldl]
  exact hdir.trans based_dir

theorem memVector_restored (id : Id) : (restored config d order).memVector id = d.memVector id := by
  rw [restored_eq_foldl, memVector_foldl, memVector, based_records]
  rfl

theorem foldl_applyRecord_loadVector (rs : List WalRecord) (c : Collection) (id : Id) :
    (rs.foldl applyRecord c).loadVector id = c.loadVector id := by
  have hset := foldl_applyRecord_settled rs c
  simp only [settled, Settled.mk.injEq] at hset
  rw [loadVector, loadVector, hset.2.2.2.2.2.2.1, hset.2.2.2.2.2.2.2]

/-- **An opening shows what the disk holds.** -/
theorem restored_view (id : Id) : (restored config d order).view id = d.view id := by
  rw [view_eq, Disk.view, restored_eq_foldl, foldl_applyRecord_loadVector, based_loadVector,
    memVector_foldl, content_foldl, foldl_overwrite, Disk.content, Disk.memVector, content,
    memVector, based_records]

end Restored

/-! ## The flush that ends an opening -/

section Flush

open UsearchIndex Outcome

variable {x x' : UsearchIndex} {r : Record} {e : Embedding} {c : Collection}

theorem exists_reindexed_one_iff : (∃ x', reindexed x r e x') ↔
    e.length = x.dimension ∧ x.Frees [r.id] x.nextLabel := by
  simp only [reindexed_iff_add]
  rw [exists_add_iff, (x.delete_dimension r.id).1, delete_nextLabel, labels_delete, if_pos rfl,
    ← frees_delete]
  simp [Frees]

theorem reindexed_frees (h : reindexed x r e x') : x'.dimension = x.dimension ∧
    x'.nextLabel = x.nextLabel + 1 ∧ ∀ ids label, x.nextLabel < label →
      (x'.Frees ids label ↔ x.Frees (r.id :: ids) label) := by
  rw [reindexed_iff_add] at h
  have hfrees := fun ids label => @frees_add _ x' r.id e label h ids
  obtain ⟨-, -, -, rfl⟩ := UsearchIndex.add_ok h
  refine ⟨(x.delete_dimension r.id).1, ?_, fun ids label hgt => ?_⟩
  · show (x.delete r.id).nextLabel + 1 = _
    rw [delete_nextLabel]
  · rw [hfrees ids label (by rw [delete_nextLabel]; exact hgt), frees_delete]

/-- **A batch of vectors enters the index** exactly when the lengths are right and
each label it takes is free by then. -/
theorem exists_reindexed_iff : ∀ {batch : List Record} {x : UsearchIndex},
    (∀ r ∈ batch, r.embedding.isSome) →
      ((∃ x', Reindexed x batch x') ↔
        (∀ r ∈ batch, ∀ e, r.embedding = some e → e.length = x.dimension) ∧
          ∀ j < batch.length, x.Frees ((batch.map Record.id).take (j + 1)) (x.nextLabel + j))
  | [], x, _ => by
      refine ⟨fun _ => ⟨fun r hr => absurd hr List.not_mem_nil, fun j hj => ?_⟩,
        fun _ => ⟨x, Reindexed.nil x⟩⟩
      exact absurd hj (Nat.not_lt_zero j)
  | r :: batch, x, hsome => by
      obtain ⟨e, he⟩ := Option.isSome_iff_exists.mp (hsome r List.mem_cons_self)
      have hrest := fun r' hr' => hsome r' (List.mem_cons_of_mem _ hr')
      -- a condition on the rest, seen from before the first insert
      have hlater : ∀ {x₁ : UsearchIndex}, reindexed x r e x₁ → ∀ j,
          (x₁.Frees ((batch.map Record.id).take (j + 1)) (x₁.nextLabel + j) ↔
            x.Frees (((r :: batch).map Record.id).take (j + 1 + 1)) (x.nextLabel + (j + 1))) := by
        intro x₁ hre j
        obtain ⟨-, hnext, hfrees⟩ := reindexed_frees hre
        rw [hnext, Nat.add_assoc, Nat.add_comm 1 j, hfrees _ _ (by omega), List.map_cons,
          List.take_succ_cons]
      constructor
      · rintro ⟨x', h⟩
        cases h with
        | skip hnone => exact absurd (hnone.symm.trans he) (by simp)
        | insert he' hre hmore =>
            rename_i x₁ e'
            rw [he, Option.some.injEq] at he'
            subst he'
            obtain ⟨hlen, hfree⟩ := exists_reindexed_one_iff.mp ⟨x₁, hre⟩
            obtain ⟨hlens, hfrees⟩ := (exists_reindexed_iff hrest).mp ⟨x', hmore⟩
            refine ⟨fun r' hr' e' he' => ?_, fun j hj => ?_⟩
            · rcases List.mem_cons.mp hr' with rfl | hr'
              · rw [he, Option.some.injEq] at he'
                rw [← he']
                exact hlen
              · exact (hlens r' hr' e' he').trans (reindexed_frees hre).1
            · cases j with
              | zero => exact hfree
              | succ j => exact (hlater hre j).mp (hfrees j (Nat.lt_of_succ_lt_succ hj))
      · rintro ⟨hlens, hfrees⟩
        obtain ⟨x₁, hre⟩ := exists_reindexed_one_iff.mpr
          ⟨hlens r List.mem_cons_self e he, hfrees 0 (Nat.succ_pos _)⟩
        obtain ⟨x', hmore⟩ := (exists_reindexed_iff (x := x₁) hrest).mpr
          ⟨fun r' hr' e' he' => (hlens r' (List.mem_cons_of_mem _ hr') e' he').trans
            (reindexed_frees hre).1.symm,
          fun j hj => (hlater hre j).mpr (hfrees (j + 1) (Nat.succ_lt_succ hj))⟩
        exact ⟨x', Reindexed.insert he hre hmore⟩

theorem foldl_applyRecord_buffer : ∀ (rs : List WalRecord) (c : Collection),
    (rs.foldl applyRecord c).buffer =
      rs.foldl (fun buffer r => r.op.bufferAfter r.seq buffer) c.buffer
  | [], _ => rfl
  | r :: rs, c => by
      rw [List.foldl_cons, List.foldl_cons, foldl_applyRecord_buffer rs, applyRecord,
        applyOperation_buffer]

theorem foldl_applyRecord_frees : ∀ (rs : List WalRecord) (c : Collection) (ids : List Id)
    (label : ℕ), ((rs.foldl applyRecord c).index.Frees ids label ↔
      c.index.Frees (deletedIds rs ++ ids) label)
  | [], _, _, _ => Iff.rfl
  | r :: rs, c, ids, label => by
      rw [List.foldl_cons, foldl_applyRecord_frees rs, applyRecord, applyOperation_index,
        deletedIds_cons]
      cases r.op with
      | delete id => exact frees_delete _ _ _ _
      | _ => exact Iff.rfl

theorem foldl_applyRecord_nextLabel : ∀ (rs : List WalRecord) (c : Collection),
    (rs.foldl applyRecord c).index.dimension = c.index.dimension ∧
      (rs.foldl applyRecord c).index.nextLabel = c.index.nextLabel
  | [], _ => ⟨rfl, rfl⟩
  | r :: rs, c => by
      rw [List.foldl_cons, (foldl_applyRecord_nextLabel rs _).1,
        (foldl_applyRecord_nextLabel rs _).2, applyRecord, applyOperation_index]
      cases r.op with
      | delete id => exact ⟨(c.index.delete_dimension id).1, c.index.delete_nextLabel id⟩
      | _ => exact ⟨rfl, rfl⟩

/-- If the buffered records hold the vectors `v` of their ids, after a log record they
hold what the record makes of them. -/
theorem vector_bufferAfter {v : Id → Option Embedding} {buffer : List Record}
    (hv : ∀ b ∈ buffer, b.embedding.isSome ∧ b.embedding = v b.id) (w : WalRecord) :
    ∀ b ∈ w.op.bufferAfter w.seq buffer,
      b.embedding.isSome ∧ b.embedding = overwrite vectorWrite v w b.id := by
  intro b hb
  simp only [overwrite, vectorWrite]
  rcases mem_bufferAfter hb with ⟨hold, hupd⟩ | ⟨-, hid, hemb, hsome⟩
  · obtain ⟨hsome, hemb⟩ := hv b hold
    refine ⟨hsome, ?_⟩
    by_cases hid : b.id = w.op.id
    · rw [if_pos hid]
      cases hop : w.op with
      | update key md doc => exact hemb
      | _ =>
          have := hupd hid
          rw [hop] at this
          exact this.elim
    · rw [if_neg hid]
      exact hemb
  · rw [if_pos hid, hemb]
    refine ⟨hsome, ?_⟩
    cases hop : w.op with
    | add key e md doc => rfl
    | upsert key e md doc => rfl
    | update key md doc =>
        rw [hop] at hsome
        exact absurd hsome (by simp [Operation.vector])
    | delete key =>
        rw [hop] at hsome
        exact absurd hsome (by simp [Operation.vector])

theorem vector_bufferOf {rs : List WalRecord} {b : Record} (hb : b ∈ bufferOf rs) :
    b.embedding.isSome ∧ lastWrite (fun r => vectorWrite r b.id) rs = some b.embedding := by
  have hall : ∀ (rs : List WalRecord) {v : Id → Option Embedding} {buffer : List Record},
      (∀ b ∈ buffer, b.embedding.isSome ∧ b.embedding = v b.id) →
      ∀ b ∈ rs.foldl (fun buffer r => r.op.bufferAfter r.seq buffer) buffer,
        b.embedding.isSome ∧ b.embedding = rs.foldl (overwrite vectorWrite) v b.id := by
    intro rs
    induction rs with
    | nil => exact fun hv => hv
    | cons r rs ih => exact fun hv => ih (vector_bufferAfter hv r)
  obtain ⟨hsome, hemb⟩ := hall rs (v := fun _ => none)
    (fun b hb => absurd hb List.not_mem_nil) b hb
  refine ⟨hsome, ?_⟩
  rw [foldl_overwrite] at hemb
  cases hw : lastWrite (fun r => vectorWrite r b.id) rs with
  | none =>
      rw [hemb, hw] at hsome
      exact absurd hsome (by simp)
  | some e =>
      rw [hw, Option.getD_some] at hemb
      rw [hemb]

end Flush

/-- The flush that ends an opening goes through. -/
def FlushFits (batchSize : ℕ) (rs : List WalRecord) (x : UsearchIndex) : Prop :=
  batchSize ≤ (bufferOf rs).length →
    (∀ b ∈ bufferOf rs, ∀ e, b.embedding = some e → e.length = x.dimension) ∧
      x.FreeLabels (bufferOf rs).length

/-- The same over index files in any state: each label the flush takes is free or
goes with an id that the log deletes or the flush has reached. -/
def FlushGoes (batchSize : ℕ) (rs : List WalRecord) (x : UsearchIndex) : Prop :=
  batchSize ≤ (bufferOf rs).length →
    (∀ b ∈ bufferOf rs, ∀ e, b.embedding = some e → e.length = x.dimension) ∧
      ∀ j < (bufferOf rs).length,
        x.Frees (deletedIds rs ++ ((bufferOf rs).map Record.id).take (j + 1)) (x.nextLabel + j)

theorem flushGoes_iff {n : ℕ} {rs : List WalRecord} {x : UsearchIndex} (hx : x.LabelsBelow) :
    FlushGoes n rs x ↔ FlushFits n rs x := by
  refine imp_congr_right fun _ => and_congr_right fun _ => ?_
  refine forall_congr' fun j => imp_congr_right fun _ => ?_
  exact hx.frees_iff (Nat.le_add_right _ _)

section Reopen

variable {config : CollectionConfig} {d : Disk} {c : Collection}

theorem flush_restored_iff {order : HashOrder} :
    (∃ c, flushIfNeeded (restored config d order) = .ok () c) ↔
      FlushGoes config.hnsw.batchSize d.replayed
        (d.dir.openedIndex config.space config.dimension) := by
  have hbuffer : (restored config d order).buffer = bufferOf d.replayed := by
    rw [restored_eq_foldl, foldl_applyRecord_buffer, based_buffer]
    rfl
  have hconfig : (restored config d order).config = config := by
    have hset := congrArg Settled.config
      (foldl_applyRecord_settled d.replayed (based config d order))
    rw [restored_eq_foldl]
    exact hset.trans based_config
  have hindex : (based config d order).index =
      d.dir.openedIndex config.space config.dimension := based_index
  obtain ⟨hdim, hnext⟩ := foldl_applyRecord_nextLabel d.replayed (based config d order)
  rw [flushIfNeeded_succeeds_iff, hconfig, hbuffer, FlushGoes]
  apply imp_congr_right
  intro _
  rw [flushBuffer_succeeds_iff, hbuffer, exists_reindexed_iff fun b hb => (vector_bufferOf hb).1,
    restored_eq_foldl]
  simp only [foldl_applyRecord_frees, hdim, hnext, hindex]

theorem view_flushIfNeeded {c' : Collection} (h : flushIfNeeded c = .ok () c') (id : Id) :
    c'.view id = c.view id := by
  rcases flushIfNeeded_ok h with rfl | h
  · rfl
  · obtain ⟨x, -, rfl⟩ := flushBuffer_ok h
    rfl

/-- **Opening a disk** goes through exactly when its last flush does, and then shows
what the disk holds. -/
theorem opens_iff (P : (Id → Option View) → Prop) :
    (∀ order, ∃ c', reopen config d order = .ok c' ∧ P c'.view) ↔
      FlushGoes config.hnsw.batchSize d.replayed
        (d.dir.openedIndex config.space d.catalog.dimension) ∧ P d.view := by
  have hflush := fun order => @flush_restored_iff
    { config with dimension := d.catalog.dimension } d order
  have hviews : ∀ {order : HashOrder} {c' : Collection}, flushIfNeeded
      (restored { config with dimension := d.catalog.dimension } d order) = .ok () c' →
        c'.view = d.view := by
    intro order c' h
    funext id
    rw [view_flushIfNeeded h, restored_view]
  constructor
  · intro h
    obtain ⟨c', hopen, hP⟩ := h ⟨fun m => m.entries, fun _ => List.Perm.refl _⟩
    have hrestored := reopen_ok hopen
    rw [hviews hrestored] at hP
    exact ⟨(hflush _).mp ⟨c', hrestored⟩, hP⟩
  · rintro ⟨hfits, hP⟩ order
    obtain ⟨c', hc'⟩ := (hflush order).mpr hfits
    refine ⟨c', reopen_of_flush hc', ?_⟩
    rw [hviews hc']
    exact hP

/-- Opening the disk succeeds and shows every id as `c` does. -/
def Recovers (c : Collection) (d : Disk) : Prop :=
  ∀ order, ∃ c', reopen c.config d order = .ok c' ∧ ∀ id, c'.view id = c.view id

/-- **What recovery takes.** -/
theorem recovers_iff
    (hx : (d.dir.openedIndex c.config.space d.catalog.dimension).LabelsBelow) :
    Recovers c d ↔ FlushFits c.config.hnsw.batchSize d.replayed
        (d.dir.openedIndex c.config.space d.catalog.dimension) ∧
      ∀ id, d.view id = c.view id := by
  rw [← flushGoes_iff hx]
  exact opens_iff fun view => ∀ id, view id = c.view id

end Reopen

end Collection

end Rekha
