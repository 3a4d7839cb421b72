import Rekha.Engine.Filtered
import Rekha.Engine.IndexPath
import Rekha.Engine.WalGrowth
import Rekha.Lib.Interleaving

/-!
# Writers of different ids

An operation acts on what the collection holds under its id: the record, and the
vector found in the buffer or, behind it, in the index. A flush moves vectors
from the one to the other and holds nothing different. So without a checkpoint
what is held under an id depends on the operations on that id, and two clients
that write different ids leave the same collection in whatever order their
batches arrive, up to seqs, offsets and the place of the vectors
(`disjoint_writes_commute`).
-/

namespace Rekha

open Trace Interleaving

/-! ## What is held under an id -/

structure Payload where
  embedding : Option Embedding
  metadata : Option Metadata
  document : Option Document

def Record.payload (r : Record) : Payload := ⟨r.embedding, r.metadata, r.document⟩

/-- The live record of an id and its vector in the two tiers. -/
structure Holding where
  record : Option Payload
  vector : Option Embedding

/-- What an operation makes of what is held under its id. -/
def Operation.holdingAfter (op : Operation) (old : Holding) : Holding :=
  match op with
  | .add _ e md doc | .upsert _ e md doc => ⟨some ⟨some e, md, doc⟩, some e⟩
  | .update _ md doc => ⟨some ⟨old.record.bind Payload.embedding, md, doc⟩, old.vector⟩
  | .delete _ => ⟨none, none⟩

namespace Collection

/-- The vector of an id: the buffered one before the one in the index. -/
def tierVector (c : Collection) (id : Id) : Option Embedding :=
  match c.buffer.find? fun b => decide (b.id = id) with
  | some b => b.embedding
  | none => c.index.vector id

def holding (c : Collection) (id : Id) : Holding :=
  ⟨(c.records.lookup id).map Record.payload, c.tierVector id⟩

/-- The ids a filter selects: those at the offsets the postings evaluate to. -/
def Selects (c : Collection) (F : WhereFilter) (id : Id) : Prop :=
  ∃ o ∈ c.postings.evaluate F, c.idByOffset.lookup o = some id

section Holding

variable {c c' : Collection} {h ops : List Operation} {d : ℕ}

theorem find?_filter_ne {buffer : List Record} {id key : Id} (hid : id ≠ key) :
    (buffer.filter fun b => decide (b.id ≠ key)).find? (fun b => decide (b.id = id)) =
      buffer.find? fun b => decide (b.id = id) := by
  rw [List.find?_filter]
  congr 1
  ext b
  by_cases hb : b.id = id
  · simp [hb, hid]
  · simp [hb]

theorem find?_bufferAfter (op : Operation) (seq : ℕ) (buffer : List Record) {id : Id}
    (hid : id ≠ op.id) : (op.bufferAfter seq buffer).find? (fun b => decide (b.id = id)) =
      buffer.find? fun b => decide (b.id = id) := by
  have hput : ∀ r : Record, r.id = op.id →
      (buffer.filter (fun b => decide (b.id ≠ op.id)) ++ [r]).find?
        (fun b => decide (b.id = id)) = buffer.find? fun b => decide (b.id = id) := by
    intro r hr
    have hnot : ¬ r.id = id := fun heq => hid (heq.symm.trans hr)
    rw [List.find?_append, find?_filter_ne hid, List.find?_singleton, if_neg (by simpa using hnot),
      Option.or_none]
  cases op with
  | add key e md doc => exact hput _ rfl
  | upsert key e md doc => exact hput _ rfl
  | update key md doc => rfl
  | delete key => exact find?_filter_ne hid

theorem find?_filter_self {buffer : List Record} {id : Id} :
    (buffer.filter fun b => decide (b.id ≠ id)).find? (fun b => decide (b.id = id)) = none := by
  rw [List.find?_eq_none]
  intro b hb
  simpa using (List.mem_filter.mp hb).2

theorem find?_buffer_put {buffer : List Record} {r : Record} :
    (buffer.filter (fun b => decide (b.id ≠ r.id)) ++ [r]).find?
      (fun b => decide (b.id = r.id)) = some r := by
  rw [List.find?_append, find?_filter_self, Option.none_or, List.find?_singleton,
    if_pos (by simp)]

theorem tierVector_applyRecord (hx : c.index.Wf) (r : WalRecord) (id : Id) :
    (c.applyRecord r).tierVector id =
      if id = r.op.id then (r.op.holdingAfter (c.holding id)).vector else c.tierVector id := by
  unfold tierVector applyRecord
  rw [applyOperation_buffer, applyOperation_index]
  by_cases hid : id = r.op.id
  · rw [if_pos hid]
    cases hop : r.op with
    | add key e md doc =>
        rw [hop] at hid
        obtain rfl : id = key := hid
        rw [Operation.bufferAfter, find?_buffer_put (r := ⟨id, some e, md, doc, r.seq⟩)]
        rfl
    | upsert key e md doc =>
        rw [hop] at hid
        obtain rfl : id = key := hid
        rw [Operation.bufferAfter, find?_buffer_put (r := ⟨id, some e, md, doc, r.seq⟩)]
        rfl
    | update key md doc => rfl
    | delete key =>
        rw [hop] at hid
        obtain rfl : id = key := hid
        rw [Operation.bufferAfter, find?_filter_self]
        exact (hx.vector_delete _ _).trans (if_pos rfl)
  · rw [if_neg hid, find?_bufferAfter r.op r.seq c.buffer hid]
    cases hop : r.op with
    | delete key =>
        rw [hop] at hid
        have hindex : (c.index.delete key).vector id = c.index.vector id :=
          (hx.vector_delete _ _).trans (if_neg hid)
        rw [Operation.indexAfter, hindex]
    | _ => rfl

/-- **An operation acts on what is held under its id** and on nothing else. -/
theorem holding_applyRecord (hx : c.index.Wf) (r : WalRecord) (id : Id) :
    (c.applyRecord r).holding id =
      if id = r.op.id then r.op.holdingAfter (c.holding id) else c.holding id := by
  have hvector := tierVector_applyRecord hx r id
  unfold holding at hvector ⊢
  rw [hvector, applyRecord, lookup_applyOperation]
  by_cases hid : id = r.op.id
  · rw [if_pos hid, if_pos hid, if_pos hid]
    cases r.op with
    | add key e md doc => rfl
    | upsert key e md doc => rfl
    | update key md doc => cases c.records.lookup id <;> rfl
    | delete key => rfl
  · rw [if_neg hid, if_neg hid, if_neg hid]

theorem holding_numbered (hx : c.index.Wf) (ops : List Operation) (n : ℕ) (id : Id) :
    ((numbered n ops).foldl applyRecord c).holding id =
      register Operation.id Operation.holdingAfter id ops (c.holding id) := by
  have hfold : ((numbered n ops).foldl applyRecord c).holding id =
      register (fun r : WalRecord => r.op.id) (fun r => r.op.holdingAfter) id (numbered n ops)
        (c.holding id) :=
    foldl_register (P := fun c => c.index.Wf) (fun _ r hx => (applyRecord_index_wf r hx).1)
      (fun _ r id hx => holding_applyRecord hx r id) id (numbered n ops) hx
  rw [hfold, register_map, map_op_numbered]

theorem tierVector_flush (hx : c.index.Wf) (hb : Buffered c) (hf : flushBuffer c = .ok () c')
    (id : Id) : c'.tierVector id = c.tierVector id := by
  obtain ⟨x, hre, rfl⟩ := flushBuffer_ok hf
  obtain ⟨hin, hout⟩ := hre.vector hx hb.nodup
  show x.vector id = _
  unfold tierVector
  cases hfind : c.buffer.find? fun b => decide (b.id = id) with
  | some b =>
      have hmem := List.mem_of_find?_eq_some hfind
      have hid : b.id = id := by simpa using List.find?_some hfind
      obtain ⟨_, _, _, hsome, _⟩ := hb.live b hmem
      rw [← hid]
      exact hin b hmem hsome
  | none =>
      apply hout
      intro hmem
      obtain ⟨b, hb, hid⟩ := List.mem_map.mp hmem
      exact List.find?_eq_none.mp hfind b hb (decide_eq_true hid)

end Holding

end Collection

open Collection

/-! ## Writes that do not checkpoint -/

/-- Accepted write batches one after another, none of which checkpoints: the
threshold is not reached, or no record is live. -/
inductive QuietRun : List Call → Collection → Collection → Prop
  | nil (c : Collection) : QuietRun [] c c
  | cons {a : Call} {calls : List Call} {c c₁ c' : Collection} : a.isWrite →
      a.run c = .ok c₁ → (c₁.records.size ≠ 0 → ¬ a.CheckpointDue c) →
      QuietRun calls c₁ c' → QuietRun (a :: calls) c c'

section QuietRun

variable {config : CollectionConfig} {h ops : List Operation} {c c₀ c' : Collection}

theorem Call.run_quiet {a : Call} (ha : a.isWrite) (hrun : a.run c = .ok c')
    (hquiet : c'.records.size ≠ 0 → ¬ a.CheckpointDue c) :
    Run (StepIn Phase.isUnchecked) c a.ops c' := by
  obtain ⟨c₁, hsteps, hauto⟩ := Call.run_unchecked ha hrun
  have he := appended_run hsteps
  rcases autoCheckpoint_ok hauto with ⟨-, rfl⟩ | ⟨hsize, hdue, hc⟩
  · exact hsteps
  · have hsize' : c'.records.size ≠ 0 := by
      rcases checkpoint_ok hc with ⟨hzero, -⟩ | ⟨-, files, -, rfl⟩
      · exact absurd hzero hsize
      · show (stripRecords c₁.flushedSeq c₁.records).size ≠ 0
        rw [stripRecords, FinMap.size_mapVals]
        exact hsize
    rw [he.hnsw, he.lastSeq, he.lastCheckpointSeq] at hdue
    exact absurd hdue (hquiet hsize')

theorem QuietRun.isWrite {calls : List Call} (hr : QuietRun calls c c') :
    ∀ a ∈ calls, a.isWrite := by
  induction hr with
  | nil c => exact fun a ha => absurd ha List.not_mem_nil
  | cons ha _ _ _ ih => exact List.forall_mem_cons.mpr ⟨ha, ih⟩

theorem QuietRun.run {calls : List Call} (hr : QuietRun calls c c') :
    Run (StepIn Phase.isUnchecked) c (calls.flatMap Call.ops) c' := by
  induction hr with
  | nil c => exact Run.refl
  | cons ha hrun hquiet _ ih => exact (Call.run_quiet ha hrun hquiet).trans ih

/-- What is held after writes that do not checkpoint. -/
structure Written (d : ℕ) (h ops : List Operation) (c₀ c : Collection) : Prop where
  logged : Logged (h ++ ops) c
  fits : Fits d c
  buffered : Buffered c
  holding : ∀ id, c.holding id =
    register Operation.id Operation.holdingAfter id ops (c₀.holding id)

theorem Written.step {d : ℕ} {l : List Operation} {p : Phase} (hd : d ≠ 0)
    (hw : Written d h l c₀ c) (hp : p.isUnchecked) (hs : Step p ops c c') :
    Written d h (l ++ ops) c₀ c' := by
  have hlogged := hw.logged.step hs
  rw [List.append_assoc] at hlogged
  refine ⟨hlogged, hw.fits.step hd hs, hw.buffered.step hw.logged hs, ?_⟩
  intro id
  rw [register_append, ← hw.holding]
  cases hs with
  | infer | persist => rfl
  | commit hacc hwrite =>
      obtain ⟨w, -, -, rfl⟩ := writeOps_ok hwrite
      exact holding_numbered (c := { c with wal := w }) hw.fits.wf ops c.wal.lastSeq id
  | flush hf =>
      have hvector := tierVector_flush hw.fits.wf hw.buffered hf id
      obtain ⟨x, -, rfl⟩ := flushBuffer_ok hf
      unfold Collection.holding
      rw [hvector]
      rfl
  | checkpoint | rebuild | restart => exact absurd hp (by simp [Phase.isUnchecked])

theorem QuietRun.written {calls : List Call} (hd : config.dimension ≠ 0)
    (hr : Reachable (fun _ => True) config h c₀) (hrun : QuietRun calls c₀ c) :
    Written config.dimension h (calls.flatMap Call.ops) c₀ c := by
  have hlogged := hr.logged
  rw [← List.append_nil h] at hlogged
  exact hrun.run.invariant (I := fun ops c => Written config.dimension h ops c₀ c)
    ⟨hlogged, hr.fits hd, hr.buffered, fun _ => rfl⟩
    fun _ _ _ _ hw ⟨_, hp, hs⟩ => hw.step hd hp hs

theorem QuietRun.reachable {calls : List Call} (hrun : QuietRun calls c₀ c)
    (hr : Reachable (fun _ => True) config h c₀) :
    Reachable (fun _ => True) config (h ++ calls.flatMap Call.ops) c := by
  induction hrun generalizing h with
  | nil c =>
      rw [List.flatMap_nil, List.append_nil]
      exact hr
  | cons ha hrun _ _ ih =>
      rw [List.flatMap_cons, ← List.append_assoc]
      exact ih (Reachable.call _ hr trivial hrun)

end QuietRun

/-! ## Two clients -/

theorem QuietRun.of_runAll {calls : List Call} {c c' : Collection}
    (hall : ∀ a ∈ calls, a.isWrite) (hrun : runAll calls c = .ok c')
    (hroom : c.wal.lastSeq + (calls.flatMap Call.ops).length - c.lastCheckpointSeq <
      c.config.hnsw.syncThreshold) : QuietRun calls c c' := by
  induction calls generalizing c with
  | nil =>
      obtain rfl := Except.ok.inj hrun
      exact .nil c
  | cons a calls ih =>
      obtain ⟨ha, hcalls⟩ := List.forall_mem_cons.mp hall
      rw [List.flatMap_cons, List.length_append] at hroom
      rw [runAll] at hrun
      cases hcall : a.run c with
      | error e =>
          rw [hcall] at hrun
          exact absurd hrun (by simp)
      | ok c₁ =>
          rw [hcall] at hrun
          have hquiet : ¬ a.CheckpointDue c := by
            unfold Call.CheckpointDue
            omega
          have he := appended_run (Call.run_quiet ha hcall fun _ => hquiet)
          refine .cons ha hcall (fun _ => hquiet) (ih hcalls hrun ?_)
          rw [he.lastSeq, he.lastCheckpointSeq, he.hnsw]
          omega

/-- The same collection up to seqs, offsets and the tier of a vector. -/
structure SameContents (c c' : Collection) : Prop where
  records : ∀ id, (c.records.lookup id).map Record.payload =
    (c'.records.lookup id).map Record.payload
  reads : ∀ id, (c.get id).map Record.payload = (c'.get id).map Record.payload
  vectors : ∀ id, c.tierVector id = c'.tierVector id
  selects : ∀ F id, c.Selects F id ↔ c'.Selects F id

theorem Collection.Derived.selects_iff {c : Collection} (hd : Derived c) {F : WhereFilter}
    {id : Id} : c.Selects F id ↔
      ∃ p, (c.records.lookup id).map Record.payload = some p ∧ keyMatches F p.metadata = true := by
  have hcandidate : c.Selects F id ↔ c.isCandidate (c.postings.evaluate F) id = true := by
    simp only [Selects, isCandidate, Option.any_eq_true, decide_eq_true_eq]
    constructor
    · rintro ⟨o, ho, hid⟩
      exact ⟨o, hd.offsets.back o id hid, ho⟩
    · rintro ⟨o, hid, ho⟩
      exact ⟨o, ho, hd.offsets.forth id o hid⟩
  rw [hcandidate, hd.isCandidate_iff]
  constructor
  · rintro ⟨r, hr, hmatch⟩
    refine ⟨r.payload, ?_, hmatch⟩
    rw [hr, Option.map_some]
  · rintro ⟨p, hp, hmatch⟩
    obtain ⟨r, hr, rfl⟩ := Option.map_eq_some_iff.mp hp
    exact ⟨r, hr, hmatch⟩

theorem Collection.payload_get (c : Collection) (id : Id) : (c.get id).map Record.payload =
    ((c.records.lookup id).map Record.payload).map fun p =>
      { p with embedding := (c.loadVector id).or p.embedding } := by
  unfold Collection.get
  cases c.records.lookup id <;> rfl

/-- **Writes to different ids commute.** From any reachable state of a collection
of fixed dimension, two clients whose batches touch different ids leave the same
contents in every interleaving, wherever the flushes fall. -/
theorem disjoint_writes_commute {config : CollectionConfig} {h : List Operation}
    {c₀ c c' : Collection} {left right calls calls' : List Call} (hd : config.dimension ≠ 0)
    (hr : Reachable (fun _ => True) config h c₀)
    (hapart : ∀ op ∈ left.flatMap Call.ops, ∀ op' ∈ right.flatMap Call.ops, op.id ≠ op'.id)
    (hcalls : Interleaved left right calls) (hcalls' : Interleaved left right calls')
    (hrun : QuietRun calls c₀ c) (hrun' : QuietRun calls' c₀ c') : SameContents c c' := by
  have hw := hrun.written hd hr
  have hw' := hrun'.written hd hr
  have hholding : ∀ id, c.holding id = c'.holding id := by
    intro id
    rw [hw.holding, hw'.holding]
    exact hcalls.register_eq hcalls' hapart id _
  have hrecords : ∀ id, (c.records.lookup id).map Record.payload =
      (c'.records.lookup id).map Record.payload := fun id => congrArg Holding.record (hholding id)
  refine ⟨hrecords, ?_, fun id => congrArg Holding.vector (hholding id), ?_⟩
  · intro id
    rw [payload_get, payload_get, hrecords, (appended_run hrun.run).loadVector,
      (appended_run hrun'.run).loadVector]
  · intro F id
    rw [(hrun.reachable hr).derived.selects_iff, (hrun'.reachable hr).derived.selects_iff,
      hrecords]

/-- The buffer goes to the index when it holds two records. -/
def pairConfig : CollectionConfig := { demoConfig with hnsw := { batchSize := 2 } }

/-- In the first order everything is in the index at the end, in the second one
vector is still buffered, over an older one in the index. -/
theorem disjoint_writes_commute_demo : ∃ c c', c.buffer.length = 0 ∧ c'.buffer.length = 1 ∧
    c'.index.vector "a" = some zero ∧ c'.tierVector "a" = some two ∧ SameContents c c' := by
  let addA : Call := .add true ["a"] [zero] none none
  let upsertA : Call := .upsert true ["a"] [two] none none
  let addB : Call := .add true ["b"] [one] none none
  let updateB : Call := .update ["b"] none (some [some "text"])
  have hcalls : Interleaved [addA, upsertA] [addB, updateB] [addA, upsertA, addB, updateB] :=
    .left (.left (.right (.right .nil)))
  have hcalls' : Interleaved [addA, upsertA] [addB, updateB] [addB, addA, updateB, upsertA] :=
    .right (.left (.right (.left .nil)))
  obtain ⟨c, hrun, hP⟩ : ∃ c, runAll [addA, upsertA, addB, updateB] (fresh pairConfig) = .ok c ∧
      decide (c.buffer.length = 0) = true := exists_runAll (by decide +kernel)
  obtain ⟨c', hrun', hP'⟩ : ∃ c', runAll [addB, addA, updateB, upsertA] (fresh pairConfig) =
      .ok c' ∧ (decide (c'.buffer.length = 1) && decide (c'.index.vector "a" = some zero) &&
        decide (c'.tierVector "a" = some two)) = true := exists_runAll (by decide +kernel)
  simp only [Bool.and_eq_true, decide_eq_true_eq] at hP hP'
  obtain ⟨⟨hbuffer, hindex⟩, htier⟩ := hP'
  refine ⟨c, c', hP, hbuffer, hindex, htier, ?_⟩
  refine disjoint_writes_commute (by decide) Reachable.fresh (by decide) hcalls hcalls'
    (.of_runAll ?_ hrun (by decide)) (.of_runAll ?_ hrun' (by decide))
  · simp [addA, upsertA, addB, updateB, Call.isWrite]
  · simp [addA, upsertA, addB, updateB, Call.isWrite]

end Rekha
