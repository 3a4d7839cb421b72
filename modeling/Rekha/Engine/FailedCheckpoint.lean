import Rekha.Engine.Crash
import Rekha.Engine.InferredDimension

/-!
# Checkpoints that fail

A checkpoint is a row of fallible steps. Each may return an error, which leaves
what the steps before it did: on the files and in memory. A session goes on with
that state.

Sequence ids are handed out by the log handle. A prune repositions the handle on
what it leaves in the file, at zero when that is nothing, and only the reopening
that follows moves it back to where the checkpoint began. If that reopening
fails after the whole log was pruned, the ids start over.
-/

namespace Rekha

open Collection Trace Outcome

/-! ## Failing steps -/

/-- The fallible steps of a checkpoint, in the order they are taken. -/
inductive CheckpointStep where
  | createDir
  | records
  | indexBin
  | indexMeta
  | checkpointJson
  | createSegmentDir
  | segment
  | segmentIndex
  | mapSegment
  | logOffset
  | prune
  | reopen
deriving DecidableEq

inductive SessionError where
  | failed (step : CheckpointStep)
  | engine (e : EngineError)

/-- A method on an open collection whose checkpoints may fail. -/
abbrev SessionM := EStateM SessionError Collection

def liftEngine {α : Type} (x : EngineM α) : SessionM α := fun c =>
  match x c with
  | .ok a c => .ok a c
  | .error e c => .error (.engine e) c

/-- A step of a checkpoint; the one that fails leaves everything as it was. -/
def attempt (failAt : Option CheckpointStep) (step : CheckpointStep) (x : EngineM Unit) :
    SessionM Unit :=
  if failAt = some step then throw (.failed step) else liftEngine x

/-- A step whose failure is not reported. -/
def attemptSilently (failAt : Option CheckpointStep) (step : CheckpointStep) (x : EngineM Unit) :
    SessionM Unit :=
  if failAt = some step then pure () else liftEngine x

/-- `saveIndex` with a step that may fail. -/
def saveIndexWith (failAt : Option CheckpointStep) : SessionM Unit := do
  let c ← get
  if c.index.len ≠ 0 then
    attempt failAt .indexBin (durably (.replaceIndexBin c.index.inner))
    attempt failAt .indexMeta (durably (.replaceIndexMeta c.index.savedMeta))
  else
    attempt failAt .indexBin (durably .removeIndexBin)
    attempt failAt .indexMeta (durably .removeIndexMeta)

/-- `writeSegment` with a step that may fail. Cleaning up and mapping the file
that was written are not checked. -/
def writeSegmentWith (failAt : Option CheckpointStep) : SessionM Unit := do
  attempt failAt .createSegmentDir (pure ())
  let c ← get
  match c.segmentEntries with
  | [] =>
      attemptSilently failAt .segment (durably .removeSegments)
      attemptSilently failAt .segmentIndex (durably .removeSegmentIndex)
      modify fun c => { c with segments := [], segmentIndex := ∅ }
  | entries =>
      match writeRows (SegmentWriter.new c.config.dimension) ∅ entries with
      | none => throw (.engine (.panicked "dimension mismatch"))
      | some (w, idx) =>
          attempt failAt .segment (durably (.replaceSegment w.write))
          attempt failAt .segmentIndex (durably (.replaceSegmentIndex idx))
          attemptSilently failAt .mapSegment
            (modify fun c => { c with segments := [w.write], segmentIndex := idx })

/-- `checkpoint` with a step that may fail. -/
def checkpointWith (failAt : Option CheckpointStep) : SessionM Unit := do
  let c ← get
  if c.records.size = 0 then pure ()
  else
    let m := c.checkpointMeta
    attempt failAt .createDir (pure ())
    attempt failAt .records (durably (.replaceRecords c.records))
    saveIndexWith failAt
    attempt failAt .checkpointJson (durably (.replaceCheckpointJson m))
    writeSegmentWith failAt
    modify fun c => { c with records := stripRecords m.flushedSeq c.records }
    attempt failAt .logOffset (durably (.advanceLogOffset m.flushedSeq))
    attempt failAt .prune (modify fun c => { c with wal := c.wal.prune m.flushedSeq })
    attempt failAt .reopen
      (modify fun c => { c with wal := Wal.openFile c.wal.file (some m.nextSeq) })
    modify fun c => { c with lastCheckpointSeq := m.flushedSeq }

/-- `autoCheckpoint` with a step that may fail. -/
def autoCheckpointWith (failAt : Option CheckpointStep) : SessionM Unit := do
  let c ← get
  if c.records.size = 0 then pure ()
  else if c.config.hnsw.syncThreshold ≤ c.wal.lastSeq - c.lastCheckpointSeq then
    checkpointWith failAt
  else pure ()

namespace Call

/-- What a put does before its checkpoint. -/
def putBody (persisted : Bool) (validate : Collection → Except EngineError Unit)
    (embeddings : List Embedding) (ops : List Operation) : EngineM Unit := do
  let inferred ← inferDimension embeddings
  let c ← get
  Outcome.ofExcept (validate c)
  persistDimension persisted inferred
  writeOps ops
  flushIfNeeded

/-- What a call does before the checkpoint it ends with. -/
def body : Call → EngineM Unit
  | .add p ids es ms ds =>
      putBody p (fun c => c.validateAdd ids es ms ds) es (addOps ids es ms ds)
  | .upsert p ids es ms ds =>
      putBody p (fun c => c.validateUpsert ids es ms ds) es (upsertOps ids es ms ds)
  | .update ids ms ds => do
      let c ← get
      Outcome.ofExcept (c.validateUpdate ids ms ds)
      writeOps (updateOps ids ms ds)
  | .delete ids => writeOps (ids.map .delete)
  | .flush => flushBuffer
  | .optimize => do
      flushBuffer
      rebuildIndex
  | .checkpoint | .restart _ => pure ()

def finish (failAt : Option CheckpointStep) : Call → SessionM Unit
  | .add .. | .upsert .. | .update .. | .delete _ => autoCheckpointWith failAt
  | .checkpoint | .optimize => checkpointWith failAt
  | .flush | .restart _ => pure ()

def attempt (failAt : Option CheckpointStep) (a : Call) : SessionM Unit := do
  liftEngine a.body
  a.finish failAt

end Call

/-! ## Without a failure -/

section Unfailing

variable {α β : Type}

theorem liftEngine_bind (x : EngineM α) (f : α → EngineM β) :
    liftEngine (x >>= f) = liftEngine x >>= fun a => liftEngine (f a) := by
  funext c
  show liftEngine (EStateM.bind x f) c = EStateM.bind (liftEngine x) _ c
  cases h : x c <;> simp only [liftEngine, EStateM.bind, h]

theorem liftEngine_pure (a : α) : liftEngine (pure a) = pure a := rfl

theorem liftEngine_get :
    liftEngine (MonadState.get : EngineM Collection) = MonadState.get := rfl

theorem liftEngine_modify (f : Collection → Collection) :
    liftEngine (modify f : EngineM PUnit) = modify f := rfl

theorem liftEngine_ite {p : Prop} [Decidable p] (x y : EngineM α) :
    liftEngine (if p then x else y) = if p then liftEngine x else liftEngine y := by
  split <;> rfl

theorem attempt_none (step : CheckpointStep) (x : EngineM Unit) :
    attempt none step x = liftEngine x := rfl

theorem attemptSilently_none (step : CheckpointStep) (x : EngineM Unit) :
    attemptSilently none step x = liftEngine x := rfl

theorem saveIndexWith_none : saveIndexWith none = liftEngine saveIndex := by
  unfold saveIndexWith saveIndex
  simp only [liftEngine_bind, liftEngine_get, liftEngine_ite, attempt_none]

theorem writeSegmentWith_none : writeSegmentWith none = liftEngine writeSegment := by
  unfold writeSegmentWith writeSegment
  rw [liftEngine_bind, liftEngine_get, attempt_none, liftEngine_pure, pure_bind]
  apply bind_congr
  intro c
  cases c.segmentEntries with
  | nil => simp only [liftEngine_bind, liftEngine_modify, attemptSilently_none]
  | cons e rest =>
      dsimp only
      cases writeRows (SegmentWriter.new c.config.dimension) ∅ (e :: rest) with
      | none => rfl
      | some p => simp only [liftEngine_bind, attemptSilently_none, attempt_none]

/-- **Without a failure a checkpoint is the checkpoint.** -/
theorem checkpointWith_none : checkpointWith none = liftEngine Collection.checkpoint := by
  unfold checkpointWith Collection.checkpoint
  simp only [liftEngine_bind, liftEngine_get, liftEngine_ite, attempt_none, saveIndexWith_none,
    writeSegmentWith_none, liftEngine_pure, liftEngine_modify, pure_bind]

theorem autoCheckpointWith_none : autoCheckpointWith none = liftEngine autoCheckpoint := by
  unfold autoCheckpointWith autoCheckpoint
  simp only [liftEngine_bind, liftEngine_get, liftEngine_ite, checkpointWith_none, liftEngine_pure]

theorem get_discard (x : EngineM α) : (do
    let _ ← (MonadState.get : EngineM Collection)
    x) = x := rfl

theorem liftEngine_then_auto (x : EngineM Unit) : (do
    liftEngine x
    autoCheckpointWith none) = liftEngine (do
      x
      autoCheckpoint) := by
  rw [liftEngine_bind, autoCheckpointWith_none]

theorem putBody_then_auto (p : Bool) (validate : Collection → Except EngineError Unit)
    (es : List Embedding) (ops : List Operation) : (do
    liftEngine (Call.putBody p validate es ops)
    autoCheckpointWith none) = liftEngine (putBatch p validate es ops) := by
  rw [liftEngine_then_auto]
  unfold Call.putBody putBatch
  simp only [bind_assoc]

/-- **And a call is the call.** -/
theorem Call.attempt_none (a : Call) : a.attempt none = liftEngine a.exec := by
  cases a with
  | add p ids es ms ds => exact putBody_then_auto _ _ _ _
  | upsert p ids es ms ds => exact putBody_then_auto _ _ _ _
  | update ids ms ds =>
      have hupdate : Rekha.update ids ms ds = (do
          (Call.update ids ms ds).body
          autoCheckpoint) := by
        unfold Rekha.update Call.body
        simp only [bind_assoc]
      exact (liftEngine_then_auto _).trans (congrArg liftEngine hupdate.symm)
  | delete ids => exact liftEngine_then_auto _
  | flush => exact bind_pure _
  | checkpoint => exact (pure_bind _ _).trans checkpointWith_none
  | optimize =>
      show (do
        liftEngine (do
          flushBuffer
          rebuildIndex)
        checkpointWith none) = liftEngine (do
          let _ ← Collection.optimize
          pure ())
      rw [checkpointWith_none, ← liftEngine_bind]
      unfold Collection.optimize
      simp only [bind_assoc, pure_bind, get_discard, bind_pure_unit]
  | restart order => rfl

end Unfailing

/-! ## What the ids depend on -/

/-- The part of a collection that decides about its sequence ids, and whether a
checkpoint gets as far as the reopening. -/
structure Ledger where
  wal : Wal
  flushedSeq : ℕ
  buffer : List Record
  checkpointJson : Option CheckpointMeta
  records : FinMap Id Record
  config : CollectionConfig

def Collection.ledger (c : Collection) : Ledger :=
  ⟨c.wal, c.flushedSeq, c.buffer, c.dir.checkpointJson, c.records, c.config⟩

namespace Ledger

def savedSeq (l : Ledger) : ℕ := (l.checkpointJson.map CheckpointMeta.flushedSeq).getD 0

/-! What the steps of a checkpoint make of it. -/

def marked (l : Ledger) : Ledger :=
  { l with checkpointJson := some ⟨l.flushedSeq, l.wal.lastSeq + 1, l.records.size⟩ }

def stripped (l : Ledger) : Ledger :=
  { l with records := stripRecords l.flushedSeq l.records }

def pruned (l : Ledger) : Ledger := { l with wal := l.wal.prune l.flushedSeq }

def reopened (l : Ledger) : Ledger :=
  { l with wal := Wal.openFile (l.wal.prune l.flushedSeq).file (some (l.wal.lastSeq + 1)) }

end Ledger

/-! ## What a checkpoint leaves of it -/

section Checkpoint

variable {failAt : Option CheckpointStep} {step : CheckpointStep} {c : Collection} {l : Ledger}
  {P Q R : Collection → Prop}

theorem ends_liftEngine {α : Type} {x : EngineM α} (hx : Ends P x Q R) :
    Ends P (liftEngine x) Q R := by
  intro c hc
  unfold liftEngine
  cases hrun : x c with
  | ok a c' =>
      refine ⟨?_, ?_⟩
      · intro b c'' h
        cases h
        exact (hx c hc).1 a c' hrun
      · intro e c'' h
        cases h
  | error e c' =>
      refine ⟨?_, ?_⟩
      · intro b c'' h
        cases h
      · intro e' c'' h
        cases h
        exact (hx c hc).2 e c' hrun

theorem ends_attempt {x : EngineM Unit} (hx : Ends P x Q R)
    (hfail : failAt = some step → ∀ c, P c → R c) : Ends P (attempt failAt step x) Q R := by
  unfold attempt
  split
  · rename_i h
    exact Triple.throw (hfail h)
  · exact ends_liftEngine hx

theorem ends_attemptSilently {x : EngineM Unit} (hx : Ends P x Q R) (hPQ : ∀ c, P c → Q c) :
    Ends P (attemptSilently failAt step x) Q R := by
  unfold attemptSilently
  split
  · exact Triple.pure () hPQ
  · exact ends_liftEngine hx

theorem ends_ledger {ε : Type} {f : Collection → Collection} (g : Ledger → Ledger)
    (hfg : ∀ c, (f c).ledger = g c.ledger) :
    Ends (fun c => c.ledger = l) (modifyThe Collection f : EStateM ε Collection PUnit)
      (fun c => c.ledger = g l) R :=
  Triple.modify fun c hc => (hfg c).trans (congrArg g hc)

theorem ends_durably (s : DurableStep)
    (hs : ∀ d : Disk, (s.apply d).dir.checkpointJson = d.dir.checkpointJson) :
    Ends (fun c => c.ledger = l) (durably s) (fun c => c.ledger = l) R := by
  apply Triple.modify
  intro c hc
  rw [← hc]
  unfold ledger
  rw [hs]
  rfl

theorem ends_saveIndexWith (hfail : ∀ step, failAt = some step → step ≠ .reopen →
      ∀ c, c.ledger = l → R c) :
    Ends (fun c => c.ledger = l) (saveIndexWith failAt) (fun c => c.ledger = l) R := by
  apply Triple.get_bind
  intro c _
  have hbin := fun h => hfail .indexBin h (by decide)
  have hmeta := fun h => hfail .indexMeta h (by decide)
  split
  · exact Triple.bind (ends_attempt (ends_durably _ fun _ => rfl) hbin) fun _ =>
      ends_attempt (ends_durably _ fun _ => rfl) hmeta
  · exact Triple.bind (ends_attempt (ends_durably _ fun _ => rfl) hbin) fun _ =>
      ends_attempt (ends_durably _ fun _ => rfl) hmeta

theorem ends_writeSegmentWith (hledger : ∀ c', c'.ledger = l → (WriterFits c' ↔ WriterFits c))
    (hfail : ∀ step, failAt = some step → step ≠ .reopen → ∀ c, c.ledger = l → R c)
    (hpanic : ¬ WriterFits c → ∀ c', c'.ledger = l → R c') :
    Ends (fun c => c.ledger = l) (writeSegmentWith failAt)
      (fun c' => c'.ledger = l ∧ WriterFits c) R := by
  have hmapped : ∀ segments segmentIndex (c' : Collection), c'.ledger = l →
      { c' with segments := segments, segmentIndex := segmentIndex }.ledger = l :=
    fun _ _ _ h => h
  unfold writeSegmentWith
  refine Triple.bind (ends_attempt (Triple.pure () fun _ h => h)
    fun h => hfail .createSegmentDir h (by decide)) fun _ => Triple.get_bind ?_
  intro c' hc'
  have hwriter := hledger c' hc'
  cases hentries : c'.segmentEntries with
  | nil =>
      have hfits : WriterFits c := by
        apply hwriter.mp
        intro e he
        rw [hentries] at he
        cases he
      exact Triple.bind (ends_attemptSilently (ends_durably _ fun _ => rfl) fun _ h => h) fun _ =>
        Triple.bind (ends_attemptSilently (ends_durably _ fun _ => rfl) fun _ h => h) fun _ =>
        Triple.modify fun c'' h => ⟨hmapped _ _ c'' h, hfits⟩
  | cons e rest =>
      have hrows := @exists_writeRows_iff (e :: rest) (SegmentWriter.new c'.config.dimension) ∅
      dsimp only
      cases hw : writeRows (SegmentWriter.new c'.config.dimension) ∅ (e :: rest) with
      | none =>
          refine Triple.throw (hpanic ?_)
          intro hfits
          obtain ⟨p, hp⟩ := hrows.mpr fun x hx => hwriter.mpr hfits x (hentries ▸ hx)
          rw [hw] at hp
          cases hp
      | some p =>
          have hfits : WriterFits c :=
            hwriter.mp fun x hx => hrows.mp ⟨p, hw⟩ x (hentries ▸ hx)
          exact Triple.bind (ends_attempt (ends_durably _ fun _ => rfl)
              fun h => hfail .segment h (by decide)) fun _ =>
            Triple.bind (ends_attempt (ends_durably _ fun _ => rfl)
              fun h => hfail .segmentIndex h (by decide)) fun _ =>
            ends_attemptSilently (Triple.modify fun c'' h => ⟨hmapped _ _ c'' h, hfits⟩)
              fun c'' h => ⟨h, hfits⟩

/-- **Where a checkpoint of live records can stop**, and with what. -/
theorem ends_checkpointWith (hsize : c.records.size ≠ 0)
    (hfail : ∀ step, failAt = some step → step ≠ .reopen → ∀ c', c'.ledger = c.ledger ∨
      c'.ledger = c.ledger.marked ∨ c'.ledger = c.ledger.marked.stripped → R c')
    (hpanic : ¬ WriterFits c → ∀ c', c'.ledger = c.ledger.marked → R c')
    (hreopen : failAt = some .reopen → WriterFits c →
      ∀ c', c'.ledger = c.ledger.marked.stripped.pruned → R c')
    (hok : failAt ≠ some .reopen → ∀ c', c'.ledger = c.ledger.marked.stripped.reopened → Q c') :
    Ends (fun c' => c' = c) (checkpointWith failAt) Q R := by
  have hsave : Ends (fun c' => c'.ledger = c.ledger) (saveIndexWith failAt)
      (fun c' => c'.ledger = c.ledger) R :=
    ends_saveIndexWith fun step h hne c' hc' => hfail step h hne c' (Or.inl hc')
  have hsegment : Ends (fun c' => c'.ledger = c.ledger.marked) (writeSegmentWith failAt)
      (fun c' => c'.ledger = c.ledger.marked ∧ WriterFits c) R := by
    refine ends_writeSegmentWith ?_ ?_ hpanic
    · intro c' hc'
      have hrecords : c'.records = c.records := congrArg Ledger.records hc'
      have hconfig : c'.config = c.config := congrArg Ledger.config hc'
      unfold WriterFits segmentEntries
      rw [hrecords, hconfig]
    · exact fun step h hne c' hc' => hfail step h hne c' (Or.inr (Or.inl hc'))
  unfold checkpointWith
  apply Triple.get_bind
  intro c' hc'
  rw [show c' = c from hc', if_neg hsize]
  have hbefore := fun step h hne c' hc' => hfail step h hne c' (Or.inl hc')
  have hafter := fun step h hne c' hc' => hfail step h hne c' (Or.inr (Or.inr hc'))
  refine Triple.imp ?_ fun c' hc' => congrArg ledger hc'
  refine Triple.bind (ends_attempt (Triple.pure () fun _ h => h)
    fun h => hbefore .createDir h (by decide)) fun _ => ?_
  refine Triple.bind (ends_attempt (ends_durably _ fun _ => rfl)
    fun h => hbefore .records h (by decide)) fun _ => Triple.bind hsave fun _ => ?_
  refine Triple.bind (ends_attempt (ends_ledger (fun l =>
    { l with checkpointJson := some c.checkpointMeta }) fun _ => rfl)
    fun h => hbefore .checkpointJson h (by decide)) fun _ => Triple.bind hsegment fun _ => ?_
  refine Triple.of_and fun hfits => Triple.bind (ends_ledger (fun l =>
    { l with records := stripRecords c.checkpointMeta.flushedSeq l.records }) fun _ => rfl)
    fun _ => ?_
  refine Triple.bind (ends_attempt (ends_durably _ fun _ => rfl)
    fun h => hafter .logOffset h (by decide)) fun _ => ?_
  refine Triple.bind (ends_attempt (ends_ledger (fun l =>
    { l with wal := l.wal.prune c.checkpointMeta.flushedSeq }) fun _ => rfl)
    fun h => hafter .prune h (by decide)) fun _ => ?_
  by_cases hlast : failAt = some .reopen
  · refine Triple.bind (Q := fun _ => False) ?_ fun _ c' hc' => hc'.elim
    unfold attempt
    rw [if_pos hlast]
    exact Triple.throw (hreopen hlast hfits)
  · refine Triple.bind (ends_attempt (ends_ledger (fun l =>
      { l with wal := Wal.openFile l.wal.file (some c.checkpointMeta.nextSeq) }) fun _ => rfl)
      fun h => absurd h hlast) fun _ => ?_
    exact Triple.modify fun c' hc' => hok hlast _ hc'

theorem checkpointWith_empty (hsize : c.records.size = 0) :
    checkpointWith failAt c = .ok () c := by
  show (if c.records.size = 0 then pure () else _ : SessionM Unit) c = _
  rw [if_pos hsize]
  rfl

end Checkpoint

end Rekha
