import Rekha.Engine.FailedCheckpoint

/-!
# Sequence ids around failing checkpoints

A session is a run of calls on an open collection whose checkpoints may fail. As
long as no reopening fails that has the whole log pruned behind it, the log
handle stands at the last seq that was assigned: seqs strictly increase, and
every record above the checkpoint on disk is in the log to be replayed
(`seqs_never_repeat`). After the one failure left out the handle stands at zero
(`reopen_failure_resets`).
-/

namespace Rekha

open Collection Trace Outcome

namespace CheckpointDir

/-- `flushed_seq` of the checkpoint on disk, `0` without one. -/
def savedSeq (dir : CheckpointDir) : ℕ := (dir.checkpointJson.map CheckpointMeta.flushedSeq).getD 0

theorem watermark_le_savedSeq (dir : CheckpointDir) : dir.watermark ≤ dir.savedSeq := by
  unfold watermark
  cases hsnap : snapshotFiles dir with
  | none => exact Nat.zero_le _
  | some p =>
      unfold snapshotFiles at hsnap
      unfold savedSeq
      split at hsnap
      · rename_i m records hm hrecords
        split at hsnap
        · cases hsnap
          rw [hm]
          exact le_refl _
        · cases hsnap
      · cases hsnap

end CheckpointDir

namespace Ledger

/-- The records `rs` were assigned, in this order, and the log handle stands at
the last of them. Those above the checkpoint on disk are in the log. -/
structure Numbers (rs : List WalRecord) (l : Ledger) : Prop where
  increasing : rs.Pairwise fun r r' => r.seq < r'.seq
  assigned : ∀ r ∈ rs, r.seq ≤ l.wal.lastSeq
  last : l.wal.lastSeq ≠ 0 → ∃ r ∈ rs, r.seq = l.wal.lastSeq
  flushed : l.flushedSeq ≤ l.wal.lastSeq
  buffered : ∀ b ∈ l.buffer, b.seq ≤ l.wal.lastSeq
  saved : l.savedSeq ≤ l.flushedSeq
  held : ∀ r ∈ rs, l.savedSeq < r.seq → r ∈ l.wal.file.records

section Numbers

variable {rs : List WalRecord} {l : Ledger}

theorem Numbers.append {w : Wal} {r : WalRecord} (h : l.Numbers rs)
    (hrecords : w.file.records = l.wal.file.records ++ [r]) (hseq : r.seq = l.wal.lastSeq + 1)
    (hlast : w.lastSeq = l.wal.lastSeq + 1) : { l with wal := w }.Numbers (rs ++ [r]) := by
  have hle : l.wal.lastSeq ≤ w.lastSeq := by omega
  refine ⟨?_, ?_, ?_, h.flushed.trans hle, fun b hb => (h.buffered b hb).trans hle, h.saved, ?_⟩
  · refine List.pairwise_append.mpr ⟨h.increasing, List.pairwise_singleton _ _, ?_⟩
    intro r₁ hr₁ r₂ hr₂
    rw [List.mem_singleton.mp hr₂, hseq]
    exact Nat.lt_succ_of_le (h.assigned r₁ hr₁)
  · intro r' hr'
    rcases List.mem_append.mp hr' with hr' | hr'
    · exact (h.assigned r' hr').trans hle
    · rw [List.mem_singleton.mp hr', hseq]
      exact hlast.ge
  · intro _
    exact ⟨r, List.mem_append_right _ (List.mem_singleton_self r), hseq.trans hlast.symm⟩
  · intro r' hr' hsaved
    rw [hrecords]
    rcases List.mem_append.mp hr' with hr' | hr'
    · exact List.mem_append_left _ (h.held r' hr' hsaved)
    · exact List.mem_append_right _ hr'

theorem Numbers.of_memory (h : l.Numbers rs) {flushedSeq : ℕ} {buffer : List Record}
    {records : FinMap Id Record} {config : CollectionConfig} (hge : l.flushedSeq ≤ flushedSeq)
    (hle : flushedSeq ≤ l.wal.lastSeq) (hbuffer : ∀ b ∈ buffer, b.seq ≤ l.wal.lastSeq) :
    Numbers rs { l with
      flushedSeq := flushedSeq, buffer := buffer, records := records, config := config } where
  increasing := h.increasing
  assigned := h.assigned
  last := h.last
  flushed := hle
  buffered := hbuffer
  saved := h.saved.trans hge
  held := h.held

theorem Numbers.marked (h : l.Numbers rs) : l.marked.Numbers rs where
  increasing := h.increasing
  assigned := h.assigned
  last := h.last
  flushed := h.flushed
  buffered := h.buffered
  saved := le_refl _
  held := fun r hr hlt => h.held r hr (h.saved.trans_lt hlt)

theorem Numbers.stripped (h : l.Numbers rs) : l.stripped.Numbers rs :=
  h.of_memory (le_refl _) h.flushed h.buffered

theorem Numbers.mem_pruned (h : l.Numbers rs) (hsaved : l.savedSeq = l.flushedSeq)
    {r : WalRecord} (hr : r ∈ rs) (hlt : l.flushedSeq < r.seq) :
    r ∈ (l.wal.file.keepAbove l.flushedSeq).records := by
  refine List.mem_filter.mpr ⟨h.held r hr (hsaved.trans_lt hlt), ?_⟩
  simpa using hlt

theorem Numbers.lastSeq_pruned (h : l.Numbers rs) (hsaved : l.savedSeq = l.flushedSeq)
    (hlt : l.flushedSeq < l.wal.lastSeq) :
    (l.wal.file.keepAbove l.flushedSeq).lastSeq = l.wal.lastSeq := by
  obtain ⟨r, hr, hseq⟩ := h.last (Nat.ne_of_gt (Nat.zero_lt_of_lt hlt))
  have hmem := h.mem_pruned hsaved hr (hseq ▸ hlt)
  apply le_antisymm
  · unfold WalFile.lastSeq
    cases hlast : (l.wal.file.keepAbove l.flushedSeq).records.getLast? with
    | none => exact Nat.zero_le _
    | some r' =>
        have hr' := (List.mem_filter.mp (List.mem_of_getLast? hlast)).1
        exact l.wal.le_lastSeq r' hr'
  · rw [← hseq]
    exact WalFile.seq_le_lastSeq _ r hmem

theorem Numbers.of_pruned {w : Wal} (h : l.Numbers rs) (hsaved : l.savedSeq = l.flushedSeq)
    (hfile : w.file = l.wal.file.keepAbove l.flushedSeq) (hlast : w.lastSeq = l.wal.lastSeq) :
    { l with wal := w }.Numbers rs where
  increasing := h.increasing
  assigned := fun r hr => (h.assigned r hr).trans hlast.ge
  last := by
    rw [hlast]
    exact h.last
  flushed := h.flushed.trans hlast.ge
  buffered := fun b hb => (h.buffered b hb).trans hlast.ge
  saved := h.saved
  held := by
    intro r hr hlt
    show r ∈ w.file.records
    rw [hfile]
    exact h.mem_pruned hsaved hr (hsaved ▸ hlt)

theorem Numbers.pruned (h : l.Numbers rs) (hsaved : l.savedSeq = l.flushedSeq)
    (hlt : l.flushedSeq < l.wal.lastSeq) : l.pruned.Numbers rs :=
  h.of_pruned hsaved rfl (h.lastSeq_pruned hsaved hlt)

theorem Numbers.reopened (h : l.Numbers rs) (hsaved : l.savedSeq = l.flushedSeq) :
    l.reopened.Numbers rs := by
  refine h.of_pruned hsaved rfl ?_
  show (if (l.wal.file.keepAbove l.flushedSeq).records.isEmpty then l.wal.lastSeq + 1 - 1
    else (l.wal.file.keepAbove l.flushedSeq).lastSeq) = l.wal.lastSeq
  split
  · exact Nat.add_sub_cancel _ _
  · rename_i hne
    refine h.lastSeq_pruned hsaved ?_
    obtain ⟨r, hr⟩ := List.exists_mem_of_ne_nil _ fun hnil => hne (List.isEmpty_iff.mpr hnil)
    obtain ⟨hmem, hlt⟩ := List.mem_filter.mp hr
    exact (of_decide_eq_true hlt).trans_le (l.wal.le_lastSeq r hmem)

end Numbers

end Ledger

/-- No reopening fails behind a prune of the whole log. -/
def ReopenSafe (failAt : Option CheckpointStep) (c : Collection) : Prop :=
  failAt = some .reopen → c.records.size = 0 ∨ ¬ WriterFits c ∨ c.flushedSeq < c.wal.lastSeq

section Checkpoint

variable {failAt : Option CheckpointStep} {c : Collection} {rs : List WalRecord}

/-- **A checkpoint keeps the numbering wherever it stops**, but for one step. -/
theorem Ledger.Numbers.checkpoint (h : c.ledger.Numbers rs) (hsafe : ReopenSafe failAt c) :
    (final (checkpointWith failAt c)).ledger.Numbers rs := by
  by_cases hsize : c.records.size = 0
  · rw [checkpointWith_empty hsize]
    exact h
  · have hmarked := h.marked
    have hstripped := hmarked.stripped
    have hends : Ends (fun c' => c' = c) (checkpointWith failAt)
        (fun c' => c'.ledger.Numbers rs) (fun c' => c'.ledger.Numbers rs) := by
      refine ends_checkpointWith hsize ?_ ?_ ?_ ?_
      · rintro step - - c' (hc' | hc' | hc')
        · exact hc' ▸ h
        · exact hc' ▸ hmarked
        · exact hc' ▸ hstripped
      · intro _ c' hc'
        exact hc' ▸ hmarked
      · intro hlast hfits c' hc'
        rcases hsafe hlast with hzero | hpanic | hlt
        · exact absurd hzero hsize
        · exact absurd hfits hpanic
        · exact hc' ▸ hstripped.pruned rfl hlt
      · intro _ c' hc'
        exact hc' ▸ hstripped.reopened rfl
    exact (hends.final rfl).elim id id

/-- **After that one step the handle stands at zero.** -/
theorem reopen_failure_resets (hsafe : ¬ ReopenSafe failAt c) :
    (final (checkpointWith failAt c)).wal.lastSeq = 0 := by
  unfold ReopenSafe at hsafe
  push Not at hsafe
  obtain ⟨hlast, hsize, hfits, hle⟩ := hsafe
  have hnil : (c.wal.file.keepAbove c.flushedSeq).records = [] := by
    apply List.filter_eq_nil_iff.mpr
    intro r hr
    simpa using (c.wal.le_lastSeq r hr).trans hle
  have hends : Ends (fun c' => c' = c) (checkpointWith failAt) (fun _ => False)
      (fun c' => c'.wal.lastSeq = 0) := by
    refine ends_checkpointWith hsize ?_ ?_ ?_ ?_
    · intro step hstep hne
      rw [hlast] at hstep
      exact absurd (Option.some.inj hstep).symm hne
    · exact fun hpanic => absurd hfits hpanic
    · intro _ _ c' hc'
      have hwal : c'.wal = c.wal.prune c.flushedSeq := congrArg Ledger.wal hc'
      rw [hwal]
      show (c.wal.file.keepAbove c.flushedSeq).lastSeq = 0
      unfold WalFile.lastSeq
      rw [hnil]
      rfl
    · exact fun hne => absurd hlast hne
  exact (hends.final rfl).elim False.elim id

end Checkpoint

/-! ## What a call does before its checkpoint -/

/-- The log has grown by a batch since `l`, where `rs` were assigned, and the
checkpoint on disk is the one it was. -/
def Grows (l : Ledger) (rs : List WalRecord) (c : Collection) : Prop :=
  ∃ ops, c.wal.file.records = l.wal.file.records ++ numbered l.wal.lastSeq ops ∧
    c.wal.lastSeq = l.wal.lastSeq + ops.length ∧ c.dir.checkpointJson = l.checkpointJson ∧
    c.ledger.Numbers (rs ++ numbered l.wal.lastSeq ops)

section Body

variable {l : Ledger} {rs : List WalRecord} {c c' : Collection} {I : Collection → Prop}

theorem grows_refl (h : c.ledger.Numbers rs) : Grows c.ledger rs c := by
  refine ⟨[], ?_, rfl, rfl, ?_⟩
  · exact (List.append_nil _).symm
  · rw [numbered, List.append_nil]
    exact h

theorem Grows.of_memory (h : Grows l rs c) (hwal : c'.wal = c.wal) (hdir : c'.dir = c.dir)
    (hge : c.flushedSeq ≤ c'.flushedSeq) (hle : c'.flushedSeq ≤ c.wal.lastSeq)
    (hbuffer : ∀ b ∈ c'.buffer, b.seq ≤ c.wal.lastSeq) : Grows l rs c' := by
  obtain ⟨ops, hrecords, hlast, hjson, hnumbers⟩ := h
  refine ⟨ops, hwal ▸ hrecords, hwal ▸ hlast, hdir ▸ hjson, ?_⟩
  have hledger : c'.ledger = { c.ledger with
      flushedSeq := c'.flushedSeq, buffer := c'.buffer, records := c'.records,
      config := c'.config } := by
    unfold ledger
    rw [hwal, hdir]
  rw [hledger]
  exact hnumbers.of_memory hge hle hbuffer

theorem Grows.of_eq (h : Grows l rs c) (hwal : c'.wal = c.wal) (hdir : c'.dir = c.dir)
    (hflushed : c'.flushedSeq = c.flushedSeq) (hbuffer : c'.buffer = c.buffer) :
    Grows l rs c' := by
  obtain ⟨ops, -, -, -, hnumbers⟩ := id h
  refine h.of_memory hwal hdir hflushed.ge (hflushed.trans_le hnumbers.flushed) ?_
  rw [hbuffer]
  exact hnumbers.buffered

theorem Grows.append {w : Wal} {r : WalRecord} {op : Operation} (h : Grows l rs c)
    (happ : c.wal.append op = .ok (w, r)) : Grows l rs { c with wal := w } := by
  obtain ⟨ops, hrecords, hlast, hjson, hnumbers⟩ := h
  obtain ⟨rfl, hrecords', hlast'⟩ := Wal.append_ok happ
  have hnumbered : numbered l.wal.lastSeq (ops ++ [op]) =
      numbered l.wal.lastSeq ops ++ [⟨c.wal.lastSeq + 1, op⟩] := by
    rw [numbered_append, hlast]
    rfl
  refine ⟨ops ++ [op], ?_, ?_, hjson, ?_⟩
  · rw [hnumbered, ← List.append_assoc, ← hrecords]
    exact hrecords'
  · rw [List.length_append, ← Nat.add_assoc, ← hlast]
    exact hlast'
  · rw [hnumbered, ← List.append_assoc]
    exact hnumbers.append hrecords' rfl hlast'

theorem ends_writeOps (ops : List Operation) :
    Ends (Grows l rs) (writeOps ops) (Grows l rs) (Grows l rs) := by
  have happ : Keeps (Grows l rs) (fun _ => True) (appendOps ops) :=
    keeps_appendOps (fun _ => trivial) fun _ _ _ _ _ h happ => h.append happ
  refine (keeps_writeOps happ ?_).ends
  intro c w hlast _ hlogged
  have hset := foldl_applyRecord_settled (numbered c.wal.lastSeq ops) { c with wal := w }
  simp only [settled, Settled.mk.injEq] at hset
  obtain ⟨-, hwal, hdir, -, hflushed, -, -, -⟩ := hset
  obtain ⟨ops', -, -, -, hnumbers⟩ := id hlogged
  refine hlogged.of_memory hwal hdir hflushed.ge (hflushed.trans_le hnumbers.flushed) ?_
  intro b hb
  rcases mem_buffer_foldl hb with hb | ⟨r, hr, hseq, -⟩
  · exact hnumbers.buffered b hb
  · rw [hseq]
    exact (seq_of_mem_numbered hr).2.trans hlast.ge

theorem Grows.index (c : Collection) (x : UsearchIndex) (h : Grows l rs c) :
    Grows l rs { c with index := x } := h

theorem ends_rebuildIndex : Ends (Grows l rs) rebuildIndex (Grows l rs) (Grows l rs) :=
  Keeps.ends (keeps_rebuildIndex Grows.index fun _ => trivial)

theorem ends_flushBuffer : Ends (Grows l rs) flushBuffer (Grows l rs) (Grows l rs) := by
  intro c hc
  obtain ⟨ops, -, -, -, hnumbers⟩ := id hc
  refine ⟨?_, ?_⟩
  · intro u c' hok
    obtain ⟨x, -, rfl⟩ := flushBuffer_ok hok
    exact hc.of_memory rfl rfl (le_max_left _ _)
      (max_le hnumbers.flushed (maxSeq_le (Nat.zero_le _) hnumbers.buffered))
      fun b hb => absurd hb List.not_mem_nil
  · intro e c' herr
    have hempty : Grows l rs { c with buffer := [] } :=
      hc.of_memory rfl rfl (le_refl _) hnumbers.flushed fun b hb => absurd hb List.not_mem_nil
    unfold flushBuffer at herr
    rcases bind_error.mp herr with herr | ⟨c₁, c₂, hget, herr⟩
    · cases herr
    obtain ⟨rfl, rfl⟩ := get_ok.mp hget
    rcases bind_error.mp herr with herr | ⟨u, c₃, hmodify, herr⟩
    · cases herr
    rw [modify_ok.mp hmodify] at herr
    rcases bind_error.mp herr with herr | ⟨m, c₄, -, herr⟩
    · have hbatch : Keeps (Grows l rs) (fun _ => True) (flushRecords c.buffer 0) :=
        keeps_flushRecords (fun c x _ h => h.index c x) c.buffer 0 fun _ _ => trivial
      exact ((hbatch _ hempty).2 e c' herr).1
    · cases herr

theorem ends_flushIfNeeded : Ends (Grows l rs) flushIfNeeded (Grows l rs) (Grows l rs) := by
  apply Triple.get_bind
  intro c _
  split
  · exact ends_flushBuffer
  · exact Triple.pure () fun _ h => h

theorem ends_inferDimension (es : List Embedding) :
    Ends (Grows l rs) (inferDimension es) (Grows l rs) (Grows l rs) := by
  intro c hc
  have hinferred : Grows l rs (c.inferred es) := by
    cases es with
    | nil => exact hc
    | cons e es =>
        show Grows l rs (if c.config.dimension = 0 then c.setDimension e.length else c)
        split
        · exact hc.of_eq rfl rfl rfl rfl
        · exact hc
  obtain ⟨o, hrun⟩ := inferDimension_run es c
  rw [hrun]
  refine ⟨?_, ?_⟩
  · intro o' c' h
    cases h
    exact hinferred
  · intro e c' h
    cases h

theorem ends_persistDimension (persisted : Bool) (inferred : Option ℕ) :
    Ends (Grows l rs) (persistDimension persisted inferred) (Grows l rs) (Grows l rs) :=
  Keeps.ends (keeps_persistDimension persisted fun _ _ _ h => h.of_eq rfl rfl rfl rfl)

theorem ends_putBody (persisted : Bool) (validate : Collection → Except EngineError Unit)
    (es : List Embedding) (ops : List Operation) :
    Ends (Grows l rs) (Call.putBody persisted validate es ops) (Grows l rs) (Grows l rs) :=
  Triple.bind (ends_inferDimension es) fun _ => Triple.get_bind fun _ _ =>
    Triple.ofExcept_bind (fun _ _ _ h => h) fun _ _ =>
    Triple.bind (ends_persistDimension _ _) fun _ =>
    Triple.bind (ends_writeOps ops) fun _ => ends_flushIfNeeded

/-- **Before its checkpoint a call appends to the log**, whether or not it fails. -/
theorem ends_body (a : Call) : Ends (Grows l rs) a.body (Grows l rs) (Grows l rs) := by
  cases a with
  | add p ids es ms ds => exact ends_putBody _ _ _ _
  | upsert p ids es ms ds => exact ends_putBody _ _ _ _
  | update ids ms ds =>
      exact Triple.get_bind fun _ _ =>
        Triple.ofExcept_bind (fun _ _ _ h => h) fun _ _ => ends_writeOps _
  | delete ids => exact ends_writeOps _
  | flush => exact ends_flushBuffer
  | optimize => exact Triple.bind ends_flushBuffer fun _ => ends_rebuildIndex
  | checkpoint | restart => exact Triple.pure () fun _ h => h

end Body

/-! ## Sessions -/

/-- The records in the log of `c'` behind those in the log of `c`. -/
def newRecords (c c' : Collection) : List WalRecord :=
  c'.wal.file.records.drop c.wal.file.records.length

def Call.inSession : Call → Prop
  | .restart _ => False
  | _ => True

/-- A step of a session, labelled with the records it assigns: a call up to its
checkpoint, or a checkpoint. Both may fail. -/
inductive SessionStep (safe : Option CheckpointStep → Collection → Prop) :
    List WalRecord → Collection → Collection → Prop
  | body {c : Collection} (a : Call) : a.inSession →
      SessionStep safe (newRecords c (final (a.body c))) c (final (a.body c))
  | checkpoint {c : Collection} (failAt : Option CheckpointStep) : safe failAt c →
      SessionStep safe [] c (final (checkpointWith failAt c))

section Session

variable {safe : Option CheckpointStep → Collection → Prop} {failAt : Option CheckpointStep}
  {config : CollectionConfig} {h : List Operation} {rs : List WalRecord} {c c' : Collection}

theorem Call.finish_steps (a : Call) (hsafe : safe failAt c) :
    Run (SessionStep safe) c [] (final (a.finish failAt c)) := by
  have hcheckpoint : Run (SessionStep safe) c [] (final (checkpointWith failAt c)) :=
    Run.single (SessionStep.checkpoint failAt hsafe)
  have hauto : Run (SessionStep safe) c [] (final (autoCheckpointWith failAt c)) := by
    show Run (SessionStep safe) c [] (final ((if c.records.size = 0 then pure ()
      else if c.config.hnsw.syncThreshold ≤ c.wal.lastSeq - c.lastCheckpointSeq then
        checkpointWith failAt
      else pure () : SessionM Unit) c))
    split
    · exact Run.refl
    · split
      · exact hcheckpoint
      · exact Run.refl
  cases a with
  | checkpoint | optimize => exact hcheckpoint
  | flush | restart => exact Run.refl
  | _ => exact hauto

theorem Call.session_steps {a : Call} (ha : a.inSession)
    (hsafe : ∀ c', a.body c = .ok () c' → safe failAt c') :
    Run (SessionStep safe) c (newRecords c (final (a.body c))) (final (a.attempt failAt c)) := by
  have hbody : Run (SessionStep safe) c (newRecords c (final (a.body c))) (final (a.body c)) :=
    Run.single (SessionStep.body a ha)
  cases hrun : a.body c with
  | ok u c' =>
      have hlift : liftEngine a.body c = .ok u c' := by
        unfold liftEngine
        rw [hrun]
      have hattempt : a.attempt failAt c = a.finish failAt c' := bind_of_ok hlift
      rw [hrun] at hbody
      rw [hattempt]
      have hend := hbody.trans (a.finish_steps (hsafe c' hrun))
      rwa [List.append_nil] at hend
  | error e c' =>
      have hlift : liftEngine a.body c = .error (.engine e) c' := by
        unfold liftEngine
        rw [hrun]
      have hattempt : a.attempt failAt c = .error (.engine e) c' := bind_of_error hlift
      rw [hrun] at hbody
      rw [hattempt]
      exact hbody

theorem Grows.newRecords (hgrows : Grows c.ledger rs c') :
    c'.ledger.Numbers (rs ++ newRecords c c') ∧ c'.dir.savedSeq = c.dir.savedSeq ∧
      ∀ r ∈ Rekha.newRecords c c', c.wal.lastSeq < r.seq := by
  obtain ⟨ops, hrecords, -, hjson, hnumbers⟩ := hgrows
  have hnew : Rekha.newRecords c c' = numbered c.wal.lastSeq ops := by
    unfold Rekha.newRecords
    rw [hrecords]
    exact List.drop_left
  rw [hnew]
  refine ⟨hnumbers, ?_, fun r hr => (seq_of_mem_numbered hr).1⟩
  unfold CheckpointDir.savedSeq
  rw [hjson]
  rfl

theorem Ledger.Numbers.step (hnumbers : c.ledger.Numbers rs) {new : List WalRecord}
    (hs : SessionStep ReopenSafe new c c') : c'.ledger.Numbers (rs ++ new) := by
  cases hs with
  | body a _ =>
      exact (((ends_body a).final (grows_refl hnumbers)).elim id id).newRecords.1
  | checkpoint failAt hsafe =>
      rw [List.append_nil]
      exact hnumbers.checkpoint hsafe

theorem numbers_of_logged (hl : Logged h c) : c.ledger.Numbers (numbered 0 h) := by
  have hsaved : c.ledger.savedSeq = c.lastCheckpointSeq := by
    unfold Ledger.savedSeq ledger
    rcases hl.snapshot with ⟨hnone, hzero⟩ | ⟨m, records, s, hm, -, -, hflushed, -⟩
    · rw [hnone, hzero]
      rfl
    · rw [hm, ← hflushed]
      rfl
  have hlast : c.ledger.wal.lastSeq = h.length := hl.last
  refine ⟨?_, ?_, ?_, ?_, ?_, ?_, ?_⟩
  · exact pairwise_numbered h 0
  · intro r hr
    rw [hlast, ← Nat.zero_add h.length]
    exact (seq_of_mem_numbered hr).2
  · intro hne
    rw [hlast] at hne ⊢
    have hget := getLast?_numbered h 0 fun hnil => hne (hnil ▸ rfl)
    obtain ⟨r, hr, hseq⟩ := Option.map_eq_some_iff.mp hget
    exact ⟨r, List.mem_of_getLast? hr, hseq.trans (Nat.zero_add _)⟩
  · rw [hlast]
    exact hl.flushed
  · rw [hlast]
    exact hl.buffered
  · rw [hsaved]
    exact hl.pruned
  · intro r hr hlt
    rw [hsaved] at hlt
    show r ∈ c.wal.file.records
    rw [hl.tail]
    rw [numbered_split h 0 (hl.pruned.trans hl.flushed), Nat.zero_add] at hr
    rcases List.mem_append.mp hr with hr | hr
    · have hle := (seq_of_mem_numbered hr).2
      rw [List.length_take] at hle
      omega
    · exact hr

theorem Ledger.Numbers.replayed (hnumbers : c.ledger.Numbers rs) {r : WalRecord} (hr : r ∈ rs)
    (hlt : c.dir.savedSeq < r.seq) : r ∈ c.disk.replayed := by
  refine List.mem_filter.mpr ⟨hnumbers.held r hr hlt, decide_eq_true ?_⟩
  exact c.dir.watermark_le_savedSeq.trans_lt hlt

/-- **Sequence ids do not repeat around failing checkpoints**, if none fails
reopening a log that was pruned whole: the seqs assigned strictly increase, and
what is above the checkpoint on disk is replayed by an opening. So is whatever a
call appends next, under seqs above all those assigned before. -/
theorem seqs_never_repeat {c₀ : Collection} (hopen : Reachable (fun _ => True) config h c₀)
    (hs : Run (SessionStep ReopenSafe) c₀ rs c) :
    ((numbered 0 h ++ rs).Pairwise fun r r' => r.seq < r'.seq) ∧
      (∀ r ∈ numbered 0 h ++ rs, c.dir.savedSeq < r.seq → r ∈ c.disk.replayed) ∧
      ∀ a : Call, ∀ r ∈ newRecords c (final (a.body c)),
        (∀ r' ∈ numbered 0 h ++ rs, r'.seq < r.seq) ∧ r ∈ (final (a.body c)).disk.replayed := by
  have hnumbers : c.ledger.Numbers (numbered 0 h ++ rs) := by
    refine hs.invariant (I := fun rs c => c.ledger.Numbers (numbered 0 h ++ rs)) ?_ ?_
    · rw [List.append_nil]
      exact numbers_of_logged hopen.logged
    · intro rs new c c' hc hstep
      rw [← List.append_assoc]
      exact hc.step hstep
  refine ⟨hnumbers.increasing, fun r hr hlt => hnumbers.replayed hr hlt, ?_⟩
  intro a r hr
  have hgrows := ((ends_body a).final (grows_refl hnumbers)).elim id id
  obtain ⟨hnext, hsaved, hnew⟩ := hgrows.newRecords
  have hlt := hnew r hr
  refine ⟨fun r' hr' => (hnumbers.assigned r' hr').trans_lt hlt, ?_⟩
  refine hnext.replayed (List.mem_append_right _ hr) ?_
  rw [hsaved]
  exact (hnumbers.saved.trans hnumbers.flushed).trans_lt hlt

/-- A prune fails between two writes. -/
theorem seqs_never_repeat_demo : ∃ rs c,
    Run (SessionStep ReopenSafe) (Collection.fresh demoConfig) rs c ∧
      rs.map WalRecord.seq = [1, 2] ∧ rs.Pairwise fun r r' => r.seq < r'.seq := by
  have hrun : Run (SessionStep ReopenSafe) (Collection.fresh demoConfig) _ _ :=
    Run.tail (Run.tail (Run.single (SessionStep.body (.add true ["a"] [zero] none none) trivial))
      (SessionStep.checkpoint (some .prune) fun hlast => absurd hlast (by decide)))
      (SessionStep.body (.delete ["a"]) trivial)
  refine ⟨_, _, hrun, ?_, ?_⟩
  · decide +kernel
  · exact (seqs_never_repeat Reachable.fresh hrun).1

/-- The flushed write is checkpointed, and the reopening fails; the next write
gets the seq of the first, and is gone after a restart. -/
theorem seq_assigned_twice : ∃ rs c c',
    Run (SessionStep fun _ _ => True)
        (Collection.fresh { demoConfig with hnsw := { batchSize := 1 } }) rs c ∧
      rs.map WalRecord.seq = [1, 1] ∧ (c.get "b").isSome ∧
      reopen c.config c.disk ⟨fun m => m.entries, fun _ => List.Perm.refl _⟩ = .ok c' ∧
      (c'.get "b").isNone := by
  have hrun : Run (SessionStep fun _ _ => True)
      (Collection.fresh { demoConfig with hnsw := { batchSize := 1 } }) _ _ :=
    Run.tail (Run.tail (Run.single (SessionStep.body (.add true ["a"] [zero] none none) trivial))
      (SessionStep.checkpoint (some .reopen) trivial))
      (SessionStep.body (.add true ["b"] [one] none none) trivial)
  refine ⟨_, _, _, hrun, ?_, ?_, rfl, ?_⟩
  · decide +kernel
  · decide +kernel
  · decide +kernel

end Session

end Rekha
