import Rekha.Engine.Durable
import Rekha.Engine.IndexPath

/-!
# The two tiers together

Buffer and index against the records, along runs without a checkpoint: their ids
together are the ids that have a vector, the buffer is in log order above the
flushed watermark and holds the current vectors, and the index holds the current
vector of every other id. A restart of such a run replays the whole log into an
empty index, so the two tiers are split anew and cover the same ids.
-/

namespace Rekha

open Trace

namespace Collection

/-! ## The order of the buffer -/

/-- The buffered records are in log order, above the watermark. -/
structure Ordered (c : Collection) : Prop where
  seqs : (c.buffer.map Record.seq).Pairwise (· < ·)
  above : ∀ b ∈ c.buffer, c.flushedSeq < b.seq

section Ordered

variable {c c' : Collection} {h ops : List Operation}

theorem Ordered.of_nil (hnil : c.buffer = []) : Ordered c where
  seqs := by
    rw [hnil]
    exact List.Pairwise.nil
  above := fun b hb => absurd (hnil ▸ hb) List.not_mem_nil

theorem pairwise_bufferAfter {op : Operation} {seq : ℕ} {buffer : List Record}
    (hp : (buffer.map Record.seq).Pairwise (· < ·)) (hlt : ∀ b ∈ buffer, b.seq < seq) :
    ((op.bufferAfter seq buffer).map Record.seq).Pairwise (· < ·) := by
  have hfilter : ∀ id, ((buffer.filter fun r => decide (r.id ≠ id)).map Record.seq).Pairwise
      (· < ·) := fun id => hp.sublist (List.filter_sublist.map _)
  have hput : ∀ r : Record, r.seq = seq →
      ((buffer.filter (fun b => decide (b.id ≠ r.id)) ++ [r]).map Record.seq).Pairwise
        (· < ·) := by
    intro r hr
    rw [List.map_append, List.pairwise_append]
    refine ⟨hfilter r.id, List.pairwise_singleton _ _, ?_⟩
    intro s hs s' hs'
    obtain ⟨b, hb, rfl⟩ := List.mem_map.mp hs
    rw [List.map_singleton, List.mem_singleton] at hs'
    rw [hs', hr]
    exact hlt b (List.mem_of_mem_filter hb)
  cases op with
  | add id e md doc => exact hput ⟨id, some e, md, doc, seq⟩ rfl
  | upsert id e md doc => exact hput ⟨id, some e, md, doc, seq⟩ rfl
  | update id md doc => exact hp
  | delete id => exact hfilter id

/-- An operation newer than the watermark and the buffer keeps the order, and the
buffer is then no newer than the operation. -/
theorem Ordered.applyRecord (ho : Ordered c) {w : WalRecord} (hw : c.flushedSeq < w.seq)
    (hlt : ∀ b ∈ c.buffer, b.seq < w.seq) :
    Ordered (c.applyRecord w) ∧ ∀ b ∈ (c.applyRecord w).buffer, b.seq ≤ w.seq := by
  have hflushed := congrArg Settled.flushedSeq (c.applyOperation_settled w.op w.seq)
  simp only [settled] at hflushed
  rw [Collection.applyRecord]
  refine ⟨⟨?_, ?_⟩, ?_⟩
  · rw [applyOperation_buffer]
    exact pairwise_bufferAfter ho.seqs hlt
  · intro b hb
    rw [applyOperation_buffer] at hb
    rw [hflushed]
    rcases mem_bufferAfter hb with ⟨hold, -⟩ | ⟨hseq, -⟩
    · exact ho.above b hold
    · rw [hseq]
      exact hw
  · intro b hb
    rw [applyOperation_buffer] at hb
    rcases mem_bufferAfter hb with ⟨hold, -⟩ | ⟨hseq, -⟩
    · exact (hlt b hold).le
    · exact hseq.le

theorem Ordered.numbered : ∀ (ops : List Operation) (n : ℕ) {c : Collection}, Ordered c →
    c.flushedSeq ≤ n → (∀ b ∈ c.buffer, b.seq ≤ n) →
    Ordered ((numbered n ops).foldl Collection.applyRecord c)
  | [], _, _, ho, _, _ => ho
  | op :: ops, n, c, ho, hf, hle => by
      have hstep := ho.applyRecord (w := ⟨n + 1, op⟩) (Nat.lt_succ_of_le hf)
        fun b hb => Nat.lt_succ_of_le (hle b hb)
      have hflushed := congrArg Settled.flushedSeq (c.applyOperation_settled op (n + 1))
      simp only [settled] at hflushed
      exact Ordered.numbered ops (n + 1) hstep.1 (hflushed.trans_le (Nat.le_succ_of_le hf))
        hstep.2

theorem Ordered.restored (hl : Logged h c) (config : CollectionConfig) (order : HashOrder) :
    Ordered (restored config c.disk order) := by
  have hp : c.lastCheckpointSeq ≤ h.length := hl.pruned.trans hl.flushed
  have hresume := hl.resumes config order
  rw [restored_eq, replayAfter_eq, hresume.flushedSeq, hresume.tail,
    filter_numbered (le_refl _) hp]
  refine Ordered.numbered _ _ (Ordered.of_nil hresume.buffer) hresume.flushedSeq.le ?_
  intro b hb
  rw [hresume.buffer] at hb
  exact absurd hb List.not_mem_nil

theorem Ordered.step {p : Phase} (ho : Ordered c) (hl : Logged h c) (hs : Step p ops c c') :
    Ordered c' := by
  cases hs with
  | infer | persist => exact ⟨ho.seqs, ho.above⟩
  | commit hacc hw =>
      obtain ⟨w, -, -, rfl⟩ := writeOps_ok hw
      have hlogged : Ordered { c with wal := w } := ⟨ho.seqs, ho.above⟩
      refine hlogged.numbered _ _ ?_ ?_
      · rw [hl.last]
        exact hl.flushed
      · rw [hl.last]
        exact hl.buffered
  | flush hf =>
      obtain ⟨x, -, rfl⟩ := flushBuffer_ok hf
      exact Ordered.of_nil rfl
  | checkpoint hc =>
      rcases checkpoint_ok hc with ⟨-, rfl⟩ | ⟨-, files, -, rfl⟩
      · exact ho
      · exact ⟨ho.seqs, ho.above⟩
  | rebuild hr =>
      obtain ⟨x, -, rfl⟩ := rebuildIndex_ok hr
      exact ⟨ho.seqs, ho.above⟩
  | restart order hopen =>
      rcases flushIfNeeded_ok (reopen_ok hopen) with rfl | hf
      · exact Ordered.restored hl _ order
      · obtain ⟨x, -, rfl⟩ := flushBuffer_ok hf
        exact Ordered.of_nil rfl

end Ordered

/-! ## Full replays -/

section Synced

variable {c c' : Collection} {h ops : List Operation}

theorem synced_new (config : CollectionConfig) (d : Disk) : Synced (new config d) where
  unmapped := ⟨rfl, rfl⟩
  index := fun id _ => by simp [new, UsearchIndex.vector, UsearchIndex.withHnsw, memVector]

theorem synced_restored {config : CollectionConfig} {d : Disk} {order : HashOrder}
    (hnone : d.dir.checkpointJson = none) :
    Synced (restored config d order) ∧ (restored config d order).index.Wf := by
  have hsnap : snapshotFiles d.dir = none := by
    unfold snapshotFiles
    rw [hnone]
  have hwf : (new config d).index.Wf := UsearchIndex.wf_withHnsw _ _
  rw [restored_eq, replayAfter_eq, based_none hsnap]
  exact ⟨(synced_new config d).replay _ hwf, (foldl_applyRecord_index_wf _ hwf).1⟩

theorem Synced.reopened (hl : Logged h c) {order : HashOrder}
    (ho : reopen c.config c.disk order = .ok c') (hnone : c'.dir.checkpointJson = none) :
    Synced c' := by
  have hb := Buffered.restored hl { c.config with dimension := c.disk.catalog.dimension } order
  have hdir := dir_restored { c.config with dimension := c.disk.catalog.dimension } c.disk order
  rcases flushIfNeeded_ok (reopen_ok ho) with rfl | hf
  · rw [hdir] at hnone
    exact (synced_restored hnone).1
  · have hdir' : c'.dir = c.disk.dir := by
      obtain ⟨x, -, rfl⟩ := flushBuffer_ok hf
      exact hdir
    rw [hdir'] at hnone
    obtain ⟨hs, hwf⟩ := @synced_restored { c.config with dimension := c.disk.catalog.dimension }
      c.disk order hnone
    exact hs.flush hwf hb hf

/-- Every step but a rebuild keeps memory and index in step until the first
checkpoint. -/
theorem Synced.step_or_reopen {p : Phase} (hs : c.dir.checkpointJson = none → Synced c)
    (hl : Logged h c) (hb : Buffered c) (hx : c.index.Wf) (hp : p ≠ .rebuild)
    (hstep : Step p ops c c') : c'.dir.checkpointJson = none → Synced c' := by
  by_cases hrestart : p = .restart
  · subst hrestart
    cases hstep with
    | restart order ho => exact Synced.reopened hl ho
  · exact Synced.step hs hb hx ⟨hp, hrestart⟩ hstep

end Synced

/-! ## The invariant -/

/-- **Buffer and index together hold exactly the live vectors.** -/
structure TwoTiers (c : Collection) : Prop where
  cover : ∀ id, (c.memVector id).isSome ↔ c.IsBuffered id ∨ c.index.contains id
  live : ∀ id, c.index.contains id → (c.records.lookup id).isSome
  nodup : (c.buffer.map Record.id).Nodup
  ordered : Ordered c
  buffered : ∀ b ∈ c.buffer, b.embedding.isSome ∧ b.embedding = c.memVector b.id
  indexed : ∀ id, c.index.contains id → ¬ c.IsBuffered id → c.index.vector id = c.memVector id
  read : ∀ id, (c.get id).bind Record.embedding = c.memVector id

theorem Synced.twoTiers {c : Collection} (hs : Synced c) (hx : c.index.Wf) (hb : Buffered c)
    (ho : Ordered c) : TwoTiers c := by
  have ht := hb.tiered hs.index
  have hcover := ht.cover hx
  refine ⟨hcover, ?_, hb.nodup, ho, ht.buffer, fun id _ hnot => hs.index id hnot, ?_⟩
  · intro id hin
    have hsome := (hcover id).mpr (Or.inr hin)
    unfold memVector at hsome
    cases hr : c.records.lookup id with
    | none =>
        rw [hr] at hsome
        exact absurd hsome (by simp)
    | some r => rfl
  · intro id
    have hunmapped : c.loadVector id = none := by
      unfold Collection.loadVector
      rw [hs.unmapped.2]
      rfl
    rw [Collection.get, memVector, hunmapped]
    cases c.records.lookup id <;> rfl

end Collection

open Collection

/-- A write batch, a flush or a restart: nobody asks for a checkpoint. -/
def Call.isUncheckpointed : Call → Prop
  | .checkpoint | .optimize => False
  | _ => True

theorem isUncheckpointed_phases : ∀ a : Call, a.isUncheckpointed →
    ∀ p ∈ a.phases, p ≠ .rebuild := by
  intro a ha
  cases a with
  | checkpoint => exact ha.elim
  | optimize => exact ha.elim
  | _ => simp [Call.phases]

theorem Reachable.uncheckpointed {config : CollectionConfig} {h : List Operation}
    {c : Collection} (hr : Reachable Call.isUncheckpointed config h c)
    (hd : config.dimension ≠ 0) :
    Logged h c ∧ Fits config.dimension c ∧ Buffered c ∧ Ordered c ∧
      (c.dir.checkpointJson = none → Synced c) :=
  (hr.steps isUncheckpointed_phases).invariant
    (I := fun h c => Logged h c ∧ Fits config.dimension c ∧ Buffered c ∧ Ordered c ∧
      (c.dir.checkpointJson = none → Synced c))
    ⟨logged_fresh config, fits_fresh config, Buffered.of_nil rfl, Ordered.of_nil rfl,
      fun _ => synced_fresh config⟩
    fun _ _ _ _ ⟨hl, hf, hb, ho, hs⟩ ⟨_, hp, hstep⟩ => ⟨hl.step hstep, hf.step hd hstep,
      hb.step hl hstep, ho.step hl hstep, Synced.step_or_reopen hs hl hb hf.wf hp hstep⟩

/-- **Buffer and index together hold exactly the live vectors** after any writes,
flushes and restarts, as long as no checkpoint has run: none was asked for, and
the checkpoint file an automatic one would have left is not there. -/
theorem two_tiers {config : CollectionConfig} {h : List Operation} {c : Collection}
    (hd : config.dimension ≠ 0) (hr : Reachable Call.isUncheckpointed config h c)
    (hnone : c.dir.checkpointJson = none) : TwoTiers c := by
  obtain ⟨-, hf, hb, ho, hs⟩ := hr.uncheckpointed hd
  exact (hs hnone).twoTiers hf.wf hb ho

/-- After a restart and a flush `a` is written again: it is in both tiers, with
two vectors. -/
theorem two_tiers_demo : ∃ h c, Reachable Call.isUncheckpointed demoConfig h c ∧
    c.IsBuffered "a" ∧ c.index.vector "a" = some zero ∧ TwoTiers c := by
  have hrun : (runAll [.add true ["a", "b"] [zero, one] none none, .delete ["b"],
      .restart ⟨fun m => m.entries, fun _ => List.Perm.refl _⟩, .flush,
      .upsert true ["a"] [two] none none] (fresh demoConfig)).toOption.any
      (fun c => c.dir.checkpointJson.isNone && (c.buffer.any fun b => decide (b.id = "a")) &&
        decide (c.index.vector "a" = some zero)) = true := by
    decide +kernel
  obtain ⟨c, hc, hP⟩ := exists_runAll hrun
  simp only [Bool.and_eq_true, Option.isNone_iff_eq_none, List.any_eq_true,
    decide_eq_true_eq] at hP
  obtain ⟨⟨hnone, hbuf⟩, hvec⟩ := hP
  have hr : Reachable Call.isUncheckpointed demoConfig _ c :=
    Reachable.fresh.runAll (by simp [Call.isUncheckpointed]) hc
  exact ⟨_, c, hr, hbuf, hvec, two_tiers (by decide) hr hnone⟩

end Rekha
