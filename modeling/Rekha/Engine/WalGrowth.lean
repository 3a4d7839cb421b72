import Rekha.Engine.Crash

/-!
# What automatic checkpoints do to the size of the log

An automatic checkpoint is due when the log has grown past the last one, and
prunes the log up to the flushed watermark. Only a flush moves the watermark,
and only puts fill the buffer it flushes: updates and deletes lengthen the log
and leave the watermark where it is. After every write call the log is as long
as the distance to the watermark, up to the threshold (`wal_length_gap`), and
nothing bounds that distance.
-/

namespace Rekha

open Collection Trace Outcome

def Call.isWrite : Call → Prop
  | .add .. | .upsert .. | .update .. | .delete _ => True
  | _ => False

/-- States after accepted write batches of at most `m` operations, automatic
checkpoints included, none of which left the collection empty. -/
inductive WriteRun (config : CollectionConfig) (m : ℕ) : List Operation → Collection → Prop
  | fresh : WriteRun config m [] (Collection.fresh config)
  | write {h : List Operation} {c c' : Collection} (a : Call) :
      WriteRun config m h c → a.isWrite → a.ops.length ≤ m → a.run c = .ok c' →
      c'.records.size ≠ 0 → WriteRun config m (h ++ a.ops) c'

/-- The length of the log stays below one bound in all these runs. -/
def BoundsWal (hnsw : HnswConfig) (m : ℕ) : Prop :=
  ∃ B, ∀ config h c, config.hnsw = hnsw → WriteRun config m h c →
    c.wal.file.records.length ≤ B

section WriteRun

variable {config : CollectionConfig} {m : ℕ} {h ops : List Operation} {c c' : Collection}

theorem WriteRun.reachable (hr : WriteRun config m h c) :
    Reachable (fun _ => True) config h c := by
  induction hr with
  | fresh => exact Reachable.fresh
  | write a _ _ _ hrun _ ih => exact Reachable.call a ih trivial hrun

/-! ## The distance to the watermark -/

theorem Collection.Logged.length_wal (hl : Logged h c) :
    c.wal.file.records.length = h.length - c.lastCheckpointSeq := by
  rw [hl.tail, length_numbered, List.length_drop]

theorem autoCheckpoint_gap {u : Unit} (hauto : autoCheckpoint c = .ok u c')
    (hsize : c'.records.size ≠ 0) :
    c'.wal.lastSeq - c'.lastCheckpointSeq < c'.config.hnsw.syncThreshold ∨
      c'.lastCheckpointSeq = c'.flushedSeq := by
  rcases autoCheckpoint_ok hauto with ⟨hdue, rfl⟩ | ⟨hne, -, hc⟩
  · exact Or.inl (not_le.mp fun hle => hdue ⟨hsize, hle⟩)
  · rcases checkpoint_ok hc with ⟨hzero, -⟩ | ⟨-, files, -, rfl⟩
    · exact absurd hzero hne
    · exact Or.inr rfl

theorem Call.run_unchecked {a : Call} (ha : a.isWrite) (hrun : a.run c = .ok c') :
    ∃ c₁, Run (StepIn Phase.isUnchecked) c a.ops c₁ ∧ autoCheckpoint c₁ = .ok () c' := by
  have hcommit : Phase.commit.isUnchecked := by simp [Phase.isUnchecked]
  cases a with
  | add p ids es ms ds =>
      obtain ⟨u, hrun⟩ := accepted_eq_ok.mp hrun
      exact run_putBatch_unchecked hrun (fun c hval => accepts_addOps hval) fun _ hp => hp
  | upsert p ids es ms ds =>
      obtain ⟨u, hrun⟩ := accepted_eq_ok.mp hrun
      exact run_putBatch_unchecked hrun (fun c hval => accepts_upsertOps hval) fun _ hp => hp
  | update ids ms ds =>
      obtain ⟨u, hrun⟩ := accepted_eq_ok.mp hrun
      obtain ⟨hval, c₁, hwrite, hauto⟩ := update_ok hrun
      exact ⟨c₁, Run.single ⟨_, hcommit, Step.commit (accepts_updateOps hval) hwrite⟩, hauto⟩
  | delete ids =>
      obtain ⟨u, hrun⟩ := accepted_eq_ok.mp hrun
      obtain ⟨c₁, hwrite, hauto⟩ := delete_ok hrun
      exact ⟨c₁, Run.single ⟨_, hcommit, Step.commit (accepts_delete c ids) hwrite⟩, hauto⟩
  | flush | checkpoint | optimize | restart => exact ha.elim

theorem write_gap {a : Call} (ha : a.isWrite) (hrun : a.run c = .ok c')
    (hsize : c'.records.size ≠ 0) :
    c'.wal.lastSeq - c'.lastCheckpointSeq < c'.config.hnsw.syncThreshold ∨
      c'.lastCheckpointSeq = c'.flushedSeq := by
  obtain ⟨c₁, -, hauto⟩ := Call.run_unchecked ha hrun
  exact autoCheckpoint_gap hauto hsize

/-- **After a write call the log is as long as the distance to the flushed
watermark**, up to the threshold. -/
theorem wal_length_gap (hr : WriteRun config m h c) (hne : h ≠ []) :
    c.wal.lastSeq - c.flushedSeq ≤ c.wal.file.records.length ∧
      c.wal.file.records.length ≤
        max (c.config.hnsw.syncThreshold - 1) (c.wal.lastSeq - c.flushedSeq) := by
  have hl := hr.reachable.logged
  rw [hl.length_wal, hl.last]
  refine ⟨Nat.sub_le_sub_left hl.pruned _, ?_⟩
  cases hr with
  | fresh => exact absurd rfl hne
  | write a hr ha _ hrun hsize =>
      have hgap := write_gap ha hrun hsize
      rw [hl.last] at hgap
      rcases hgap with hlt | heq
      · exact le_max_of_le_left (Nat.le_sub_one_of_lt hlt)
      · rw [heq]
        exact le_max_right _ _

/-! ## Nothing is written in empty batches -/

theorem size_of_no_operations (hl : Logged [] c) : c.records.size = 0 := by
  by_contra hsize
  obtain ⟨id, r, hr⟩ := FinMap.exists_lookup_of_size_ne_zero hsize
  have hcontent := congrFun hl.content id
  rw [content, contentOf, hr] at hcontent
  exact absurd hcontent (by simp [registers, numbered])

theorem WriteRun.of_zero (hr : WriteRun config 0 h c) : h = [] ∧ c = Collection.fresh config := by
  induction hr with
  | fresh => exact ⟨rfl, rfl⟩
  | @write h c c' a hr ha hlen hrun hsize ih =>
      obtain ⟨rfl, rfl⟩ := ih
      have hops : a.ops = [] := List.length_eq_zero_iff.mp (Nat.le_zero.mp hlen)
      have hreach := hr.reachable.call a trivial hrun
      rw [hops, List.append_nil] at hreach
      exact absurd (size_of_no_operations hreach.logged) hsize

theorem boundsWal_zero (hnsw : HnswConfig) : BoundsWal hnsw 0 := by
  refine ⟨0, ?_⟩
  intro config h c _ hr
  obtain ⟨-, rfl⟩ := hr.of_zero
  exact le_refl _

end WriteRun

/-! ## Calls that succeed -/

section Succeeds

variable {c c' : Collection} {h ops : List Operation} {d : ℕ}

theorem succeeds_appendOps {ops : List Operation}
    (hsmall : ∀ op ∈ ops, op.recordLen ≤ 2 ^ 32 - 1) (c : Collection) :
    Succeeds (appendOps ops) c := by
  induction ops generalizing c with
  | nil => exact ⟨[], c, rfl⟩
  | cons op ops ih =>
      simp only [List.forall_mem_cons] at hsmall
      refine Succeeds.bind rfl ?_
      unfold Wal.append
      rw [if_neg (not_lt.mpr hsmall.1)]
      refine Succeeds.bind rfl ?_
      obtain ⟨rs, c', hrest⟩ := ih hsmall.2 _
      exact Succeeds.bind hrest ⟨_, _, rfl⟩

theorem succeeds_writeOps (hsmall : ∀ op ∈ ops, op.recordLen ≤ 2 ^ 32 - 1) (c : Collection) :
    Succeeds (writeOps ops) c := by
  obtain ⟨rs, c', happ⟩ := succeeds_appendOps hsmall c
  exact Succeeds.bind happ ⟨_, _, rfl⟩

theorem succeeds_saveIndex (c : Collection) :
    ∃ dir, saveIndex c = .ok () { c with dir := dir } := by
  by_cases hlen : c.index.len ≠ 0
  · exact ⟨_, bind_ok.mpr ⟨c, c, rfl, by rw [if_pos hlen]; rfl⟩⟩
  · exact ⟨_, bind_ok.mpr ⟨c, c, rfl, by rw [if_neg hlen]; rfl⟩⟩

theorem succeeds_writeSegment (hfits : WriterFits c) : Succeeds writeSegment c := by
  refine Succeeds.bind rfl ?_
  cases he : c.segmentEntries with
  | nil => exact ⟨_, _, rfl⟩
  | cons e rest =>
      have hrows := @exists_writeRows_iff (e :: rest) (SegmentWriter.new c.config.dimension) ∅
      obtain ⟨⟨w, idx⟩, hw⟩ := hrows.mpr fun x hx => hfits x (he ▸ hx)
      simp only [hw]
      exact ⟨_, _, rfl⟩

theorem succeeds_checkpoint (hfits : WriterFits c) : Succeeds Collection.checkpoint c := by
  refine Succeeds.bind rfl ?_
  by_cases hsize : c.records.size = 0
  · rw [if_pos hsize]
    exact ⟨_, _, rfl⟩
  · rw [if_neg hsize]
    refine Succeeds.bind rfl ?_
    obtain ⟨dir, hsave⟩ := succeeds_saveIndex
      { c with dir := { c.dir with recordsBin := some c.records } }
    refine Succeeds.bind hsave (Succeeds.bind rfl ?_)
    have hsegment : ∀ dir, Succeeds writeSegment { c with dir := dir } :=
      fun dir => succeeds_writeSegment hfits
    obtain ⟨u, c', hwrite⟩ := hsegment { dir with checkpointJson := some c.checkpointMeta }
    exact Succeeds.bind hwrite ⟨_, _, rfl⟩

theorem succeeds_autoCheckpoint (hfits : WriterFits c) : Succeeds autoCheckpoint c := by
  refine Succeeds.bind rfl ?_
  split
  · exact ⟨_, _, rfl⟩
  · split
    · exact succeeds_checkpoint hfits
    · exact ⟨_, _, rfl⟩

/-! ## Vectors in memory -/

/-- The vectors in memory have the collection's dimension. -/
structure MemoryFits (d : ℕ) (c : Collection) : Prop where
  dimension : c.config.dimension = d
  memory : ∀ id e, c.memVector id = some e → e.length = d

theorem MemoryFits.writerFits (hm : MemoryFits d c) (hd : d < 2 ^ 32) : WriterFits c := by
  rintro ⟨id, e⟩ he
  obtain ⟨r, hr, hemb⟩ := mem_sortedVectors.mp he
  rw [hm.dimension, Nat.mod_eq_of_lt hd]
  refine hm.memory id e ?_
  rw [memVector, hr]
  exact hemb

theorem MemoryFits.applyRecord (hm : MemoryFits d c) (r : WalRecord)
    (hr : ∀ e, r.op.vector = some e → e.length = d) : MemoryFits d (c.applyRecord r) := by
  have hconfig := congrArg Settled.config (c.applyOperation_settled r.op r.seq)
  simp only [settled] at hconfig
  refine ⟨(congrArg CollectionConfig.dimension hconfig).trans hm.dimension, ?_⟩
  intro id e he
  rw [memVector_applyRecord] at he
  simp only [LastWrite.overwrite, vectorWrite] at he
  split at he
  · cases hop : r.op with
    | add key v md doc =>
        rw [hop] at he hr
        exact hr e he
    | upsert key v md doc =>
        rw [hop] at he hr
        exact hr e he
    | update key md doc =>
        rw [hop] at he
        exact hm.memory id e he
    | delete key =>
        rw [hop] at he
        exact absurd he (by simp)
  · exact hm.memory id e he

theorem MemoryFits.replay (rs : List WalRecord) (hm : MemoryFits d c)
    (hrs : ∀ r ∈ rs, ∀ e, r.op.vector = some e → e.length = d) :
    MemoryFits d (rs.foldl Collection.applyRecord c) :=
  List.foldlRecOn rs _ hm fun _ hc r hr => hc.applyRecord r (hrs r hr)

theorem MemoryFits.step {p : Phase} (hm : MemoryFits d c) (hd : d ≠ 0) (hp : p.isWriteOrFlush)
    (hs : Step p ops c c') : MemoryFits d c' := by
  cases hs with
  | infer dim hzero => exact absurd (hm.dimension.symm.trans hzero) hd
  | persist => exact ⟨hm.dimension, hm.memory⟩
  | commit hacc hw =>
      obtain ⟨w, -, -, rfl⟩ := writeOps_ok hw
      have hlogged : MemoryFits d { c with wal := w } := ⟨hm.dimension, hm.memory⟩
      refine hlogged.replay _ ?_
      intro r hr e he
      rcases hacc.fits r.op (op_mem_of_mem_numbered hr) e he with hzero | hlen
      · exact absurd (hm.dimension.symm.trans hzero) hd
      · exact hlen.trans hm.dimension
  | flush hf =>
      obtain ⟨x, -, rfl⟩ := flushBuffer_ok hf
      exact ⟨hm.dimension, hm.memory⟩
  | checkpoint hc =>
      rcases checkpoint_ok hc with ⟨-, rfl⟩ | ⟨-, files, -, rfl⟩
      · exact hm
      · exact ⟨hm.dimension, fun id e he => hm.memory id e (memVector_of_stripped he)⟩
  | rebuild => exact absurd rfl hp.1
  | restart => exact absurd rfl hp.2

theorem flushedSeq_step {p : Phase} (hp : p = .commit ∨ p = .checkpoint)
    (hs : Step p ops c c') : c'.flushedSeq = c.flushedSeq := by
  cases hs with
  | commit hacc hw =>
      obtain ⟨w, -, -, rfl⟩ := writeOps_ok hw
      have hflushed := congrArg Settled.flushedSeq
        (foldl_applyRecord_settled (numbered c.wal.lastSeq ops) { c with wal := w })
      simp only [settled] at hflushed
      exact hflushed
  | checkpoint hc =>
      rcases checkpoint_ok hc with ⟨-, rfl⟩ | ⟨-, files, -, rfl⟩
      · rfl
      · rfl
  | _ => exact absurd hp (by decide)

end Succeeds

/-! ## One record, updated forever -/

section Growing

variable {hnsw : HnswConfig} {m : ℕ} {h : List Operation} {c c' : Collection}

/-- A one-dimensional collection with these settings. -/
def hnswConfig (hnsw : HnswConfig) : CollectionConfig := { demoConfig with hnsw := hnsw }

theorem isWriteOrFlush_commit : Phase.commit.isWriteOrFlush := by simp [Phase.isWriteOrFlush]

theorem isWriteOrFlush_flush : Phase.flush.isWriteOrFlush := by simp [Phase.isWriteOrFlush]

/-- A run in which `a` is live and the watermark has not passed its first write. -/
structure Growing (hnsw : HnswConfig) (m : ℕ) (h : List Operation) (c : Collection) : Prop where
  run : WriteRun (hnswConfig hnsw) m h c
  memory : MemoryFits 1 c
  live : (c.records.lookup "a").isSome
  flushed : c.flushedSeq ≤ 1

theorem live_of_last (op : Operation) (hl : Logged (h ++ [op]) c) (hop : ∀ id, op ≠ .delete id) :
    (c.records.lookup op.id).isSome := by
  have hcontent := congrFun hl.content op.id
  rw [registers, numbered_append, List.foldl_append] at hcontent
  simp only [numbered, List.foldl_cons, List.foldl_nil, LastWrite.overwrite, contentWrite]
    at hcontent
  rw [content, contentOf] at hcontent
  cases hr : c.records.lookup op.id with
  | some r => rfl
  | none =>
      rw [hr] at hcontent
      cases op with
      | delete id => exact absurd rfl (hop id)
      | _ => exact absurd hcontent (by simp)

theorem size_ne_zero_of_live {id : Id} (hlive : (c.records.lookup id).isSome) :
    c.records.size ≠ 0 := by
  intro hsize
  rw [FinMap.lookup_eq_none_of_size_zero hsize] at hlive
  exact absurd hlive (by simp)

theorem succeeds_first (hnsw : HnswConfig) :
    ∃ c, (Call.add true ["a"] [zero] none none).run (Collection.fresh (hnswConfig hnsw)) =
      .ok c := by
  have hfits := fits_fresh (hnswConfig hnsw)
  have hmem : MemoryFits 1 (Collection.fresh (hnswConfig hnsw)) :=
    ⟨rfl, fun id e he => absurd he (by simp [memVector, Collection.fresh, new])⟩
  have hacc : (Collection.fresh (hnswConfig hnsw)).Accepts (addOps ["a"] [zero] none none) :=
    accepts_addOps rfl
  have hsmall : ∀ op ∈ addOps ["a"] [zero] none none, op.recordLen ≤ 2 ^ 32 - 1 := by decide
  obtain ⟨u₃, c₃, hwrite⟩ := succeeds_writeOps hsmall (Collection.fresh (hnswConfig hnsw))
  have hfits₃ : Fits 1 c₃ := hfits.commit Nat.one_ne_zero hacc hwrite
  have hmem₃ := hmem.step Nat.one_ne_zero isWriteOrFlush_commit (.commit hacc hwrite)
  obtain ⟨c₄, hflush⟩ := flushIfNeeded_succeeds hfits₃.wf fun r hr e he =>
    (hfits₃.buffer r hr e he).trans hfits₃.dimension.symm
  have hmem₄ : MemoryFits 1 c₄ := by
    rcases flushIfNeeded_ok hflush with rfl | hf
    · exact hmem₃
    · exact hmem₃.step Nat.one_ne_zero isWriteOrFlush_flush (.flush hf)
  obtain ⟨u, c, hauto⟩ := succeeds_autoCheckpoint (hmem₄.writerFits (by decide))
  refine ⟨c, accepted_eq_ok.mpr ⟨u, ?_⟩⟩
  refine bind_ok.mpr ⟨none, _, rfl, bind_ok.mpr ⟨_, _, rfl, bind_ok.mpr ⟨(), _, rfl, ?_⟩⟩⟩
  exact bind_ok.mpr ⟨(), _, rfl, bind_ok.mpr ⟨_, _, hwrite, bind_ok.mpr ⟨_, _, hflush, hauto⟩⟩⟩

theorem succeeds_update (hm : MemoryFits 1 c) (hlive : (c.records.lookup "a").isSome) :
    ∃ c', (Call.update ["a"] none none).run c = .ok c' := by
  have hval : c.validateUpdate ["a"] none none = .ok () := by
    show checkKnownIds c.records ["a"] = .ok ()
    rw [checkKnownIds, if_pos hlive]
    rfl
  have hsmall : ∀ op ∈ updateOps ["a"] none none, op.recordLen ≤ 2 ^ 32 - 1 := by decide
  obtain ⟨u₁, c₁, hwrite⟩ := succeeds_writeOps hsmall c
  have hmem₁ := hm.step Nat.one_ne_zero isWriteOrFlush_commit
    (.commit (accepts_updateOps hval) hwrite)
  obtain ⟨u, c', hauto⟩ := succeeds_autoCheckpoint (hmem₁.writerFits (by decide))
  refine ⟨c', accepted_eq_ok.mpr ⟨u, ?_⟩⟩
  refine bind_ok.mpr ⟨c, c, rfl, bind_ok.mpr ⟨(), c, ?_, bind_ok.mpr ⟨_, _, hwrite, hauto⟩⟩⟩
  exact ofExcept_ok.mpr ⟨hval, rfl⟩

theorem exists_growing (hnsw : HnswConfig) (hm : 1 ≤ m) (k : ℕ) :
    ∃ h c, h.length = k + 1 ∧ Growing hnsw m h c := by
  induction k with
  | zero =>
      obtain ⟨c, hrun⟩ := succeeds_first hnsw
      have hfresh : WriteRun (hnswConfig hnsw) m [] (Collection.fresh (hnswConfig hnsw)) := .fresh
      have hlogged := (hfresh.reachable.call _ trivial hrun).logged
      have hlive := live_of_last (.add "a" zero none none) hlogged (by simp)
      have hphases : ∀ p ∈ (Call.add true ["a"] [zero] none none).phases, p.isWriteOrFlush :=
        isWriteOrFlush_phases _ trivial
      have hmem : MemoryFits 1 c := by
        refine (Call.run_steps hrun hphases).invariant (I := fun _ c => MemoryFits 1 c)
          ⟨rfl, fun id e he => absurd he (by simp [memVector, Collection.fresh, new])⟩ ?_
        rintro _ _ _ _ hm ⟨p, hp, hs⟩
        exact hm.step Nat.one_ne_zero hp hs
      exact ⟨_, c, rfl, WriteRun.write (.add true ["a"] [zero] none none) hfresh trivial hm hrun
        (size_ne_zero_of_live hlive), hmem, hlive, hlogged.flushed⟩
  | succ k ih =>
      obtain ⟨h, c, hlen, hg⟩ := ih
      obtain ⟨c', hrun⟩ := succeeds_update hg.memory hg.live
      have hlive := live_of_last (.update "a" none none)
        (hg.run.reachable.call _ trivial hrun).logged (by simp)
      have hphases : ∀ p ∈ (Call.update ["a"] none none).phases,
          p.isWriteOrFlush ∧ (p = .commit ∨ p = .checkpoint) := by
        simp [Call.phases, Phase.isWriteOrFlush]
      have hkept : MemoryFits 1 c' ∧ c'.flushedSeq = c.flushedSeq := by
        refine (Call.run_steps hrun hphases).invariant
          (I := fun _ c' => MemoryFits 1 c' ∧ c'.flushedSeq = c.flushedSeq) ⟨hg.memory, rfl⟩ ?_
        rintro _ _ _ _ ⟨hm, hf⟩ ⟨p, hp, hs⟩
        exact ⟨hm.step Nat.one_ne_zero hp.1 hs, (flushedSeq_step hp.2 hs).trans hf⟩
      refine ⟨_, c', ?_, WriteRun.write (.update ["a"] none none) hg.run trivial hm hrun
        (size_ne_zero_of_live hlive), hkept.1, hlive, hkept.2.trans_le hg.flushed⟩
      rw [List.length_append, hlen]
      rfl

theorem not_boundsWal (hnsw : HnswConfig) (hm : 1 ≤ m) : ¬ BoundsWal hnsw m := by
  rintro ⟨B, hB⟩
  obtain ⟨h, c, hlen, hg⟩ := exists_growing hnsw hm (B + 1)
  have hle := hB _ h c rfl hg.run
  have hl := hg.run.reachable.logged
  have hpruned := hl.pruned.trans hg.flushed
  rw [hl.length_wal, hlen] at hle
  omega

end Growing

/-- **Automatic checkpoints bound the log of no collection**: whatever the
settings, one record updated again and again makes it as long as one likes. -/
theorem boundsWal_iff (hnsw : HnswConfig) (m : ℕ) : BoundsWal hnsw m ↔ m = 0 := by
  refine ⟨?_, ?_⟩
  · intro hbound
    by_contra hm
    exact not_boundsWal hnsw (Nat.one_le_iff_ne_zero.mpr hm) hbound
  · rintro rfl
    exact boundsWal_zero hnsw

/-- Not even with a flush and a checkpoint every five records. -/
theorem wal_not_bounded : ¬ BoundsWal { batchSize := 5, syncThreshold := 5 } 1 :=
  not_boundsWal _ (le_refl 1)

end Rekha
