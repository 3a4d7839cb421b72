import Rekha.Engine.DamagedCheckpoint
import Rekha.Engine.SnapshotTransfer

/-!
# After the index files are lost

An opening degrades an index it cannot load to an empty one, and queries are to
fall back on the exact scan meanwhile. The planner takes that scan while index
and buffer together are small, whatever the number of live vectors; so once
enough new records are flushed it walks an index that lacks the old ones. From
the opening on, index and buffer hold exactly the vectors put since the
checkpoint (`Tiered.lost`), which says when a search is complete
(`searchComplete_iff`).
-/

namespace Rekha

open Trace LastWrite

namespace Collection

/-- A live record with a vector, in a mapped segment or in memory. -/
def HasVector (c : Collection) (id : Id) : Prop := ((c.get id).bind Record.embedding).isSome

/-- An unfiltered query scans every live record, or every live record with a vector
is in the index or in the buffer. -/
def SearchComplete (c : Collection) : Prop :=
  c.PlansExact none ∨ ∀ id, c.HasVector id → c.IsBuffered id ∨ c.index.contains id

/-- The vector a log assigns to an id: that of its last put, unless a delete came
after it. -/
def assigned (log : List WalRecord) (id : Id) : Option Embedding :=
  (lastWrite (fun r => vectorWrite r id) log).getD none

theorem assigned_append (log rs : List WalRecord) :
    assigned (log ++ rs) = rs.foldl (overwrite vectorWrite) (assigned log) := by
  funext id
  rw [foldl_overwrite, assigned, assigned, lastWrite_append]
  cases lastWrite (fun r => vectorWrite r id) rs <;> rfl

section Tiered

variable {v : Id → Option Embedding} {c c' : Collection} {h ops : List Operation}

theorem Tiered.applyRecord (ht : Tiered v c) (hx : c.index.Wf) (r : WalRecord) :
    Tiered (overwrite vectorWrite v r) (c.applyRecord r) := by
  refine ⟨?_, index_applyRecord ht.index hx r⟩
  rw [Collection.applyRecord, applyOperation_buffer]
  exact vector_bufferAfter ht.buffer r

theorem Tiered.replay : ∀ (rs : List WalRecord) {v : Id → Option Embedding} {c : Collection},
    Tiered v c → c.index.Wf →
    Tiered (rs.foldl (overwrite vectorWrite) v) (rs.foldl Collection.applyRecord c)
  | [], _, _, ht, _ => ht
  | r :: rs, _, _, ht, hx =>
      Tiered.replay rs (ht.applyRecord hx r) (applyRecord_index_wf r hx).1

theorem Tiered.step {p : Phase} {log : List WalRecord} (ht : Tiered (assigned log) c)
    (hx : c.index.Wf) (hb : Buffered c) (hp : p.isWriteOrFlush) (hs : Step p ops c c') :
    Tiered (assigned (log ++ numbered c.wal.lastSeq ops)) c' ∧ c'.index.Wf := by
  have hsame : assigned (log ++ numbered c.wal.lastSeq []) = assigned log := by
    rw [numbered, List.append_nil]
  cases hs with
  | infer | persist =>
      rw [hsame]
      exact ⟨⟨ht.buffer, ht.index⟩, hx⟩
  | commit hacc hw =>
      obtain ⟨w, -, -, rfl⟩ := writeOps_ok hw
      have hlogged : Tiered (assigned log) { c with wal := w } := ⟨ht.buffer, ht.index⟩
      rw [assigned_append]
      exact ⟨hlogged.replay _ hx, (foldl_applyRecord_index_wf _ (c := { c with wal := w }) hx).1⟩
  | flush hf =>
      rw [hsame]
      refine ⟨ht.flush hx hb.nodup hf, ?_⟩
      obtain ⟨x, hre, rfl⟩ := flushBuffer_ok hf
      exact (hre.wf hx).1
  | checkpoint hc =>
      rw [hsame]
      rcases checkpoint_ok hc with ⟨-, rfl⟩ | ⟨-, files, -, rfl⟩
      · exact ⟨ht, hx⟩
      · exact ⟨⟨ht.buffer, ht.index⟩, hx⟩
  | rebuild hr => exact absurd rfl hp.1
  | restart order ho => exact absurd rfl hp.2

end Tiered

/-! ## The opening without an index -/

section Lost

variable {h : List Operation} {c c₀ : Collection} {bin : Option Graph} {im : Option IndexMeta}
  {order : HashOrder}

def withIndexFiles (c : Collection) (bin : Option Graph) (im : Option IndexMeta) : Collection :=
  { c with dir := { c.dir with indexBin := bin, indexMeta := im } }

theorem Logged.withIndexFiles (hl : Logged h c) (bin : Option Graph) (im : Option IndexMeta) :
    Logged h (c.withIndexFiles bin im) :=
  ⟨hl.last, hl.tail, hl.pruned, hl.flushed, hl.buffered, hl.content, hl.accepted, hl.snapshot⟩

/-- **The opening over a lost index** puts exactly the vectors of the replayed log
into the two tiers. -/
theorem Tiered.lost (hl : Logged h c)
    (hlost : ∃ e, UsearchIndex.load bin im c.config.space c.catalog.dimension = .error e)
    (hopen : reopen c.config (c.withIndexFiles bin im).disk order = .ok c₀) :
    Tiered (assigned c.wal.file.records) c₀ ∧ c₀.index.Wf := by
  have hl' := hl.withIndexFiles bin im
  let config := { c.config with dimension := (c.withIndexFiles bin im).disk.catalog.dimension }
  have hempty : (based config (c.withIndexFiles bin im).disk order).index =
      UsearchIndex.withHnsw c.config.space c.catalog.dimension := by
    rw [based_index]
    obtain ⟨e, he⟩ := hlost
    rcases (c.withIndexFiles bin im).dir.openedIndex_cases c.config.space c.catalog.dimension with
      hempty | hload
    · exact hempty
    · exact absurd (he.symm.trans hload) (by simp)
  have hwf : (based config (c.withIndexFiles bin im).disk order).index.Wf := by
    rw [hempty]
    exact UsearchIndex.wf_withHnsw _ _
  have hbased : Tiered (fun _ => none) (based config (c.withIndexFiles bin im).disk order) := by
    refine ⟨?_, ?_⟩
    · intro b hb
      rw [based_buffer] at hb
      exact absurd hb List.not_mem_nil
    · intro id _
      rw [hempty]
      rfl
  have hreplay := hbased.replay (c.withIndexFiles bin im).disk.replayed hwf
  have hassigned : (c.withIndexFiles bin im).disk.replayed.foldl (overwrite vectorWrite)
      (fun _ => none) = assigned c.wal.file.records := by
    rw [hl'.replayed]
    exact (assigned_append [] c.wal.file.records).symm
  have hindex := (foldl_applyRecord_index_wf (c.withIndexFiles bin im).disk.replayed hwf).1
  rw [hassigned, ← restored_eq_foldl] at hreplay
  rw [← restored_eq_foldl] at hindex
  rcases flushIfNeeded_ok (reopen_ok hopen) with rfl | hf
  · exact ⟨hreplay, hindex⟩
  · refine ⟨hreplay.flush hindex (Buffered.restored hl' config order).nodup hf, ?_⟩
    obtain ⟨x, hre, rfl⟩ := flushBuffer_ok hf
    exact (hre.wf hindex).1

end Lost

end Collection

open Collection

/-- **Searches after the index files are lost**: at any point of any run of writes and
flushes, a search is complete exactly when the planner still scans, or every live
record with a vector was put again since the checkpoint. -/
theorem searchComplete_iff {allowed : Call → Prop} {config : CollectionConfig}
    {h : List Operation} {c c₀ c' : Collection} {bin : Option Graph} {im : Option IndexMeta}
    {order : HashOrder} {calls : List Call} (hr : Reachable allowed config h c)
    (hlost : ∃ e, UsearchIndex.load bin im c.config.space c.catalog.dimension = .error e)
    (hopen : reopen c.config (c.withIndexFiles bin im).disk order = .ok c₀)
    (hcalls : ∀ a ∈ calls, a.isWriteOrFlush) (hrun : runAll calls c₀ = .ok c') :
    SearchComplete c' ↔ c'.PlansExact none ∨ ∀ id, c'.HasVector id →
      (assigned (c.wal.file.records ++ numbered c₀.wal.lastSeq (calls.flatMap Call.ops))
        id).isSome := by
  have hl := hr.logged.withIndexFiles bin im
  have hb : Buffered (c.withIndexFiles bin im) := ⟨hr.buffered.nodup, hr.buffered.live⟩
  have hstep : Step .restart [] (c.withIndexFiles bin im) c₀ := Step.restart order hopen
  obtain ⟨ht₀, hx₀⟩ := Tiered.lost hr.logged hlost hopen
  have hl₀ := hl.step hstep
  rw [List.append_nil] at hl₀
  have hsteps : Run (StepIn Phase.isWriteOrFlush) c₀ (calls.flatMap Call.ops) c' :=
    runAll_steps hrun fun a ha => isWriteOrFlush_phases a (hcalls a ha)
  have hinv := hsteps.invariant
    (I := fun ops s => Logged (h ++ ops) s ∧ Buffered s ∧ s.index.Wf ∧
      Tiered (assigned (c.wal.file.records ++ numbered c₀.wal.lastSeq ops)) s)
    ⟨by rwa [List.append_nil], hb.step hl hstep, hx₀, by rwa [numbered, List.append_nil]⟩
    (by
      rintro ops new s s' ⟨hlog, hbuf, hx, ht⟩ ⟨p, hp, hs⟩
      obtain ⟨ht', hx'⟩ := ht.step hx hbuf hp hs
      have hlog' := hlog.step hs
      refine ⟨by rwa [List.append_assoc] at hlog', hbuf.step hlog hs, hx', ?_⟩
      rwa [hlog.last, List.length_append, ← hl₀.last, List.append_assoc,
        ← numbered_append] at ht')
  obtain ⟨-, -, hx, ht⟩ := hinv
  refine or_congr Iff.rfl (forall_congr' fun id => imp_congr_right fun _ => ?_)
  exact (ht.cover hx id).symm

/-- A collection that flushes every write and scans one vector only. -/
def smallScanConfig : CollectionConfig :=
  { demoConfig with hnsw := { batchSize := 1, maxScan := 1 } }

/-- The states of a session: `before`, then an opening without `index.bin`, then
`after`. -/
def runWithoutIndexBin (order : HashOrder) (before after : List Call) :
    Except EngineError (Collection × Collection × Collection) := do
  let c ← runAll before (Collection.fresh smallScanConfig)
  let c₀ ← reopen c.config (c.withIndexFiles none c.dir.indexMeta).disk order
  let c' ← runAll after c₀
  pure (c, c₀, c')

theorem runWithoutIndexBin_ok {order : HashOrder} {before after : List Call}
    {c c₀ c' : Collection} (h : runWithoutIndexBin order before after = .ok (c, c₀, c')) :
    runAll before (Collection.fresh smallScanConfig) = .ok c ∧
      reopen c.config (c.withIndexFiles none c.dir.indexMeta).disk order = .ok c₀ ∧
      runAll after c₀ = .ok c' := by
  simp only [runWithoutIndexBin, bind, Except.bind] at h
  split at h
  · exact absurd h (by simp)
  · rename_i c hc
    split at h
    · exact absurd h (by simp)
    · rename_i c₀ hc₀
      split at h
      · exact absurd h (by simp)
      · rename_i c' hc'
        simp only [pure, Except.pure, Except.ok.injEq, Prod.mk.injEq] at h
        obtain ⟨rfl, rfl, rfl⟩ := h
        exact ⟨hc, hc₀, hc'⟩

theorem exists_runWithoutIndexBin {order : HashOrder} {before after : List Call}
    {P : Collection → Bool}
    (h : (runWithoutIndexBin order before after).toOption.any (fun s => P s.2.2) = true) :
    ∃ c c₀ c', runWithoutIndexBin order before after = .ok (c, c₀, c') ∧ P c' = true := by
  cases hs : runWithoutIndexBin order before after with
  | error e =>
      rw [hs] at h
      exact absurd h (by simp [Except.toOption])
  | ok s =>
      rw [hs] at h
      exact ⟨s.1, s.2.1, s.2.2, rfl, h⟩

theorem load_without_bin (im : Option IndexMeta) (space : Distance) (dimension : ℕ) :
    ∃ e, UsearchIndex.load none im space dimension = .error e := by
  unfold UsearchIndex.load
  cases im with
  | none => exact ⟨_, rfl⟩
  | some m =>
      dsimp only
      split
      · exact ⟨_, rfl⟩
      · split
        · exact ⟨_, rfl⟩
        · exact ⟨_, rfl⟩

/-- After one more record the planner still scans, so `a` is found. -/
theorem searchComplete_demo : ∃ order c c₀ c', runWithoutIndexBin order
    [.add true ["a"] [one] none none, .checkpoint] [.add true ["b"] [two] none none] =
      .ok (c, c₀, c') ∧ SearchComplete c' := by
  let order : HashOrder := ⟨fun m => m.entries, fun _ => List.Perm.refl _⟩
  obtain ⟨c, c₀, c', hs, hP⟩ : ∃ c c₀ c', runWithoutIndexBin order
      [.add true ["a"] [one] none none, .checkpoint] [.add true ["b"] [two] none none] =
        .ok (c, c₀, c') ∧
      decide (c'.index.len + c'.buffer.length ≤ c'.config.hnsw.maxScan) = true :=
    exists_runWithoutIndexBin (by decide +kernel)
  have hscan : c'.PlansExact none := of_decide_eq_true (p := _ ≤ _) hP
  obtain ⟨hc, hopen, hrun⟩ := runWithoutIndexBin_ok hs
  have hr : Reachable (fun _ => True) smallScanConfig _ c :=
    Reachable.fresh.runAll (fun _ _ => trivial) hc
  refine ⟨order, c, c₀, c', hs, (searchComplete_iff hr (load_without_bin _ _ _) hopen ?_ hrun).mpr
    (Or.inl hscan)⟩
  simp [Call.isWriteOrFlush]

/-- **A live vector becomes unreachable**: with two new records in the index the planner
walks it, and `a`, whose vector is only in the segment, is in neither tier. -/
theorem live_vector_unreachable : ∃ order c c₀ c', runWithoutIndexBin order
    [.add true ["a"] [one] none none, .checkpoint]
    [.add true ["b"] [two] none none, .add true ["d"] [zero] none none] =
      .ok (c, c₀, c') ∧ ¬ SearchComplete c' := by
  let order : HashOrder := ⟨fun m => m.entries, fun _ => List.Perm.refl _⟩
  obtain ⟨c, c₀, c', hs, hP⟩ : ∃ c c₀ c', runWithoutIndexBin order
      [.add true ["a"] [one] none none, .checkpoint]
      [.add true ["b"] [two] none none, .add true ["d"] [zero] none none] =
        .ok (c, c₀, c') ∧
      decide (¬ c'.index.len + c'.buffer.length ≤ c'.config.hnsw.maxScan ∧
        ((c'.get "a").bind Record.embedding).isSome ∧ c'.buffer = [] ∧
        ¬ c'.index.contains "a") = true :=
    exists_runWithoutIndexBin (by decide +kernel)
  obtain ⟨hwalk, hvector, hempty, habsent⟩ := of_decide_eq_true hP
  refine ⟨order, c, c₀, c', hs, ?_⟩
  rintro (hscan | hall)
  · exact hwalk hscan
  · rcases hall "a" hvector with ⟨b, hb, -⟩ | hin
    · rw [hempty] at hb
      exact absurd hb List.not_mem_nil
    · exact habsent hin

end Rekha
