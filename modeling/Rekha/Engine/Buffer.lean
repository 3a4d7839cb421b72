import Rekha.Engine.History

/-!
# The buffer

The buffer holds at most one record per id, each of a live id, with the vector
the record itself holds in memory: a flush takes every buffered record, so what
is buffered is newer than the flushed watermark and no checkpoint strips it.
Its metadata is another matter: an update does not reach it.
-/

namespace Rekha

open Trace

namespace Collection

/-- **The buffer invariant.** -/
structure Buffered (c : Collection) : Prop where
  nodup : (c.buffer.map Record.id).Nodup
  live : ∀ b ∈ c.buffer, ∃ r, c.records.lookup b.id = some r ∧ r.embedding = b.embedding ∧
    b.embedding.isSome ∧ c.flushedSeq < r.seq

section Buffered

variable {c c' : Collection} {h ops : List Operation}

theorem Buffered.of_nil (hnil : c.buffer = []) : Buffered c where
  nodup := by
    rw [hnil]
    exact List.nodup_nil
  live := fun b hb => absurd (hnil ▸ hb) List.not_mem_nil

theorem nodup_bufferAfter {op : Operation} {seq : ℕ} {buffer : List Record}
    (h : (buffer.map Record.id).Nodup) :
    ((op.bufferAfter seq buffer).map Record.id).Nodup := by
  have hfilter : ∀ id, ((buffer.filter fun r => decide (r.id ≠ id)).map Record.id).Nodup :=
    fun id => (List.filter_sublist.map _).nodup h
  have hput : ∀ r : Record,
      ((buffer.filter (fun b => decide (b.id ≠ r.id)) ++ [r]).map Record.id).Nodup := by
    intro r
    rw [List.map_append, List.nodup_append]
    refine ⟨hfilter r.id, List.nodup_singleton _, fun id hid id' hid' => ?_⟩
    obtain ⟨b, hb, rfl⟩ := List.mem_map.mp hid
    rw [List.map_singleton, List.mem_singleton] at hid'
    rw [hid']
    exact of_decide_eq_true (List.mem_filter.mp hb).2
  cases op with
  | add id e md doc => exact hput ⟨id, some e, md, doc, seq⟩
  | upsert id e md doc => exact hput ⟨id, some e, md, doc, seq⟩
  | update id md doc => exact h
  | delete id => exact hfilter id

theorem Buffered.applyRecord (hb : Buffered c) {w : WalRecord} (hw : c.flushedSeq < w.seq) :
    Buffered (c.applyRecord w) := by
  have hflushed := congrArg Settled.flushedSeq (c.applyOperation_settled w.op w.seq)
  simp only [settled] at hflushed
  rw [Collection.applyRecord]
  constructor
  · rw [applyOperation_buffer]
    exact nodup_bufferAfter hb.nodup
  · intro b hmem
    rw [applyOperation_buffer] at hmem
    rw [lookup_applyOperation, hflushed]
    rcases mem_bufferAfter hmem with ⟨hold, hupd⟩ | ⟨hseq, hid, hemb, hsome⟩
    · obtain ⟨r, hr, he, hs, hlt⟩ := hb.live b hold
      by_cases hid : b.id = w.op.id
      · rw [if_pos hid, hr]
        cases hop : w.op with
        | update key md doc => exact ⟨_, rfl, he, hs, hw⟩
        | _ =>
            have := hupd hid
            rw [hop] at this
            exact this.elim
      · rw [if_neg hid]
        exact ⟨r, hr, he, hs, hlt⟩
    · rw [if_pos hid, hemb]
      cases hop : w.op with
      | add key e md doc => exact ⟨_, rfl, rfl, rfl, hw⟩
      | upsert key e md doc => exact ⟨_, rfl, rfl, rfl, hw⟩
      | update key md doc =>
          rw [hop] at hsome
          exact absurd hsome (by simp [Operation.vector])
      | delete key =>
          rw [hop] at hsome
          exact absurd hsome (by simp [Operation.vector])

theorem Buffered.replay : ∀ (rs : List WalRecord) {c : Collection}, Buffered c →
    (∀ r ∈ rs, c.flushedSeq < r.seq) → Buffered (rs.foldl Collection.applyRecord c)
  | [], _, hb, _ => hb
  | r :: rs, c, hb, hrs => by
      refine Buffered.replay rs (hb.applyRecord (hrs r List.mem_cons_self)) fun r' hr' => ?_
      have hflushed := congrArg Settled.flushedSeq (c.applyOperation_settled r.op r.seq)
      simp only [settled] at hflushed
      rw [Collection.applyRecord, hflushed]
      exact hrs r' (List.mem_cons_of_mem _ hr')

theorem Buffered.checkpoint (hb : Buffered c) (hc : Collection.checkpoint c = .ok () c') :
    Buffered c' := by
  rcases checkpoint_ok hc with ⟨-, rfl⟩ | ⟨-, files, -, rfl⟩
  · exact hb
  · refine ⟨hb.nodup, fun b hmem => ?_⟩
    obtain ⟨r, hr, he, hs, hlt⟩ := hb.live b hmem
    refine ⟨r, ?_, he, hs, hlt⟩
    show (stripRecords c.flushedSeq c.records).lookup b.id = some r
    rw [lookup_stripRecords, hr, Option.map_some, if_neg (by omega)]

theorem Buffered.restored (hl : Logged h c) (config : CollectionConfig) (order : HashOrder) :
    Buffered (restored config c.disk order) := by
  have hp : c.lastCheckpointSeq ≤ h.length := hl.pruned.trans hl.flushed
  have hresume := hl.resumes config order
  rw [restored_eq, replayAfter_eq, hresume.flushedSeq, hresume.tail,
    filter_numbered (le_refl _) hp]
  refine (Buffered.of_nil hresume.buffer).replay _ fun r hr => ?_
  rw [hresume.flushedSeq]
  exact (seq_of_mem_numbered hr).1

theorem Buffered.step {p : Phase} (hb : Buffered c) (hl : Logged h c)
    (hs : Step p ops c c') : Buffered c' := by
  cases hs with
  | infer dim hzero => exact ⟨hb.nodup, hb.live⟩
  | persist => exact ⟨hb.nodup, hb.live⟩
  | commit hacc hw =>
      obtain ⟨w, -, -, rfl⟩ := writeOps_ok hw
      have hlogged : Buffered { c with wal := w } := ⟨hb.nodup, hb.live⟩
      refine hlogged.replay _ fun r hr => ?_
      have hseq := (seq_of_mem_numbered hr).1
      rw [hl.last] at hseq
      exact hl.flushed.trans_lt hseq
  | flush hf =>
      obtain ⟨x, -, rfl⟩ := flushBuffer_ok hf
      exact Buffered.of_nil rfl
  | checkpoint hc => exact hb.checkpoint hc
  | rebuild hr =>
      obtain ⟨x, -, rfl⟩ := rebuildIndex_ok hr
      exact ⟨hb.nodup, hb.live⟩
  | restart order ho =>
      rcases flushIfNeeded_ok (reopen_ok ho) with rfl | hf
      · exact Buffered.restored hl _ order
      · obtain ⟨x, -, rfl⟩ := flushBuffer_ok hf
        exact Buffered.of_nil rfl

end Buffered

end Collection

open Collection

theorem Reachable.buffered {allowed : Call → Prop} {config : CollectionConfig}
    {h : List Operation} {c : Collection} (hr : Reachable allowed config h c) : Buffered c := by
  have hboth := (hr.steps fun _ _ _ _ => trivial).invariant
    (I := fun h c => Logged h c ∧ Buffered c) ⟨logged_fresh config, Buffered.of_nil rfl⟩
    fun _ _ _ _ hi ⟨_, _, hs⟩ => ⟨hi.1.step hs, hi.2.step hi.1 hs⟩
  exact hboth.2

end Rekha
