import Rekha.Engine.Opening
import Rekha.Lib.LastWrite

/-!
# History and content

The acknowledged operations of a run, in seq order, determine the content of
the collection: `foldContent` is their fold from the empty map. In memory this
holds after every step. On disk it is spread over a snapshot taken at some seq
`s` and a log tail that starts at an older watermark `p ≤ s`, so a restart
applies the operations between `p` and `s` a second time. Per id every
operation overwrites the content, so the second application changes nothing in
the end (`restart_converges`).
-/

namespace Rekha

open Trace LastWrite

/-- The content of a live record: everything but its vector. -/
structure Content where
  metadata : Option Metadata
  document : Option Document
  seq : ℕ

def Record.content (r : Record) : Content := ⟨r.metadata, r.document, r.seq⟩

/-- What one acknowledged operation does to the content of a collection. -/
def Content.step (s : Id → Option Content) (r : WalRecord) : Id → Option Content :=
  match r.op with
  | .add id _ md doc | .upsert id _ md doc => Function.update s id (some ⟨md, doc, r.seq⟩)
  | .update id md doc => Function.update s id ((s id).map fun _ => ⟨md, doc, r.seq⟩)
  | .delete id => Function.update s id none

/-- The acknowledged operations folded in seq order from the empty map. -/
def foldContent (h : List Operation) : Id → Option Content :=
  (Collection.numbered 0 h).foldl Content.step fun _ => none

namespace Collection

def contentOf (records : FinMap Id Record) (id : Id) : Option Content :=
  (records.lookup id).map Record.content

def content (c : Collection) : Id → Option Content := contentOf c.records

/-- What one log record does to the content of an id in memory: an update of an
absent id creates it. -/
def contentWrite (r : WalRecord) (id : Id) : Option (Option Content) :=
  if id = r.op.id then
    match r.op with
    | .add _ _ md doc | .upsert _ _ md doc | .update _ md doc => some (some ⟨md, doc, r.seq⟩)
    | .delete _ => some none
  else none

/-- The content registers after a history. -/
def registers (h : List Operation) : Id → Option Content :=
  (numbered 0 h).foldl (overwrite contentWrite) fun _ => none

theorem content_applyRecord (c : Collection) (r : WalRecord) :
    (c.applyRecord r).content = overwrite contentWrite c.content r := by
  funext id
  simp only [content, contentOf, applyRecord, overwrite, contentWrite, lookup_applyOperation]
  by_cases hid : id = r.op.id
  · rw [if_pos hid, if_pos hid]
    cases hop : r.op with
    | add key e md doc => rfl
    | upsert key e md doc => rfl
    | delete key => rfl
    | update key md doc => cases c.records.lookup id <;> rfl
  · rw [if_neg hid, if_neg hid]
    rfl

theorem content_foldl : ∀ (rs : List WalRecord) (c : Collection),
    (rs.foldl applyRecord c).content = rs.foldl (overwrite contentWrite) c.content
  | [], _ => rfl
  | r :: rs, c => by
      rw [List.foldl_cons, List.foldl_cons, content_foldl rs, content_applyRecord]

/-! ## Registers and the fold of a history -/

theorem step_eq_overwrite {s : Id → Option Content} {r : WalRecord}
    (h : r.op.isUpdate → (s r.op.id).isSome) : Content.step s r = overwrite contentWrite s r := by
  funext id
  simp only [Content.step, overwrite, contentWrite]
  cases hop : r.op with
  | add key e md doc =>
      by_cases hid : id = key
      · subst hid
        simp [Operation.id]
      · simp [Operation.id, hid]
  | upsert key e md doc =>
      by_cases hid : id = key
      · subst hid
        simp [Operation.id]
      · simp [Operation.id, hid]
  | delete key =>
      by_cases hid : id = key
      · subst hid
        simp [Operation.id]
      · simp [Operation.id, hid]
  | update key md doc =>
      rw [hop] at h
      obtain ⟨x, hx⟩ := Option.isSome_iff_exists.mp (h trivial)
      by_cases hid : id = key
      · subst hid
        simp only [Operation.id] at hx
        simp [Operation.id, hx]
      · simp [Operation.id, hid]

theorem foldl_step_of_puts : ∀ {rs : List WalRecord} {s : Id → Option Content},
    (∀ r ∈ rs, ¬ r.op.isUpdate) → rs.foldl Content.step s = rs.foldl (overwrite contentWrite) s
  | [], _, _ => rfl
  | r :: rs, s, h => by
      rw [List.foldl_cons, List.foldl_cons,
        step_eq_overwrite fun hu => absurd hu (h r List.mem_cons_self),
        foldl_step_of_puts fun r' hr' => h r' (List.mem_cons_of_mem _ hr')]

theorem isSome_overwrite_update {s : Id → Option Content} {r : WalRecord} {id : Id}
    (hr : r.op.isUpdate) (h : (s id).isSome) : (overwrite contentWrite s r id).isSome := by
  simp only [overwrite, contentWrite]
  cases hop : r.op with
  | update key md doc =>
      by_cases hid : id = key
      · simp [Operation.id, hid]
      · simpa [Operation.id, hid] using h
  | _ =>
      rw [hop] at hr
      exact hr.elim

theorem foldl_step_of_updates : ∀ {rs : List WalRecord} {s : Id → Option Content},
    (∀ r ∈ rs, r.op.isUpdate ∧ (s r.op.id).isSome) →
      rs.foldl Content.step s = rs.foldl (overwrite contentWrite) s
  | [], _, _ => rfl
  | r :: rs, s, h => by
      have hr := h r List.mem_cons_self
      rw [List.foldl_cons, List.foldl_cons, step_eq_overwrite fun _ => hr.2]
      apply foldl_step_of_updates
      intro r' hr'
      have h' := h r' (List.mem_cons_of_mem _ hr')
      exact ⟨h'.1, isSome_overwrite_update hr.1 h'.2⟩

theorem Accepts.foldl_step {c : Collection} {ops : List Operation} (h : c.Accepts ops) (n : ℕ) :
    (numbered n ops).foldl Content.step c.content =
      (numbered n ops).foldl (overwrite contentWrite) c.content := by
  rcases h.live with hput | hupd
  · exact foldl_step_of_puts fun r hr => hput r.op (op_mem_of_mem_numbered hr)
  · apply foldl_step_of_updates
    intro r hr
    obtain ⟨hu, hlive⟩ := hupd r.op (op_mem_of_mem_numbered hr)
    refine ⟨hu, ?_⟩
    rw [content, contentOf, Option.isSome_map]
    exact hlive

/-! ## The log as a numbered history -/

theorem numbered_split (h : List Operation) (n : ℕ) {k : ℕ} (hk : k ≤ h.length) :
    numbered n h = numbered n (h.take k) ++ numbered (n + k) (h.drop k) := by
  have := numbered_append (h.drop k) (h.take k) n
  rw [List.take_append_drop, List.length_take, Nat.min_eq_left hk] at this
  exact this

theorem filter_numbered {h : List Operation} {p f : ℕ} (hp : p ≤ f) (hf : f ≤ h.length) :
    (numbered p (h.drop p)).filter (fun r => decide (f < r.seq)) =
      numbered f (h.drop f) := by
  have hsplit := numbered_split (h.drop p) p (k := f - p)
    (by rw [List.length_drop]; omega)
  rw [List.drop_drop, Nat.add_sub_cancel' hp] at hsplit
  have hlow : (numbered p ((h.drop p).take (f - p))).filter (fun r => decide (f < r.seq)) =
      [] := by
    apply List.filter_eq_nil_iff.mpr
    intro r hr
    have hseq := (seq_of_mem_numbered hr).2
    rw [List.length_take, List.length_drop] at hseq
    simp only [decide_eq_true_eq]
    omega
  have hhigh : (numbered f (h.drop f)).filter (fun r => decide (f < r.seq)) =
      numbered f (h.drop f) :=
    List.filter_eq_self.mpr fun r hr => decide_eq_true (seq_of_mem_numbered hr).1
  rw [hsplit, List.filter_append, hlow, hhigh, List.nil_append]

theorem getLast?_numbered : ∀ (ops : List Operation) (n : ℕ), ops ≠ [] →
    (numbered n ops).getLast?.map WalRecord.seq = some (n + ops.length)
  | [], _, h => absurd rfl h
  | [op], n, _ => rfl
  | op :: op' :: ops, n, _ => by
      have ih := getLast?_numbered (op' :: ops) (n + 1) (by simp)
      rw [numbered, numbered, List.getLast?_cons_cons, ← numbered, ih, List.length_cons]
      simp only [Option.some.injEq, List.length_cons]
      omega

/-- Opening a log that holds the tail of a history resumes after the history,
provided the start position covers an empty tail. -/
theorem openFile_lastSeq {h : List Operation} {p : ℕ} {f : WalFile} {start : Option ℕ}
    (hp : p ≤ h.length) (hf : f.records = numbered p (h.drop p))
    (hstart : p = h.length → (start.map fun n => n - 1).getD 0 = h.length) :
    (Wal.openFile f start).lastSeq = h.length := by
  simp only [Wal.openFile]
  by_cases hend : p = h.length
  · have hnil : f.records = [] := by
      rw [hf, List.drop_of_length_le (le_of_eq hend.symm)]
      rfl
    have hzero : f.lastSeq = 0 := by
      rw [WalFile.lastSeq, hnil]
      rfl
    rw [if_pos (by rw [hnil]; rfl), hzero]
    exact hstart hend
  · have hne : h.drop p ≠ [] := by
      intro hnil
      have := congrArg List.length hnil
      rw [List.length_drop, List.length_nil] at this
      omega
    have hlast : f.lastSeq = h.length := by
      rw [WalFile.lastSeq, hf, getLast?_numbered _ _ hne, List.length_drop, Option.getD_some]
      omega
    have hfne : f.records.isEmpty = false := by
      rw [hf]
      cases hd : h.drop p with
      | nil => exact absurd hd hne
      | cons op ops => rfl
    rw [hfne, hlast]
    rfl

/-! ## What memory and disk hold of the history -/

/-- The snapshot on disk: none yet, or the content at some seq `s` together with
the watermark the log was pruned to. -/
def Snapshot (h : List Operation) (dir : CheckpointDir) (watermark : ℕ) : Prop :=
  (dir.checkpointJson = none ∧ watermark = 0) ∨
    ∃ m records s, dir.checkpointJson = some m ∧ dir.recordsBin = some records ∧
      records.size = m.recordCount ∧ m.flushedSeq = watermark ∧ m.nextSeq = s + 1 ∧
      watermark ≤ s ∧ s ≤ h.length ∧ contentOf records = registers (h.take s)

/-- **The history invariant.** -/
structure Logged (h : List Operation) (c : Collection) : Prop where
  last : c.wal.lastSeq = h.length
  tail : c.wal.file.records = numbered c.lastCheckpointSeq (h.drop c.lastCheckpointSeq)
  pruned : c.lastCheckpointSeq ≤ c.flushedSeq
  flushed : c.flushedSeq ≤ h.length
  buffered : ∀ r ∈ c.buffer, r.seq ≤ h.length
  content : c.content = registers h
  accepted : foldContent h = registers h
  snapshot : Snapshot h c.dir c.lastCheckpointSeq

section Logged

variable {h ops : List Operation} {c c' : Collection}

theorem logged_fresh (config : CollectionConfig) : Logged [] (Collection.fresh config) where
  last := rfl
  tail := rfl
  pruned := le_refl _
  flushed := le_refl _
  buffered := fun _ hr => absurd hr List.not_mem_nil
  content := rfl
  accepted := rfl
  snapshot := Or.inl ⟨rfl, rfl⟩

theorem Snapshot.append {dir : CheckpointDir} {p : ℕ} (h₀ : Snapshot h dir p) :
    Snapshot (h ++ ops) dir p := by
  rcases h₀ with hnone | ⟨m, records, s, hm, hrec, hsize, hf, hn, hp, hs, hcontent⟩
  · exact Or.inl hnone
  · refine Or.inr ⟨m, records, s, hm, hrec, hsize, hf, hn, hp, ?_, ?_⟩
    · rw [List.length_append]
      omega
    · rw [List.take_append_of_le_length hs]
      exact hcontent

theorem registers_append (h ops : List Operation) : registers (h ++ ops) =
    (numbered h.length ops).foldl (overwrite contentWrite) (registers h) := by
  rw [registers, numbered_append, List.foldl_append, Nat.zero_add]
  rfl

theorem Logged.commit (hl : Logged h c) (hacc : c.Accepts ops)
    (hw : writeOps ops c = .ok () c') : Logged (h ++ ops) c' := by
  obtain ⟨w, hrecs, hlast, rfl⟩ := writeOps_ok hw
  have hset := foldl_applyRecord_settled (numbered c.wal.lastSeq ops) { c with wal := w }
  have hcontent := content_foldl (numbered c.wal.lastSeq ops) { c with wal := w }
  have hbuf : ∀ r ∈ ((numbered c.wal.lastSeq ops).foldl applyRecord { c with wal := w }).buffer,
      r.seq ≤ (h ++ ops).length := by
    intro r hr
    rw [List.length_append]
    rcases mem_buffer_foldl hr with hr | ⟨w', hw', hseq, -⟩
    · exact (hl.buffered r hr).trans (Nat.le_add_right _ _)
    · have := (seq_of_mem_numbered hw').2
      rw [hl.last] at this
      omega
  generalize (numbered c.wal.lastSeq ops).foldl applyRecord { c with wal := w } = c' at *
  simp only [settled, Settled.mk.injEq] at hset
  obtain ⟨-, hwal, hdir, -, hflushed, hcheck, -⟩ := hset
  have hle : c.lastCheckpointSeq ≤ h.length := hl.pruned.trans hl.flushed
  refine ⟨?_, ?_, ?_, ?_, hbuf, ?_, ?_, ?_⟩
  · rw [hwal, hlast, hl.last, List.length_append]
  · rw [hwal, hrecs, hl.tail, hcheck, hl.last, List.drop_append_of_le_length hle,
      numbered_append, List.length_drop, Nat.add_sub_cancel' hle]
  · rw [hcheck, hflushed]
    exact hl.pruned
  · rw [hflushed, List.length_append]
    exact hl.flushed.trans (Nat.le_add_right _ _)
  · rw [hcontent, registers_append, ← hl.last, ← hl.content]
    rfl
  · have hfold : foldContent (h ++ ops) =
        (numbered h.length ops).foldl Content.step (foldContent h) := by
      rw [foldContent, numbered_append, List.foldl_append, Nat.zero_add]
      rfl
    rw [hfold, hl.accepted, ← hl.content, hacc.foldl_step, hl.content, registers_append]
  · rw [hdir, hcheck]
    exact hl.snapshot.append

theorem maxSeq_le {n : ℕ} : ∀ {batch : List Record} {m : ℕ}, m ≤ n →
    (∀ r ∈ batch, r.seq ≤ n) → maxSeq m batch ≤ n
  | [], _, hm, _ => hm
  | r :: batch, m, hm, h => by
      rw [maxSeq]
      refine maxSeq_le ?_ fun r' hr' => h r' (List.mem_cons_of_mem _ hr')
      split
      · exact max_le hm (h r List.mem_cons_self)
      · exact hm

theorem Logged.flush (hl : Logged h c) (hf : flushBuffer c = .ok () c') : Logged h c' := by
  obtain ⟨x, -, rfl⟩ := flushBuffer_ok hf
  exact ⟨hl.last, hl.tail, hl.pruned.trans (le_max_left _ _),
    max_le hl.flushed (maxSeq_le (Nat.zero_le _) hl.buffered),
    fun r hr => absurd hr List.not_mem_nil, hl.content, hl.accepted, hl.snapshot⟩

theorem Logged.flushIfNeeded (hl : Logged h c)
    (hf : Collection.flushIfNeeded c = .ok () c') : Logged h c' := by
  rcases flushIfNeeded_ok hf with rfl | hf
  · exact hl
  · exact hl.flush hf

theorem contentOf_stripRecords (f : ℕ) (records : FinMap Id Record) :
    contentOf (stripRecords f records) = contentOf records := by
  funext id
  rw [contentOf, contentOf, stripRecords, FinMap.lookup_mapVals, Option.map_map]
  congr 1
  funext r
  simp only [Function.comp_apply]
  split <;> rfl

/-- A checkpoint takes the snapshot at the end of the history and prunes the log
to the flushed watermark. -/
theorem Logged.checkpoint (hl : Logged h c) (hc : Collection.checkpoint c = .ok () c') :
    Logged h c' := by
  rcases checkpoint_ok hc with ⟨-, rfl⟩ | ⟨-, files, -, rfl⟩
  · exact hl
  · have htail : (c.wal.file.keepAbove c.flushedSeq).records =
        numbered c.flushedSeq (h.drop c.flushedSeq) := by
      show c.wal.file.records.filter _ = _
      rw [hl.tail]
      exact filter_numbered hl.pruned hl.flushed
    refine ⟨?_, htail, le_refl _, hl.flushed, hl.buffered, ?_, hl.accepted, Or.inr ?_⟩
    · refine openFile_lastSeq hl.flushed htail fun _ => ?_
      exact hl.last
    · exact (contentOf_stripRecords _ _).trans hl.content
    · refine ⟨c.checkpointMeta, c.records, h.length, rfl, rfl, rfl, rfl, ?_, hl.flushed,
        le_refl _, ?_⟩
      · show c.wal.lastSeq + 1 = _
        rw [hl.last]
      · rw [List.take_length]
        exact hl.content

/-! ## Restarting -/

/-- **The tail is applied twice and it does not matter**: replaying everything
after `p` onto the registers at `s ≥ p` gives the registers of the whole history. -/
theorem registers_replay {p s : ℕ} (hp : p ≤ s) (hs : s ≤ h.length) :
    (numbered p (h.drop p)).foldl (overwrite contentWrite) (registers (h.take s)) =
      registers h := by
  have htake : numbered 0 (h.take s) =
      numbered 0 (h.take p) ++ numbered p ((h.take s).drop p) := by
    have := numbered_split (h.take s) 0 (k := p) (by rw [List.length_take]; omega)
    rwa [List.take_take, Nat.min_eq_left hp, Nat.zero_add] at this
  have hdrop : numbered p (h.drop p) =
      numbered p ((h.take s).drop p) ++ numbered s (h.drop s) := by
    have := numbered_split (h.drop p) p (k := s - p) (by rw [List.length_drop]; omega)
    rwa [List.drop_drop, Nat.add_sub_cancel' hp, ← List.drop_take] at this
  have hall : numbered 0 h = numbered 0 (h.take s) ++ numbered s (h.drop s) := by
    have := numbered_split h 0 hs
    rwa [Nat.zero_add] at this
  rw [registers, registers, hdrop, htake, foldl_overwrite_replay, ← htake, ← hall]

/-- What an opening replays onto: the content at some seq `s` past the watermark. -/
structure Resumes (h : List Operation) (p : ℕ) (c : Collection) : Prop where
  flushedSeq : c.flushedSeq = p
  lastCheckpointSeq : c.lastCheckpointSeq = p
  buffer : c.buffer = []
  last : c.wal.lastSeq = h.length
  tail : c.wal.file.records = numbered p (h.drop p)
  content : ∃ s, p ≤ s ∧ s ≤ h.length ∧ c.content = registers (h.take s)
  snapshot : Snapshot h c.dir p

theorem Logged.resumes (hl : Logged h c) (config : CollectionConfig) (order : HashOrder) :
    Resumes h c.lastCheckpointSeq (based config c.disk order) := by
  have hp : c.lastCheckpointSeq ≤ h.length := hl.pruned.trans hl.flushed
  rcases hl.snapshot with ⟨hnone, hzero⟩ |
    ⟨m, records, s, hm, hrec, hsize, hf, hn, hps, hs, hcontent⟩
  · have hsnap : snapshotFiles c.disk.dir = none := by
      rw [snapshotFiles, show c.disk.dir.checkpointJson = none from hnone]
    rw [based_none hsnap, hzero]
    have htail := hl.tail
    rw [hzero] at htail
    refine ⟨rfl, rfl, rfl, ?_, htail, ⟨0, le_refl _, Nat.zero_le _, rfl⟩, Or.inl ⟨hnone, rfl⟩⟩
    exact openFile_lastSeq (Nat.zero_le _) htail fun hend => hend
  · have hsnap := snapshotFiles_eq_some.mpr ⟨hm, hrec, hsize⟩
    have hb := @based_some config c.disk order _ _ hsnap
    refine ⟨hb.flushedSeq.trans hf, hb.lastCheckpointSeq.trans hf, hb.buffer, ?_, ?_, ?_, ?_⟩
    · rw [hb.wal]
      refine openFile_lastSeq hp hl.tail fun hend => ?_
      rw [hn, Option.map_some, Option.getD_some]
      omega
    · rw [hb.wal]
      exact hl.tail
    · refine ⟨s, hps, hs, ?_⟩
      rw [Collection.content, hb.records]
      split
      · exact hcontent
      · rw [contentOf_stripRecords]
        exact hcontent
    · rw [hb.dir]
      exact hl.snapshot

/-- **After the replay** of an opening the collection holds the history again. -/
theorem Logged.restored (hl : Logged h c) (config : CollectionConfig) (order : HashOrder) :
    Logged h (restored config c.disk order) := by
  have hb := hl.resumes config order
  have hp : c.lastCheckpointSeq ≤ h.length := hl.pruned.trans hl.flushed
  rw [restored_eq, replayAfter_eq, hb.flushedSeq, hb.tail,
    filter_numbered (le_refl _) hp]
  generalize based config c.disk order = b at *
  have hset := foldl_applyRecord_settled
    (numbered c.lastCheckpointSeq (h.drop c.lastCheckpointSeq)) b
  have hcontent := content_foldl (numbered c.lastCheckpointSeq (h.drop c.lastCheckpointSeq)) b
  have hbuf : ∀ r ∈ ((numbered c.lastCheckpointSeq (h.drop c.lastCheckpointSeq)).foldl
      applyRecord b).buffer, r.seq ≤ h.length := by
    intro r hr
    rcases mem_buffer_foldl hr with hr | ⟨w, hw, hseq, -⟩
    · rw [hb.buffer] at hr
      exact absurd hr List.not_mem_nil
    · have := (seq_of_mem_numbered hw).2
      rw [List.length_drop] at this
      omega
  generalize (numbered c.lastCheckpointSeq (h.drop c.lastCheckpointSeq)).foldl applyRecord b =
    c' at *
  simp only [settled, Settled.mk.injEq] at hset
  obtain ⟨-, hwal, hdir, -, hflushed, hcheck, -⟩ := hset
  obtain ⟨s, hps, hs, hsnap⟩ := hb.content
  refine ⟨?_, ?_, ?_, ?_, hbuf, ?_, hl.accepted, ?_⟩
  · rw [hwal, hb.last]
  · rw [hwal, hcheck, hb.lastCheckpointSeq, hb.tail]
  · rw [hcheck, hflushed, hb.lastCheckpointSeq, hb.flushedSeq]
  · rw [hflushed, hb.flushedSeq]
    exact hp
  · rw [hcontent, hsnap, registers_replay hps hs]
  · rw [hdir, hcheck, hb.lastCheckpointSeq]
    exact hb.snapshot

theorem Logged.step {p : Phase} (hl : Logged h c) (hs : Step p ops c c') :
    Logged (h ++ ops) c' := by
  cases hs with
  | infer dim hzero =>
      rw [List.append_nil]
      exact ⟨hl.last, hl.tail, hl.pruned, hl.flushed, hl.buffered, hl.content, hl.accepted,
        hl.snapshot⟩
  | persist =>
      rw [List.append_nil]
      exact ⟨hl.last, hl.tail, hl.pruned, hl.flushed, hl.buffered, hl.content, hl.accepted,
        hl.snapshot⟩
  | commit hacc hw => exact hl.commit hacc hw
  | flush hf =>
      rw [List.append_nil]
      exact hl.flush hf
  | checkpoint hc =>
      rw [List.append_nil]
      exact hl.checkpoint hc
  | rebuild hr =>
      rw [List.append_nil]
      obtain ⟨x, -, rfl⟩ := rebuildIndex_ok hr
      exact ⟨hl.last, hl.tail, hl.pruned, hl.flushed, hl.buffered, hl.content, hl.accepted,
        hl.snapshot⟩
  | restart order ho =>
      rw [List.append_nil]
      exact (hl.restored _ order).flushIfNeeded (reopen_ok ho)

end Logged

end Collection

open Collection

section Reachable

variable {allowed : Call → Prop} {config : CollectionConfig} {h : List Operation}
  {c : Collection}

theorem Reachable.logged (hr : Reachable allowed config h c) : Logged h c :=
  (hr.steps fun _ _ _ _ => trivial).invariant (logged_fresh config)
    fun _ _ _ _ hl ⟨_, _, hs⟩ => hl.step hs

theorem Reachable.fits (hr : Reachable allowed config h c) (hd : config.dimension ≠ 0) :
    Fits config.dimension c :=
  (hr.steps fun _ _ _ _ => trivial).invariant (I := fun _ c => Fits config.dimension c)
    (fits_fresh config) fun _ _ _ _ hf ⟨_, _, hs⟩ => hf.step hd hs

end Reachable

/-- **Restart convergence.** After any run of accepted calls on a collection of
fixed dimension a restart succeeds, and the live ids and their contents are the
fold of the acknowledged operations, which is what they were before. -/
theorem restart_converges {config : CollectionConfig} {h : List Operation} {c : Collection}
    (hd : config.dimension ≠ 0) (hr : Reachable (fun _ => True) config h c)
    (order : HashOrder) :
    ∃ c', (Call.restart order).run c = .ok c' ∧ c'.content = foldContent h ∧
      c.content = foldContent h := by
  obtain ⟨c', hopen⟩ := (hr.fits hd).open_succeeds order
  have hl := hr.logged
  have hl' := (hl.restored _ order).flushIfNeeded (reopen_ok hopen)
  exact ⟨c', hopen, hl'.content.trans hl.accepted.symm, hl.content.trans hl.accepted.symm⟩

/-- A delete above the watermark, checkpointed while it is still in the tail. -/
theorem restart_converges_demo : ∃ c c', runAll [.add true ["a", "b"] [zero, one] none none,
      .flush, .delete ["a"], .checkpoint] (Collection.fresh demoConfig) = .ok c ∧
    (Call.restart ⟨fun m => m.entries, fun _ => List.Perm.refl _⟩).run c = .ok c' ∧
    c'.content = foldContent [.add "a" zero none none, .add "b" one none none,
      .delete "a"] := by
  obtain ⟨c, hrun, -⟩ : ∃ c, runAll [.add true ["a", "b"] [zero, one] none none, .flush,
      .delete ["a"], .checkpoint] (Collection.fresh demoConfig) = .ok c ∧ true = true :=
    exists_runAll (by decide +kernel)
  have hr : Reachable (fun _ => True) demoConfig _ c :=
    Reachable.fresh.runAll (fun _ _ => trivial) hrun
  obtain ⟨c', hopen, hcontent, -⟩ := restart_converges (by decide) hr
    ⟨fun m => m.entries, fun _ => List.Perm.refl _⟩
  exact ⟨c, c', hrun, hopen, hcontent⟩

end Rekha
