import Rekha.Engine.DerivedIndex
import Rekha.Wal.TornBatch

/-!
# A collection over the bytes of its log

The collection is modelled over a log of records; the process writes bytes. Here
both stand next to each other: every phase makes its calls on the byte file too,
and along every run the file represents the record-level log, call by call with
the same answers. A batch torn inside one of its records then leaves a file from
which the collection reopens with a prefix of the batch.
-/

namespace Rekha

open Collection Trace Outcome

/-! ## The log calls of a phase -/

/-- The read of a replay above `flushedSeq`. -/
def replayCalls (flushedSeq : ℕ) (w : Wal) : List Framed.LogCall :=
  if flushedSeq < w.lastSeq then [.readRange (flushedSeq + 1) w.lastSeq] else []

/-- An opening reads the log as it is, and a snapshot has it opened once more. -/
def openCalls (epoch : ℕ) (d : Disk) : List Framed.LogCall :=
  .reopen epoch none ::
    match snapshotFiles d.dir with
    | none => replayCalls 0 (Wal.openFile d.wal none)
    | some (m, _) =>
        .reopen epoch (some m.nextSeq) ::
          replayCalls m.flushedSeq (Wal.openFile d.wal (some m.nextSeq))

def logCalls (epoch : ℕ) (c : Collection) (ops : List Operation) : Phase → List Framed.LogCall
  | .commit => ops.map .append
  | .checkpoint =>
      if c.records.size = 0 then []
      else [.prune c.flushedSeq, .reopen epoch (some c.checkpointMeta.nextSeq)]
  | .restart => openCalls epoch c.disk
  | .infer | .persist | .flush | .rebuild => []

/-! What the record-level log answers to these calls, with the records that a commit
applies and those that an opening replays. -/

def replayReplies (flushedSeq : ℕ) (w : Wal) : List Framed.Reply :=
  if flushedSeq < w.lastSeq then [.records (w.readRange (flushedSeq + 1) w.lastSeq)] else []

def openReplies (d : Disk) : List Framed.Reply :=
  .done ::
    match snapshotFiles d.dir with
    | none => replayReplies 0 (Wal.openFile d.wal none)
    | some (m, _) => .done :: replayReplies m.flushedSeq (Wal.openFile d.wal (some m.nextSeq))

def logReplies (c : Collection) (ops : List Operation) : Phase → List Framed.Reply
  | .commit => (numbered c.wal.lastSeq ops).map .appended
  | .checkpoint => if c.records.size = 0 then [] else [.done, .done]
  | .restart => openReplies c.disk
  | .infer | .persist | .flush | .rebuild => []

/-- A collection next to the bytes of its log. -/
structure Backed where
  engine : Collection
  log : Framed.Wal

/-- A phase of the collection, its log calls carried out on the bytes. -/
def BackedStep (checks : Bool) (epoch : ℕ) (ops : List Operation) (s s' : Backed) : Prop :=
  ∃ p, Step p ops s.engine s'.engine ∧
    s'.log = (s.log.run Framed.codec checks (logCalls epoch s.engine ops p)).2

/-- The bytes that the records of a batch take. -/
def batchLen : List Operation → ℕ
  | [] => 0
  | op :: ops => op.recordLen + batchLen ops

/-! ## The abstract log under these calls -/

namespace Framed

namespace AbstractLog

variable {size : Operation → ℕ}

theorem run_appends : ∀ {ops : List Operation} {a : AbstractLog},
    (∀ op ∈ ops, size op ≤ 2 ^ 32 - 1) →
      a.run size (ops.map .append) =
        ((Collection.numbered a.position ops).map .appended,
          ⟨a.entries ++ Collection.numbered a.position ops, a.position + ops.length⟩)
  | [], a, _ => by
      rw [Collection.numbered, List.append_nil]
      rfl
  | op :: ops, a, hfit => by
      obtain ⟨hop, hops⟩ := List.forall_mem_cons.mp hfit
      have hstep : a.step size (.append op) = (.appended ⟨a.position + 1, op⟩,
          ⟨a.entries ++ [⟨a.position + 1, op⟩], a.position + 1⟩) := by
        simp only [step]
        rw [if_neg (Nat.not_lt.mpr hop)]
      rw [List.map_cons, run, hstep]
      dsimp only
      rw [run_appends hops, Collection.numbered, List.append_assoc, List.length_cons,
        Nat.add_assoc, Nat.add_comm 1]
      rfl

theorem bounded_appends : ∀ {ops : List Operation} {a : AbstractLog},
    (∀ op ∈ ops, size op ≤ 2 ^ 32 - 1) → a.position + ops.length < 2 ^ 64 →
      a.Bounded size (ops.map .append)
  | [], _, _, _ => trivial
  | op :: ops, a, hfit, hlt => by
      obtain ⟨hop, hops⟩ := List.forall_mem_cons.mp hfit
      rw [List.length_cons] at hlt
      refine ⟨fun _ _ => by omega, bounded_appends hops ?_⟩
      simp only [step]
      rw [if_neg (Nat.not_lt.mpr hop)]
      dsimp only
      omega

theorem bounded_of_no_append : ∀ {calls : List LogCall} {a : AbstractLog},
    (∀ op, LogCall.append op ∉ calls) → a.Bounded size calls
  | [], _, _ => trivial
  | c :: calls, a, h => by
      refine ⟨fun op hc => ?_, bounded_of_no_append fun op hmem => ?_⟩
      · exact absurd (hc ▸ List.mem_cons_self) (h op)
      · exact h op (List.mem_cons_of_mem c hmem)

end AbstractLog

end Framed

section Calls

variable {epoch : ℕ} {c c' : Collection} {ops : List Operation}

open Framed (codec AbstractLog)

theorem run_replayCalls (flushedSeq : ℕ) (w : Wal) :
    (AbstractLog.ofWal w).run codec.recordLen (replayCalls flushedSeq w) =
      (replayReplies flushedSeq w, AbstractLog.ofWal w) := by
  rw [replayCalls, replayReplies]
  split <;> rfl

theorem append_not_mem_replayCalls (flushedSeq : ℕ) (w : Wal) (op : Operation) :
    Framed.LogCall.append op ∉ replayCalls flushedSeq w := by
  rw [replayCalls]
  split <;> simp

theorem append_not_mem_openCalls (d : Disk) (op : Operation) :
    Framed.LogCall.append op ∉ openCalls epoch d := by
  rw [openCalls, List.mem_cons, not_or]
  refine ⟨by simp, ?_⟩
  split
  · exact append_not_mem_replayCalls _ _ _
  · rw [List.mem_cons, not_or]
    exact ⟨by simp, append_not_mem_replayCalls _ _ _⟩

theorem run_openCalls (epoch : ℕ) (config : CollectionConfig) (order : HashOrder) :
    (AbstractLog.ofWal c.wal).run codec.recordLen (openCalls epoch c.disk) =
      (openReplies c.disk, AbstractLog.ofWal (based config c.disk order).wal) := by
  have hopen : ∀ start, (AbstractLog.ofWal c.wal).step codec.recordLen (.reopen epoch start) =
      (.done, AbstractLog.ofWal (Wal.openFile c.disk.wal start)) :=
    Framed.ofWal_openFile c.wal epoch
  rw [openCalls, openReplies, AbstractLog.run, hopen]
  dsimp only
  cases hsnap : snapshotFiles c.disk.dir with
  | none =>
      dsimp only
      rw [run_replayCalls, based_none hsnap]
      rfl
  | some files =>
      obtain ⟨m, records⟩ := files
      have hagain : (AbstractLog.ofWal (Wal.openFile c.disk.wal none)).step codec.recordLen
          (.reopen epoch (some m.nextSeq)) =
          (.done, AbstractLog.ofWal (Wal.openFile c.disk.wal (some m.nextSeq))) :=
        Framed.ofWal_openFile _ epoch _
      dsimp only
      rw [AbstractLog.run, hagain]
      dsimp only
      rw [run_replayCalls, (based_some hsnap).wal]

theorem settled_wal {c c' : Collection} (h : c.settled = c'.settled) : c.wal = c'.wal :=
  congrArg Settled.wal h

theorem wal_flushIfNeeded (h : flushIfNeeded c = .ok () c') : c'.wal = c.wal := by
  rcases flushIfNeeded_ok h with rfl | h
  · rfl
  · obtain ⟨x, -, rfl⟩ := flushBuffer_ok h
    rfl

theorem wal_reopened {order : HashOrder} (h : reopen c.config c.disk order = .ok c') :
    c'.wal = (based { c.config with dimension := c.disk.catalog.dimension } c.disk order).wal := by
  rw [wal_flushIfNeeded (reopen_ok h), restored_eq, replayAfter_eq]
  exact settled_wal (foldl_applyRecord_settled _ _)

theorem ofWal_committed (hw : writeOps ops c = .ok () c') :
    AbstractLog.ofWal c'.wal =
      ⟨c.wal.file.records ++ numbered c.wal.lastSeq ops, c.wal.lastSeq + ops.length⟩ := by
  obtain ⟨w, hrecs, hlast, rfl⟩ := writeOps_ok hw
  rw [settled_wal (foldl_applyRecord_settled (numbered c.wal.lastSeq ops) _), AbstractLog.ofWal,
    hrecs, hlast]

theorem fits_of_writeOps (hw : writeOps ops c = .ok () c') :
    ∀ op ∈ ops, codec.recordLen op ≤ 2 ^ 32 - 1 := by
  intro op hop
  rw [Framed.recordLen_codec]
  exact recordLen_of_writeOps hw op hop

/-- **A phase is its log calls**: on the abstract log they lead from the log
before the phase to the log after it, and make no append at the last `u64`. -/
theorem Step.run_logCalls {p : Phase} (hs : Step p ops c c') (epoch : ℕ)
    (hlt : c.wal.lastSeq + ops.length < 2 ^ 64) :
    (AbstractLog.ofWal c.wal).Bounded codec.recordLen (logCalls epoch c ops p) ∧
      (AbstractLog.ofWal c.wal).run codec.recordLen (logCalls epoch c ops p) =
        (logReplies c ops p, AbstractLog.ofWal c'.wal) := by
  cases hs with
  | infer dim hzero => exact ⟨trivial, rfl⟩
  | persist => exact ⟨trivial, rfl⟩
  | commit hacc hw =>
      have hfit := fits_of_writeOps hw
      refine ⟨AbstractLog.bounded_appends hfit hlt, ?_⟩
      show (AbstractLog.ofWal c.wal).run codec.recordLen (ops.map .append) = _
      rw [AbstractLog.run_appends hfit, ofWal_committed hw]
      rfl
  | flush hf =>
      obtain ⟨x, -, rfl⟩ := flushBuffer_ok hf
      exact ⟨trivial, rfl⟩
  | checkpoint hc =>
      rcases checkpoint_ok hc with ⟨hsize, rfl⟩ | ⟨hsize, files, -, rfl⟩
      · rw [logCalls, logReplies, if_pos hsize, if_pos hsize]
        exact ⟨trivial, rfl⟩
      · rw [logCalls, logReplies, if_neg hsize, if_neg hsize]
        refine ⟨AbstractLog.bounded_of_no_append (by simp), ?_⟩
        rw [AbstractLog.run, Framed.ofWal_prune]
        dsimp only
        rw [AbstractLog.run, Framed.ofWal_openFile]
        rfl
  | rebuild hr =>
      obtain ⟨x, -, rfl⟩ := rebuildIndex_ok hr
      exact ⟨trivial, rfl⟩
  | restart order ho =>
      refine ⟨AbstractLog.bounded_of_no_append (append_not_mem_openCalls c.disk), ?_⟩
      show (AbstractLog.ofWal c.wal).run codec.recordLen (openCalls epoch c.disk) = _
      rw [run_openCalls epoch { c.config with dimension := c.disk.catalog.dimension } order,
        wal_reopened ho]
      rfl

end Calls

/-! ## The file along a run -/

section Runs

variable {checks : Bool} {epoch : UInt64} {config : CollectionConfig} {c c' : Collection}
  {w w₀ : Framed.Wal} {h ops : List Operation} {s s' : Backed}

open Framed (codec codec_roundTrips AbstractLog)

/-- What holds of a collection and its bytes as long as the history is shorter
than the seqs. -/
def FileBacked (epoch : UInt64) (h : List Operation) (s : Backed) : Prop :=
  h.length < 2 ^ 64 → Logged h s.engine ∧
    s.log.Represents codec epoch.toNat (AbstractLog.ofWal s.engine.wal)

theorem fileBacked_fresh (config : CollectionConfig)
    (hopen : Framed.Wal.openFile codec [] epoch.toNat none = .ok w₀) :
    FileBacked epoch [] ⟨fresh config, w₀⟩ := by
  intro _
  rw [Framed.Wal.openFile_nil] at hopen
  obtain rfl := Except.ok.inj hopen
  have hfresh := @Framed.Wal.holds_opened codec [] epoch.toNat [] none .nil
  rw [List.append_nil] at hfresh
  exact ⟨logged_fresh config, hfresh.represents rfl⟩

theorem FileBacked.step (hb : FileBacked epoch h s) (hs : BackedStep checks epoch.toNat ops s s') :
    FileBacked epoch (h ++ ops) s' := by
  intro hlt
  rw [List.length_append] at hlt
  obtain ⟨hl, hrep⟩ := hb (by omega)
  obtain ⟨p, hp, hlog⟩ := hs
  obtain ⟨hbound, hrun⟩ := hp.run_logCalls epoch.toNat (by rw [hl.last]; exact hlt)
  have hafter := (hrep.run checks codec_roundTrips _ hbound).2
  rw [hrun] at hafter
  refine ⟨hl.step hp, ?_⟩
  rw [hlog]
  exact hafter

theorem fileBacked_run (hopen : Framed.Wal.openFile codec [] epoch.toNat none = .ok w₀)
    (hrun : Run (BackedStep checks epoch.toNat) ⟨fresh config, w₀⟩ h s) : FileBacked epoch h s :=
  hrun.invariant (fileBacked_fresh config hopen) fun _ _ _ _ hb hs => hb.step hs

theorem exists_backed_run {ok : Phase → Prop} (checks : Bool) (epoch : ℕ) (w₀ : Framed.Wal)
    (hrun : Run (StepIn ok) c h c') :
    ∃ w, Run (BackedStep checks epoch) ⟨c, w₀⟩ h ⟨c', w⟩ := by
  induction hrun with
  | refl => exact ⟨w₀, Run.refl⟩
  | tail _ hs ih =>
      obtain ⟨w, hw⟩ := ih
      obtain ⟨p, -, hp⟩ := hs
      exact ⟨_, hw.tail ⟨p, hp, rfl⟩⟩

/-- **A collection runs on the bytes of its log.** Below the last `u64`, the file
that the log calls of a run produce represents the record-level log of the state
reached, and every further phase gets from the bytes the answers that the
record-level log gives: the records it applies and the records it replays. -/
theorem log_file_backs_collection (checks : Bool) (epoch : UInt64)
    (hr : Reachable (fun _ => True) config h c) (hlt : h.length < 2 ^ 64) :
    ∃ w₀, Framed.Wal.openFile codec [] epoch.toNat none = .ok w₀ ∧
      (∃ w, Run (BackedStep checks epoch.toNat) ⟨fresh config, w₀⟩ h ⟨c, w⟩) ∧
      ∀ w, Run (BackedStep checks epoch.toNat) ⟨fresh config, w₀⟩ h ⟨c, w⟩ →
        w.Represents codec epoch.toNat (AbstractLog.ofWal c.wal) ∧
        ∀ p ops c', Step p ops c c' → h.length + ops.length < 2 ^ 64 →
          (w.run codec checks (logCalls epoch.toNat c ops p)).1 = logReplies c ops p := by
  have hopen := Framed.Wal.openFile_nil codec epoch.toNat none
  refine ⟨_, hopen, ?_, fun w hrun => ?_⟩
  · exact exists_backed_run checks epoch.toNat _ (hr.steps fun _ _ _ _ => trivial)
  · obtain ⟨hl, hrep⟩ := fileBacked_run hopen hrun hlt
    refine ⟨hrep, fun p ops c' hs hlt' => ?_⟩
    obtain ⟨hbound, hcalls⟩ := hs.run_logCalls epoch.toNat (by rw [hl.last]; exact hlt')
    have hreplies := (hrep.run checks codec_roundTrips _ hbound).1
    rw [hcalls] at hreplies
    exact hreplies

/-- A checkpoint and a restart while a delete is still in the tail. -/
theorem log_file_backs_collection_demo : ∃ c, runAll [.add true ["a", "b"] [zero, one] none none,
      .flush, .delete ["a"], .checkpoint, .restart ⟨fun m => m.entries, fun _ => List.Perm.refl _⟩]
      (fresh demoConfig) = .ok c ∧
    ∃ w₀, Framed.Wal.openFile codec [] 1 none = .ok w₀ ∧
      ∃ w, Run (BackedStep true 1) ⟨fresh demoConfig, w₀⟩ [.add "a" zero none none,
        .add "b" one none none, .delete "a"] ⟨c, w⟩ ∧
        w.Represents codec 1 (AbstractLog.ofWal c.wal) := by
  obtain ⟨c, hrun, -⟩ : ∃ c, runAll [.add true ["a", "b"] [zero, one] none none, .flush,
      .delete ["a"], .checkpoint, .restart ⟨fun m => m.entries, fun _ => List.Perm.refl _⟩]
      (fresh demoConfig) = .ok c ∧ true = true := exists_runAll (by decide +kernel)
  have hr : Reachable (fun _ => True) demoConfig _ c :=
    Reachable.fresh.runAll (fun _ _ => trivial) hrun
  obtain ⟨w₀, hopen, ⟨w, hw⟩, hall⟩ := log_file_backs_collection true 1 hr (by decide)
  exact ⟨c, hrun, w₀, hopen, w, hw, (hall w hw).1⟩

/-! ## A torn batch -/

theorem map_entryOf_stamped (epoch : ℕ) : ∀ (n : ℕ) (ops : List Operation),
    (Framed.stamped epoch n ops).map Framed.entryOf = numbered n ops
  | _, [] => rfl
  | n, op :: ops => by
      rw [Framed.stamped, List.map_cons, map_entryOf_stamped epoch, numbered]
      rfl

theorem length_batch (epoch n : ℕ) (ops : List Operation) :
    (Framed.encodeRecords codec (Framed.stamped epoch n ops)).length = batchLen ops :=
  Framed.length_encodeRecords_stamped rfl fun op _ => by rw [Framed.recordLen_codec]; rfl

theorem appendOps_succeeds : ∀ {ops : List Operation} {c : Collection},
    (∀ op ∈ ops, op.recordLen ≤ 2 ^ 32 - 1) → ∃ rs c', appendOps ops c = .ok rs c'
  | [], c, _ => ⟨[], c, rfl⟩
  | op :: ops, c, h => by
      obtain ⟨hop, hops⟩ := List.forall_mem_cons.mp h
      obtain ⟨w, r, hw⟩ : ∃ w r, c.wal.append op = .ok (w, r) := by
        rw [Wal.append, if_neg (Nat.not_lt.mpr hop)]
        exact ⟨_, _, rfl⟩
      obtain ⟨rs, c', hrest⟩ := appendOps_succeeds (c := { c with wal := w }) hops
      refine ⟨r :: rs, c', ?_⟩
      unfold appendOps
      refine bind_ok.mpr ⟨c, c, rfl, ?_⟩
      rw [hw]
      exact bind_ok.mpr ⟨(), _, modify_ok.mpr rfl, bind_ok.mpr ⟨rs, c', hrest, rfl⟩⟩

theorem writeOps_take (hw : writeOps ops c = .ok () c') (j : ℕ) :
    ∃ c₁, writeOps (ops.take j) c = .ok () c₁ := by
  obtain ⟨rs, c₁, happ⟩ := appendOps_succeeds (c := c) fun op hop =>
    recordLen_of_writeOps hw op (List.mem_of_mem_take hop)
  exact ⟨_, bind_ok.mpr ⟨rs, c₁, happ, modify_ok.mpr rfl⟩⟩

theorem fits_backed_run (hd : config.dimension ≠ 0)
    (hrun : Run (BackedStep checks epoch.toNat) ⟨fresh config, w₀⟩ h s) :
    Fits config.dimension s.engine :=
  hrun.invariant (I := fun _ s => Fits config.dimension s.engine) (fits_fresh config)
    fun _ _ _ _ hf ⟨_, hs, _⟩ => hf.step hd hs

/-- What a recovery leaves represents the record-level log opened from the same
records. -/
theorem represents_recovered {file : List UInt8} {rs : List Framed.WalRecord} {f : WalFile}
    (hrec : Framed.Recovers codec epoch file none rs w) (hw : w.Holds codec epoch.toNat rs)
    (hf : f.records = rs.map Framed.entryOf) :
    w.Represents codec epoch.toNat (AbstractLog.ofWal (Wal.openFile f none)) := by
  have hopened : AbstractLog.ofWal (Wal.openFile f none) = ⟨rs.map Framed.entryOf, w.lastSeq⟩ := by
    have hstep := congrArg Prod.snd (Framed.ofWal_openFile (Wal.openFile f none) 0 none)
    refine hstep.symm.trans ?_
    simp only [AbstractLog.step, AbstractLog.ofWal]
    rw [show (Wal.openFile f none).file = f from rfl, hf, Framed.lastOr_map, hrec.lastSeq]
    rfl
  rw [hopened]
  apply hw.represents
  rw [hrec.lastSeq, Framed.resumeAt]
  cases rs.getLast? <;> rfl

/-- **A batch torn inside a record.** Cut the log file of a running collection
anywhere behind the bytes that were there before a batch: the log opens with the
earlier records and exactly those of the batch that end at or before the cut, and
the collection reopens from them to the content of the history with that prefix
of the batch. -/
theorem torn_batch_recovers (checks : Bool) (epoch : UInt64) (hd : config.dimension ≠ 0)
    (hopen : Framed.Wal.openFile codec [] epoch.toNat none = .ok w₀)
    (hrun : Run (BackedStep checks epoch.toNat) ⟨fresh config, w₀⟩ h ⟨c, w⟩)
    (hs : Step .commit ops c c') (hlt : h.length + ops.length < 2 ^ 64) {n : ℕ}
    (hn : w.file.length ≤ n) (order : HashOrder) :
    ∃ (j : ℕ) (w' : Framed.Wal) (f : WalFile) (c'' : Collection), j ≤ ops.length ∧
      w.file.length + batchLen (ops.take j) ≤ n ∧
      (j < ops.length → n < w.file.length + batchLen (ops.take (j + 1))) ∧
      Framed.Wal.openFile codec ((w.run codec checks (ops.map .append)).2.file.take n)
        epoch.toNat none = .ok w' ∧
      w'.Represents codec epoch.toNat (AbstractLog.ofWal (Wal.openFile f none)) ∧
      f.records = c.wal.file.records ++ numbered h.length (ops.take j) ∧
      reopen c.config { c.disk with wal := f } order = .ok c'' ∧
      c''.content = foldContent (h ++ ops.take j) := by
  cases hs with
  | commit hacc hw =>
      obtain ⟨hl, hrep⟩ : Logged h c ∧ w.Represents codec epoch.toNat (AbstractLog.ofWal c.wal) :=
        fileBacked_run hopen hrun (by omega)
      have hlast : w.lastSeq = h.length := hrep.lastSeq.trans hl.last
      obtain ⟨rs, hheld, hlog, hresume⟩ := hrep.exists_holds
      have hle : Framed.lastSeqOf rs ≤ w.lastSeq := by
        rw [hresume, Framed.lastSeqOf]
        cases rs.getLast? with
        | none => exact Nat.zero_le _
        | some r => exact Nat.le_refl _
      have hfit : ∀ op ∈ ops, codec.recordLen op < 2 ^ 32 := by
        intro op hop
        have := fits_of_writeOps hw op hop
        omega
      obtain ⟨j, w', hj, hend, hnext, hrec, hheld'⟩ :=
        hheld.torn codec_roundTrips hle (by rw [hlast]; exact hlt) hfit checks hn none
      rw [length_batch] at hend hnext
      obtain ⟨c₁, hw₁⟩ := writeOps_take hw j
      have hcommit := Step.commit (hacc.take j) hw₁
      obtain ⟨c'', hopen'⟩ := ((fits_backed_run hd hrun).step hd hcommit).open_succeeds order
      have hl₁ := hl.step hcommit
      have hcontent := ((hl₁.restored _ order).flushIfNeeded (reopen_ok hopen')).content
      have hrecords : c₁.wal.file.records =
          c.wal.file.records ++ numbered h.length (ops.take j) := by
        rw [← hl.last]
        exact congrArg AbstractLog.entries (ofWal_committed hw₁)
      have hold : c.wal.file.records = rs.map Framed.entryOf :=
        congrArg AbstractLog.entries hlog
      have hdisk : c₁.config = c.config ∧ c₁.disk = { c.disk with wal := c₁.wal.file } := by
        obtain ⟨w₁, -, -, rfl⟩ := writeOps_ok hw₁
        have hset := foldl_applyRecord_settled (numbered c.wal.lastSeq (ops.take j))
          { c with wal := w₁ }
        have hdir := congrArg Settled.dir hset
        have hcatalog := congrArg Settled.catalog hset
        refine ⟨congrArg Settled.config hset, ?_⟩
        simp only [settled] at hdir hcatalog
        simp only [disk, hdir, hcatalog]
      rw [hdisk.1, hdisk.2] at hopen'
      refine ⟨j, w', c₁.wal.file, c'', hj, hend, hnext, hrec.opened _, ?_, hrecords, hopen',
        hcontent.trans hl₁.accepted.symm⟩
      apply represents_recovered hrec hheld'
      rw [hrecords, hold, List.map_append, map_entryOf_stamped, hlast]

/-- A batch of two deletes, torn inside the second. -/
theorem torn_batch_recovers_demo : ∃ (c : Collection) (w w' : Framed.Wal) (f : WalFile)
      (c'' : Collection),
    runAll [.add true ["a", "b"] [zero, one] none none] (fresh demoConfig) = .ok c ∧
    Framed.Wal.openFile codec ((w.run codec true [.append (.delete "a"),
      .append (.delete "b")]).2.file.take (w.file.length + 40)) 1 none = .ok w' ∧
    w'.Represents codec 1 (AbstractLog.ofWal (Wal.openFile f none)) ∧
    reopen c.config { c.disk with wal := f } ⟨fun m => m.entries, fun _ => List.Perm.refl _⟩ =
      .ok c'' ∧
    c''.content = foldContent [.add "a" zero none none, .add "b" one none none, .delete "a"] := by
  obtain ⟨c, hrun, -⟩ : ∃ c, runAll [.add true ["a", "b"] [zero, one] none none]
      (fresh demoConfig) = .ok c ∧ true = true := exists_runAll (by decide +kernel)
  have hr : Reachable (fun _ => True) demoConfig _ c :=
    Reachable.fresh.runAll (fun _ _ => trivial) hrun
  obtain ⟨w, hw⟩ := exists_backed_run true 1 ⟨Framed.buildHeader codec 1, 1, 0, 0, 18⟩
    (hr.steps fun _ _ _ _ => trivial)
  obtain ⟨rs, c₁, happ⟩ : ∃ rs c₁, appendOps [.delete "a", .delete "b"] c = .ok rs c₁ :=
    appendOps_succeeds (by decide)
  have hs : Step .commit [.delete "a", .delete "b"] c _ := Step.commit
    (accepts_delete c ["a", "b"]) (bind_ok.mpr ⟨rs, c₁, happ, modify_ok.mpr rfl⟩)
  obtain ⟨j, w', f, c'', -, hend, hnext, hlog, hrep, -, hreopen, hcontent⟩ :=
    torn_batch_recovers true 1 (by decide) (Framed.Wal.openFile_nil codec 1 none) hw hs
      (by decide) (Nat.le_add_right w.file.length 40)
      ⟨fun m => m.entries, fun _ => List.Perm.refl _⟩
  obtain rfl : j = 1 := by
    match j with
    | 0 => exact absurd (Nat.lt_of_add_lt_add_left (hnext (by decide))) (by decide)
    | 1 => rfl
    | j + 2 =>
        have hall : [.delete "a", .delete "b"].take (j + 2) =
            [Operation.delete "a", .delete "b"] := by simp
        rw [hall] at hend
        exact absurd (Nat.le_of_add_le_add_left hend) (by decide)
  exact ⟨c, w, w', f, c'', hrun, hlog, hrep, hreopen, hcontent⟩

end Runs

end Rekha
