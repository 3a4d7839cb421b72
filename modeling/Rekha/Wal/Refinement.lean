import Rekha.Wal.Recovery

/-!
# The log file refines an abstract log

The abstract log is a list of entries and a resume position, with its own small
program for appending, pruning, reading and reopening. Along every sequence of
calls the bytes of the file and the handle follow it, answer by answer, as long
as no append is made at the last `u64`. Pruning and reopening the record-level log
that the engine is modelled over are steps of the same program.
-/

namespace Rekha.Framed

inductive LogCall where
  | append (op : Operation)
  | prune (keepFrom : ℕ)
  | readRange (lo hi : ℕ)
  | reopen (epoch : ℕ) (startSeq : Option ℕ)

inductive Reply where
  | appended (r : Rekha.WalRecord)
  | records (rs : List Rekha.WalRecord)
  | done
  | failed (e : WalError)

/-! ## The abstract log -/

structure AbstractLog where
  entries : List Rekha.WalRecord
  position : ℕ

/-- Length of the record an operation takes. -/
def Codec.recordLen (k : Codec) (op : Operation) : ℕ :=
  recordHeaderLen + (k.serialize op).length

def tooLarge (len : ℕ) : WalError :=
  .corrupt s!"record too large for WAL framing: {len} bytes"

namespace AbstractLog

/-- Seq of the last entry, `d` without one. -/
def lastOr (entries : List Rekha.WalRecord) (d : ℕ) : ℕ :=
  (entries.getLast?.map Rekha.WalRecord.seq).getD d

def init (startSeq : Option ℕ) : AbstractLog := ⟨[], (startSeq.map fun n => n - 1).getD 0⟩

def step (size : Operation → ℕ) (a : AbstractLog) : LogCall → Reply × AbstractLog
  | .append op =>
      if 2 ^ 32 - 1 < size op then (.failed (tooLarge (size op)), a)
      else (.appended ⟨a.position + 1, op⟩,
        ⟨a.entries ++ [⟨a.position + 1, op⟩], a.position + 1⟩)
  | .prune keepFrom =>
      let kept := a.entries.filter fun r => decide (keepFrom < r.seq)
      (.done, ⟨kept, lastOr kept 0⟩)
  | .readRange lo hi =>
      (.records (a.entries.filter fun r => decide (lo ≤ r.seq) && decide (r.seq ≤ hi)), a)
  | .reopen _ startSeq =>
      (.done, ⟨a.entries, lastOr a.entries ((startSeq.map fun n => n - 1).getD 0)⟩)

def run (size : Operation → ℕ) : List LogCall → AbstractLog → List Reply × AbstractLog
  | [], a => ([], a)
  | c :: calls, a =>
      let (reply, a) := a.step size c
      let (replies, a) := run size calls a
      (reply :: replies, a)

/-- No append of the run is made at the last `u64`. -/
def Bounded (size : Operation → ℕ) : List LogCall → AbstractLog → Prop
  | [], _ => True
  | c :: calls, a =>
      (∀ op, c = .append op → a.position + 1 < 2 ^ 64) ∧ Bounded size calls (a.step size c).2

end AbstractLog

/-! ## The file -/

/-- A record without the epoch it is stamped with. -/
def entryOf (r : WalRecord) : Rekha.WalRecord := ⟨r.seq, r.op⟩

namespace Wal

def step (k : Codec) (checks : Bool) (w : Wal) : LogCall → Reply × Wal
  | .append op =>
      match append k checks op w with
      | .ok r w => (.appended (entryOf r), w)
      | .error e w => (.failed e, w)
  | .prune keepFrom =>
      match prune k keepFrom w with
      | .ok _ w => (.done, w)
      | .error e w => (.failed e, w)
  | .readRange lo hi =>
      match w.readRange k lo hi with
      | .ok rs => (.records (rs.map entryOf), w)
      | .error e => (.failed e, w)
  | .reopen epoch startSeq =>
      match openFile k w.file epoch startSeq with
      | .ok w => (.done, w)
      | .error e => (.failed e, w)

def run (k : Codec) (checks : Bool) : List LogCall → Wal → List Reply × Wal
  | [], w => ([], w)
  | c :: calls, w =>
      let (reply, w) := w.step k checks c
      let (replies, w) := run k checks calls w
      (reply :: replies, w)

/-- The file of the handle is the header and the well-formed records of the
abstract entries, and every field of the handle says so. -/
structure Represents (k : Codec) (epoch : ℕ) (w : Wal) (a : AbstractLog) : Prop where
  file : ∃ body rs, w.file = buildHeader k epoch ++ body ∧ Records k epoch none body rs ∧
    a.entries = rs.map entryOf
  headerEpoch : w.headerEpoch = epoch
  len : w.len = a.entries.length
  lastSeq : w.lastSeq = a.position
  le_position : AbstractLog.lastOr a.entries a.position = a.position
  sizeBytes : w.sizeBytes = w.file.length
  increasing : a.entries.Pairwise fun x y => x.seq < y.seq

end Wal

theorem lastOr_map (rs : List WalRecord) (d : ℕ) :
    AbstractLog.lastOr (rs.map entryOf) d = (rs.getLast?.map WalRecord.seq).getD d := by
  rw [AbstractLog.lastOr, List.getLast?_map, Option.map_map]
  rfl

theorem filter_map_entryOf (rs : List WalRecord) (p : ℕ → Bool) :
    (rs.map entryOf).filter (fun r => p r.seq) = (rs.filter fun r => p r.seq).map entryOf := by
  rw [List.filter_map]
  rfl

namespace Wal

variable {k : Codec} {epoch : UInt64} {w : Wal} {a : AbstractLog}

theorem Holds.represents {rs : List WalRecord} (h : w.Holds k epoch.toNat rs)
    (hlast : w.lastSeq = (rs.getLast?.map WalRecord.seq).getD w.lastSeq) :
    w.Represents k epoch.toNat ⟨rs.map entryOf, w.lastSeq⟩ := by
  obtain ⟨body, hfile, hrs⟩ := h.file
  refine ⟨⟨body, rs, hfile, hrs, rfl⟩, h.headerEpoch, ?_, rfl, ?_, h.fileLen, ?_⟩
  · rw [List.length_map]
    exact h.len
  · rw [lastOr_map]
    exact hlast.symm
  · rw [List.pairwise_map]
    exact Records.increasing hrs

theorem Represents.exists_holds (h : w.Represents k epoch.toNat a) :
    ∃ rs, w.Holds k epoch.toNat rs ∧ a = ⟨rs.map entryOf, w.lastSeq⟩ ∧
      w.lastSeq = (rs.getLast?.map WalRecord.seq).getD w.lastSeq := by
  obtain ⟨body, rs, hfile, hrs, hentries⟩ := h.file
  have hlast : w.lastSeq = (rs.getLast?.map WalRecord.seq).getD w.lastSeq := by
    have := h.le_position
    rw [← h.lastSeq, hentries, lastOr_map] at this
    exact this.symm
  refine ⟨rs, ⟨⟨body, hfile, hrs⟩, h.headerEpoch, ?_, h.sizeBytes, ?_⟩, ?_, hlast⟩
  · rw [h.len, hentries, List.length_map]
  · intro hne
    obtain ⟨r, hr⟩ := Option.ne_none_iff_exists'.mp (mt List.getLast?_eq_none_iff.mp hne)
    rw [hlast, lastSeqOf, hr]
    rfl
  · rw [← hentries, h.lastSeq]

theorem Represents.step (checks : Bool) (hround : k.RoundTrips) (h : w.Represents k epoch.toNat a)
    (c : LogCall) (hbound : ∀ op, c = .append op → a.position + 1 < 2 ^ 64) :
    (w.step k checks c).1 = (a.step k.recordLen c).1 ∧
      (w.step k checks c).2.Represents k epoch.toNat (a.step k.recordLen c).2 := by
  obtain ⟨rs, hw, rfl, hlast⟩ := h.exists_holds
  cases c with
  | append op =>
      have hseq : w.lastSeq + 1 < 2 ^ 64 := hbound op rfl
      by_cases hfit : recordHeaderLen + (k.serialize op).length < 2 ^ 32
      · have hle : lastSeqOf rs ≤ w.lastSeq := by
          rw [hlast, lastSeqOf]
          cases rs.getLast? with
          | none => exact Nat.zero_le _
          | some r => exact Nat.le_refl _
        obtain ⟨w', hok, hw', hlast', -⟩ := hw.append checks hround hle hseq hfit
        have hbig : ¬ 2 ^ 32 - 1 < k.recordLen op := by
          unfold Codec.recordLen
          omega
        have hrep := hw'.represents (by
          rw [List.getLast?_append, List.getLast?_singleton, hlast']
          rfl)
        rw [hlast', List.map_append, List.map_singleton] at hrep
        simp only [Wal.step, AbstractLog.step]
        rw [hok, if_neg hbig]
        exact ⟨rfl, hrep⟩
      · have hbig : 2 ^ 32 - 1 < k.recordLen op := by
          unfold Codec.recordLen
          omega
        simp only [Wal.step, AbstractLog.step]
        rw [append_too_large hseq hfit, if_pos hbig]
        exact ⟨rfl, h⟩
  | prune keepFrom =>
      obtain ⟨w', hok, hw', hlast'⟩ := hw.prune keepFrom
      have hrep := hw'.represents (by
        rw [hlast', lastSeqOf]
        cases (rs.filter fun r => decide (keepFrom < r.seq)).getLast? <;> rfl)
      simp only [Wal.step, AbstractLog.step]
      rw [hok, filter_map_entryOf rs fun n => decide (keepFrom < n), lastOr_map]
      refine ⟨rfl, ?_⟩
      rw [hlast'] at hrep
      exact hrep
  | readRange lo hi =>
      simp only [Wal.step, AbstractLog.step]
      rw [hw.readRange lo hi,
        filter_map_entryOf rs fun n => decide (lo ≤ n) && decide (n ≤ hi)]
      exact ⟨rfl, h⟩
  | reopen epoch' startSeq =>
      obtain ⟨hok, hw'⟩ := hw.openFile epoch' startSeq
      have hrep := hw'.represents (by
        dsimp only
        rw [resumeAt]
        cases rs.getLast? <;> rfl)
      simp only [Wal.step, AbstractLog.step]
      rw [hok, lastOr_map]
      exact ⟨rfl, hrep⟩

theorem Represents.run (checks : Bool) (hround : k.RoundTrips) (calls : List LogCall) :
    ∀ {w : Wal} {a : AbstractLog}, w.Represents k epoch.toNat a →
      a.Bounded k.recordLen calls →
      (w.run k checks calls).1 = (a.run k.recordLen calls).1 ∧
        (w.run k checks calls).2.Represents k epoch.toNat (a.run k.recordLen calls).2 := by
  induction calls with
  | nil =>
      intro w a h _
      exact ⟨rfl, h⟩
  | cons c calls ih =>
      intro w a h hbound
      obtain ⟨hreply, hnext⟩ := h.step checks hround c hbound.1
      obtain ⟨hreplies, hfinal⟩ := ih hnext hbound.2
      exact ⟨congrArg₂ List.cons hreply hreplies, hfinal⟩

/-- **The log file refines the abstract log.** From a new file, every sequence
of calls that makes no append at the last `u64` is answered as the abstract log
answers it, and leaves the file and the handle representing it. -/
theorem file_refines_log (k : Codec) (hround : k.RoundTrips) (checks : Bool) (epoch : UInt64)
    (startSeq : Option ℕ) (calls : List LogCall)
    (hbound : (AbstractLog.init startSeq).Bounded k.recordLen calls) :
    ∃ w, openFile k [] epoch.toNat startSeq = .ok w ∧
      (w.run k checks calls).1 = ((AbstractLog.init startSeq).run k.recordLen calls).1 ∧
      (w.run k checks calls).2.Represents k epoch.toNat
        ((AbstractLog.init startSeq).run k.recordLen calls).2 := by
  have hfresh := @holds_opened k [] epoch.toNat [] startSeq .nil
  rw [List.append_nil] at hfresh
  have hrep := hfresh.represents rfl
  exact ⟨_, openFile_nil k epoch.toNat startSeq, hrep.run checks hround calls hbound⟩

theorem file_refines_log_demo : ∃ w, openFile codec [] 1 none = .ok w ∧
    (w.run codec false [.append (.delete "a"), .append (.delete "b"), .prune 1,
      .reopen 7 (some 5), .append (.delete "c"), .readRange 2 9]).1 =
      ((AbstractLog.init none).run codec.recordLen [.append (.delete "a"),
        .append (.delete "b"), .prune 1, .reopen 7 (some 5), .append (.delete "c"),
        .readRange 2 9]).1 := by
  obtain ⟨w, hopen, hreplies, -⟩ := file_refines_log codec codec_roundTrips false 1 none
    [.append (.delete "a"), .append (.delete "b"), .prune 1, .reopen 7 (some 5),
      .append (.delete "c"), .readRange 2 9]
    ⟨fun _ _ => by decide +kernel, fun _ _ => by decide +kernel, by simp, by simp,
      fun _ _ => by decide +kernel, by simp, trivial⟩
  exact ⟨w, hopen, hreplies⟩

end Wal

/-- The seq an append was answered with. -/
def Reply.assigned : Reply → Option ℕ
  | .appended r => some r.seq
  | _ => none

/-- An append at the last `u64` has no counterpart in the file: it panics, or
wraps around to seq `0`. -/
theorem last_seq_not_refined : ∃ w,
    Wal.openFile codec [] 1 (some (2 ^ 64 - 1)) = .ok w ∧
    (w.run codec true [.append (.delete "a"), .append (.delete "b")]).1.map Reply.assigned =
      [some (2 ^ 64 - 1), none] ∧
    (w.run codec false [.append (.delete "a"), .append (.delete "b")]).1.map Reply.assigned =
      [some (2 ^ 64 - 1), some 0] ∧
    ((AbstractLog.init (some (2 ^ 64 - 1))).run codec.recordLen
      [.append (.delete "a"), .append (.delete "b")]).1.map Reply.assigned =
      [some (2 ^ 64 - 1), some (2 ^ 64)] :=
  ⟨_, rfl, by decide +kernel⟩

/-! ## The record-level log -/

def AbstractLog.ofWal (w : Rekha.Wal) : AbstractLog := ⟨w.file.records, w.lastSeq⟩

theorem recordLen_codec (op : Operation) : codec.recordLen op = op.recordLen := by
  unfold Codec.recordLen Operation.recordLen
  show recordHeaderLen + (Bincode.serialize op).length = _
  rw [Bincode.length_serialize]
  rfl

theorem ofWal_prune (w : Rekha.Wal) (keepFrom : ℕ) :
    (AbstractLog.ofWal w).step codec.recordLen (.prune keepFrom) =
      (.done, AbstractLog.ofWal (w.prune keepFrom)) := rfl

theorem ofWal_openFile (w : Rekha.Wal) (epoch : ℕ) (startSeq : Option ℕ) :
    (AbstractLog.ofWal w).step codec.recordLen (.reopen epoch startSeq) =
      (.done, AbstractLog.ofWal (Rekha.Wal.openFile w.file startSeq)) := by
  simp only [AbstractLog.step, AbstractLog.ofWal, Rekha.Wal.openFile, AbstractLog.lastOr,
    WalFile.lastSeq]
  cases hrecords : w.file.records with
  | nil => rfl
  | cons r l =>
      rw [List.getLast?_cons]
      rfl

end Rekha.Framed
