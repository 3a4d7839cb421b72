import Mathlib.Data.List.Induction
import Rekha.Core.Types

/-!
# The write-ahead log, record by record

A log file is its list of records, in increasing seq order; the handle adds the
position the next append resumes from. Framing, checksums and torn tails are
below this level, and so is the epoch, which one handle stamps on every record
alike. What the record level keeps of the byte level is the length of a record,
because an append refuses a record that does not fit the `u32` length field.
-/

namespace Rekha

structure WalRecord where
  seq : ℕ
  op : Operation

/-- The records of a log file, strictly increasing in seq. -/
structure WalFile where
  records : List WalRecord
  increasing : records.Pairwise fun a b => a.seq < b.seq

namespace WalFile

def empty : WalFile := ⟨[], List.Pairwise.nil⟩

/-- Seq of the last record, `0` for a header-only file. -/
def lastSeq (f : WalFile) : ℕ := (f.records.getLast?.map WalRecord.seq).getD 0

theorem seq_le_lastSeq (f : WalFile) : ∀ r ∈ f.records, r.seq ≤ f.lastSeq := by
  obtain ⟨records, hinc⟩ := f
  intro r hr
  induction records using List.reverseRecOn with
  | nil => simp at hr
  | append_singleton l last _ =>
      have hpair := List.pairwise_append.mp hinc
      simp only [lastSeq, List.getLast?_append, List.getLast?_singleton, Option.some_or,
        Option.map_some, Option.getD_some]
      rcases List.mem_append.mp hr with hl | hl
      · exact (hpair.2.2 r hl last (List.mem_singleton_self _)).le
      · rw [List.mem_singleton.mp hl]

/-- The records with seq above a watermark. -/
def keepAbove (f : WalFile) (keepFrom : ℕ) : WalFile where
  records := f.records.filter fun r => decide (keepFrom < r.seq)
  increasing := f.increasing.sublist List.filter_sublist

end WalFile

/-! ## Encoded size -/

/-- `bincode` length of a string: a `u64` length and the UTF-8 bytes. -/
def strBytes (s : String) : ℕ := 8 + s.utf8ByteSize

def MetadataValue.encodedLen : MetadataValue → ℕ
  | .str s => 4 + strBytes s
  | .bool _ => 4 + 1
  | .int _ => 4 + 8
  | .float _ => 4 + 8

def Metadata.encodedLen (m : Metadata) : ℕ :=
  m.entries.foldl (fun n e => n + strBytes e.1 + e.2.encodedLen) 8

def optLen {α : Type} (len : α → ℕ) : Option α → ℕ
  | none => 1
  | some a => 1 + len a

/-- `bincode` length of an operation: a `u32` variant and the fields. -/
def Operation.encodedLen : Operation → ℕ
  | .add id e md doc | .upsert id e md doc =>
      4 + strBytes id + (8 + 4 * e.length) + optLen Metadata.encodedLen md +
        optLen strBytes doc
  | .update id md doc =>
      4 + strBytes id + optLen Metadata.encodedLen md + optLen strBytes doc
  | .delete id => 4 + strBytes id

def walHeaderLen : ℕ := 18
def recordHeaderLen : ℕ := 24

def Operation.recordLen (op : Operation) : ℕ := recordHeaderLen + op.encodedLen

/-! ## The handle -/

inductive WalError where
  | corrupt (msg : String)

/-- An open log: the file and the seq appending resumes after. -/
structure Wal where
  file : WalFile
  lastSeq : ℕ
  le_lastSeq : ∀ r ∈ file.records, r.seq ≤ lastSeq

namespace Wal

/-- Open a log file. `startSeq` moves the resume position of an empty file; a
file with records resumes after its own last record. -/
def openFile (file : WalFile) (startSeq : Option ℕ) : Wal where
  file := file
  lastSeq :=
    if file.records.isEmpty then (startSeq.map fun n => n - 1).getD file.lastSeq
    else file.lastSeq
  le_lastSeq := by
    intro r hr
    have hne : file.records.isEmpty = false := by
      cases hl : file.records with
      | nil => simp [hl] at hr
      | cons a l => rfl
    rw [hne]
    exact file.seq_le_lastSeq r hr

/-- Append `op` under the next seq. -/
def append (w : Wal) (op : Operation) : Except WalError (Wal × WalRecord) :=
  if 2 ^ 32 - 1 < op.recordLen then
    .error (.corrupt s!"record too large for WAL framing: {op.recordLen} bytes")
  else
    let record : WalRecord := ⟨w.lastSeq + 1, op⟩
    .ok (
      { file :=
          { records := w.file.records ++ [record]
            increasing := List.pairwise_append.mpr
              ⟨w.file.increasing, List.pairwise_singleton _ _, fun a ha b hb => by
                rw [List.mem_singleton.mp hb]
                exact Nat.lt_succ_of_le (w.le_lastSeq a ha)⟩ }
        lastSeq := w.lastSeq + 1
        le_lastSeq := fun r hr => by
          rcases List.mem_append.mp hr with hl | hl
          · exact Nat.le_succ_of_le (w.le_lastSeq r hl)
          · rw [List.mem_singleton.mp hl] },
      record)

/-- All records with seq in `[lo, hi]`, in seq order. -/
def readRange (w : Wal) (lo hi : ℕ) : List WalRecord :=
  w.file.records.filter fun r => decide (lo ≤ r.seq) && decide (r.seq ≤ hi)

/-- Keep only the records with seq above `keepFrom`; the handle is repositioned
on what is left, at `0` when nothing is. -/
def prune (w : Wal) (keepFrom : ℕ) : Wal where
  file := w.file.keepAbove keepFrom
  lastSeq := (w.file.keepAbove keepFrom).lastSeq
  le_lastSeq := (w.file.keepAbove keepFrom).seq_le_lastSeq

def sizeBytes (w : Wal) : ℕ :=
  w.file.records.foldl (fun n r => n + r.op.recordLen) walHeaderLen

/-! ## What the operations do -/

theorem append_ok {w w' : Wal} {op : Operation} {r : WalRecord}
    (h : w.append op = .ok (w', r)) :
    r = ⟨w.lastSeq + 1, op⟩ ∧ w'.file.records = w.file.records ++ [r] ∧
      w'.lastSeq = w.lastSeq + 1 := by
  rw [append] at h
  split at h
  · exact absurd h (by simp)
  · simp only [Except.ok.injEq, Prod.mk.injEq] at h
    obtain ⟨rfl, rfl⟩ := h
    exact ⟨rfl, rfl, rfl⟩

theorem recordLen_of_append {w : Wal} {op : Operation} {p : Wal × WalRecord}
    (h : w.append op = .ok p) : op.recordLen ≤ 2 ^ 32 - 1 := by
  rw [append] at h
  split at h
  · exact absurd h (by simp)
  · rename_i hfits
    exact not_lt.mp hfits

theorem readRange_lastSeq (w : Wal) (lo : ℕ) :
    w.readRange (lo + 1) w.lastSeq =
      w.file.records.filter fun r => decide (lo < r.seq) := by
  apply List.filter_congr
  intro r hr
  rw [decide_eq_true (w.le_lastSeq r hr), Bool.and_true]
  rfl

end Wal

end Rekha
