import Rekha.Wal.Format

/-!
# The log handle

Opening, appending, reading a range and pruning, on the bytes of the file the
handle has open. A method on `&mut self` is a state transformer that keeps the
state on failure.
-/

namespace Rekha.Framed

open Bytes

/-- An open log. `file` are the bytes of the file the handle refers to. -/
structure Wal where
  file : List UInt8
  headerEpoch : ℕ
  lastSeq : ℕ
  len : ℕ
  fileLen : ℕ

namespace Wal

/-- Open the log over the bytes of its file; a file of length `0` was just
created. `startSeq` moves the resume position of a log without records. -/
def openFile (k : Codec) (file : List UInt8) (epoch : ℕ) (startSeq : Option ℕ) :
    Except WalError Wal :=
  if file.length = 0 then
    .ok ⟨buildHeader k epoch, epoch, (startSeq.map fun n => n - 1).getD 0, 0, headerLen⟩
  else
    match readAndVerifyHeader k file with
    | .error e => .error e
    | .ok headerEpoch =>
        let r := recover k file headerEpoch
        -- without records the log resumes where the checkpoint left off
        let lastSeq :=
          if r.count = 0 then (startSeq.map fun n => n - 1).getD r.lastSeq else r.lastSeq
        .ok ⟨r.file, headerEpoch, lastSeq, r.count, r.validLen⟩

/-- `last_seq + 1` on `u64`. -/
def nextSeq (checks : Bool) (lastSeq : ℕ) : Except WalError ℕ :=
  if lastSeq + 1 < 2 ^ 64 then .ok (lastSeq + 1)
  else if checks then .error (.panicked "attempt to add with overflow")
  else .ok ((lastSeq + 1) % 2 ^ 64)

/-- Append `op` under the next seq. Returns the record as written. -/
def append (k : Codec) (checks : Bool) (op : Operation) : EStateM WalError Wal WalRecord :=
  fun w =>
    match nextSeq checks w.lastSeq with
    | .error e => .error e w
    | .ok seq =>
        let epoch := w.headerEpoch
        -- never taken: the epoch is the file's own
        if epoch < w.headerEpoch then .error (.fenced epoch w.headerEpoch) w
        else
          let totalLen := recordHeaderLen + (k.serialize op).length
          if 2 ^ 32 - 1 < totalLen then
            .error (.corrupt s!"record too large for WAL framing: {totalLen} bytes") w
          else
            let buf := encodeRecord k ⟨seq, epoch, op⟩
            .ok ⟨seq, epoch, op⟩ { w with
              file := writeAt w.file w.fileLen buf
              fileLen := w.fileLen + buf.length
              lastSeq := seq
              len := w.len + 1 }

def sizeBytes (w : Wal) : ℕ := w.fileLen

/-! ## Reading a range -/

structure ReadState where
  offset : ℕ
  prevSeq : Option ℕ
  out : List WalRecord

/-- One iteration of the read loop; `false` leaves the loop. -/
def readRecord (k : Codec) (w : Wal) (lo hi : ℕ) (s : ReadState) :
    Except WalError (Bool × ReadState) :=
  match readExact w.file s.offset recordHeaderLen with
  | .error e => .error e
  | .ok bytes =>
      let hdr := RecordHeader.parse bytes
      if hdr.recordLen < recordHeaderLen ∨ w.fileLen < s.offset + hdr.recordLen then
        .error (.corrupt s!"record at offset {s.offset} is out of bounds")
      else if hdr.epoch < w.headerEpoch then
        .error (.corrupt
          s!"fenced record (epoch {hdr.epoch} < file epoch {w.headerEpoch})")
      else if s.prevSeq.any fun prev => decide (hdr.seq ≤ prev) then
        .error (.corrupt "non-monotonic seq during read")
      else
        match readExact w.file (s.offset + recordHeaderLen)
            (hdr.recordLen - recordHeaderLen) with
        | .error e => .error e
        | .ok payload =>
            if (k.hash payload).toNat ≠ hdr.storedCrc then
              .error (.corrupt s!"record {hdr.seq} CRC mismatch")
            else if lo ≤ hdr.seq then
              if hi < hdr.seq then .ok (false, s)
              else
                match k.deserialize payload with
                | none => .error .encode
                | some op =>
                    .ok (true, ⟨s.offset + hdr.recordLen, some hdr.seq,
                      s.out ++ [⟨hdr.seq, hdr.epoch, op⟩]⟩)
            -- below the range a payload is checked but not decoded
            else .ok (true, ⟨s.offset + hdr.recordLen, some hdr.seq, s.out⟩)

theorem readRecord_advances {k : Codec} {w : Wal} {lo hi : ℕ} {s s' : ReadState}
    (h : readRecord k w lo hi s = .ok (true, s')) :
    s.offset + recordHeaderLen ≤ s'.offset ∧ s'.offset ≤ w.fileLen := by
  unfold readRecord at h
  split at h
  · exact absurd h (by simp)
  dsimp only at h
  split at h
  · exact absurd h (by simp)
  rename_i hlen
  rw [not_or, Nat.not_lt, Nat.not_lt] at hlen
  split at h
  · exact absurd h (by simp)
  split at h
  · exact absurd h (by simp)
  split at h
  · exact absurd h (by simp)
  split at h
  · exact absurd h (by simp)
  split at h
  · split at h
    · exact absurd h (by simp)
    split at h
    · exact absurd h (by simp)
    · simp only [Except.ok.injEq, Prod.mk.injEq, true_and] at h
      rw [← h]
      exact ⟨Nat.add_le_add_left hlen.1 _, hlen.2⟩
  · simp only [Except.ok.injEq, Prod.mk.injEq, true_and] at h
    rw [← h]
    exact ⟨Nat.add_le_add_left hlen.1 _, hlen.2⟩

def readFrom (k : Codec) (w : Wal) (lo hi : ℕ) (s : ReadState) :
    Except WalError (List WalRecord) :=
  if s.offset + recordHeaderLen ≤ w.fileLen then
    match _hs : readRecord k w lo hi s with
    | .error e => .error e
    | .ok (false, s') => .ok s'.out
    | .ok (true, s') => readFrom k w lo hi s'
  else .ok s.out
termination_by w.fileLen - s.offset
decreasing_by
  have hadv := readRecord_advances _hs
  have hpos : 0 < recordHeaderLen := by decide
  omega

/-- All records with seq in `[lo, hi]`, in seq order. -/
def readRange (k : Codec) (w : Wal) (lo hi : ℕ) : Except WalError (List WalRecord) :=
  if hi < lo then .ok [] else readFrom k w lo hi ⟨headerLen, none, []⟩

/-! ## Pruning -/

structure CopyState where
  offset : ℕ
  tmp : List UInt8

/-- One iteration of the loop that fills the temp file. -/
def copyRecord (w : Wal) (keepFrom : ℕ) (s : CopyState) : Except WalError CopyState :=
  match readExact w.file s.offset recordHeaderLen with
  | .error e => .error e
  | .ok bytes =>
      let hdr := RecordHeader.parse bytes
      if hdr.recordLen < recordHeaderLen ∨ w.fileLen < s.offset + hdr.recordLen then
        .error (.corrupt s!"record at offset {s.offset} is out of bounds during prune")
      else if keepFrom < hdr.seq then
        match readExact w.file s.offset hdr.recordLen with
        | .error e => .error e
        | .ok record => .ok ⟨s.offset + hdr.recordLen, s.tmp ++ record⟩
      else .ok ⟨s.offset + hdr.recordLen, s.tmp⟩

theorem copyRecord_advances {w : Wal} {keepFrom : ℕ} {s s' : CopyState}
    (h : copyRecord w keepFrom s = .ok s') :
    s.offset + recordHeaderLen ≤ s'.offset ∧ s'.offset ≤ w.fileLen := by
  unfold copyRecord at h
  split at h
  · exact absurd h (by simp)
  dsimp only at h
  split at h
  · exact absurd h (by simp)
  rename_i hlen
  rw [not_or, Nat.not_lt, Nat.not_lt] at hlen
  split at h
  · split at h
    · exact absurd h (by simp)
    · rw [← Except.ok.inj h]
      exact ⟨Nat.add_le_add_left hlen.1 _, hlen.2⟩
  · rw [← Except.ok.inj h]
    exact ⟨Nat.add_le_add_left hlen.1 _, hlen.2⟩

def copyFrom (w : Wal) (keepFrom : ℕ) (s : CopyState) : Except WalError (List UInt8) :=
  if s.offset + recordHeaderLen ≤ w.fileLen then
    match _hs : copyRecord w keepFrom s with
    | .error e => .error e
    | .ok s' => copyFrom w keepFrom s'
  else .ok s.tmp
termination_by w.fileLen - s.offset
decreasing_by
  have hadv := copyRecord_advances _hs
  have hpos : 0 < recordHeaderLen := by decide
  omega

/-- The temp file: the header and the records above the watermark. -/
def pruned (k : Codec) (w : Wal) (keepFrom : ℕ) : Except WalError (List UInt8) :=
  copyFrom w keepFrom ⟨headerLen, buildHeader k w.headerEpoch⟩

/-- Reposition the handle on a file that took the log's place. -/
def reposition (k : Codec) (w : Wal) (file : List UInt8) : Wal :=
  let r := recover k file w.headerEpoch
  ⟨r.file, w.headerEpoch, r.lastSeq, r.count, r.validLen⟩

/-- Rewrite the file keeping only the records with seq above `keepFrom`. -/
def prune (k : Codec) (keepFrom : ℕ) : EStateM WalError Wal Unit := fun w =>
  match w.pruned k keepFrom with
  | .error e => .error e w
  | .ok tmp => .ok () (w.reposition k tmp)

end Wal

end Rekha.Framed
