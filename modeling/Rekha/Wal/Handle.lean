import Rekha.Wal.Records

/-!
# The handle and its file

`Wal.Holds w epoch rs`: the file of the handle is the header and the records
`rs`, and the handle's fields say so. On such a handle the read loop returns the
records in the range, and the copy loop of a prune keeps those above the
watermark.
-/

namespace Rekha.Framed

open Bytes

namespace Wal

/-- The file is a header and records, and the handle agrees with it. The resume
position of a log without records is free. -/
structure Holds (k : Codec) (w : Wal) (epoch : ℕ) (rs : List WalRecord) : Prop where
  file : ∃ body, w.file = buildHeader k epoch ++ body ∧ Records k epoch none body rs
  headerEpoch : w.headerEpoch = epoch
  len : w.len = rs.length
  fileLen : w.fileLen = w.file.length
  lastSeq : rs ≠ [] → w.lastSeq = lastSeqOf rs

variable {k : Codec} {w : Wal}

/-! ## Reading -/

theorem readRecord_eq (lo hi : ℕ) (hfile : w.fileLen = w.file.length) {s : ReadState}
    {p : List UInt8} {r : WalRecord} (hr : IsRecord k w.headerEpoch s.prevSeq p r)
    (hp : p <+: w.file.drop s.offset) :
    readRecord k w lo hi s = .ok
      (if lo ≤ r.seq then
        if hi < r.seq then (false, s)
        else (true, ⟨s.offset + p.length, some r.seq, s.out ++ [r]⟩)
      else (true, ⟨s.offset + p.length, some r.seq, s.out⟩)) := by
  have hat := recordAt hp hr.length_ge
  have hge := hr.length_ge
  have hinside := hat.inside
  have hpayload : s.offset + recordHeaderLen + (p.length - recordHeaderLen) ≤ w.file.length := by
    omega
  have hrecord : r = ⟨(RecordHeader.parse p).seq, (RecordHeader.parse p).epoch, r.op⟩ := by
    rw [← hr.seq, ← hr.epoch_eq]
  unfold readRecord
  rw [readExact_ok (by omega)]
  dsimp only
  rw [hat.header, hr.recordLen, hfile, if_neg (hr.in_bounds hat), if_neg hr.not_fenced,
    if_neg hr.monotonic, readExact_ok hpayload]
  dsimp only
  rw [hat.payload, if_neg (not_not_intro hr.crc), ← hr.seq, hr.op]
  by_cases hlo : lo ≤ r.seq
  · rw [if_pos hlo, if_pos hlo]
    by_cases hhi : hi < r.seq
    · rw [if_pos hhi, if_pos hhi]
    · rw [if_neg hhi, if_neg hhi, ← hr.epoch_eq]
  · rw [if_neg hlo, if_neg hlo]

theorem readFrom_step (lo hi : ℕ) {s : ReadState} {p l : List UInt8} {r : WalRecord}
    (hfile : w.fileLen = w.file.length) (hr : IsRecord k w.headerEpoch s.prevSeq p r)
    (hdrop : w.file.drop s.offset = p ++ l) :
    readFrom k w lo hi s =
      if lo ≤ r.seq then
        if hi < r.seq then .ok s.out
        else readFrom k w lo hi ⟨s.offset + p.length, some r.seq, s.out ++ [r]⟩
      else readFrom k w lo hi ⟨s.offset + p.length, some r.seq, s.out⟩ := by
  have hp : p <+: w.file.drop s.offset := hdrop ▸ List.prefix_append p l
  have hge := hr.length_ge
  have hinside := (recordAt hp hge).inside
  have hread := readRecord_eq lo hi hfile hr hp
  rw [readFrom, if_pos (by omega)]
  split
  · rename_i h
    rw [hread] at h
    exact absurd h (by simp)
  · rename_i s' h
    rw [hread] at h
    split at h
    · rename_i hlo
      rw [if_pos hlo]
      split at h
      · rename_i hhi
        rw [if_pos hhi]
        simp only [Except.ok.injEq, Prod.mk.injEq, true_and] at h
        rw [h]
      · exact absurd h (by simp)
    · exact absurd h (by simp)
  · rename_i s' h
    rw [hread] at h
    split at h
    · rename_i hlo
      rw [if_pos hlo]
      split at h
      · exact absurd h (by simp)
      · rename_i hhi
        rw [if_neg hhi]
        simp only [Except.ok.injEq, Prod.mk.injEq, true_and] at h
        rw [h]
    · rename_i hlo
      rw [if_neg hlo]
      simp only [Except.ok.injEq, Prod.mk.injEq, true_and] at h
      rw [h]

/-- The records the read primitive returns. -/
def inRange (lo hi : ℕ) (r : WalRecord) : Bool := decide (lo ≤ r.seq) && decide (r.seq ≤ hi)

theorem readFrom_eq (lo hi : ℕ) (hfile : w.fileLen = w.file.length) {body : List UInt8}
    {rs : List WalRecord} {prev : Option ℕ} (h : Records k w.headerEpoch prev body rs)
    (offset : ℕ) (out : List WalRecord) (hdrop : w.file.drop offset = body) :
    readFrom k w lo hi ⟨offset, prev, out⟩ = .ok (out ++ rs.filter (inRange lo hi)) := by
  induction h generalizing offset out with
  | nil =>
      have hle := List.drop_eq_nil_iff.mp hdrop
      have hpos : 0 < recordHeaderLen := by decide
      rw [readFrom, if_neg (by simp only; omega), List.filter_nil, List.append_nil]
  | @cons prev p l r rs hr hrs ih =>
      have hnext : w.file.drop (offset + p.length) = l := by
        rw [← List.drop_drop, hdrop, List.drop_left]
      rw [readFrom_step lo hi (s := ⟨offset, prev, out⟩) hfile hr hdrop]
      by_cases hlo : lo ≤ r.seq
      · rw [if_pos hlo]
        by_cases hhi : hi < r.seq
        · rw [if_pos hhi, List.filter_eq_nil_iff.mpr, List.append_nil]
          intro r' hr'
          have hlt : hi < r'.seq := by
            rcases List.mem_cons.mp hr' with rfl | hmem
            · exact hhi
            · exact hhi.trans (Records.seq_gt hrs r' hmem r.seq rfl)
          simp [inRange, hlt]
        · rw [if_neg hhi]
          have hin : inRange lo hi r = true := by simp [inRange, hlo, Nat.le_of_not_lt hhi]
          have := ih (offset + p.length) (out ++ [r]) hnext
          rw [List.append_assoc, List.singleton_append] at this
          rw [List.filter_cons_of_pos hin]
          exact this
      · rw [if_neg hlo]
        have hout : ¬ inRange lo hi r = true := by simp [inRange, hlo]
        rw [List.filter_cons_of_neg hout]
        exact ih (offset + p.length) out hnext

theorem Holds.readRange {epoch : ℕ} {rs : List WalRecord} (h : w.Holds k epoch rs)
    (lo hi : ℕ) :
    w.readRange k lo hi = .ok (rs.filter (inRange lo hi)) := by
  obtain ⟨body, hfile, hrs⟩ := h.file
  unfold Wal.readRange
  split
  · rename_i hlt
    rw [List.filter_eq_nil_iff.mpr]
    intro r _ hr
    simp only [inRange, Bool.and_eq_true, decide_eq_true_eq] at hr
    omega
  · have := readFrom_eq lo hi h.fileLen (h.headerEpoch ▸ hrs) headerLen []
      (by rw [hfile, ← length_buildHeader k epoch, List.drop_left])
    rwa [List.nil_append] at this

end Wal

end Rekha.Framed
