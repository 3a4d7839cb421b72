import Rekha.Lib.Outcome
import Rekha.Wal.Handle

/-!
# Opening, appending and pruning

On a handle that agrees with its file, each operation leaves a handle that
agrees with its file, holding the records the operation should leave.
-/

namespace Rekha.Framed

open Bytes

/-- A payload that fits a record decodes to the operation it was encoded from. -/
def Codec.RoundTrips (k : Codec) : Prop :=
  ∀ op, recordHeaderLen + (k.serialize op).length < 2 ^ 32 →
    k.deserialize (k.serialize op) = some op

theorem length_encodeRecord (k : Codec) (r : WalRecord) :
    (encodeRecord k r).length = recordHeaderLen + (k.serialize r.op).length := by
  simp only [encodeRecord, List.length_append, length_toLe, recordHeaderLen]

theorem encodeRecord_isRecord {k : Codec} {epoch : ℕ} {prev : Option ℕ} {r : WalRecord}
    (hround : k.deserialize (k.serialize r.op) = some r.op)
    (hfit : recordHeaderLen + (k.serialize r.op).length < 2 ^ 32) (hseq : r.seq < 2 ^ 64)
    (hepoch : r.epoch < 2 ^ 64) (hge : epoch ≤ r.epoch)
    (hprev : ∀ p, prev = some p → p < r.seq) :
    IsRecord k epoch prev (encodeRecord k r) r := by
  have hlen := length_encodeRecord k r
  have hpayload : (encodeRecord k r).drop recordHeaderLen = k.serialize r.op := by
    unfold encodeRecord
    exact List.drop_left' (by simp [recordHeaderLen])
  have hrecordLen : ofLe (slice (encodeRecord k r) 0 4) = (encodeRecord k r).length := by
    rw [hlen]
    unfold encodeRecord
    rw [slice_append_left (by simp), slice_append_left (by simp), slice_append_left (by simp),
      slice_append_left (by simp), slice_self (by simp)]
    exact ofLe_toLe _ _ hfit
  have hcrc : ofLe (slice (encodeRecord k r) 4 4) = (k.hash (k.serialize r.op)).toNat := by
    unfold encodeRecord
    rw [slice_append_left (by simp), slice_append_left (by simp), slice_append_left (by simp),
      slice_append_right (by simp) (by simp)]
    exact ofLe_toLe _ _ (UInt32.toNat_lt _)
  have hseq' : ofLe (slice (encodeRecord k r) 8 8) = r.seq := by
    unfold encodeRecord
    rw [slice_append_left (by simp), slice_append_left (by simp),
      slice_append_right (by simp) (by simp)]
    exact ofLe_toLe _ _ hseq
  have hepoch' : ofLe (slice (encodeRecord k r) 16 8) = r.epoch := by
    unfold encodeRecord
    rw [slice_append_left (by simp), slice_append_right (by simp) (by simp)]
    exact ofLe_toLe _ _ hepoch
  refine ⟨?_, hrecordLen, hge, hprev, ?_, ?_, hseq'.symm, hepoch'.symm⟩
  · rw [hlen]
    exact Nat.le_add_right _ _
  · rw [hpayload]
    exact hcrc.symm
  · rw [hpayload]
    exact hround

theorem writeAt_end (file buf : List UInt8) : writeAt file file.length buf = file ++ buf := by
  unfold writeAt
  rw [Nat.sub_self, List.replicate_zero, List.append_nil, List.take_length,
    List.drop_eq_nil_of_le (Nat.le_add_right _ _), List.append_nil]

theorem after_eq (k : Codec) (e : ℕ) (prev : Option ℕ) (rs : List WalRecord) :
    (recordFraming k e).after prev rs = (rs.getLast?.map WalRecord.seq).or prev := by
  induction rs generalizing prev with
  | nil => rfl
  | cons r rs ih =>
      show (recordFraming k e).after (some r.seq) rs = _
      rw [ih, List.getLast?_cons]
      cases rs.getLast? <;> rfl

/-- Where the next append resumes: after the last record, and without records
where `startSeq` says. -/
def resumeAt (startSeq : Option ℕ) (rs : List WalRecord) : ℕ :=
  (rs.getLast?.map WalRecord.seq).getD ((startSeq.map fun n => n - 1).getD 0)

theorem resumeAt_of_ne_nil {rs : List WalRecord} (h : rs ≠ []) (startSeq : Option ℕ) :
    resumeAt startSeq rs = lastSeqOf rs := by
  obtain ⟨r, hr⟩ := Option.ne_none_iff_exists'.mp (mt List.getLast?_eq_none_iff.mp h)
  rw [resumeAt, lastSeqOf, hr]
  rfl

namespace Wal

variable {k : Codec} {checks : Bool} {w w' : Wal} {rs : List WalRecord} {op : Operation}

/-! ## Opening -/

theorem openFile_nil (k : Codec) (epoch : ℕ) (startSeq : Option ℕ) :
    openFile k [] epoch startSeq =
      .ok ⟨buildHeader k epoch, epoch, resumeAt startSeq [], 0, headerLen⟩ := rfl

theorem openFile_longest (k : Codec) (epoch : UInt64) (body : List UInt8) (epoch' : ℕ)
    (startSeq : Option ℕ) {p : List UInt8} {rs : List WalRecord}
    (h : (recordFraming k epoch.toNat).Longest none body p rs) :
    openFile k (buildHeader k epoch.toNat ++ body) epoch' startSeq =
      .ok ⟨buildHeader k epoch.toNat ++ p, epoch.toNat, resumeAt startSeq rs, rs.length,
        headerLen + p.length⟩ := by
  obtain ⟨q, cs, hq, hrecover⟩ := recover_longest k epoch.toNat _ body
    (length_buildHeader k epoch.toNat)
  obtain ⟨rfl, rfl⟩ := h.unique hq
  have hne : ¬ (buildHeader k epoch.toNat ++ body).length = 0 := by
    rw [List.length_append, length_buildHeader]
    unfold headerLen
    omega
  have hlast : (if rs.length = 0 then (startSeq.map fun n => n - 1).getD (lastSeqOf rs)
      else lastSeqOf rs) = resumeAt startSeq rs := by
    split
    · rename_i hnil
      obtain rfl := List.length_eq_zero_iff.mp hnil
      rfl
    · rename_i hnil
      exact (resumeAt_of_ne_nil (mt List.length_eq_zero_iff.mpr hnil) startSeq).symm
  unfold openFile
  rw [if_neg hne, readAndVerifyHeader_buildHeader]
  dsimp only
  rw [hrecover]
  dsimp only
  rw [hlast]

theorem holds_opened {epoch : ℕ} {body : List UInt8} (startSeq : Option ℕ)
    (h : Records k epoch none body rs) :
    Holds k ⟨buildHeader k epoch ++ body, epoch, resumeAt startSeq rs, rs.length,
      headerLen + body.length⟩ epoch rs :=
  ⟨⟨body, rfl, h⟩, rfl, rfl, by simp, fun hne => resumeAt_of_ne_nil hne startSeq⟩

theorem Holds.openFile {epoch : UInt64} (h : w.Holds k epoch.toNat rs) (epoch' : ℕ)
    (startSeq : Option ℕ) :
    openFile k w.file epoch' startSeq =
        .ok ⟨w.file, epoch.toNat, resumeAt startSeq rs, rs.length, w.file.length⟩ ∧
      Holds k ⟨w.file, epoch.toNat, resumeAt startSeq rs, rs.length, w.file.length⟩
        epoch.toNat rs := by
  obtain ⟨body, hfile, hrs⟩ := h.file
  have hopen := openFile_longest k epoch body epoch' startSeq hrs.longest_self
  have hheld := holds_opened startSeq hrs
  have hlen : headerLen + body.length = (buildHeader k epoch.toNat ++ body).length := by simp
  rw [hlen] at hopen hheld
  rw [hfile]
  exact ⟨hopen, hheld⟩

/-! ## Appending -/

theorem nextSeq_of_lt {lastSeq : ℕ} (h : lastSeq + 1 < 2 ^ 64) :
    nextSeq checks lastSeq = .ok (lastSeq + 1) :=
  if_pos h

theorem append_of_fits (checks : Bool) (hseq : w.lastSeq + 1 < 2 ^ 64)
    (hfit : recordHeaderLen + (k.serialize op).length < 2 ^ 32) :
    append k checks op w = .ok ⟨w.lastSeq + 1, w.headerEpoch, op⟩
      { w with
        file := writeAt w.file w.fileLen (encodeRecord k ⟨w.lastSeq + 1, w.headerEpoch, op⟩)
        fileLen := w.fileLen + (encodeRecord k ⟨w.lastSeq + 1, w.headerEpoch, op⟩).length
        lastSeq := w.lastSeq + 1
        len := w.len + 1 } := by
  unfold append
  rw [nextSeq_of_lt hseq]
  dsimp only
  rw [if_neg (Nat.lt_irrefl _), if_neg (by omega)]

theorem append_too_large (hseq : w.lastSeq + 1 < 2 ^ 64)
    (hfit : ¬ recordHeaderLen + (k.serialize op).length < 2 ^ 32) :
    append k checks op w = .error (.corrupt
      s!"record too large for WAL framing: {recordHeaderLen + (k.serialize op).length} bytes")
      w := by
  unfold append
  rw [nextSeq_of_lt hseq]
  dsimp only
  rw [if_neg (Nat.lt_irrefl _), if_pos (by omega)]

theorem Holds.append (checks : Bool) {epoch : UInt64} (h : w.Holds k epoch.toNat rs)
    (hround : k.RoundTrips) (hle : lastSeqOf rs ≤ w.lastSeq) (hseq : w.lastSeq + 1 < 2 ^ 64)
    (hfit : recordHeaderLen + (k.serialize op).length < 2 ^ 32) :
    ∃ w', Wal.append k checks op w = .ok ⟨w.lastSeq + 1, epoch.toNat, op⟩ w' ∧
      w'.Holds k epoch.toNat (rs ++ [⟨w.lastSeq + 1, epoch.toNat, op⟩]) ∧
      w'.lastSeq = w.lastSeq + 1 ∧
      w'.file = w.file ++ encodeRecord k ⟨w.lastSeq + 1, epoch.toNat, op⟩ := by
  obtain ⟨body, hfile, hrs⟩ := h.file
  have happend := append_of_fits checks hseq hfit
  rw [h.headerEpoch, h.fileLen, writeAt_end] at happend
  refine ⟨_, happend, ⟨⟨body ++ encodeRecord k ⟨w.lastSeq + 1, epoch.toNat, op⟩, ?_, ?_⟩,
    ?_, ?_, ?_, ?_⟩, rfl, rfl⟩
  · simp only [hfile, List.append_assoc]
  · refine hrs.snoc (encodeRecord_isRecord (hround op hfit) hfit hseq (UInt64.toNat_lt _)
      (Nat.le_refl _) ?_)
    intro p hp
    rw [after_eq, Option.or_none] at hp
    have hlast : lastSeqOf rs = p := by rw [lastSeqOf, hp]; rfl
    exact Nat.lt_succ_of_le (hlast ▸ hle)
  · rfl
  · rw [List.length_append, List.length_singleton]
    exact congrArg (· + 1) h.len
  · rw [List.length_append]
  · intro _
    rw [lastSeqOf, List.getLast?_append, List.getLast?_singleton]
    rfl

/-! ## Pruning -/

theorem copyRecord_eq (keepFrom : ℕ) (hfile : w.fileLen = w.file.length) {s : CopyState}
    {e : ℕ} {prev : Option ℕ} {p : List UInt8} {r : WalRecord} (hr : IsRecord k e prev p r)
    (hp : p <+: w.file.drop s.offset) :
    copyRecord w keepFrom s = .ok
      ⟨s.offset + p.length, if keepFrom < r.seq then s.tmp ++ p else s.tmp⟩ := by
  have hat := recordAt hp hr.length_ge
  have hge := hr.length_ge
  have hinside := hat.inside
  unfold copyRecord
  rw [readExact_ok (by omega)]
  dsimp only
  rw [hat.header, hr.recordLen, hfile, if_neg (hr.in_bounds hat), ← hr.seq]
  split
  · rw [readExact_ok hinside]
    dsimp only
    rw [hat.whole]
  · rfl

theorem copyFrom_eq (keepFrom : ℕ) (hfile : w.fileLen = w.file.length) {e : ℕ} {body : List UInt8}
    {prev : Option ℕ} (h : Records k e prev body rs) (offset : ℕ)
    (hdrop : w.file.drop offset = body) :
    ∃ kept, Records k e prev kept (rs.filter fun r => decide (keepFrom < r.seq)) ∧
      ∀ tmp, copyFrom w keepFrom ⟨offset, tmp⟩ = .ok (tmp ++ kept) := by
  induction h generalizing offset with
  | nil =>
      have hle := List.drop_eq_nil_iff.mp hdrop
      have hpos : 0 < recordHeaderLen := by decide
      refine ⟨[], .nil, ?_⟩
      intro tmp
      rw [copyFrom, if_neg (by simp only; omega), List.append_nil]
  | @cons prev p l r rs hr hrs ih =>
      have hp : p <+: w.file.drop offset := hdrop ▸ List.prefix_append p l
      have hnext : w.file.drop (offset + p.length) = l := by
        rw [← List.drop_drop, hdrop, List.drop_left]
      have hge := hr.length_ge
      have hinside := (recordAt hp hge).inside
      have hstep : ∀ tmp, copyFrom w keepFrom ⟨offset, tmp⟩ = copyFrom w keepFrom
          ⟨offset + p.length, if keepFrom < r.seq then tmp ++ p else tmp⟩ := by
        intro tmp
        have hcopy := copyRecord_eq keepFrom (s := ⟨offset, tmp⟩) hfile hr hp
        conv_lhs => rw [copyFrom, if_pos (by simp only; omega)]
        split
        · rename_i hs
          rw [hcopy] at hs
          exact absurd hs (by simp)
        · rename_i s' hs
          rw [hcopy] at hs
          rw [← Except.ok.inj hs]
      obtain ⟨kept, hkept, hcopy⟩ := ih (offset + p.length) hnext
      by_cases hlt : keepFrom < r.seq
      · refine ⟨p ++ kept, ?_, ?_⟩
        · rw [List.filter_cons_of_pos (by simpa using hlt)]
          exact .cons hr hkept
        · intro tmp
          rw [hstep, if_pos hlt, hcopy, List.append_assoc]
      · refine ⟨kept, ?_, ?_⟩
        · rw [List.filter_cons_of_neg (by simpa using hlt)]
          refine Records.weaken hkept ?_
          intro q hq
          exact ⟨r.seq, rfl, (hr.seq_gt q hq).le⟩
        · intro tmp
          rw [hstep, if_neg hlt, hcopy]

theorem reposition_holds {epoch : ℕ} {body : List UInt8} (hepoch : w.headerEpoch = epoch)
    (h : Records k epoch none body rs) :
    (w.reposition k (buildHeader k epoch ++ body)).Holds k epoch rs ∧
      (w.reposition k (buildHeader k epoch ++ body)).lastSeq = lastSeqOf rs := by
  subst hepoch
  unfold reposition
  rw [recover_records (length_buildHeader k _) h]
  exact ⟨⟨⟨body, rfl, h⟩, rfl, rfl, by simp, fun _ => rfl⟩, rfl⟩

/-- Pruning keeps the records above the watermark, and the handle resumes after
the last of them, at `0` without one. -/
theorem Holds.prune {epoch : ℕ} (h : w.Holds k epoch rs) (keepFrom : ℕ) :
    ∃ w', Wal.prune k keepFrom w = .ok () w' ∧
      w'.Holds k epoch (rs.filter fun r => decide (keepFrom < r.seq)) ∧
      w'.lastSeq = lastSeqOf (rs.filter fun r => decide (keepFrom < r.seq)) := by
  obtain ⟨body, hfile, hrs⟩ := h.file
  obtain ⟨kept, hkept, hcopy⟩ := copyFrom_eq keepFrom h.fileLen hrs headerLen
    (by rw [hfile, ← length_buildHeader k epoch, List.drop_left])
  have hpruned : w.pruned k keepFrom = .ok (buildHeader k epoch ++ kept) := by
    unfold pruned
    rw [hcopy, h.headerEpoch]
  refine ⟨w.reposition k (buildHeader k epoch ++ kept), ?_, reposition_holds h.headerEpoch hkept⟩
  unfold Wal.prune
  rw [hpruned]

end Wal

end Rekha.Framed
