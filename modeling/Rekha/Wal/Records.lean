import Rekha.Wal.File

/-!
# Log records as frames

Well-formed records are self-delimiting frames in the context of the previous
seq. One iteration of the scan takes exactly one well-formed record off the
front of what is left, so the scan ends after the longest prefix that is a
concatenation of them.
-/

namespace Rekha.Framed

open Bytes

/-! ## Slices -/

theorem slice_zero (l : List UInt8) (n : ℕ) : slice l 0 n = l.take n := rfl

theorem slice_append_left {l m : List UInt8} {offset n : ℕ} (h : offset + n ≤ l.length) :
    slice (l ++ m) offset n = slice l offset n := by
  unfold slice
  rw [List.drop_append_of_le_length (by omega), List.take_append_of_le_length]
  rw [List.length_drop]
  omega

theorem slice_append_right {l m : List UInt8} {offset n : ℕ} (hl : l.length = offset)
    (hm : m.length = n) : slice (l ++ m) offset n = m := by
  unfold slice
  rw [← hl, List.drop_left, List.take_of_length_le hm.le]

theorem slice_self {l : List UInt8} {n : ℕ} (h : l.length = n) : slice l 0 n = l := by
  rw [slice_zero, List.take_of_length_le h.le]

theorem length_slice {l : List UInt8} {offset n : ℕ} (h : offset + n ≤ l.length) :
    (slice l offset n).length = n := by
  unfold slice
  rw [List.length_take, List.length_drop]
  omega

theorem slice_take {l : List UInt8} {offset n m : ℕ} (h : offset + n ≤ m) :
    slice (l.take m) offset n = slice l offset n := by
  unfold slice
  rw [List.drop_take, List.take_take, Nat.min_eq_left (by omega)]

theorem readExact_ok {file : List UInt8} {offset n : ℕ} (h : offset + n ≤ file.length) :
    readExact file offset n = .ok (slice file offset n) :=
  if_pos h

/-! ## Header -/

@[simp] theorem length_headerFields (epoch : ℕ) : (headerFields epoch).length = 14 := by
  simp [headerFields, magic]

@[simp] theorem length_buildHeader (k : Codec) (epoch : ℕ) :
    (buildHeader k epoch).length = headerLen := by
  simp [buildHeader, headerLen]

theorem readAndVerifyHeader_buildHeader (k : Codec) (epoch : UInt64) (body : List UInt8) :
    readAndVerifyHeader k (buildHeader k epoch.toNat ++ body) = .ok epoch.toNat := by
  have hlen : ¬ (buildHeader k epoch.toNat ++ body).length < headerLen := by
    rw [List.length_append, length_buildHeader]
    omega
  have hfields : slice (buildHeader k epoch.toNat ++ body) 0 14 = headerFields epoch.toNat := by
    rw [slice_append_left (by simp [headerLen]), buildHeader, slice_append_left (by simp),
      slice_self (by simp)]
  have hmagic : slice (buildHeader k epoch.toNat ++ body) 0 4 = magic := by
    rw [← slice_take (m := 14) (by omega), ← slice_zero, hfields, headerFields,
      slice_append_left (by simp [magic]), slice_append_left (by simp [magic])]
    rfl
  have hversion : ofLe (slice (buildHeader k epoch.toNat ++ body) 4 2) = version := by
    rw [← slice_take (m := 14) (by omega), ← slice_zero, hfields, headerFields,
      slice_append_left (by simp [magic]), slice_append_right (by simp [magic]) (by simp)]
    exact ofLe_toLe _ _ (by decide)
  have hcrc : ofLe (slice (buildHeader k epoch.toNat ++ body) 14 4) =
      (k.hash (headerFields epoch.toNat)).toNat := by
    rw [slice_append_left (by simp [headerLen]), buildHeader,
      slice_append_right (by simp) (by simp)]
    exact ofLe_toLe _ _ (UInt32.toNat_lt _)
  have hepoch : ofLe (slice (buildHeader k epoch.toNat ++ body) 6 8) = epoch.toNat := by
    rw [← slice_take (m := 14) (by omega), ← slice_zero, hfields, headerFields,
      slice_append_right (by simp [magic]) (by simp)]
    exact ofLe_toLe _ _ (UInt64.toNat_lt _)
  unfold readAndVerifyHeader
  rw [if_neg hlen, if_neg (not_not_intro hmagic), if_neg (not_not_intro hversion), hfields,
    if_neg (not_not_intro hcrc), hepoch]

/-! ## Records as frames -/

theorem RecordHeader.parse_take {l : List UInt8} {n : ℕ} (h : recordHeaderLen ≤ n) :
    parse (l.take n) = parse l := by
  unfold recordHeaderLen at h
  unfold parse
  rw [slice_take (by omega), slice_take (by omega), slice_take (by omega),
    slice_take (by omega)]

theorem RecordHeader.parse_prefix {p l : List UInt8} (hp : p <+: l)
    (h : recordHeaderLen ≤ p.length) : parse p = parse l := by
  rw [List.prefix_iff_eq_take.mp hp, parse_take h]

/-- What the three loops read of a record `p` found at `offset`. -/
structure RecordAt (file : List UInt8) (offset : ℕ) (p : List UInt8) : Prop where
  inside : offset + p.length ≤ file.length
  header : RecordHeader.parse (slice file offset recordHeaderLen) = RecordHeader.parse p
  payload : slice file (offset + recordHeaderLen) (p.length - recordHeaderLen) =
    p.drop recordHeaderLen
  whole : slice file offset p.length = p

theorem recordAt {file p : List UInt8} {offset : ℕ} (hp : p <+: file.drop offset)
    (h : recordHeaderLen ≤ p.length) : RecordAt file offset p := by
  have hwhole : slice file offset p.length = p := (List.prefix_iff_eq_take.mp hp).symm
  refine ⟨?_, ?_, ?_, hwhole⟩
  · have hle := hp.length_le
    rw [List.length_drop] at hle
    unfold recordHeaderLen at h
    omega
  · rw [RecordHeader.parse_prefix hp h]
    exact RecordHeader.parse_take (Nat.le_refl _)
  · conv_rhs => rw [← hwhole]
    unfold slice
    rw [List.drop_take, List.drop_drop]

namespace IsRecord

variable {k : Codec} {e : ℕ} {prev : Option ℕ} {p : List UInt8} {r : WalRecord}

theorem in_bounds (h : IsRecord k e prev p r) {file : List UInt8} {offset : ℕ}
    (hat : RecordAt file offset p) :
    ¬ (p.length < recordHeaderLen ∨ file.length < offset + p.length) := by
  rw [not_or]
  exact ⟨Nat.not_lt.mpr h.length_ge, Nat.not_lt.mpr hat.inside⟩

theorem not_fenced (h : IsRecord k e prev p r) : ¬ (RecordHeader.parse p).epoch < e := by
  rw [← h.epoch_eq]
  exact Nat.not_lt.mpr h.epoch_ge

theorem monotonic (h : IsRecord k e prev p r) :
    ¬ (prev.any fun q => decide ((RecordHeader.parse p).seq ≤ q)) = true := by
  rw [← h.seq]
  cases prev with
  | none => simp
  | some q =>
      have hlt := h.seq_gt q rfl
      simpa using hlt

theorem seq_lt (h : IsRecord k e prev p r) : r.seq < 2 ^ 64 := by
  rw [h.seq]
  have hlt := ofLe_lt (slice p 8 8)
  have hlen := h.length_ge
  unfold recordHeaderLen at hlen
  rw [length_slice (by omega)] at hlt
  exact hlt

end IsRecord

/-- Well-formed records of a file with header epoch `epoch`. -/
def recordFraming (k : Codec) (epoch : ℕ) : Framing UInt8 WalRecord (Option ℕ) where
  IsFrame := IsRecord k epoch
  next r := some r.seq
  ne_nil := by
    intro prev p r h hnil
    have hlen := h.length_ge
    rw [hnil] at hlen
    exact absurd hlen (by decide)
  unique := by
    intro prev p q b c l hb hc hp hq
    have hparse : RecordHeader.parse p = RecordHeader.parse q := by
      rw [RecordHeader.parse_prefix hp hb.length_ge, RecordHeader.parse_prefix hq hc.length_ge]
    have hlen : p.length = q.length := by rw [← hb.recordLen, ← hc.recordLen, hparse]
    have hpq : p = q := by
      rw [List.prefix_iff_eq_take.mp hp, List.prefix_iff_eq_take.mp hq, hlen]
    subst hpq
    refine ⟨rfl, ?_⟩
    have hop : b.op = c.op := Option.some.inj (hb.op.symm.trans hc.op)
    have hseq : b.seq = c.seq := hb.seq.trans hc.seq.symm
    have hepoch : b.epoch = c.epoch := hb.epoch_eq.trans hc.epoch_eq.symm
    cases b
    cases c
    simp only at hop hseq hepoch
    subst hop hseq hepoch
    rfl

/-- One iteration of the scan: exactly one well-formed record is taken off the
front of what is left. -/
theorem scanRecord_eq_some_iff {k : Codec} {file : List UInt8} {e : ℕ} {s s' : ScanState} :
    scanRecord k file e s = some s' ↔ ∃ p r, IsRecord k e s.prevSeq p r ∧
      p <+: file.drop s.offset ∧
      s' = ⟨s.offset + p.length, s.count + 1, r.seq, some r.seq⟩ := by
  have hhdr : RecordHeader.parse (slice file s.offset recordHeaderLen) =
      RecordHeader.parse (file.drop s.offset) := RecordHeader.parse_take (Nat.le_refl _)
  constructor
  · intro h
    unfold scanRecord at h
    dsimp only at h
    rw [hhdr] at h
    generalize hdr_eq : RecordHeader.parse (file.drop s.offset) = hdr at h
    split at h
    · exact absurd h (by simp)
    rename_i hlen
    rw [not_or, Nat.not_lt, Nat.not_lt] at hlen
    split at h
    · exact absurd h (by simp)
    rename_i hepoch
    split at h
    · exact absurd h (by simp)
    rename_i hseq
    split at h
    · exact absurd h (by simp)
    rename_i hcrc
    split at h
    · exact absurd h (by simp)
    rename_i hop
    obtain ⟨op, hop⟩ := Option.ne_none_iff_exists'.mp (by simpa using hop)
    have hp : (slice file s.offset hdr.recordLen).length = hdr.recordLen := length_slice hlen.2
    have hparse : RecordHeader.parse (slice file s.offset hdr.recordLen) = hdr := by
      rw [← hdr_eq]
      exact RecordHeader.parse_take (by rw [hdr_eq]; exact hlen.1)
    have hpayload : (slice file s.offset hdr.recordLen).drop recordHeaderLen =
        slice file (s.offset + recordHeaderLen) (hdr.recordLen - recordHeaderLen) := by
      unfold slice
      rw [List.drop_take, List.drop_drop]
    refine ⟨slice file s.offset hdr.recordLen, ⟨hdr.seq, hdr.epoch, op⟩, ?_,
      List.take_prefix _ _, ?_⟩
    · refine ⟨?_, ?_, Nat.le_of_not_lt hepoch, ?_, ?_, ?_, ?_, ?_⟩
      · rw [hp]
        exact hlen.1
      · rw [hp, hparse]
      · intro p hprev
        rw [hprev] at hseq
        simpa using hseq
      · rw [hpayload, hparse]
        exact not_not.mp hcrc
      · rw [hpayload]
        exact hop
      · rw [hparse]
      · rw [hparse]
    · rw [hp]
      exact (Option.some.inj h).symm
  · rintro ⟨p, r, hr, hp, rfl⟩
    have hat := recordAt hp hr.length_ge
    unfold scanRecord
    dsimp only
    rw [hat.header, hr.recordLen, if_neg (hr.in_bounds hat), if_neg hr.not_fenced,
      if_neg hr.monotonic, hat.payload, if_neg (not_not_intro hr.crc),
      if_neg (by rw [hr.op]; simp), hr.seq]

/-! ## The scan -/

/-- Seq of the last record, `0` without one. -/
def lastSeqOf (rs : List WalRecord) : ℕ := (rs.getLast?.map WalRecord.seq).getD 0

/-- The records of a file body that starts in context `prev`. -/
abbrev Records (k : Codec) (epoch : ℕ) : Option ℕ → List UInt8 → List WalRecord → Prop :=
  (recordFraming k epoch).Frames

theorem stuck_of_short {k : Codec} {e : ℕ} {prev : Option ℕ} {l : List UInt8}
    (h : l.length < recordHeaderLen) : (recordFraming k e).Stuck prev l := by
  intro p r hr hp
  have hlen := IsRecord.length_ge hr
  have hle := hp.length_le
  omega

theorem scanFrom_spec (k : Codec) (file : List UInt8) (e : ℕ) (s : ScanState)
    (hs : s.offset ≤ file.length) :
    ∃ p rs, p <+: file.drop s.offset ∧ Records k e s.prevSeq p rs ∧
      (recordFraming k e).Stuck ((recordFraming k e).after s.prevSeq rs)
        (file.drop (s.offset + p.length)) ∧
      (scanFrom k file e s).offset = s.offset + p.length ∧
      (scanFrom k file e s).count = s.count + rs.length ∧
      (scanFrom k file e s).lastSeq = (rs.getLast?.map WalRecord.seq).getD s.lastSeq := by
  induction s using scanFrom.induct k file e with
  | case1 s hlen hnone =>
      refine ⟨[], [], List.nil_prefix, .nil, ?_, ?_⟩
      · intro p r hr hp
        have hsome := scanRecord_eq_some_iff.mpr ⟨p, r, hr, hp, rfl⟩
        rw [hnone] at hsome
        exact absurd hsome (by simp)
      · rw [scanFrom, if_pos hlen]
        split
        · exact ⟨rfl, rfl, rfl⟩
        · rename_i hsome
          rw [hnone] at hsome
          exact absurd hsome (by simp)
  | case2 s hlen s' hsome ih =>
      -- one more record in front; the rest is the induction hypothesis at the next offset
      obtain ⟨p, r, hr, hp, rfl⟩ := scanRecord_eq_some_iff.mp hsome
      obtain ⟨q, rs, hq, hrs, hstuck, hoffset, hcount, hlast⟩ := ih (scanRecord_advances hsome).2
      have heq : scanFrom k file e s =
          scanFrom k file e ⟨s.offset + p.length, s.count + 1, r.seq, some r.seq⟩ := by
        conv_lhs => rw [scanFrom, if_pos hlen]
        split
        · rename_i hnone
          rw [hsome] at hnone
          exact absurd hnone (by simp)
        · rename_i s'' hs''
          rw [hsome] at hs''
          rw [Option.some.inj hs'']
      obtain ⟨t, ht⟩ := hp
      have hdrop : file.drop (s.offset + p.length) = t := by
        rw [← List.drop_drop, ← ht, List.drop_left]
      refine ⟨p ++ q, r :: rs, ?_, .cons hr hrs, ?_, ?_, ?_, ?_⟩
      · rw [← ht]
        rw [hdrop] at hq
        exact (List.prefix_append_right_inj p).mpr hq
      · rw [List.length_append, ← Nat.add_assoc]
        exact hstuck
      · rw [heq, hoffset, List.length_append, Nat.add_assoc]
      · rw [heq, hcount, List.length_cons]
        exact Nat.add_right_comm s.count 1 rs.length
      · rw [heq, hlast]
        cases rs with
        | nil => rfl
        | cons a l => rw [List.getLast?_cons_cons]; simp [List.getLast?_cons]
  | case3 s hlen =>
      refine ⟨[], [], List.nil_prefix, .nil, ?_, ?_⟩
      · apply stuck_of_short
        rw [List.length_drop, List.length_nil]
        omega
      · rw [scanFrom, if_neg hlen]
        exact ⟨rfl, rfl, rfl⟩

/-- Recovery keeps the header and the longest prefix of the body that is a
concatenation of well-formed records. -/
theorem recover_longest (k : Codec) (e : ℕ) (header body : List UInt8)
    (hheader : header.length = headerLen) :
    ∃ p rs, (recordFraming k e).Longest none body p rs ∧
      recover k (header ++ body) e =
        ⟨header ++ p, headerLen + p.length, rs.length, lastSeqOf rs⟩ := by
  obtain ⟨p, rs, hp, hrs, hstuck, hoffset, hcount, hlast⟩ :=
    scanFrom_spec k (header ++ body) e ⟨headerLen, 0, 0, none⟩
      (by rw [List.length_append, hheader]; exact Nat.le_add_right _ _)
  simp only [← hheader, List.drop_left, Nat.zero_add] at hp hstuck hoffset hcount hlast
  obtain ⟨t, rfl⟩ := hp
  rw [← List.drop_drop, List.drop_left, List.drop_left] at hstuck
  refine ⟨p, rs, hrs.longest hstuck, ?_⟩
  have hscan : scan k (header ++ (p ++ t)) e =
      scanFrom k (header ++ (p ++ t)) e ⟨header.length, 0, 0, none⟩ := by
    rw [hheader]
    rfl
  have hfile : (if (scan k (header ++ (p ++ t)) e).offset ≠ (header ++ (p ++ t)).length then
      (header ++ (p ++ t)).take (scan k (header ++ (p ++ t)) e).offset
      else header ++ (p ++ t)) = header ++ p := by
    rw [hscan, hoffset]
    split
    · rw [List.take_length_add_append, List.take_left]
    · rename_i heq
      rw [not_not, List.length_append, List.length_append] at heq
      have hnil : t = [] := List.length_eq_zero_iff.mp (by omega)
      rw [hnil, List.append_nil]
  unfold recover
  dsimp only
  rw [hfile, hscan, hoffset, hcount, hlast, hheader]
  rfl

theorem recover_records {k : Codec} {e : ℕ} {header body : List UInt8} {rs : List WalRecord}
    (hheader : header.length = headerLen) (h : Records k e none body rs) :
    recover k (header ++ body) e =
      ⟨header ++ body, headerLen + body.length, rs.length, lastSeqOf rs⟩ := by
  obtain ⟨p, rs', hp, heq⟩ := recover_longest k e header body hheader
  obtain ⟨rfl, rfl⟩ := h.longest_self.unique hp
  exact heq

/-! ## The records of a file -/

theorem Records.seq_gt {k : Codec} {e : ℕ} {prev : Option ℕ} {body : List UInt8}
    {rs : List WalRecord} (h : Records k e prev body rs) :
    ∀ r ∈ rs, ∀ p, prev = some p → p < r.seq := by
  induction h with
  | nil =>
      intro r hr
      exact absurd hr (by simp)
  | @cons prev p l r rs hr _ ih =>
      intro r' hr' q hq
      have hlt := hr.seq_gt q hq
      rcases List.mem_cons.mp hr' with rfl | hmem
      · exact hlt
      · exact hlt.trans (ih r' hmem r.seq rfl)

theorem Records.increasing {k : Codec} {e : ℕ} {prev : Option ℕ} {body : List UInt8}
    {rs : List WalRecord} (h : Records k e prev body rs) :
    rs.Pairwise fun a b => a.seq < b.seq := by
  induction h with
  | nil => exact List.Pairwise.nil
  | @cons prev p l r rs _ hrs ih =>
      exact List.pairwise_cons.mpr ⟨fun r' hr' => Records.seq_gt hrs r' hr' r.seq rfl, ih⟩

theorem Records.seq_lt {k : Codec} {e : ℕ} {prev : Option ℕ} {body : List UInt8}
    {rs : List WalRecord} (h : Records k e prev body rs) : ∀ r ∈ rs, r.seq < 2 ^ 64 := by
  induction h with
  | nil =>
      intro r hr
      exact absurd hr (by simp)
  | cons hr _ ih =>
      intro r' hr'
      rcases List.mem_cons.mp hr' with rfl | hmem
      · exact hr.seq_lt
      · exact ih r' hmem

theorem Records.weaken {k : Codec} {e : ℕ} {prev prev' : Option ℕ} {body : List UInt8}
    {rs : List WalRecord} (h : Records k e prev body rs)
    (hle : ∀ q, prev' = some q → ∃ p, prev = some p ∧ q ≤ p) : Records k e prev' body rs := by
  cases h with
  | nil => exact .nil
  | @cons _ p l r rs hr hrs =>
      refine .cons { hr with seq_gt := ?_ } hrs
      intro q hq
      obtain ⟨p', hp', hqp⟩ := hle q hq
      exact hqp.trans_lt (hr.seq_gt p' hp')

end Rekha.Framed
