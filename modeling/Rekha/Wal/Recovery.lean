import Rekha.Wal.Append
import Rekha.Wal.Bincode

/-!
# Recovery of a damaged log

Whatever follows a valid header, opening the log keeps exactly the longest
prefix of well-formed records; and of a log that was only appended to, cut
anywhere behind the header, it keeps the records that lie before the cut.
-/

namespace Rekha.Framed

open Bytes

/-- The codec with the checksum and the payload format of the log's dependencies. -/
def codec : Codec := ⟨crc32, Bincode.serialize, Bincode.deserialize⟩

theorem codec_roundTrips : codec.RoundTrips := by
  intro op hlen
  have hlt : (Bincode.serialize op).length < 2 ^ 64 := by
    have hlen' : recordHeaderLen + (Bincode.serialize op).length < 2 ^ 32 := hlen
    omega
  exact Bincode.deserialize_serialize hlt

/-- What opening a file that starts with a valid header amounts to: the handle
`w` reports exactly the records `rs` of the longest valid prefix, the file is cut
to that prefix, reading it in full returns the records, and opening it again
changes nothing. -/
structure Recovers (k : Codec) (epoch : UInt64) (file : List UInt8) (startSeq : Option ℕ)
    (rs : List WalRecord) (w : Wal) : Prop where
  opened : ∀ epoch', Wal.openFile k file epoch' startSeq = .ok w
  longest : ∃ tail valid, file = buildHeader k epoch.toNat ++ tail ∧
    (recordFraming k epoch.toNat).Longest none tail valid rs ∧
    w.file = buildHeader k epoch.toNat ++ valid
  len : w.len = rs.length
  lastSeq : w.lastSeq = resumeAt startSeq rs
  sizeBytes : w.sizeBytes = w.file.length
  read : w.readRange k 0 (2 ^ 64 - 1) = .ok rs
  reopened : ∀ epoch', Wal.openFile k w.file epoch' startSeq = .ok w

theorem exists_recovers (k : Codec) (epoch : UInt64) (tail : List UInt8)
    (startSeq : Option ℕ) :
    ∃ rs w, Recovers k epoch (buildHeader k epoch.toNat ++ tail) startSeq rs w ∧
      w.Holds k epoch.toNat rs := by
  obtain ⟨valid, rs, hlong, -⟩ := recover_longest k epoch.toNat _ tail
    (length_buildHeader k epoch.toNat)
  have hheld := Wal.holds_opened startSeq hlong.frames
  have hread : ∀ r ∈ rs, Wal.inRange 0 (2 ^ 64 - 1) r = true := by
    intro r hr
    have hlt := Records.seq_lt hlong.frames r hr
    simp only [Wal.inRange, Bool.and_eq_true, decide_eq_true_eq]
    omega
  refine ⟨rs, _, ⟨fun epoch' => Wal.openFile_longest k epoch tail epoch' startSeq hlong,
    ⟨tail, valid, rfl, hlong, rfl⟩, rfl, rfl, hheld.fileLen, ?_, ?_⟩, hheld⟩
  · rw [hheld.readRange, List.filter_eq_self.mpr hread]
  · intro epoch'
    exact Wal.openFile_longest k epoch valid epoch' startSeq hlong.frames.longest_self

/-! ## Appended logs -/

/-- Append a list of operations one after the other. -/
def appendAll (k : Codec) (checks : Bool) : List Operation → EStateM WalError Wal (List WalRecord)
  | [] => pure []
  | op :: ops => do
      let r ← Wal.append k checks op
      let rs ← appendAll k checks ops
      pure (r :: rs)

theorem fits_of_append {k : Codec} {checks : Bool} {op : Operation} {w w' : Wal} {r : WalRecord}
    (h : Wal.append k checks op w = .ok r w') :
    recordHeaderLen + (k.serialize op).length < 2 ^ 32 := by
  unfold Wal.append at h
  cases hseq : Wal.nextSeq checks w.lastSeq with
  | error e =>
      rw [hseq] at h
      exact absurd h (by simp)
  | ok seq =>
      rw [hseq] at h
      dsimp only at h
      rw [if_neg (Nat.lt_irrefl _)] at h
      split at h
      · exact absurd h (by simp)
      · omega

def encodeRecords (k : Codec) (rs : List WalRecord) : List UInt8 := rs.flatMap (encodeRecord k)

/-- Offset at which the first `n` records of an appended log end. -/
def endOf (k : Codec) (rs : List WalRecord) (n : ℕ) : ℕ :=
  headerLen + (encodeRecords k (rs.take n)).length

theorem appendAll_spec {k : Codec} {checks : Bool} (hround : k.RoundTrips) {epoch : UInt64}
    {ops : List Operation} : ∀ {w w' : Wal} {rs₀ rs : List WalRecord},
      w.Holds k epoch.toNat rs₀ → lastSeqOf rs₀ ≤ w.lastSeq →
      w.lastSeq + ops.length < 2 ^ 64 → appendAll k checks ops w = .ok rs w' →
      w'.Holds k epoch.toNat (rs₀ ++ rs) ∧ w'.file = w.file ++ encodeRecords k rs ∧
        ∀ r ∈ rs, recordHeaderLen + (k.serialize r.op).length < 2 ^ 32 ∧
          r.epoch = epoch.toNat := by
  induction ops with
  | nil =>
      intro w w' rs₀ rs hw _ _ h
      obtain ⟨rfl, rfl⟩ := Outcome.pure_ok.mp h
      rw [List.append_nil]
      exact ⟨hw, (List.append_nil _).symm, by simp⟩
  | cons op ops ih =>
      intro w w' rs₀ rs hw hle hlt h
      rw [List.length_cons] at hlt
      obtain ⟨r, w₁, hr, h⟩ := Outcome.bind_ok.mp h
      obtain ⟨rs', w₂, hrs', h⟩ := Outcome.bind_ok.mp h
      obtain ⟨rfl, rfl⟩ := Outcome.pure_ok.mp h
      have hfit := fits_of_append hr
      obtain ⟨w₁', hr', hheld, hlast, hfile⟩ :=
        hw.append checks hround hle (by omega) hfit
      rw [hr'] at hr
      simp only [EStateM.Result.ok.injEq] at hr
      obtain ⟨rfl, rfl⟩ := hr
      have hle' : lastSeqOf (rs₀ ++ [⟨w.lastSeq + 1, epoch.toNat, op⟩]) ≤ w₁'.lastSeq := by
        rw [lastSeqOf, List.getLast?_append, List.getLast?_singleton, hlast]
        exact Nat.le_refl _
      obtain ⟨hheld', hfile', hall⟩ := ih hheld hle' (by omega) hrs'
      refine ⟨?_, ?_, ?_⟩
      · rw [List.append_assoc] at hheld'
        exact hheld'
      · rw [hfile', hfile, List.append_assoc]
        rfl
      · intro r' hr'
        rcases List.mem_cons.mp hr' with rfl | hmem
        · exact ⟨hfit, rfl⟩
        · exact hall r' hmem

theorem records_encodeRecords {k : Codec} (hround : k.RoundTrips) {epoch : UInt64}
    {rs : List WalRecord} : ∀ {prev : Option ℕ},
      (∀ r ∈ rs, recordHeaderLen + (k.serialize r.op).length < 2 ^ 32 ∧
        r.epoch = epoch.toNat) →
      (∀ r ∈ rs, r.seq < 2 ^ 64) → (rs.Pairwise fun a b => a.seq < b.seq) →
      (∀ r ∈ rs, ∀ p, prev = some p → p < r.seq) →
      Records k epoch.toNat prev (encodeRecords k rs) rs := by
  induction rs with
  | nil =>
      intro prev _ _ _ _
      exact .nil
  | cons r rs ih =>
      intro prev hall hseq hinc hprev
      obtain ⟨hfit, hepoch⟩ := hall r List.mem_cons_self
      obtain ⟨hfirst, hrest⟩ := List.pairwise_cons.mp hinc
      refine .cons ?_ (ih (fun a ha => hall a (List.mem_cons_of_mem r ha))
        (fun a ha => hseq a (List.mem_cons_of_mem r ha)) hrest ?_)
      · exact encodeRecord_isRecord (hround r.op hfit) hfit (hseq r List.mem_cons_self)
          (hepoch ▸ epoch.toNat_lt) hepoch.ge (hprev r List.mem_cons_self)
      · intro a ha p hp
        obtain rfl := Option.some.inj hp
        exact hfirst a ha

theorem take_encodeRecords {k : Codec} (hround : k.RoundTrips) {epoch : UInt64}
    {rs : List WalRecord}
    (hall : ∀ r ∈ rs, recordHeaderLen + (k.serialize r.op).length < 2 ^ 32 ∧
      r.epoch = epoch.toNat)
    (hseq : ∀ r ∈ rs, r.seq < 2 ^ 64) (hinc : rs.Pairwise fun a b => a.seq < b.seq) (n : ℕ) :
    Records k epoch.toNat none (encodeRecords k (rs.take n)) (rs.take n) ∧
      encodeRecords k (rs.take n) <+: encodeRecords k rs := by
  constructor
  · refine records_encodeRecords hround ?_ ?_ (hinc.sublist (List.take_sublist n rs)) ?_
    · intro r hr
      exact hall r (List.mem_of_mem_take hr)
    · intro r hr
      exact hseq r (List.mem_of_mem_take hr)
    · intro r _ p hp
      exact absurd hp (by simp)
  · refine ⟨encodeRecords k (rs.drop n), ?_⟩
    rw [encodeRecords, encodeRecords, encodeRecords, ← List.flatMap_append,
      List.take_append_drop]

/-- A log of encodable records cut at `cut`: recovery keeps those that end at or
before the cut. -/
theorem cut_recovers {k : Codec} (hround : k.RoundTrips) {epoch : UInt64} {rs : List WalRecord}
    (hall : ∀ r ∈ rs, recordHeaderLen + (k.serialize r.op).length < 2 ^ 32 ∧
      r.epoch = epoch.toNat)
    (hseq : ∀ r ∈ rs, r.seq < 2 ^ 64) (hinc : rs.Pairwise fun a b => a.seq < b.seq)
    {cut : ℕ} (hcut : headerLen ≤ cut) (startSeq : Option ℕ) :
    ∃ n w, n ≤ rs.length ∧ endOf k rs n ≤ cut ∧ (n < rs.length → cut < endOf k rs (n + 1)) ∧
      Recovers k epoch ((buildHeader k epoch.toNat ++ encodeRecords k rs).take cut) startSeq
        (rs.take n) w ∧ w.Holds k epoch.toNat (rs.take n) := by
  have htake := take_encodeRecords hround hall hseq hinc
  have hbody : Records k epoch.toNat none (encodeRecords k rs) rs := by
    have := (htake rs.length).1
    rwa [List.take_length] at this
  have hfile : (buildHeader k epoch.toNat ++ encodeRecords k rs).take cut =
      buildHeader k epoch.toNat ++ (encodeRecords k rs).take (cut - headerLen) := by
    rw [List.take_append, List.take_of_length_le (by rw [length_buildHeader]; exact hcut),
      length_buildHeader]
  obtain ⟨rs', w, hrec, hheld⟩ :=
    exists_recovers k epoch ((encodeRecords k rs).take (cut - headerLen)) startSeq
  obtain ⟨tail, valid, htail, hlong, -⟩ := hrec.longest
  obtain rfl := List.append_cancel_left htail
  obtain ⟨n, hn, rfl, hlen, hnext⟩ := Framing.Frames.cut hbody hlong
  have hvalid : valid = encodeRecords k (rs.take n) :=
    (Framing.Frames.ext hlong.frames (htake n).1
      (hlong.isPrefix.trans (List.take_prefix _ _)) (htake n).2 rfl).1
  refine ⟨n, w, hn, ?_, ?_, hfile ▸ hrec, hheld⟩
  · rw [endOf, ← hvalid]
    omega
  · intro hlt
    have := hnext _ (htake (n + 1)).1 (htake (n + 1)).2 hlt
    rw [endOf]
    omega

/-- Recovery keeps exactly the longest valid prefix of whatever follows the
header; and of an appended log cut anywhere behind the header, exactly the
records before the cut, with the next append resuming after them. -/
theorem open_keeps_longest_prefix (k : Codec) (epoch : UInt64) :
    (∀ tail startSeq, ∃ rs w,
      Recovers k epoch (buildHeader k epoch.toNat ++ tail) startSeq rs w) ∧
    (k.RoundTrips → ∀ checks ops start w₀ w₁ rs,
      Wal.openFile k [] epoch.toNat start = .ok w₀ → appendAll k checks ops w₀ = .ok rs w₁ →
      w₀.lastSeq + ops.length < 2 ^ 64 → ∀ cut startSeq, headerLen ≤ cut →
      ∃ n w, n ≤ rs.length ∧ endOf k rs n ≤ cut ∧ (n < rs.length → cut < endOf k rs (n + 1)) ∧
        Recovers k epoch (w₁.file.take cut) startSeq (rs.take n) w ∧
        ∀ op, recordHeaderLen + (k.serialize op).length < 2 ^ 32 → w.lastSeq + 1 < 2 ^ 64 →
          ∃ w', Wal.append k checks op w = .ok ⟨w.lastSeq + 1, epoch.toNat, op⟩ w') := by
  constructor
  · intro tail startSeq
    obtain ⟨rs, w, hrec, -⟩ := exists_recovers k epoch tail startSeq
    exact ⟨rs, w, hrec⟩
  · intro hround checks ops start w₀ w₁ rs hopen happend hlt cut startSeq hcut
    rw [Wal.openFile_nil] at hopen
    obtain rfl := Except.ok.inj hopen
    have hfresh := @Wal.holds_opened k [] epoch.toNat [] start .nil
    rw [List.append_nil] at hfresh
    obtain ⟨hheld, hfile, hall⟩ :=
      appendAll_spec hround hfresh (Nat.zero_le _) hlt happend
    obtain ⟨body, -, hbody⟩ := hheld.file
    rw [List.nil_append] at hbody
    obtain ⟨n, w, hn, hend, hnext, hrec, hw⟩ := cut_recovers hround hall
      (Records.seq_lt hbody) (Records.increasing hbody) hcut startSeq
    refine ⟨n, w, hn, hend, hnext, ?_, ?_⟩
    · rw [hfile]
      exact hrec
    · intro op hfit hseq
      rw [Wal.append_of_fits checks hseq hfit, hw.headerEpoch]
      exact ⟨_, rfl⟩

theorem open_keeps_longest_prefix_torn : ∃ w₀ w₁ rs n w,
    Wal.openFile codec [] 1 none = .ok w₀ ∧
    appendAll codec true [.delete "a", .delete "b"] w₀ = .ok rs w₁ ∧
    n ≤ rs.length ∧ endOf codec rs n ≤ 60 ∧
    Recovers codec 1 (w₁.file.take 60) none (rs.take n) w := by
  have hopen : Wal.openFile codec [] 1 none = .ok ⟨buildHeader codec 1, 1, 0, 0, headerLen⟩ := rfl
  obtain ⟨rs, w₁, happend⟩ : ∃ rs w₁, appendAll codec true [.delete "a", .delete "b"]
      ⟨buildHeader codec 1, 1, 0, 0, headerLen⟩ = .ok rs w₁ := ⟨_, _, rfl⟩
  obtain ⟨n, w, hn, hend, -, hrec, -⟩ := ( open_keeps_longest_prefix codec 1).2 codec_roundTrips
    true _ none _ w₁ rs hopen happend (by decide) 60 none (by decide)
  exact ⟨_, w₁, rs, n, w, hopen, happend, hn, hend, hrec⟩

/-- Open a new log, append `ops` and open the file again: the seqs of the
acknowledged records and those of the recovered ones. -/
def appendAndReopen (k : Codec) (checks : Bool) (startSeq : Option ℕ) (ops : List Operation) :
    Except WalError (List ℕ × List ℕ) := do
  let w ← Wal.openFile k [] 1 startSeq
  match appendAll k checks ops w with
  | .error e _ => throw e
  | .ok rs w =>
      let w ← Wal.openFile k w.file 1 none
      let found ← w.readRange k 0 (2 ^ 64 - 1)
      pure (rs.map WalRecord.seq, found.map WalRecord.seq)

/-- Behind the last `u64` there is no following seq: the append panics, and
without overflow checks it is acknowledged under seq `0` and not recovered. -/
theorem append_behind_last_seq :
    (appendAndReopen codec true (some (2 ^ 64 - 1)) [.delete "a", .delete "b"]).toOption = none ∧
      (appendAndReopen codec false (some (2 ^ 64 - 1)) [.delete "a", .delete "b"]).toOption =
        some ([2 ^ 64 - 1, 0], [2 ^ 64 - 1]) := by
  decide +kernel

end Rekha.Framed
