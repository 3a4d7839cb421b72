import Rekha.Lib.Trace
import Rekha.Wal.Recovery

/-!
# Appends that fail

A failing append leaves a prefix of its record behind the length the handle
knows, and the next append writes over it. What is then left of it can still be
read as a record when the log is opened again. `no_ghost_records` says when it is
not: each append may leave nothing behind the log that starts with a record, its
own excepted if it failed.
-/

namespace Rekha.Framed

open Bytes Trace

namespace Wal

/-! ## Failing appends -/

/-- `append` when writing or syncing may fail: `fault` is the number of bytes that
were written by then. -/
def tryAppend (k : Codec) (checks : Bool) (fault : Option ℕ) (op : Operation) :
    EStateM WalError Wal WalRecord := fun w =>
  match append k checks op w, fault with
  | .ok r _, some n => .error (.io "I/O error")
      { w with file := writeAt w.file w.fileLen ((encodeRecord k r).take n) }
  | result, _ => result

def attempted (k : Codec) (checks : Bool) (op : Operation) (w : Wal) : Option WalRecord :=
  match append k checks op w with
  | .ok r _ => some r
  | .error _ _ => none

/-- The bytes behind the end the handle knows. -/
def leftover (w : Wal) : List UInt8 := w.file.drop w.fileLen

/-- The same after `written` has been written there. -/
def overlaid (w : Wal) (written : List UInt8) : List UInt8 :=
  written ++ w.leftover.drop written.length

def nextRecord (w : Wal) (op : Operation) : WalRecord := ⟨w.lastSeq + 1, w.headerEpoch, op⟩

/-- The seq of the record before the end, if there is one. -/
def prevSeq (w : Wal) : Option ℕ := if w.len = 0 then none else some w.lastSeq

/-- **No ghost**: what the append leaves behind the log starts with no record. Where
it fails, its own record may stand there, with none behind it. An operation that
does not fit leaves everything as it was. -/
def LeavesNoGhost (k : Codec) (w : Wal) (op : Operation) (fault : Option ℕ) : Prop :=
  let F := recordFraming k w.headerEpoch
  let bytes := encodeRecord k (w.nextRecord op)
  if recordHeaderLen + (k.serialize op).length < 2 ^ 32 then
    match fault with
    | none => F.Stuck (some (w.lastSeq + 1)) (w.leftover.drop bytes.length)
    | some n => F.Stuck w.prevSeq (w.overlaid (bytes.take n)) ∨
        ∃ p t, w.overlaid (bytes.take n) = p ++ t ∧
          IsRecord k w.headerEpoch w.prevSeq p (w.nextRecord op) ∧
          F.Stuck (some (w.lastSeq + 1)) t
  else F.Stuck w.prevSeq w.leftover

end Wal

/-! ## Runs -/

inductive AppendEvent where
  | acked (r : WalRecord)
  | failed (r : Option WalRecord)

def ackedRecords : List AppendEvent → List WalRecord :=
  List.filterMap fun
    | .acked r => some r
    | .failed _ => none

/-- One append, of any operation and with any fault, where `C` allows it. -/
inductive AppendStep (k : Codec) (checks : Bool) (C : Wal → Operation → Option ℕ → Prop) :
    List AppendEvent → Wal → Wal → Prop
  | acked {w w' : Wal} {op : Operation} {fault : Option ℕ} {r : WalRecord} (hC : C w op fault)
      (h : w.tryAppend k checks fault op = .ok r w') : AppendStep k checks C [.acked r] w w'
  | failed {w w' : Wal} {op : Operation} {fault : Option ℕ} {err : WalError} (hC : C w op fault)
      (h : w.tryAppend k checks fault op = .error err w') :
      AppendStep k checks C [.failed (w.attempted k checks op)] w w'

/-- What reopening owes: it finds the acknowledged records in order, followed by at
most the record of the last append if that one failed. -/
def NoGhosts (k : Codec) (epoch : UInt64) (events : List AppendEvent) (file : List UInt8) : Prop :=
  ∀ startSeq, ∃ rs w, Recovers k epoch file startSeq rs w ∧
    (rs = ackedRecords events ∨
      ∃ r, events.getLast? = some (.failed (some r)) ∧ rs = ackedRecords events ++ [r])

section Appends

variable {k : Codec} {checks : Bool} {epoch : UInt64} {w w' : Wal} {rs : List WalRecord}
  {op : Operation} {r : WalRecord}

/-- The handle agrees with its file up to the length it knows; behind it may be
anything. -/
structure Wal.HoldsUpTo (k : Codec) (w : Wal) (epoch : ℕ) (rs : List WalRecord) : Prop where
  holds : Holds k { w with file := w.file.take w.fileLen } epoch rs
  fileLen_le : w.fileLen ≤ w.file.length
  lastSeq : lastSeqOf rs ≤ w.lastSeq

theorem writeAt_of_le {file buf : List UInt8} {offset : ℕ} (h : offset ≤ file.length) :
    writeAt file offset buf = file.take offset ++ buf ++ file.drop (offset + buf.length) := by
  unfold writeAt
  rw [Nat.sub_eq_zero_of_le h, List.replicate_zero, List.append_nil]

theorem take_writeAt {file : List UInt8} {offset : ℕ} (h : offset ≤ file.length)
    (buf : List UInt8) :
    (writeAt file offset buf).take (offset + buf.length) = file.take offset ++ buf := by
  rw [writeAt_of_le h]
  apply List.take_left'
  rw [List.length_append, List.length_take_of_le h]

theorem drop_writeAt {file : List UInt8} {offset : ℕ} (h : offset ≤ file.length)
    (buf : List UInt8) :
    (writeAt file offset buf).drop offset = buf ++ (file.drop offset).drop buf.length := by
  rw [writeAt_of_le h, List.append_assoc, List.drop_drop]
  exact List.drop_left' (List.length_take_of_le h)

namespace Wal.HoldsUpTo

theorem file_eq (h : w.HoldsUpTo k epoch.toNat rs) :
    ∃ body, w.file = buildHeader k epoch.toNat ++ (body ++ w.leftover) ∧
      Records k epoch.toNat none body rs := by
  obtain ⟨body, hfile, hrs⟩ := h.holds.file
  refine ⟨body, ?_, hrs⟩
  have hfile' : w.file.take w.fileLen = buildHeader k epoch.toNat ++ body := hfile
  rw [← List.append_assoc, ← hfile', leftover, List.take_append_drop]

theorem after_eq (h : w.HoldsUpTo k epoch.toNat rs) :
    (recordFraming k epoch.toNat).after none rs = w.prevSeq := by
  rw [Framed.after_eq, Option.or_none, prevSeq]
  have hlen : w.len = rs.length := h.holds.len
  rcases List.eq_nil_or_concat rs with rfl | ⟨rs', r, rfl⟩
  · have hzero : w.len = 0 := hlen
    rw [if_pos hzero]
    rfl
  · have hne : rs'.concat r ≠ [] := by simp
    have hlast : w.lastSeq = lastSeqOf (rs'.concat r) := h.holds.lastSeq hne
    have hpos : w.len ≠ 0 := by simp [hlen]
    rw [if_neg hpos, hlast]
    simp [lastSeqOf]

theorem append (checks : Bool) (h : w.HoldsUpTo k epoch.toNat rs) (hround : k.RoundTrips)
    (hseq : w.lastSeq + 1 < 2 ^ 64)
    (hfit : recordHeaderLen + (k.serialize op).length < 2 ^ 32) :
    ∃ w', Wal.append k checks op w = .ok (w.nextRecord op) w' ∧
      w'.HoldsUpTo k epoch.toNat (rs ++ [w.nextRecord op]) ∧
      w'.leftover = w.leftover.drop (encodeRecord k (w.nextRecord op)).length ∧
      w'.prevSeq = some (w.lastSeq + 1) := by
  obtain ⟨w₁, happend, hheld, -, -⟩ := h.holds.append checks hround h.lastSeq hseq hfit
  have hexplicit := append_of_fits (k := k) (w := { w with file := w.file.take w.fileLen })
    checks hseq hfit
  rw [happend, EStateM.Result.ok.injEq] at hexplicit
  obtain ⟨-, rfl⟩ := hexplicit
  have hle := h.fileLen_le
  have htrunc : (w.file.take w.fileLen).length = w.fileLen := List.length_take_of_le hle
  have hend : writeAt (w.file.take w.fileLen) w.fileLen (encodeRecord k (w.nextRecord op)) =
      w.file.take w.fileLen ++ encodeRecord k (w.nextRecord op) := by
    have hwrite := writeAt_end (w.file.take w.fileLen) (encodeRecord k (w.nextRecord op))
    rwa [htrunc] at hwrite
  refine ⟨_, append_of_fits checks hseq hfit, ⟨?_, ?_, ?_⟩, ?_, rfl⟩
  · have hfile : (writeAt w.file w.fileLen (encodeRecord k (w.nextRecord op))).take
        (w.fileLen + (encodeRecord k (w.nextRecord op)).length) =
        writeAt (w.file.take w.fileLen) w.fileLen (encodeRecord k (w.nextRecord op)) := by
      rw [take_writeAt hle, hend]
    have hepoch : w.headerEpoch = epoch.toNat := h.holds.headerEpoch
    rw [← hepoch] at hheld ⊢
    simp only [nextRecord] at hfile ⊢
    rw [hfile]
    exact hheld
  · have hlen := congrArg List.length
      (take_writeAt hle (encodeRecord k (w.nextRecord op)))
    rw [List.length_take, List.length_append, htrunc] at hlen
    simp only [nextRecord] at hlen ⊢
    omega
  · rw [lastSeqOf, List.getLast?_append, List.getLast?_singleton]
    exact le_rfl
  · rw [leftover, leftover]
    simp only [nextRecord]
    rw [← List.drop_drop, drop_writeAt hle, List.drop_left]

theorem overlay (h : w.HoldsUpTo k epoch.toNat rs) (written : List UInt8) :
    HoldsUpTo k { w with file := writeAt w.file w.fileLen written } epoch.toNat rs ∧
      leftover { w with file := writeAt w.file w.fileLen written } = w.overlaid written := by
  have hle := h.fileLen_le
  have hdrop := drop_writeAt hle written
  have htake : (writeAt w.file w.fileLen written).take w.fileLen = w.file.take w.fileLen := by
    rw [writeAt_of_le hle, List.append_assoc]
    exact List.take_left' (List.length_take_of_le hle)
  refine ⟨⟨?_, ?_, h.lastSeq⟩, hdrop⟩
  · dsimp only
    rw [htake]
    exact h.holds
  · have hlen := congrArg List.length htake
    rw [List.length_take, List.length_take_of_le hle] at hlen
    dsimp only
    omega

end Wal.HoldsUpTo

theorem noGhosts_iff {events : List AppendEvent}
    (h : w.HoldsUpTo k epoch.toNat (ackedRecords events)) :
    NoGhosts k epoch events w.file ↔
      (recordFraming k epoch.toNat).Stuck w.prevSeq w.leftover ∨
        ∃ r, events.getLast? = some (.failed (some r)) ∧ ∃ p t, w.leftover = p ++ t ∧
          IsRecord k epoch.toNat w.prevSeq p r ∧
          (recordFraming k epoch.toNat).Stuck (some r.seq) t := by
  obtain ⟨body, hfile, hrs⟩ := h.file_eq
  obtain ⟨q, cs, hq⟩ := Framing.exists_longest (recordFraming k epoch.toNat) _
    ((recordFraming k epoch.toNat).after none (ackedRecords events)) w.leftover le_rfl
  have hlong := hrs.append_longest hq
  rw [h.after_eq] at hq
  have hfound : ∀ startSeq rs w', Recovers k epoch w.file startSeq rs w' →
      rs = ackedRecords events ++ cs := by
    intro startSeq rs w' hrec
    obtain ⟨tail, valid, htail, htaillong, -⟩ := hrec.longest
    rw [hfile] at htail
    obtain rfl := List.append_cancel_left htail
    exact (htaillong.unique hlong).2
  have hiff : NoGhosts k epoch events w.file ↔ cs = [] ∨
      ∃ r, events.getLast? = some (.failed (some r)) ∧ cs = [r] := by
    constructor
    · intro hno
      obtain ⟨rs, w', hrec, hcases⟩ := hno none
      have hrs := hfound none rs w' hrec
      rcases hcases with heq | ⟨r, hlast, heq⟩
      · exact .inl (by simpa [heq] using hrs)
      · exact .inr ⟨r, hlast, by simpa [heq, eq_comm] using hrs⟩
    · intro hcs startSeq
      obtain ⟨rs, w', hrec, -⟩ := exists_recovers k epoch (body ++ w.leftover) startSeq
      rw [← hfile] at hrec
      obtain rfl := hfound startSeq rs w' hrec
      refine ⟨_, w', hrec, ?_⟩
      rcases hcs with rfl | ⟨r, hlast, rfl⟩
      · exact .inl (List.append_nil _)
      · exact .inr ⟨r, hlast, rfl⟩
  rw [hiff, hq.eq_nil_iff]
  refine or_congr Iff.rfl (exists_congr fun r => and_congr Iff.rfl ?_)
  exact hq.eq_singleton_iff

/-! ## One append -/

theorem Wal.tryAppend_ok {fault : Option ℕ} (h : w.tryAppend k checks fault op = .ok r w') :
    fault = none ∧ Wal.append k checks op w = .ok r w' := by
  unfold Wal.tryAppend at h
  cases happend : Wal.append k checks op w with
  | ok r₁ w₁ =>
      rw [happend] at h
      cases fault with
      | none => exact ⟨rfl, h⟩
      | some n => cases h
  | error e w₁ =>
      rw [happend] at h
      cases h

/-- An append fails because the operation is refused, or in the middle of its
record. -/
theorem Wal.tryAppend_error {fault : Option ℕ} {err : WalError}
    (h : w.tryAppend k checks fault op = .error err w') :
    Wal.append k checks op w = .error err w' ∨
      ∃ n r w₁, fault = some n ∧ Wal.append k checks op w = .ok r w₁ ∧
        w' = { w with file := writeAt w.file w.fileLen ((encodeRecord k r).take n) } := by
  unfold Wal.tryAppend at h
  cases happend : Wal.append k checks op w with
  | ok r₁ w₁ =>
      rw [happend] at h
      cases fault with
      | none => cases h
      | some n =>
          cases h
          exact .inr ⟨n, r₁, w₁, rfl, rfl, rfl⟩
  | error e w₁ =>
      rw [happend] at h
      cases h
      exact .inl rfl

theorem Wal.leavesNoGhost_none (hfit : recordHeaderLen + (k.serialize op).length < 2 ^ 32) :
    w.LeavesNoGhost k op none ↔ (recordFraming k w.headerEpoch).Stuck (some (w.lastSeq + 1))
      (w.leftover.drop (encodeRecord k (w.nextRecord op)).length) := by
  simp only [Wal.LeavesNoGhost, if_pos hfit]

theorem Wal.leavesNoGhost_some (hfit : recordHeaderLen + (k.serialize op).length < 2 ^ 32)
    (n : ℕ) : w.LeavesNoGhost k op (some n) ↔
      (recordFraming k w.headerEpoch).Stuck w.prevSeq
          (w.overlaid ((encodeRecord k (w.nextRecord op)).take n)) ∨
        ∃ p t, w.overlaid ((encodeRecord k (w.nextRecord op)).take n) = p ++ t ∧
          IsRecord k w.headerEpoch w.prevSeq p (w.nextRecord op) ∧
          (recordFraming k w.headerEpoch).Stuck (some (w.lastSeq + 1)) t := by
  simp only [Wal.LeavesNoGhost, if_pos hfit]

theorem Wal.leavesNoGhost_refused {fault : Option ℕ}
    (hfit : ¬ recordHeaderLen + (k.serialize op).length < 2 ^ 32) :
    w.LeavesNoGhost k op fault ↔ (recordFraming k w.headerEpoch).Stuck w.prevSeq w.leftover := by
  simp only [Wal.LeavesNoGhost, if_neg hfit]

/-- Step lemma: the log keeps its acknowledged records, and reopening finds no ghost
exactly if the append leaves none. -/
theorem AppendStep.kept {C : Wal → Operation → Option ℕ → Prop} {events l : List AppendEvent}
    (hround : k.RoundTrips) (h : w.HoldsUpTo k epoch.toNat (ackedRecords events))
    (hseq : w.lastSeq + 1 < 2 ^ 64) (hs : AppendStep k checks C l w w') :
    ∃ op fault, C w op fault ∧ w'.HoldsUpTo k epoch.toNat (ackedRecords (events ++ l)) ∧
      (NoGhosts k epoch (events ++ l) w'.file ↔ w.LeavesNoGhost k op fault) := by
  have hepoch : w.headerEpoch = epoch.toNat := h.holds.headerEpoch
  cases hs with
  | @acked _ _ op fault r hC hok =>
      obtain ⟨rfl, happend⟩ := Wal.tryAppend_ok hok
      have hfit := fits_of_append happend
      obtain ⟨w₁, happend₁, hheld, hleft, hprev⟩ := h.append checks hround hseq hfit
      rw [happend₁] at happend
      cases happend
      have hacked : ackedRecords (events ++ [.acked (w.nextRecord op)]) =
          ackedRecords events ++ [w.nextRecord op] := by
        simp [ackedRecords]
      rw [← hacked] at hheld
      refine ⟨op, none, hC, hheld, ?_⟩
      rw [noGhosts_iff hheld, Wal.leavesNoGhost_none hfit, hprev, hleft, hepoch]
      simp
  | @failed _ _ op fault err hC herr =>
      have hacked : ∀ r, ackedRecords (events ++ [.failed r]) = ackedRecords events := by
        intro r
        simp [ackedRecords]
      rcases Wal.tryAppend_error herr with hrefused | ⟨n, r, w₁, rfl, happend, rfl⟩
      · have hfit : ¬ recordHeaderLen + (k.serialize op).length < 2 ^ 32 := by
          intro hfit
          rw [Wal.append_of_fits checks hseq hfit] at hrefused
          cases hrefused
        have hnone : w.attempted k checks op = none := by
          rw [Wal.attempted, hrefused]
        rw [Wal.append_too_large hseq hfit] at hrefused
        cases hrefused
        refine ⟨op, fault, hC, (hacked _).symm ▸ h, ?_⟩
        rw [noGhosts_iff ((hacked _).symm ▸ h), Wal.leavesNoGhost_refused hfit, hnone, hepoch]
        simp
      · have hfit := fits_of_append happend
        have hsome : w.attempted k checks op = some r := by
          rw [Wal.attempted, happend]
        rw [Wal.append_of_fits checks hseq hfit, EStateM.Result.ok.injEq] at happend
        obtain rfl : w.nextRecord op = r := happend.1
        obtain ⟨hheld, hleft⟩ := h.overlay ((encodeRecord k (w.nextRecord op)).take n)
        refine ⟨op, some n, hC, (hacked _).symm ▸ hheld, ?_⟩
        rw [noGhosts_iff ((hacked _).symm ▸ hheld), Wal.leavesNoGhost_some hfit, hsome, hleft,
          hepoch]
        simp [Wal.nextRecord, Wal.prevSeq]

/-- On a log with nothing left behind it every append leaves no ghost: the front of
a record is none. -/
theorem Wal.HoldsUpTo.leavesNoGhost (h : w.HoldsUpTo k epoch.toNat rs) (hround : k.RoundTrips)
    (hseq : w.lastSeq + 1 < 2 ^ 64) (hnil : w.leftover = []) (op : Operation)
    (fault : Option ℕ) : w.LeavesNoGhost k op fault := by
  by_cases hfit : recordHeaderLen + (k.serialize op).length < 2 ^ 32
  · cases fault with
    | none =>
        rw [Wal.leavesNoGhost_none hfit, hnil, List.drop_nil]
        exact Framing.stuck_nil
    | some n =>
        have hepoch : w.headerEpoch = epoch.toNat := h.holds.headerEpoch
        have hrecord : IsRecord k w.headerEpoch w.prevSeq (encodeRecord k (w.nextRecord op))
            (w.nextRecord op) := by
          have hlt : w.headerEpoch < 2 ^ 64 := hepoch ▸ epoch.toNat_lt
          refine encodeRecord_isRecord (hround op hfit) hfit hseq hlt le_rfl ?_
          intro p hp
          unfold Wal.prevSeq at hp
          split at hp
          · cases hp
          · cases hp
            exact Nat.lt_succ_self _
        rw [Wal.leavesNoGhost_some hfit, Wal.overlaid, hnil, List.drop_nil, List.append_nil]
        by_cases hn : n < (encodeRecord k (w.nextRecord op)).length
        · refine .inl fun p r hr hp => ?_
          obtain ⟨rfl, -⟩ := (recordFraming k w.headerEpoch).unique hr hrecord
            (hp.trans (List.take_prefix _ _)) List.prefix_rfl
          have hlen := hp.length_le
          rw [List.length_take] at hlen
          omega
        · refine .inr ⟨encodeRecord k (w.nextRecord op), [], ?_, hrecord, Framing.stuck_nil⟩
          rw [List.append_nil, List.take_of_length_le (Nat.le_of_not_lt hn)]
  · rw [Wal.leavesNoGhost_refused hfit, hnil]
    exact Framing.stuck_nil

theorem Wal.holdsUpTo_fresh {startSeq : Option ℕ} {w₀ : Wal}
    (hopen : Wal.openFile k [] epoch.toNat startSeq = .ok w₀) :
    w₀.HoldsUpTo k epoch.toNat [] ∧ w₀.leftover = [] := by
  rw [Wal.openFile_nil] at hopen
  obtain rfl := Except.ok.inj hopen
  have hheld := @Wal.holds_opened k [] epoch.toNat [] startSeq .nil
  rw [List.append_nil] at hheld
  have hlen : (buildHeader k epoch.toNat).length = headerLen := length_buildHeader k epoch.toNat
  refine ⟨⟨?_, hlen.ge, Nat.zero_le _⟩, List.drop_eq_nil_of_le hlen.le⟩
  dsimp only
  rw [List.take_of_length_le hlen.le]
  exact hheld

theorem AppendStep.allowed {C : Wal → Operation → Option ℕ → Prop} {l : List AppendEvent}
    (hs : AppendStep k checks C l w w') : ∃ op fault, C w op fault := by
  cases hs with
  | @acked _ _ op fault _ hC _ => exact ⟨op, fault, hC⟩
  | @failed _ _ op fault _ hC _ => exact ⟨op, fault, hC⟩

end Appends

/-- **No ghost records**: in every run of successful and failing appends on a fresh
log, none of which leaves a ghost, reopening finds the acknowledged records and at
most the record of a last append that failed. -/
theorem no_ghost_records {k : Codec} (hround : k.RoundTrips) {checks : Bool} {epoch : UInt64}
    {startSeq : Option ℕ} {w₀ w : Wal} {events : List AppendEvent}
    (hopen : Wal.openFile k [] epoch.toNat startSeq = .ok w₀)
    (hr : Run (AppendStep k checks fun w op fault =>
      w.lastSeq + 1 < 2 ^ 64 ∧ w.LeavesNoGhost k op fault) w₀ events w) :
    NoGhosts k epoch events w.file := by
  have hfresh := Wal.holdsUpTo_fresh hopen
  have hinv : w.HoldsUpTo k epoch.toNat (ackedRecords events) ∧
      NoGhosts k epoch events w.file := by
    refine hr.invariant (I := fun events w => w.HoldsUpTo k epoch.toNat (ackedRecords events) ∧
      NoGhosts k epoch events w.file) ⟨hfresh.1, ?_⟩ fun events l w w' h hs => ?_
    · refine (noGhosts_iff hfresh.1).mpr (.inl ?_)
      rw [hfresh.2]
      exact Framing.stuck_nil
    · obtain ⟨_, _, hseq, -⟩ := hs.allowed
      obtain ⟨op, fault, ⟨-, hclean⟩, hheld, hiff⟩ := hs.kept hround h.1 hseq
      exact ⟨hheld, hiff.mpr hclean⟩
  exact hinv.2

def Wal.after (fault : Option ℕ) (op : Operation) (w : Wal) : Wal :=
  match w.tryAppend codec true fault op with
  | .ok _ w' => w'
  | .error _ w' => w'

theorem Wal.after_none {w : Wal} {op : Operation} (hseq : w.lastSeq + 1 < 2 ^ 64)
    (hfit : recordHeaderLen + (codec.serialize op).length < 2 ^ 32) :
    w.tryAppend codec true none op = .ok (w.nextRecord op) (w.after none op) := by
  simp only [Wal.after, Wal.tryAppend, Wal.append_of_fits true hseq hfit, Wal.nextRecord]

theorem Wal.after_some {w : Wal} {op : Operation} (n : ℕ) (hseq : w.lastSeq + 1 < 2 ^ 64)
    (hfit : recordHeaderLen + (codec.serialize op).length < 2 ^ 32) :
    w.tryAppend codec true (some n) op = .error (.io "I/O error") (w.after (some n) op) := by
  simp only [Wal.after, Wal.tryAppend, Wal.append_of_fits true hseq hfit]

/-- An append between two others fails in the middle of its record, and the next one
overwrites what it left. -/
theorem no_ghost_records_demo : ∃ (w : Wal) (r₁ r₂ r₃ : WalRecord),
    [r₁.op, r₂.op, r₃.op] = [.add "a" [⟨0x3F800000⟩] none (some "x"), .delete "a", .delete "b"] ∧
      NoGhosts codec 1 [.acked r₁, .failed (some r₂), .acked r₃] w.file := by
  let w₀ : Wal := ⟨buildHeader codec 1, 1, 0, 0, headerLen⟩
  let w₁ := w₀.after none (.add "a" [⟨0x3F800000⟩] none (some "x"))
  let w₂ := w₁.after (some 30) (.delete "a")
  have hopen : Wal.openFile codec [] 1 none = .ok w₀ := rfl
  obtain ⟨hheld, hnil⟩ := @Wal.holdsUpTo_fresh codec 1 none _ hopen
  have hfirst : w₀.tryAppend codec true none (.add "a" [⟨0x3F800000⟩] none (some "x")) = .ok _ w₁ :=
    Wal.after_none (by decide) (by decide +kernel)
  have hstep : AppendStep codec true (fun _ _ _ => True) [.acked (w₀.nextRecord _)] w₀ w₁ :=
    .acked trivial hfirst
  obtain ⟨-, -, -, hheld₁, -⟩ := @AppendStep.kept codec true 1 _ _ _ [] _ codec_roundTrips hheld
    (by decide) hstep
  have hsecond : w₁.tryAppend codec true (some 30) (.delete "a") = .error _ w₂ :=
    Wal.after_some 30 (by decide +kernel) (by decide +kernel)
  have hthird : w₂.tryAppend codec true none (.delete "b") = .ok _ (w₂.after none _) :=
    Wal.after_none (by decide +kernel) (by decide +kernel)
  have hclean₃ : w₂.LeavesNoGhost codec (.delete "b") none := by
    rw [Wal.leavesNoGhost_none (by decide +kernel)]
    have hcovered : w₂.leftover.drop (encodeRecord codec (w₂.nextRecord (.delete "b"))).length
        = [] := by
      decide +kernel
    rw [hcovered]
    exact Framing.stuck_nil
  have hclean₁ := hheld.leavesNoGhost codec_roundTrips (by decide) hnil
    (.add "a" [⟨0x3F800000⟩] none (some "x")) none
  have hclean₂ := hheld₁.leavesNoGhost codec_roundTrips (by decide +kernel) (by decide +kernel)
    (.delete "a") (some 30)
  have hrun : Run (AppendStep codec true fun w op fault =>
      w.lastSeq + 1 < 2 ^ 64 ∧ w.LeavesNoGhost codec op fault) w₀ _ _ :=
    ((Run.single (.acked ⟨by decide, hclean₁⟩ hfirst)).tail
      (.failed ⟨by decide +kernel, hclean₂⟩ hsecond)).tail
      (.acked ⟨by decide +kernel, hclean₃⟩ hthird)
  have hattempted : w₁.attempted codec true (.delete "a") = some (w₁.nextRecord (.delete "a")) := by
    rw [Wal.attempted, Wal.append_of_fits true (by decide +kernel) (by decide +kernel)]
    rfl
  rw [hattempted] at hrun
  exact ⟨_, _, _, _, rfl, no_ghost_records codec_roundTrips hopen hrun⟩

def words : List UInt8 → Embedding
  | a :: b :: c :: d :: bytes => ⟨BitVec.ofNat 32 (ofLe [a, b, c, d])⟩ :: words bytes
  | _ => []

/-- An add whose vector is made of the bytes of another record. -/
def smuggled : Operation :=
  .add "" (words (encodeRecord codec ⟨2, 1, .delete "g"⟩ ++ [0, 0, 0])) none none

/-- The add fails after its last byte, then a shorter delete succeeds. -/
def smuggle : Option Wal :=
  match Wal.openFile codec [] 1 none with
  | .error _ => none
  | .ok w =>
      match w.tryAppend codec true (some 86) smuggled with
      | .ok _ _ => none
      | .error _ w =>
          match w.tryAppend codec true none (.delete "bbbbbbbb") with
          | .error _ _ => none
          | .ok _ w => some w

/-- The ids of the records that reopening finds. -/
def foundIds (file : List UInt8) : Except WalError (List Id) := do
  let w ← Wal.openFile codec file 1 none
  let rs ← w.readRange codec 0 (2 ^ 64 - 1)
  pure (rs.map fun r => r.op.id)

theorem run_of_smuggle {w : Wal} (h : smuggle = some w) : ∃ w₀ r₁ r₂,
    Wal.openFile codec [] 1 none = .ok w₀ ∧
      Run (AppendStep codec true fun _ _ _ => True) w₀ [.failed r₁, .acked r₂] w := by
  unfold smuggle at h
  split at h
  · cases h
  · rename_i w₀ hopen
    split at h
    · cases h
    · rename_i err w₁ hfail
      split at h
      · cases h
      · rename_i r w₂ hok
        cases h
        have hrun : Run (AppendStep codec true fun _ _ _ => True) w₀ _ w₁ :=
          .single (.failed trivial hfail)
        exact ⟨w₀, _, r, hopen, hrun.tail (.acked trivial hok)⟩

theorem foundIds_eq {file : List UInt8} {rs : List WalRecord} {w : Wal}
    (h : Recovers codec 1 file none rs w) : foundIds file = .ok (rs.map fun r => r.op.id) := by
  rw [foundIds, h.opened 1]
  change (w.readRange codec 0 (2 ^ 64 - 1) >>= fun rs => pure (rs.map fun r => r.op.id)) = _
  rw [h.read]
  rfl

/-- The bytes behind the delete are recovered as a record that nobody appended. -/
theorem residue_recovered : ∃ w₀ w r₁ r₂, Wal.openFile codec [] 1 none = .ok w₀ ∧
    Run (AppendStep codec true fun _ _ _ => True) w₀ [.failed r₁, .acked r₂] w ∧
    (foundIds w.file).toOption = some ["bbbbbbbb", "g"] ∧
    ¬ NoGhosts codec 1 [.failed r₁, .acked r₂] w.file := by
  have hfound : (smuggle.any fun w =>
      decide ((foundIds w.file).toOption = some ["bbbbbbbb", "g"])) = true := by
    decide +kernel
  obtain ⟨w, hw, hdecide⟩ := (Option.any_eq_true _ _).mp hfound
  have hids := of_decide_eq_true hdecide
  obtain ⟨w₀, r₁, r₂, hopen, hrun⟩ := run_of_smuggle hw
  refine ⟨w₀, w, r₁, r₂, hopen, hrun, hids, fun hno => ?_⟩
  obtain ⟨rs, w', hrec, hcases⟩ := hno none
  -- one record was acknowledged, but two are found
  have hrs : rs = [r₂] := by
    rcases hcases with heq | ⟨r, hlast, -⟩
    · exact heq
    · cases hlast
  rw [foundIds_eq hrec, hrs] at hids
  have hlen := congrArg (Option.map List.length) hids
  exact absurd hlen (by simp [Except.toOption])

end Rekha.Framed
