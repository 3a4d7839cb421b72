import Rekha.Lib.Outcome
import Rekha.Wal.Recovery

/-!
# A prune that fails

Pruning as its fallible steps. The path of the log names the file the handle has
open, until the rename makes it name the temp file; only when every step has
succeeded does the handle move to the file the path names. An I/O error in
between leaves the handle on a file without a name.
-/

namespace Rekha.Framed

/-- The steps of a prune at which an I/O error can occur. A failing write leaves
what it had written of the temp file. -/
inductive PruneStep where
  | create
  | fill (written : List UInt8)
  | sync
  | rename
  | syncDir
  | reopen
  | metadata
  | recover
deriving DecidableEq

def PruneStep.UpToRename : PruneStep → Prop
  | .create | .fill _ | .sync | .rename => True
  | .syncDir | .reopen | .metadata | .recover => False

/-- An open handle, the file its path names and the temp file. `path` is `none`
as long as the path names the file that the handle has open. -/
structure LogDir where
  wal : Wal
  path : Option (List UInt8)
  temp : Option (List UInt8)

namespace LogDir

/-- The bytes of the file at the log path. -/
def named (d : LogDir) : List UInt8 := d.path.getD d.wal.file

def openPath (k : Codec) (d : LogDir) (epoch : ℕ) (startSeq : Option ℕ) : Except WalError Wal :=
  Wal.openFile k d.named epoch startSeq

/-- A method of the handle, which works on the file it has open. -/
def onWal {α : Type} (m : EStateM WalError Wal α) : EStateM WalError LogDir α := fun d =>
  match m d.wal with
  | .ok a w => .ok a { d with wal := w }
  | .error e w => .error e { d with wal := w }

def attempt (failAt : Option PruneStep) (step : PruneStep) : EStateM WalError LogDir Unit :=
  fun d => if failAt = some step then .error (.io "I/O error") d else .ok () d

def fillTemp (k : Codec) (keepFrom : ℕ) (failAt : Option PruneStep) :
    EStateM WalError LogDir Unit := fun d =>
  match failAt with
  | some (.fill written) => .error (.io "I/O error") { d with temp := some written }
  | _ =>
      match d.wal.pruned k keepFrom with
      | .error e => .error e d
      | .ok bytes => .ok () { d with temp := some bytes }

/-- Write the temp file and rename it over the log. -/
def rewrite (k : Codec) (keepFrom : ℕ) (failAt : Option PruneStep) :
    EStateM WalError LogDir Unit := do
  attempt failAt .create
  modify fun d => { d with temp := some [] }
  fillTemp k keepFrom failAt
  attempt failAt .sync
  attempt failAt .rename
  modify fun d => { d with path := d.temp, temp := none }
  attempt failAt .syncDir

/-- Move the handle to the file the path names. -/
def adopt (k : Codec) (failAt : Option PruneStep) : EStateM WalError LogDir Unit := do
  attempt failAt .reopen
  attempt failAt .metadata
  attempt failAt .recover
  modify fun d => { d with wal := d.wal.reposition k d.named, path := none }

/-- `Wal::prune`; a failed rewrite removes the temp file. -/
def prune (k : Codec) (keepFrom : ℕ) (failAt : Option PruneStep) :
    EStateM WalError LogDir Unit := fun d =>
  match rewrite k keepFrom failAt d with
  | .error e d => .error e { d with temp := none }
  | .ok _ d => adopt k failAt d

/-! ## What a failed prune leaves -/

/-- The file at the path still holds every record above the watermark, the
handle refers to it, and every record appended later, while the seqs fit a
`u64`, is found by a later open. -/
structure Harmless (k : Codec) (keepFrom : ℕ) (rs : List WalRecord) (d : LogDir) : Prop where
  kept : ∀ epoch startSeq, ∃ w found, d.openPath k epoch startSeq = .ok w ∧
    w.readRange k 0 (2 ^ 64 - 1) = .ok found ∧ ∀ r ∈ rs, keepFrom < r.seq → r ∈ found
  sameFile : d.path = none
  appended : ∀ checks ops rs' d', onWal (appendAll k checks ops) d = .ok rs' d' →
    d.wal.lastSeq + ops.length < 2 ^ 64 → ∀ epoch startSeq, ∃ w found,
      d'.openPath k epoch startSeq = .ok w ∧ w.readRange k 0 (2 ^ 64 - 1) = .ok found ∧
      ∀ r ∈ rs', r ∈ found

variable {k : Codec} {epoch : UInt64} {rs : List WalRecord} {d : LogDir}

/-- The handle is where it was, and the path names the log as it was, or from
the rename on the pruned one. -/
theorem prune_failed (hw : d.wal.Holds k epoch.toNat rs) (keepFrom : ℕ) (step : PruneStep) :
    ∃ e d', prune k keepFrom (some step) d = .error e d' ∧ d'.wal = d.wal ∧
      (step.UpToRename → d'.path = d.path) ∧
      (¬ step.UpToRename → ∃ kept,
        Records k epoch.toNat none kept (rs.filter fun r => decide (keepFrom < r.seq)) ∧
        d'.path = some (buildHeader k epoch.toNat ++ kept)) := by
  obtain ⟨body, hfile, hrs⟩ := hw.file
  obtain ⟨kept, hkept, hcopy⟩ := Wal.copyFrom_eq keepFrom hw.fileLen hrs headerLen
    (by rw [hfile, ← length_buildHeader k epoch.toNat, List.drop_left])
  have hpruned : d.wal.pruned k keepFrom = .ok (buildHeader k epoch.toNat ++ kept) := by
    unfold Wal.pruned
    rw [hcopy, hw.headerEpoch]
  by_cases hstep : step.UpToRename
  · refine ⟨.io "I/O error", { d with temp := none }, ?_, rfl, fun _ => rfl,
      fun h => absurd hstep h⟩
    cases step with
    | create | fill => rfl
    | sync | rename =>
        simp [prune, rewrite, attempt, fillTemp, hpruned, bind, EStateM.bind,
          Outcome.modify_run]
    | syncDir | reopen | metadata | recover => exact hstep.elim
  · refine ⟨.io "I/O error",
      { d with path := some (buildHeader k epoch.toNat ++ kept), temp := none }, ?_, rfl,
      fun h => absurd h hstep, fun _ => ⟨kept, hkept, rfl⟩⟩
    cases step with
    | create | fill | sync | rename => exact absurd trivial hstep
    | syncDir | reopen | metadata | recover =>
        simp [prune, rewrite, adopt, attempt, fillTemp, hpruned, bind, EStateM.bind,
          Outcome.modify_run]

theorem exists_found {file body : List UInt8} (hfile : file = buildHeader k epoch.toNat ++ body)
    (hrs : Records k epoch.toNat none body rs) (epoch' : ℕ) (startSeq : Option ℕ) :
    ∃ w, Wal.openFile k file epoch' startSeq = .ok w ∧
      w.readRange k 0 (2 ^ 64 - 1) = .ok rs := by
  subst hfile
  obtain ⟨rs', w, hrec, -⟩ := exists_recovers k epoch body startSeq
  obtain ⟨tail, valid, htail, hlong, -⟩ := hrec.longest
  obtain rfl := List.append_cancel_left htail
  obtain ⟨-, rfl⟩ := hrs.longest_self.unique hlong
  exact ⟨w, hrec.opened epoch', hrec.read⟩

theorem lastSeqOf_le {w : Wal} {e : ℕ} (hw : w.Holds k e rs) : lastSeqOf rs ≤ w.lastSeq := by
  cases rs with
  | nil => exact Nat.zero_le _
  | cons r l => exact (hw.lastSeq (by simp)).ge

/-- **A failed prune is harmless exactly up to the rename.** -/
theorem failed_prune_harmless_iff (k : Codec) (hround : k.RoundTrips) (epoch : UInt64)
    (rs : List WalRecord) (d : LogDir) (hd : d.path = none)
    (hw : d.wal.Holds k epoch.toNat rs) (keepFrom : ℕ) (step : PruneStep) :
    ∃ e d', prune k keepFrom (some step) d = .error e d' ∧
      (Harmless k keepFrom rs d' ↔ step.UpToRename) := by
  obtain ⟨e, d', hprune, hwal, hearly, hlate⟩ := prune_failed hw keepFrom step
  refine ⟨e, d', hprune, ?_, ?_⟩
  · intro h
    by_contra hstep
    obtain ⟨kept, -, hpath⟩ := hlate hstep
    exact absurd (h.sameFile.symm.trans hpath) (by simp)
  · intro hstep
    have hpath : d'.path = none := (hearly hstep).trans hd
    rw [← hwal] at hw
    refine ⟨?_, hpath, ?_⟩
    · intro epoch' startSeq
      obtain ⟨body, hfile, hrs⟩ := hw.file
      have hnamed : d'.named = buildHeader k epoch.toNat ++ body := by
        rw [named, hpath]
        exact hfile
      obtain ⟨w, hopen, hread⟩ := exists_found hnamed hrs epoch' startSeq
      exact ⟨w, rs, hopen, hread, fun r hr _ => hr⟩
    · intro checks ops rs' d'' happend hlt epoch' startSeq
      unfold onWal at happend
      cases hall : appendAll k checks ops d'.wal with
      | error e' w' =>
          rw [hall] at happend
          exact absurd happend (by simp)
      | ok rs'' w' =>
          rw [hall] at happend
          simp only [EStateM.Result.ok.injEq] at happend
          obtain ⟨rfl, rfl⟩ := happend
          obtain ⟨hheld, -, -⟩ := appendAll_spec hround hw (lastSeqOf_le hw) hlt hall
          obtain ⟨body, hfile, hrs⟩ := hheld.file
          have hnamed : ({ d' with wal := w' } : LogDir).named =
              buildHeader k epoch.toNat ++ body := by
            simp only [named, hpath]
            exact hfile
          obtain ⟨w, hopen, hread⟩ := exists_found hnamed hrs epoch' startSeq
          exact ⟨w, _, hopen, hread, fun r hr => List.mem_append_right rs hr⟩

/-- A log of three records: up to the rename a prune of the first fails harmlessly, and
behind it the records above the watermark are no longer where they were. -/
theorem failed_prune_harmless_iff_demo : ∃ (w : Wal) (rs : List WalRecord),
    w.Holds codec 1 rs ∧ rs.map WalRecord.seq = [1, 2, 3] ∧
      (∃ e d', prune codec 1 (some .rename) ⟨w, none, none⟩ = .error e d' ∧
        Harmless codec 1 rs d') ∧
      ∃ e d', prune codec 1 (some .syncDir) ⟨w, none, none⟩ = .error e d' ∧
        ¬ Harmless codec 1 rs d' := by
  have hfresh := @Wal.holds_opened codec [] 1 [] none .nil
  obtain ⟨rs, w, happend, hseqs⟩ : ∃ rs w, appendAll codec true
      [.delete "a", .add "b" [] none (some "x"), .delete "c"]
      ⟨buildHeader codec 1 ++ [], 1, 0, 0, headerLen⟩ = .ok rs w ∧
        rs.map WalRecord.seq = [1, 2, 3] := ⟨_, _, rfl, rfl⟩
  obtain ⟨hw, -, -⟩ := @appendAll_spec codec true codec_roundTrips 1 _ _ _ _ _ hfresh
    (Nat.le_refl _) (by decide) happend
  obtain ⟨e, d', hrename, hiff⟩ := failed_prune_harmless_iff codec codec_roundTrips 1 _
    ⟨w, none, none⟩ rfl hw 1 .rename
  obtain ⟨e', d'', hsync, hiff'⟩ := failed_prune_harmless_iff codec codec_roundTrips 1 _
    ⟨w, none, none⟩ rfl hw 1 .syncDir
  exact ⟨w, _, hw, hseqs, ⟨e, d', hrename, hiff.mpr trivial⟩, e', d'', hsync, hiff'.mp⟩

/-- Append `ops` to a new log, let a prune fail, append `op` and open the path
again: the seq `op` was acknowledged under, and the seqs that are found. -/
def pruneFailsThenAppend (k : Codec) (checks : Bool) (ops : List Operation) (keepFrom : ℕ)
    (step : PruneStep) (op : Operation) : Option (ℕ × List ℕ) := do
  let w ← (Wal.openFile k [] 1 none).toOption
  match onWal (appendAll k checks ops) ⟨w, none, none⟩ with
  | .error _ _ => none
  | .ok _ d =>
      match prune k keepFrom (some step) d with
      | .ok _ _ => none
      | .error _ d =>
          match onWal (Wal.append k checks op) d with
          | .error _ _ => none
          | .ok r d => do
              let w ← (d.openPath k 1 none).toOption
              let found ← (w.readRange k 0 (2 ^ 64 - 1)).toOption
              pure (r.seq, found.map WalRecord.seq)

/-- Behind the rename the handle writes to a file without a name: the append is
acknowledged under seq `3` and not found. -/
theorem appended_after_failed_prune_lost :
    pruneFailsThenAppend codec true [.delete "a", .delete "b"] 1 .syncDir (.delete "c") =
      some (3, [2]) := by
  decide +kernel

end LogDir

end Rekha.Framed
