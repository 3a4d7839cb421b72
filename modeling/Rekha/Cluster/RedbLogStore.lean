import Mathlib.Data.List.Induction
import Mathlib.Data.List.Sort
import Rekha.Lib.Wire
import Rekha.Cluster.LogStore

/-!
# The Raft log on disk

Three tables from text keys to bytes: the entries under their index in decimal,
the vote, and the position of the last purge. A range is read by probing every
index in it. The position is kept in memory as well, and written in a reduced
form: index and term, without the leader's node.

The bytes of entries and votes are the consensus library's, and a parameter. A
table comes back in the order of its keys; nothing here depends on an order.
-/

namespace Rekha.Cluster

open Bytes Wire

/-- A serialization of `α`. -/
structure Codec (α : Type) where
  serialize : α → Except String (List UInt8)
  deserialize : List UInt8 → Except String α

/-- The types of the consensus library that are stored. -/
structure LogCodec where
  entry : Codec Entry
  vote : Codec Vote

abbrev Table := FinMap String (List UInt8)

/-! ## Keys -/

/-- `idx.to_string()`. -/
def indexKey (idx : ℕ) : String := idx.repr

/-- `parse::<u64>()`: digits after an optional plus sign, in range. -/
def parseU64 (s : String) : Option ℕ :=
  let digits := if s.toList.head? = some '+' then s.toList.tail else s.toList
  if digits ≠ [] ∧ digits.all Char.isDigit then
    let n := Nat.ofDigitChars 10 digits 0
    if n < 2 ^ 64 then some n else none
  else none

/-! ## The purge position -/

structure SerializedState where
  lastPurgedIndex : Option ℕ
  lastPurgedTerm : Option ℕ

namespace SerializedState

/-- The leader's node was not kept: node 0 stands in. -/
def lastPurgedLogId (s : SerializedState) : Option LogId :=
  match s.lastPurgedIndex, s.lastPurgedTerm with
  | some idx, some term => some ⟨term, 0, idx⟩
  | _, _ => none

def serialize (s : SerializedState) : List UInt8 :=
  option (toLe 8) s.lastPurgedIndex ++ option (toLe 8) s.lastPurgedTerm

def deserialize (l : List UInt8) : Option SerializedState := do
  let index ← decodeOption (word 8) l
  let term ← decodeOption (word 8) index.2
  return ⟨index.1, term.1⟩

end SerializedState

/-! ## The store -/

structure RedbDatabase where
  logTable : Table := ∅
  voteTable : Table := ∅
  stateTable : Table := ∅

structure RedbLogStore where
  db : RedbDatabase
  lastPurged : Option LogId

/-- Probe every index from `start` up to `stop`; what does not decode is passed over. -/
def readLogEntries (k : LogCodec) (table : Table) (start stop : ℕ) : List Entry :=
  (List.range' start (stop - start)).filterMap fun idx =>
    (table.lookup (indexKey idx)).bind fun val => (k.entry.deserialize val).toOption

/-- A row that counts: its key is an index and its value an entry. -/
def decodeRow (k : LogCodec) (row : Sigma fun _ : String => List UInt8) : Option Entry :=
  (parseU64 row.1).bind fun _ => (k.entry.deserialize row.2).toOption

def newest (max : Option LogId) (entry : Entry) : Option LogId :=
  if max.all fun m => decide (m.index < entry.logId.index) then some entry.logId else max

def findLastLogId (k : LogCodec) (table : Table) : Option LogId :=
  (table.entries.filterMap (decodeRow k)).foldl newest none

/-- Drop the keys that are indexes satisfying `p`. -/
def removeKeys (p : ℕ → Bool) (table : Table) : Table :=
  table.retain fun key _ => !(parseU64 key).any p

namespace RedbLogStore

def «open» (db : RedbDatabase) : RedbLogStore where
  db := db
  lastPurged := (db.stateTable.lookup "state").bind fun val =>
    (SerializedState.deserialize val).bind SerializedState.lastPurgedLogId

def saveState (s : RedbLogStore) : RedbLogStore :=
  let state : SerializedState := ⟨s.lastPurged.map LogId.index, s.lastPurged.map LogId.term⟩
  { s with db := { s.db with stateTable := s.db.stateTable.insert "state" state.serialize } }

/-- `none` is the panic of an overflowing bound. -/
def tryGetLogEntries (s : RedbLogStore) (k : LogCodec) (overflowChecks : Bool)
    (range : IndexRange) : Option (List Entry) := do
  let start ← range.start overflowChecks
  let stop ← range.stop overflowChecks 1000000
  return readLogEntries k s.db.logTable start stop

def getLogState (s : RedbLogStore) (k : LogCodec) : LogState :=
  ⟨s.lastPurged, (findLastLogId k s.db.logTable).or s.lastPurged⟩

def saveVote (s : RedbLogStore) (k : LogCodec) (vote : Vote) : Except String RedbLogStore := do
  let bytes ← k.vote.serialize vote
  return { s with db := { s.db with voteTable := s.db.voteTable.insert "vote" bytes } }

def readVote (s : RedbLogStore) (k : LogCodec) : Except String (Option Vote) :=
  match s.db.voteTable.lookup "vote" with
  | none => .ok none
  | some val => do return some (← k.vote.deserialize val)

/-- One transaction: an entry that cannot be serialized leaves the table as it was. -/
def append (s : RedbLogStore) (k : LogCodec) (entries : List Entry) :
    Except String RedbLogStore := do
  let table ← entries.foldlM (fun (table : Table) entry => do
    let bytes ← k.entry.serialize entry
    return table.insert (indexKey entry.logId.index) bytes) s.db.logTable
  return { s with db := { s.db with logTable := table } }

def truncate (s : RedbLogStore) (logId : LogId) : RedbLogStore :=
  let table := removeKeys (fun idx => decide (logId.index ≤ idx)) s.db.logTable
  { s with db := { s.db with logTable := table } }

def purge (s : RedbLogStore) (logId : LogId) : RedbLogStore :=
  let table := removeKeys (fun idx => decide (idx ≤ logId.index)) s.db.logTable
  saveState { s with db := { s.db with logTable := table }, lastPurged := some logId }

def exec (k : LogCodec) (s : RedbLogStore) : LogCall → RedbLogStore
  | .append entries => (s.append k entries).toOption.getD s
  | .truncate logId => s.truncate logId
  | .purge logId => s.purge logId
  | .saveVote vote => (s.saveVote k vote).toOption.getD s

/-- The store after a history of calls on a new one. -/
def run (k : LogCodec) (h : List LogCall) : RedbLogStore := h.foldl (exec k) («open» {})

end RedbLogStore

/-! ## Reopening -/

def LogCall.purged : LogCall → Option LogId
  | .purge logId => some logId
  | _ => none

def lastPurge (h : List LogCall) : Option LogId := (h.filterMap LogCall.purged).getLast?

theorem lastPurge_snoc (h : List LogCall) (call : LogCall) :
    lastPurge (h ++ [call]) = call.purged.or (lastPurge h) := by
  rw [lastPurge, List.filterMap_append, List.getLast?_append, lastPurge]
  cases call <;> rfl

theorem mem_of_lastPurge {h : List LogCall} {logId : LogId} (hlast : lastPurge h = some logId) :
    .purge logId ∈ h := by
  obtain ⟨call, hmem, hcall⟩ := List.mem_filterMap.mp (List.mem_of_getLast? hlast)
  cases call with
  | purge logId' =>
      obtain rfl := Option.some.inj hcall
      exact hmem
  | append entries => cases hcall
  | truncate logId' => cases hcall
  | saveVote vote => cases hcall

def reduced (logId : LogId) : SerializedState := ⟨some logId.index, some logId.term⟩

/-- The fields are `u64`. -/
structure LogId.Fits (logId : LogId) : Prop where
  term : logId.term < 2 ^ 64
  index : logId.index < 2 ^ 64

theorem deserialize_reduced {logId : LogId} (h : logId.Fits) :
    SerializedState.deserialize (reduced logId).serialize = some (reduced logId) := by
  have hindex := word_toLe (k := 8) h.index (1 :: toLe 8 logId.term)
  have hterm := word_toLe (k := 8) h.term []
  rw [List.append_nil] at hterm
  simp [reduced, SerializedState.serialize, SerializedState.deserialize, option, decodeOption,
    hindex, hterm]

namespace RedbLogStore

variable {k : LogCodec}

theorem run_snoc (h : List LogCall) (call : LogCall) :
    run k (h ++ [call]) = (run k h).exec k call := by
  rw [run, List.foldl_append]
  rfl

theorem append_keeps {s s' : RedbLogStore} {entries : List Entry}
    (h : s.append k entries = .ok s') :
    s'.lastPurged = s.lastPurged ∧ s'.db.stateTable = s.db.stateTable ∧
      s'.db.voteTable = s.db.voteTable := by
  obtain ⟨table, -, h⟩ := Outcome.except_bind_ok.mp h
  obtain rfl := Except.ok.inj h
  exact ⟨rfl, rfl, rfl⟩

theorem saveVote_keeps {s s' : RedbLogStore} {vote : Vote} (h : s.saveVote k vote = .ok s') :
    s'.lastPurged = s.lastPurged ∧ s'.db.stateTable = s.db.stateTable ∧
      s'.db.logTable = s.db.logTable := by
  obtain ⟨bytes, -, h⟩ := Outcome.except_bind_ok.mp h
  obtain rfl := Except.ok.inj h
  exact ⟨rfl, rfl, rfl⟩

theorem exec_purged (s : RedbLogStore) (call : LogCall) :
    (s.exec k call).lastPurged = call.purged.or s.lastPurged ∧
      (s.exec k call).db.stateTable.lookup "state" =
        (call.purged.map fun l => (reduced l).serialize).or
          (s.db.stateTable.lookup "state") := by
  cases call with
  | append entries =>
      cases happend : s.append k entries with
      | error e =>
          rw [exec, happend]
          exact ⟨rfl, rfl⟩
      | ok s' =>
          obtain ⟨hpurged, hstate, -⟩ := append_keeps happend
          rw [exec, happend]
          exact ⟨hpurged, congrArg (AList.lookup "state") hstate⟩
  | truncate logId => exact ⟨rfl, rfl⟩
  | purge logId =>
      refine ⟨rfl, ?_⟩
      show (AList.insert "state" _ _).lookup "state" = _
      rw [AList.lookup_insert]
      rfl
  | saveVote vote =>
      cases hvote : s.saveVote k vote with
      | error e =>
          rw [exec, hvote]
          exact ⟨rfl, rfl⟩
      | ok s' =>
          obtain ⟨hpurged, hstate, -⟩ := saveVote_keeps hvote
          rw [exec, hvote]
          exact ⟨hpurged, congrArg (AList.lookup "state") hstate⟩

theorem run_purged (h : List LogCall) : (run k h).lastPurged = lastPurge h ∧
    (run k h).db.stateTable.lookup "state" =
      (lastPurge h).map fun logId => (reduced logId).serialize := by
  induction h using List.reverseRecOn with
  | nil => exact ⟨rfl, rfl⟩
  | append_singleton h call ih =>
      obtain ⟨hpurged, hstate⟩ := exec_purged (k := k) (run k h) call
      rw [run_snoc, lastPurge_snoc, hpurged, hstate, ih.1, ih.2, Option.map_or]
      exact ⟨rfl, rfl⟩

theorem lastPurged_reopen {h : List LogCall} (hfits : ∀ l, .purge l ∈ h → l.Fits) :
    («open» (run k h).db).lastPurged = (lastPurge h).map fun l => ⟨l.term, 0, l.index⟩ := by
  show ((run k h).db.stateTable.lookup "state").bind _ = _
  rw [(run_purged h).2]
  cases hlast : lastPurge h with
  | none => rfl
  | some logId =>
      rw [Option.map_some, Option.bind_some,
        deserialize_reduced (hfits logId (mem_of_lastPurge hlast))]
      rfl

structure SameAfterReopen (k : LogCodec) (s : RedbLogStore) : Prop where
  logState : («open» s.db).getLogState k = s.getLogState k
  vote : («open» s.db).readVote k = s.readVote k
  entries : ∀ overflowChecks range,
    («open» s.db).tryGetLogEntries k overflowChecks range =
      s.tryGetLogEntries k overflowChecks range

/-- **Reopening changes nothing exactly when the last purge was of an entry of
node 0's**, or there was none: votes and entries are always the same. -/
theorem reopen_same_iff {h : List LogCall} (hfits : ∀ l, .purge l ∈ h → l.Fits) :
    SameAfterReopen k (run k h) ↔ ∀ l, lastPurge h = some l → l.nodeId = 0 := by
  have hbefore : (run k h).lastPurged = lastPurge h := (run_purged h).1
  have hafter := lastPurged_reopen (k := k) hfits
  constructor
  · intro hsame l hlast
    have hpurged : («open» (run k h).db).lastPurged = (run k h).lastPurged :=
      congrArg LogState.lastPurgedLogId hsame.logState
    rw [hbefore, hafter, hlast] at hpurged
    exact (congrArg LogId.nodeId (Option.some.inj hpurged)).symm
  · intro hnode
    have hpurged : («open» (run k h).db).lastPurged = (run k h).lastPurged := by
      rw [hbefore, hafter]
      cases hlast : lastPurge h with
      | none => rfl
      | some l =>
          show some (⟨l.term, 0, l.index⟩ : LogId) = some l
          rw [← hnode l hlast]
    refine ⟨?_, rfl, fun _ _ => rfl⟩
    show LogState.mk _ _ = LogState.mk _ _
    rw [hpurged]
    rfl

end RedbLogStore

/-! ## A codec for entries without payload -/

/-- Bincode on blank entries: the log id, and variant 0. -/
def blankEntryCodec : Codec Entry where
  serialize := fun e =>
    match e.payload with
    | .blank => .ok (toLe 8 e.logId.term ++ toLe 8 e.logId.nodeId ++ toLe 8 e.logId.index ++
        toLe 4 0)
    | _ => .error "not a blank entry"
  deserialize := fun bytes =>
    if bytes.length = 28 then
      .ok ⟨⟨ofLe (bytes.take 8), ofLe ((bytes.drop 8).take 8), ofLe ((bytes.drop 16).take 8)⟩,
        .blank⟩
    else .error "unexpected end"

def voteCodec : Codec Vote where
  serialize := fun v => .ok (toLe 8 v.term ++ toLe 8 v.nodeId ++ [if v.committed then 1 else 0])
  deserialize := fun bytes =>
    if bytes.length = 17 then
      .ok ⟨ofLe (bytes.take 8), ofLe ((bytes.drop 8).take 8), decide (bytes.drop 16 = [1])⟩
    else .error "unexpected end"

def blankCodec : LogCodec := ⟨blankEntryCodec, voteCodec⟩

namespace RedbLogStore

/-- Two entries and a vote, purged up to the first, by the leader on node 0. -/
theorem reopen_same_demo : SameAfterReopen blankCodec (run blankCodec
    [.append [⟨⟨1, 0, 0⟩, .blank⟩, ⟨⟨1, 0, 1⟩, .blank⟩], .saveVote ⟨5, 99, false⟩,
      .purge ⟨1, 0, 0⟩]) := by
  refine (reopen_same_iff ?_).mpr ?_
  · intro l hl
    obtain rfl : l = ⟨1, 0, 0⟩ := by simpa using hl
    exact ⟨by decide, by decide⟩
  · intro l hl
    obtain rfl : l = ⟨1, 0, 0⟩ := (Option.some.inj hl).symm
    rfl

/-- Purged by a leader on node 7: after reopening the position names node 0. -/
theorem reopen_forgets_node : ¬ SameAfterReopen blankCodec
    (run blankCodec [.append [⟨⟨1, 7, 0⟩, .blank⟩], .purge ⟨1, 7, 0⟩]) := by
  intro h
  have hpurged := congrArg LogState.lastPurgedLogId h.logState
  revert hpurged
  decide +kernel

end RedbLogStore

end Rekha.Cluster
