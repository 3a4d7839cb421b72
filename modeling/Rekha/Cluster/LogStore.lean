import Rekha.Cluster.AppliedLog

/-!
# The Raft log in memory

What the consensus library asks of a log store, and the store that keeps the
entries in a vector. Every read is a filter over it.
-/

namespace Rekha.Cluster

inductive Bound where
  | included (n : ℕ)
  | excluded (n : ℕ)
  | unbounded

structure IndexRange where
  startBound : Bound
  endBound : Bound

structure Vote where
  term : ℕ
  nodeId : ℕ
  committed : Bool

structure LogState where
  lastPurgedLogId : Option LogId
  lastLogId : Option LogId

/-- `n + 1` on `u64`: a panic where overflow is checked, zero where it is not. -/
def nextIndex (overflowChecks : Bool) (n : ℕ) : Option ℕ :=
  if n + 1 < 2 ^ 64 then some (n + 1) else if overflowChecks then none else some 0

def IndexRange.start (range : IndexRange) (overflowChecks : Bool) : Option ℕ :=
  match range.startBound with
  | .included n => some n
  | .excluded n => nextIndex overflowChecks n
  | .unbounded => some 0

/-- The stores differ in the index they put for an open end. -/
def IndexRange.stop (range : IndexRange) (overflowChecks : Bool) (unbounded : ℕ) : Option ℕ :=
  match range.endBound with
  | .included n => nextIndex overflowChecks n
  | .excluded n => some n
  | .unbounded => some unbounded

inductive LogCall where
  | append (entries : List Entry)
  | truncate (logId : LogId)
  | purge (logId : LogId)
  | saveVote (vote : Vote)

/-! ## The store -/

structure MemoryLogStore where
  entries : List Entry := []
  lastPurgedLogId : Option LogId := none
  vote : Option Vote := none

namespace MemoryLogStore

def lastLogId (s : MemoryLogStore) : Option LogId := s.entries.getLast?.map Entry.logId

def getLogState (s : MemoryLogStore) : LogState :=
  ⟨s.lastPurgedLogId, s.lastLogId.or s.lastPurgedLogId⟩

def readVote (s : MemoryLogStore) : Option Vote := s.vote

/-- `none` is the panic of an overflowing bound. -/
def tryGetLogEntries (s : MemoryLogStore) (overflowChecks : Bool) (range : IndexRange) :
    Option (List Entry) := do
  let start ← range.start overflowChecks
  let stop ← range.stop overflowChecks (2 ^ 64 - 1)
  return s.entries.filter fun e => decide (start ≤ e.logId.index) && decide (e.logId.index < stop)

def append (s : MemoryLogStore) (entries : List Entry) : MemoryLogStore :=
  { s with entries := s.entries ++ entries }

def truncate (s : MemoryLogStore) (logId : LogId) : MemoryLogStore :=
  { s with entries := s.entries.filter fun e => decide (e.logId.index < logId.index) }

def purge (s : MemoryLogStore) (logId : LogId) : MemoryLogStore :=
  { s with
    lastPurgedLogId := some logId
    entries := s.entries.filter fun e => decide (logId.index < e.logId.index) }

def saveVote (s : MemoryLogStore) (vote : Vote) : MemoryLogStore := { s with vote := some vote }

def exec (s : MemoryLogStore) : LogCall → MemoryLogStore
  | .append entries => s.append entries
  | .truncate logId => s.truncate logId
  | .purge logId => s.purge logId
  | .saveVote vote => s.saveVote vote

/-- The store after a history of calls on a new one. -/
def run (h : List LogCall) : MemoryLogStore := h.foldl exec {}

end MemoryLogStore

/-! ## The calls the consensus library makes -/

/-- Entries with consecutive indexes behind `last`; the first of all may be anywhere. -/
def FollowsLast : Option LogId → List Entry → Prop
  | _, [] => True
  | last, e :: entries =>
      (∀ l, last = some l → e.logId.index = l.index + 1) ∧ e.logId.index < 2 ^ 64 ∧
        FollowsLast (some e.logId) entries

/-- Appends continue the log; any entry may be cut off, and any purged. -/
def LegalCall (s : MemoryLogStore) : LogCall → Prop
  | .append entries => FollowsLast s.getLogState.lastLogId entries
  | _ => True

def LegalHistory (h : List LogCall) : Prop :=
  ∀ before call after, h = before ++ call :: after → LegalCall (MemoryLogStore.run before) call

theorem MemoryLogStore.run_snoc (h : List LogCall) (call : LogCall) :
    run (h ++ [call]) = (run h).exec call := by
  rw [run, List.foldl_append]
  rfl

theorem LegalHistory.init {h : List LogCall} {call : LogCall} (hl : LegalHistory (h ++ [call])) :
    LegalHistory h ∧ LegalCall (MemoryLogStore.run h) call := by
  refine ⟨?_, hl h call [] rfl⟩
  rintro before call' after rfl
  refine hl before call' (after ++ [call]) ?_
  rw [List.append_assoc, List.cons_append]

theorem LegalHistory.nil : LegalHistory [] := by
  intro before call after h
  exact absurd h (by simp)

theorem LegalHistory.snoc {h : List LogCall} {call : LogCall} (hl : LegalHistory h)
    (hcall : LegalCall (MemoryLogStore.run h) call) : LegalHistory (h ++ [call]) := by
  intro before call' after heq
  rcases List.eq_nil_or_concat after with rfl | ⟨after, last, rfl⟩
  · obtain ⟨hbefore, hlast⟩ := List.append_inj' heq rfl
    subst hbefore
    obtain rfl := (List.cons.inj hlast).1
    exact hcall
  · rw [List.concat_eq_append, ← List.cons_append, ← List.append_assoc] at heq
    exact hl before call' after (List.append_inj' heq rfl).1

end Rekha.Cluster
