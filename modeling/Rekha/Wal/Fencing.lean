import Rekha.Wal.Recovery

/-!
# Several leaders on one log

Every leader opens the same path with the epoch it was elected for and appends
through its own handle; the file is shared. An existing file keeps the epoch of
its creation, every handle takes that one, and an append compares it with
itself: the epoch a leader brings along is not looked at again. So a stale
leader is kept out exactly when nobody could have written (`fenced_iff`).
-/

namespace Rekha.Framed

structure LeaderHandle where
  epoch : ℕ
  wal : Wal

/-- The bytes at the path and the handles that were opened on it, in order. What
a handle's own `file` says is out of date; the shared one counts. -/
structure SharedLog where
  file : List UInt8
  handles : List LeaderHandle

inductive LeaderCall where
  | openLog (epoch : ℕ) (startSeq : Option ℕ)
  | append (handle : ℕ) (op : Operation)

namespace SharedLog

variable {k : Codec} {checks : Bool}

/-- The handle on the file as it is now. -/
def current (s : SharedLog) (h : LeaderHandle) : Wal := { h.wal with file := s.file }

def exec (k : Codec) (checks : Bool) (s : SharedLog) : LeaderCall → SharedLog
  | .openLog epoch startSeq =>
      match Wal.openFile k s.file epoch startSeq with
      | .ok w => ⟨w.file, s.handles ++ [⟨epoch, w⟩]⟩
      | .error _ => s
  | .append i op =>
      match s.handles[i]? with
      | none => s
      | some h =>
          match Wal.append k checks op (s.current h) with
          | .ok _ w => ⟨w.file, s.handles.set i ⟨h.epoch, w⟩⟩
          | .error _ _ => s

/-- The calls on a path with these bytes; no bytes are no file. -/
def run (k : Codec) (checks : Bool) (file : List UInt8) (calls : List LeaderCall) : SharedLog :=
  calls.foldl (exec k checks) ⟨file, []⟩

/-- A leader with a greater epoch has opened the log. -/
def Stale (s : SharedLog) (h : LeaderHandle) : Prop := ∃ h' ∈ s.handles, h.epoch < h'.epoch

/-- `before` leads to a state where handle `i`, which is stale there, appends `op`. -/
def AppendsStale (k : Codec) (checks : Bool) (file : List UInt8) (calls before : List LeaderCall)
    (h : LeaderHandle) (op : Operation) : Prop :=
  ∃ i after, calls = before ++ .append i op :: after ∧
    (run k checks file before).handles[i]? = some h ∧ (run k checks file before).Stale h

/-- **Stale leaders are fenced off**: what they append is rejected, and nothing
they have appended is ever read again. -/
structure Fenced (k : Codec) (checks : Bool) (file : List UInt8) (calls : List LeaderCall) :
    Prop where
  rejected : ∀ before h op, AppendsStale k checks file calls before h op →
    ∀ r w, Wal.append k checks op ((run k checks file before).current h) ≠ .ok r w
  unread : ∀ before h op, AppendsStale k checks file calls before h op →
    ∀ r w, Wal.append k checks op ((run k checks file before).current h) = .ok r w →
    ∀ epoch startSeq w', Wal.openFile k (run k checks file calls).file epoch startSeq = .ok w' →
    ∀ lo hi found, w'.readRange k lo hi = .ok found → r ∉ found

/-! ## When an append fails -/

/-- Nobody could write this: the record is too long for its length field, or the
handle is at the last seq and the overflow is caught. -/
def Unwritable (k : Codec) (checks : Bool) (w : Wal) (op : Operation) : Prop :=
  2 ^ 32 - 1 < recordHeaderLen + (k.serialize op).length ∨
    (checks = true ∧ 2 ^ 64 ≤ w.lastSeq + 1)

theorem nextSeq_fails_iff {lastSeq : ℕ} :
    (∃ e, Wal.nextSeq checks lastSeq = .error e) ↔ checks = true ∧ 2 ^ 64 ≤ lastSeq + 1 := by
  unfold Wal.nextSeq
  split
  · rename_i hlt
    simp only [reduceCtorEq, exists_false, false_iff, not_and, not_le]
    exact fun _ => hlt
  · rename_i hge
    cases checks with
    | true => exact iff_of_true ⟨_, rfl⟩ ⟨rfl, not_lt.mp hge⟩
    | false => simp

theorem append_fails_iff {w : Wal} {op : Operation} :
    (∀ r w', Wal.append k checks op w ≠ .ok r w') ↔ Unwritable k checks w op := by
  rw [Unwritable, ← nextSeq_fails_iff]
  unfold Wal.append
  cases hseq : Wal.nextSeq checks w.lastSeq with
  | error e => simp
  | ok seq =>
      by_cases hlen : 2 ^ 32 - 1 < recordHeaderLen + (k.serialize op).length
      · simp only [if_neg (Nat.lt_irrefl w.headerEpoch), if_pos hlen]
        refine iff_of_true ?_ (Or.inl hlen)
        intro r w' h
        cases h
      · simp only [if_neg (Nat.lt_irrefl w.headerEpoch), if_neg hlen]
        refine iff_of_false (fun h => h _ _ rfl) ?_
        rintro (h | ⟨e, he⟩)
        · exact hlen h
        · cases he

/-- **A history is fenced exactly when its stale appends could not be written
anyway.** -/
theorem fenced_iff (k : Codec) (checks : Bool) (file : List UInt8) (calls : List LeaderCall) :
    Fenced k checks file calls ↔ ∀ before h op, AppendsStale k checks file calls before h op →
      Unwritable k checks h.wal op := by
  constructor
  · intro hf before h op hstale
    have hfails := append_fails_iff.mp (hf.rejected before h op hstale)
    exact hfails
  · intro hunwritable
    have hrejected : ∀ before h op, AppendsStale k checks file calls before h op →
        ∀ r w, Wal.append k checks op ((run k checks file before).current h) ≠ .ok r w := by
      intro before h op hstale
      exact append_fails_iff.mpr (hunwritable before h op hstale)
    refine ⟨hrejected, ?_⟩
    intro before h op hstale r w hok
    exact absurd hok (hrejected before h op hstale r w)

/-! ## A stale leader that writes -/

/-- The seqs a leader with epoch `epoch` finds after the calls. -/
def foundAfter (k : Codec) (checks : Bool) (calls : List LeaderCall) (epoch : ℕ) :
    Option (List ℕ) := do
  let w ← (Wal.openFile k (run k checks [] calls).file epoch none).toOption
  let found ← (w.readRange k 0 (2 ^ 64 - 1)).toOption
  return found.map WalRecord.seq

/-- A leader of epoch 1, then one of epoch 2, then an append by the first. -/
def takeover : List LeaderCall := [.openLog 1 none, .openLog 2 none, .append 0 (.delete "a")]

/-- The append is acknowledged, and the leader of epoch 2 finds the record. -/
theorem stale_leader_writes : ¬ Fenced codec true [] takeover ∧
    foundAfter codec true takeover 2 = some [1] := by
  refine ⟨?_, by decide +kernel⟩
  intro hf
  have hhandles : (run codec true [] [.openLog 1 none, .openLog 2 none]).handles.map
      (fun h => (h.epoch, h.wal.lastSeq)) = [(1, 0), (2, 0)] := by
    decide +kernel
  obtain ⟨h, rest, hcons, hfirst, hrest⟩ := List.map_eq_cons_iff.mp hhandles
  obtain ⟨h', rest', rfl, hsecond, -⟩ := List.map_eq_cons_iff.mp hrest
  have hstale : AppendsStale codec true [] takeover [.openLog 1 none, .openLog 2 none] h
      (.delete "a") := by
    refine ⟨0, [], rfl, by rw [hcons]; rfl, h', ?_, ?_⟩
    · rw [hcons]
      exact List.mem_cons_of_mem _ List.mem_cons_self
    · rw [(Prod.mk.inj hfirst).1, (Prod.mk.inj hsecond).1]
      decide
  rcases append_fails_iff.mp (hf.rejected _ _ _ hstale) with hlen | ⟨-, hseq⟩
  · revert hlen
    decide +kernel
  · rw [show ((run codec true [] _).current h).lastSeq = 0 from (Prod.mk.inj hfirst).2] at hseq
    exact absurd hseq (by decide)

end SharedLog

end Rekha.Framed
