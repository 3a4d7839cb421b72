import Rekha.Cluster.RedbLogStore

/-!
# The log on disk against the log in memory

The table holds the entries of the vector and nothing else, each under its
index (`Mirrors`), and every legal call keeps it so. The two stores then report
the same state and the same vote, and the same entries for every range, except
that an open end stops at index 1,000,000 on disk (`logs_agree_iff`).
-/

namespace Rekha.Cluster

open Outcome

/-! ## Keys -/

theorem parseU64_indexKey {idx : ℕ} (h : idx < 2 ^ 64) : parseU64 (indexKey idx) = some idx := by
  have hdigits : ∀ c ∈ Nat.toDigits 10 idx, c.isDigit = true := fun c hc =>
    Nat.isDigit_of_mem_toDigits (by decide) (by decide) hc
  have hsign : (Nat.toDigits 10 idx).head? ≠ some '+' := by
    intro hhead
    exact absurd (hdigits _ (List.mem_of_head? hhead)) (by decide)
  rw [parseU64, indexKey, Nat.toList_repr]
  simp only [if_neg hsign]
  rw [if_pos ⟨Nat.toDigits_ne_nil, List.all_eq_true.mpr hdigits⟩,
    Nat.ofDigitChars_toDigits (by decide) (by decide), if_pos h]

theorem indexKey_inj {i j : ℕ} (h : indexKey i = indexKey j) : i = j := by
  have hdigits : Nat.toDigits 10 i = Nat.toDigits 10 j := by
    rw [← Nat.toList_repr, ← Nat.toList_repr]
    exact congrArg String.toList h
  rw [← @Nat.ofDigitChars_toDigits 10 i (by decide) (by decide), hdigits,
    Nat.ofDigitChars_toDigits (by decide) (by decide)]

/-! ## The simulation -/

/-- The codec brings `a` back. -/
def Codec.RoundTrips {α : Type} (c : Codec α) (a : α) : Prop :=
  ∃ bytes, c.serialize a = .ok bytes ∧ c.deserialize bytes = .ok a

/-- What the call writes comes back when it is read. -/
def LogCodec.RoundTrips (k : LogCodec) : LogCall → Prop
  | .append entries => ∀ e ∈ entries, k.entry.RoundTrips e
  | .saveVote vote => k.vote.RoundTrips vote
  | _ => True

/-- The table holds the vector's entries, each under its index. -/
structure Holds (k : LogCodec) (entries : List Entry) (table : Table) : Prop where
  sorted : entries.Pairwise fun e e' => e.logId.index < e'.logId.index
  fits : ∀ e ∈ entries, e.logId.index < 2 ^ 64
  stored : ∀ e ∈ entries, ∃ bytes, table.lookup (indexKey e.logId.index) = some bytes ∧
    k.entry.deserialize bytes = .ok e
  only : ∀ key bytes, table.lookup key = some bytes → ∃ e ∈ entries, key = indexKey e.logId.index

structure Mirrors (k : LogCodec) (m : MemoryLogStore) (s : RedbLogStore) : Prop where
  log : Holds k m.entries s.db.logTable
  purged : s.lastPurged = m.lastPurgedLogId
  vote : s.readVote k = .ok m.readVote

variable {k : LogCodec} {entries : List Entry} {table : Table}

theorem holds_empty : Holds k [] ∅ := by
  refine ⟨.nil, ?_, ?_, ?_⟩
  · intro e he
    cases he
  · intro e he
    cases he
  · intro key bytes h
    cases h

theorem Holds.push (h : Holds k entries table) {e : Entry}
    (hlast : ∀ e' ∈ entries, e'.logId.index < e.logId.index) (hfits : e.logId.index < 2 ^ 64)
    {bytes : List UInt8} (hback : k.entry.deserialize bytes = .ok e) :
    Holds k (entries ++ [e]) (table.insert (indexKey e.logId.index) bytes) := by
  refine ⟨?_, ?_, ?_, ?_⟩
  · refine List.pairwise_append.mpr ⟨h.sorted, List.pairwise_singleton _ _, ?_⟩
    intro e' he' e'' he''
    obtain rfl := List.mem_singleton.mp he''
    exact hlast e' he'
  · intro e' he'
    rcases List.mem_append.mp he' with he' | he'
    · exact h.fits e' he'
    · obtain rfl := List.mem_singleton.mp he'
      exact hfits
  · intro e' he'
    rcases List.mem_append.mp he' with he' | he'
    · obtain ⟨bytes', hlookup, hback'⟩ := h.stored e' he'
      have hne : indexKey e'.logId.index ≠ indexKey e.logId.index := by
        intro hkey
        exact (hlast e' he').ne (indexKey_inj hkey)
      exact ⟨bytes', by rw [FinMap.lookup_insert_ite, if_neg hne, hlookup], hback'⟩
    · obtain rfl := List.mem_singleton.mp he'
      exact ⟨bytes, AList.lookup_insert _, hback⟩
  · intro key bytes' hlookup
    rw [FinMap.lookup_insert_ite] at hlookup
    split at hlookup
    · rename_i hkey
      exact ⟨e, List.mem_append_right _ (List.mem_singleton_self e), hkey⟩
    · obtain ⟨e', he', hkey⟩ := h.only key bytes' hlookup
      exact ⟨e', List.mem_append_left _ he', hkey⟩

theorem Holds.remove (h : Holds k entries table) (p : ℕ → Bool) :
    Holds k (entries.filter fun e => !p e.logId.index) (removeKeys p table) := by
  refine ⟨h.sorted.filter _, ?_, ?_, ?_⟩
  · intro e he
    exact h.fits e (List.mem_filter.mp he).1
  · intro e he
    obtain ⟨hmem, hkeep⟩ := List.mem_filter.mp he
    obtain ⟨bytes, hlookup, hback⟩ := h.stored e hmem
    refine ⟨bytes, ?_, hback⟩
    rw [removeKeys, FinMap.lookup_retain, hlookup, parseU64_indexKey (h.fits e hmem)]
    exact Option.filter_some_pos hkeep
  · intro key bytes hlookup
    rw [removeKeys, FinMap.lookup_retain] at hlookup
    obtain ⟨hlookup, hkeep⟩ := Option.filter_eq_some_iff.mp hlookup
    obtain ⟨e, he, rfl⟩ := h.only key bytes hlookup
    rw [parseU64_indexKey (h.fits e he)] at hkeep
    exact ⟨e, List.mem_filter.mpr ⟨he, hkeep⟩, rfl⟩

theorem Holds.append : ∀ {new entries : List Entry} {table : Table} {last : Option LogId},
    Holds k entries table →
    (∀ e ∈ entries, ∃ l, last = some l ∧ e.logId.index ≤ l.index) → FollowsLast last new →
    (∀ e ∈ new, k.entry.RoundTrips e) →
    ∃ table', new.foldlM (fun (table : Table) entry => do
        let bytes ← k.entry.serialize entry
        return table.insert (indexKey entry.logId.index) bytes) table = Except.ok table' ∧
      Holds k (entries ++ new) table'
  | [], entries, table, last, h, _, _, _ => ⟨table, rfl, by rwa [List.append_nil]⟩
  | e :: new, entries, table, last, h, hlast, hfollows, hround => by
      obtain ⟨hnext, hfits, hrest⟩ := hfollows
      obtain ⟨bytes, hbytes, hback⟩ := hround e List.mem_cons_self
      have hbelow : ∀ e' ∈ entries, e'.logId.index < e.logId.index := by
        intro e' he'
        obtain ⟨l, hl, hle⟩ := hlast e' he'
        have := hnext l hl
        omega
      have hcover : ∀ e' ∈ entries ++ [e], ∃ l, some e.logId = some l ∧
          e'.logId.index ≤ l.index := by
        intro e' he'
        refine ⟨e.logId, rfl, ?_⟩
        rcases List.mem_append.mp he' with he' | he'
        · exact (hbelow e' he').le
        · rw [List.mem_singleton.mp he']
      obtain ⟨table', hfold, hholds⟩ := Holds.append (h.push hbelow hfits hback) hcover hrest
        fun e' he' => hround e' (List.mem_cons_of_mem e he')
      refine ⟨table', ?_, by rwa [List.append_assoc] at hholds⟩
      rw [List.foldlM_cons, except_bind_ok]
      exact ⟨_, except_bind_ok.mpr ⟨bytes, hbytes, rfl⟩, hfold⟩

theorem le_getLast {entries : List Entry}
    (h : entries.Pairwise fun e e' => e.logId.index < e'.logId.index) {last : Entry}
    (hlast : entries.getLast? = some last) : ∀ e ∈ entries, e.logId.index ≤ last.logId.index := by
  obtain ⟨front, rfl⟩ := List.getLast?_eq_some_iff.mp hlast
  intro e he
  rcases List.mem_append.mp he with he | he
  · exact ((List.pairwise_append.mp h).2.2 e he last (List.mem_singleton_self last)).le
  · rw [List.mem_singleton.mp he]

theorem Mirrors.covered {m : MemoryLogStore} {s : RedbLogStore} (h : Mirrors k m s) :
    ∀ e ∈ m.entries, ∃ l, m.getLogState.lastLogId = some l ∧ e.logId.index ≤ l.index := by
  intro e he
  have hlast := List.getLast?_eq_some_getLast (List.ne_nil_of_mem he)
  refine ⟨_, ?_, le_getLast h.log.sorted hlast e he⟩
  show (m.entries.getLast?.map Entry.logId).or m.lastPurgedLogId = _
  rw [hlast]
  rfl

/-- **Every legal call keeps the two stores alike.** -/
theorem Mirrors.exec {m : MemoryLogStore} {s : RedbLogStore} (h : Mirrors k m s) {call : LogCall}
    (hlegal : LegalCall m call) (hround : k.RoundTrips call) :
    Mirrors k (m.exec call) (s.exec k call) := by
  cases call with
  | append new =>
      obtain ⟨table, hfold, hholds⟩ := h.log.append h.covered hlegal hround
      have happend : s.append k new = .ok { s with db := { s.db with logTable := table } } :=
        except_bind_ok.mpr ⟨table, hfold, rfl⟩
      show Mirrors k (m.append new) ((s.append k new).toOption.getD s)
      rw [happend]
      exact ⟨hholds, h.purged, h.vote⟩
  | truncate logId =>
      refine ⟨?_, h.purged, h.vote⟩
      have hholds := h.log.remove fun idx => decide (logId.index ≤ idx)
      simp only [← decide_not, not_le] at hholds
      exact hholds
  | purge logId =>
      refine ⟨?_, rfl, h.vote⟩
      have hholds := h.log.remove fun idx => decide (idx ≤ logId.index)
      simp only [← decide_not, not_le] at hholds
      exact hholds
  | saveVote vote =>
      obtain ⟨bytes, hbytes, hback⟩ := hround
      have hsave : s.saveVote k vote =
          .ok { s with db := { s.db with voteTable := s.db.voteTable.insert "vote" bytes } } :=
        except_bind_ok.mpr ⟨bytes, hbytes, rfl⟩
      show Mirrors k (m.saveVote vote) ((s.saveVote k vote).toOption.getD s)
      rw [hsave]
      refine ⟨h.log, h.purged, ?_⟩
      have hlookup : (s.db.voteTable.insert "vote" bytes).lookup "vote" = some bytes :=
        AList.lookup_insert _
      show RedbLogStore.readVote
        { s with db := { s.db with voteTable := s.db.voteTable.insert "vote" bytes } } k = _
      simp only [RedbLogStore.readVote, hlookup]
      exact except_bind_ok.mpr ⟨vote, hback, rfl⟩

theorem mirrors_run {h : List LogCall} (hlegal : LegalHistory h)
    (hround : ∀ call ∈ h, k.RoundTrips call) :
    Mirrors k (MemoryLogStore.run h) (RedbLogStore.run k h) := by
  induction h using List.reverseRecOn with
  | nil => exact ⟨holds_empty, rfl, rfl⟩
  | append_singleton h call ih =>
      obtain ⟨hinit, hcall⟩ := hlegal.init
      rw [MemoryLogStore.run_snoc, RedbLogStore.run_snoc]
      exact (ih hinit fun c hc => hround c (List.mem_append_left _ hc)).exec hcall
        (hround call (List.mem_append_right _ (List.mem_singleton_self call)))

/-! ## The last log id -/

theorem entry_eq {e e' : Entry} (h : entries.Pairwise fun e e' => e.logId.index < e'.logId.index)
    (he : e ∈ entries) (he' : e' ∈ entries) (hindex : e.logId.index = e'.logId.index) : e = e' := by
  have hnodup : (entries.map fun e => e.logId.index).Nodup :=
    List.pairwise_map.mpr (h.imp fun hlt => hlt.ne)
  exact List.inj_on_of_nodup_map hnodup he he' hindex

theorem foldl_newest (rows : List Entry) :
    (rows = [] ∧ rows.foldl newest none = none) ∨
      ∃ e ∈ rows, rows.foldl newest none = some e.logId ∧
        ∀ e' ∈ rows, e'.logId.index ≤ e.logId.index := by
  induction rows using List.reverseRecOn with
  | nil => exact Or.inl ⟨rfl, rfl⟩
  | append_singleton rows row ih =>
      refine Or.inr ?_
      rw [List.foldl_append]
      rcases ih with ⟨rfl, hnone⟩ | ⟨e, he, hmax, hle⟩
      · refine ⟨row, List.mem_singleton_self row, rfl, ?_⟩
        intro e' he'
        rw [List.nil_append, List.mem_singleton] at he'
        rw [he']
      · by_cases hlt : e.logId.index < row.logId.index
        · refine ⟨row, List.mem_append_right _ (List.mem_singleton_self row), ?_, ?_⟩
          · simp [hmax, newest, hlt]
          · intro e' he'
            rcases List.mem_append.mp he' with he' | he'
            · exact (hle e' he').trans hlt.le
            · rw [List.mem_singleton.mp he']
        · refine ⟨e, List.mem_append_left _ he, ?_, ?_⟩
          · simp [hmax, newest, hlt]
          · intro e' he'
            rcases List.mem_append.mp he' with he' | he'
            · exact hle e' he'
            · rw [List.mem_singleton.mp he']
              exact not_lt.mp hlt

theorem Holds.mem_rows (h : Holds k entries table) {e : Entry} :
    e ∈ table.entries.filterMap (decodeRow k) ↔ e ∈ entries := by
  rw [List.mem_filterMap]
  constructor
  · rintro ⟨⟨key, bytes⟩, hrow, hdecode⟩
    obtain ⟨e', he', rfl⟩ := h.only key bytes (FinMap.mem_entries_iff.mp hrow)
    obtain ⟨bytes', hlookup, hback⟩ := h.stored e' he'
    rw [FinMap.mem_entries_iff.mp hrow] at hlookup
    obtain rfl := Option.some.inj hlookup
    rw [decodeRow, parseU64_indexKey (h.fits e' he'), Option.bind_some, hback] at hdecode
    obtain rfl := Option.some.inj hdecode
    exact he'
  · intro he
    obtain ⟨bytes, hlookup, hback⟩ := h.stored e he
    refine ⟨⟨_, bytes⟩, FinMap.mem_entries_iff.mpr hlookup, ?_⟩
    rw [decodeRow, parseU64_indexKey (h.fits e he), Option.bind_some, hback]
    rfl

theorem Holds.findLastLogId (h : Holds k entries table) :
    findLastLogId k table = entries.getLast?.map Entry.logId := by
  rcases foldl_newest (table.entries.filterMap (decodeRow k)) with
    ⟨hnil, hnone⟩ | ⟨e, he, hmax, hle⟩
  · have hentries : entries = [] := by
      apply List.eq_nil_iff_forall_not_mem.mpr
      intro e he
      have hmem := h.mem_rows.mpr he
      rw [hnil] at hmem
      cases hmem
    rw [hentries]
    exact hnone
  · have hmem := h.mem_rows.mp he
    have hlast := List.getLast?_eq_some_getLast (List.ne_nil_of_mem hmem)
    have hlast_mem := List.mem_of_getLast? hlast
    have heq := entry_eq h.sorted hmem hlast_mem
      (le_antisymm (le_getLast h.sorted hlast e hmem) (hle _ (h.mem_rows.mpr hlast_mem)))
    rw [Cluster.findLastLogId, hmax, hlast, ← heq]
    rfl

/-! ## Ranges -/

theorem Holds.probe (h : Holds k entries table) {idx : ℕ} {e : Entry} :
    ((table.lookup (indexKey idx)).bind fun val => (k.entry.deserialize val).toOption) = some e ↔
      e ∈ entries ∧ e.logId.index = idx := by
  constructor
  · intro hprobe
    obtain ⟨bytes, hlookup, hdecode⟩ := Option.bind_eq_some_iff.mp hprobe
    obtain ⟨e', he', hkey⟩ := h.only _ bytes hlookup
    obtain ⟨bytes', hlookup', hback⟩ := h.stored e' he'
    rw [← hkey, hlookup] at hlookup'
    obtain rfl := Option.some.inj hlookup'
    rw [hback] at hdecode
    obtain rfl := Option.some.inj hdecode
    exact ⟨he', (indexKey_inj hkey).symm⟩
  · rintro ⟨he, rfl⟩
    obtain ⟨bytes, hlookup, hback⟩ := h.stored e he
    rw [hlookup, Option.bind_some, hback]
    rfl

/-- **Probing index by index is filtering by index.** -/
theorem Holds.readLogEntries (h : Holds k entries table) (start stop : ℕ) :
    readLogEntries k table start stop = entries.filter fun e =>
      decide (start ≤ e.logId.index) && decide (e.logId.index < stop) := by
  have hprobed : (Cluster.readLogEntries k table start stop).Pairwise
      fun e e' => e.logId.index < e'.logId.index := by
    refine (List.pairwise_lt_range').filterMap _ ?_
    intro i j hij e he e' he'
    rw [(h.probe.mp he).2, (h.probe.mp he').2]
    exact hij
  have : Std.Irrefl fun e e' : Entry => e.logId.index < e'.logId.index := ⟨fun e => lt_irrefl _⟩
  have : Std.Antisymm fun e e' : Entry => e.logId.index < e'.logId.index :=
    ⟨fun e e' hlt hlt' => absurd hlt (lt_asymm hlt')⟩
  refine hprobed.eq_of_mem_iff (h.sorted.filter _) ?_
  intro e
  rw [Cluster.readLogEntries, List.mem_filterMap, List.mem_filter, Bool.and_eq_true,
    decide_eq_true_eq, decide_eq_true_eq]
  constructor
  · rintro ⟨idx, hidx, hprobe⟩
    obtain ⟨he, rfl⟩ := h.probe.mp hprobe
    obtain ⟨hge, hlt⟩ := List.mem_range'_1.mp hidx
    exact ⟨he, hge, by omega⟩
  · rintro ⟨he, hge, hlt⟩
    exact ⟨e.logId.index, List.mem_range'_1.mpr ⟨hge, by omega⟩, h.probe.mpr ⟨he, rfl⟩⟩

/-- The entries an open end leaves out on disk: from index 1,000,000 on, up to the
last index, which memory leaves out as well. -/
def BeyondOpenEnd (start : ℕ) (e : Entry) : Prop :=
  start ≤ e.logId.index ∧ 1000000 ≤ e.logId.index ∧ e.logId.index < 2 ^ 64 - 1

theorem tryGetLogEntries_iff {m : MemoryLogStore} {s : RedbLogStore} (h : Mirrors k m s)
    (overflowChecks : Bool) (range : IndexRange) :
    s.tryGetLogEntries k overflowChecks range = m.tryGetLogEntries overflowChecks range ↔
      (range.endBound = .unbounded → ∀ start, range.start overflowChecks = some start →
        ∀ e ∈ m.entries, ¬ BeyondOpenEnd start e) := by
  unfold RedbLogStore.tryGetLogEntries MemoryLogStore.tryGetLogEntries
  cases hstart : range.start overflowChecks with
  | none =>
      refine iff_of_true rfl ?_
      intro _ start hsome
      cases hsome
  | some start =>
      simp only [Option.bind_eq_bind, Option.bind_some, h.log.readLogEntries]
      obtain ⟨startBound, endBound⟩ := range
      cases endBound with
      | included n =>
          refine iff_of_true ?_ (fun hend => by cases hend)
          rfl
      | excluded n =>
          refine iff_of_true ?_ (fun hend => by cases hend)
          rfl
      | unbounded =>
          simp only [IndexRange.stop, Option.bind_some, Option.pure_def, Option.some.injEq,
            forall_const, forall_eq']
          -- the only end for which the stores substitute different indexes
          constructor
          · intro heq e he hbeyond
            obtain ⟨hge, hmillion, hlt⟩ := hbeyond
            have hmem : e ∈ m.entries.filter fun e =>
                decide (start ≤ e.logId.index) && decide (e.logId.index < 2 ^ 64 - 1) := by
              rw [List.mem_filter, Bool.and_eq_true, decide_eq_true_eq, decide_eq_true_eq]
              exact ⟨he, hge, hlt⟩
            rw [← heq, List.mem_filter, Bool.and_eq_true, decide_eq_true_eq,
              decide_eq_true_eq] at hmem
            exact absurd hmem.2.2 (not_lt.mpr hmillion)
          · intro hnone
            apply List.filter_congr
            intro e he
            have hnot := hnone e he
            unfold BeyondOpenEnd at hnot
            rw [Bool.eq_iff_iff, Bool.and_eq_true, Bool.and_eq_true, decide_eq_true_eq,
              decide_eq_true_eq, decide_eq_true_eq]
            omega

/-- **The two logs agree exactly on the ranges that end below index 1,000,000**:
after every legal history they report the same state and the same vote, and
read the same entries unless an open end leaves some out. -/
theorem logs_agree_iff {h : List LogCall} (hlegal : LegalHistory h)
    (hround : ∀ call ∈ h, k.RoundTrips call) :
    (RedbLogStore.run k h).getLogState k = (MemoryLogStore.run h).getLogState ∧
    (RedbLogStore.run k h).readVote k = .ok (MemoryLogStore.run h).readVote ∧
    ∀ overflowChecks range, (RedbLogStore.run k h).tryGetLogEntries k overflowChecks range =
        (MemoryLogStore.run h).tryGetLogEntries overflowChecks range ↔
      (range.endBound = .unbounded → ∀ start, range.start overflowChecks = some start →
        ∀ e ∈ (MemoryLogStore.run h).entries, ¬ BeyondOpenEnd start e) := by
  have hmirrors := mirrors_run hlegal hround
  refine ⟨?_, hmirrors.vote, tryGetLogEntries_iff hmirrors⟩
  rw [RedbLogStore.getLogState, hmirrors.log.findLastLogId, hmirrors.purged]
  rfl

/-! ## A long log -/

/-- A snapshot up to 999,998, then two entries. -/
def longHistory : List LogCall :=
  [.purge ⟨3, 1, 999998⟩, .append [⟨⟨3, 1, 999999⟩, .blank⟩, ⟨⟨3, 1, 1000000⟩, .blank⟩]]

theorem legal_longHistory : LegalHistory longHistory := by
  refine LegalHistory.snoc (h := [.purge ⟨3, 1, 999998⟩]) (LegalHistory.snoc .nil trivial) ?_
  simp [LegalCall, FollowsLast, MemoryLogStore.run, MemoryLogStore.exec, MemoryLogStore.purge,
    MemoryLogStore.getLogState, MemoryLogStore.lastLogId]

theorem roundTrips_longHistory : ∀ call ∈ longHistory, blankCodec.RoundTrips call := by
  intro call hcall
  rcases List.mem_cons.mp hcall with rfl | hcall
  · trivial
  · obtain rfl := List.mem_singleton.mp hcall
    intro e he
    rcases List.mem_cons.mp he with rfl | he
    · exact ⟨_, rfl, by rfl⟩
    · obtain rfl := List.mem_singleton.mp he
      exact ⟨_, rfl, by rfl⟩

/-- Read up to and including the last entry, both give both. -/
theorem logs_agree_demo : (RedbLogStore.run blankCodec longHistory).tryGetLogEntries blankCodec
      true ⟨.included 999999, .included 1000000⟩ =
    (MemoryLogStore.run longHistory).tryGetLogEntries true ⟨.included 999999, .included 1000000⟩ :=
  ((logs_agree_iff legal_longHistory roundTrips_longHistory).2.2 true _).mpr fun h => by cases h

/-- Read to the open end, the disk has nothing from index 1,000,000 on. -/
theorem open_end_differs : LegalHistory longHistory ∧
    (∀ call ∈ longHistory, blankCodec.RoundTrips call) ∧
    (RedbLogStore.run blankCodec longHistory).tryGetLogEntries blankCodec true
        ⟨.included 1000000, .unbounded⟩ ≠
      (MemoryLogStore.run longHistory).tryGetLogEntries true ⟨.included 1000000, .unbounded⟩ := by
  refine ⟨legal_longHistory, roundTrips_longHistory, ?_⟩
  intro h
  have hlength := congrArg (Option.map List.length) h
  revert hlength
  decide +kernel

end Rekha.Cluster
