import Mathlib.Data.Prod.Lex
import Rekha.Cluster.LogsAgree

/-!
# The Raft log after a crash

Every call is one write transaction, except for a purge: its first removes the
entries, its second stores the new position. A crash comes after any number of
transactions, and reopening finds what they left. The log then has a hole, or
has forgotten entries it reported, exactly if the crash parted a purge that
removes something (`no_holes_iff`).
-/

namespace Rekha.Cluster

open Outcome

/-! ## The order of log ids -/

/-- `Ord` of log ids: by leader, which is term and node, then by index. -/
def LogId.key (l : LogId) : ℕ ×ₗ (ℕ ×ₗ ℕ) := toLex (l.term, toLex (l.nodeId, l.index))

/-- `l ≤ last`, where `None` is smaller than every log id. -/
def Reaches (last : Option LogId) (l : LogId) : Prop := ∃ m, last = some m ∧ l.key ≤ m.key

theorem LogId.key_le_iff {l m : LogId} : l.key ≤ m.key ↔ l.term < m.term ∨
    l.term = m.term ∧ (l.nodeId < m.nodeId ∨ l.nodeId = m.nodeId ∧ l.index ≤ m.index) := by
  rw [key, key, Prod.Lex.toLex_le_toLex, Prod.Lex.toLex_le_toLex]

theorem LogId.key_inj {l m : LogId} (h : l.key = m.key) : l = m := by
  obtain ⟨t, n, i⟩ := l
  obtain ⟨t', n', i'⟩ := m
  simpa [key] using h

/-! ## Transactions -/

def purgeEntries (logId : LogId) (db : RedbDatabase) : RedbDatabase :=
  { db with logTable := removeKeys (fun idx => decide (idx ≤ logId.index)) db.logTable }

/-- The write transactions of a call, in order. An append that cannot serialize
an entry commits nothing. -/
def LogCall.transactions (k : LogCodec) : LogCall → List (RedbDatabase → RedbDatabase)
  | .append entries => [fun db => ((RedbLogStore.mk db none).exec k (.append entries)).db]
  | .truncate logId => [fun db => ((RedbLogStore.mk db none).truncate logId).db]
  | .purge logId => [purgeEntries logId, fun db => (RedbLogStore.mk db (some logId)).saveState.db]
  | .saveVote vote => [fun db => ((RedbLogStore.mk db none).exec k (.saveVote vote)).db]

/-- What is on disk after a list of transactions. -/
def commits (ts : List (RedbDatabase → RedbDatabase)) (db : RedbDatabase) : RedbDatabase :=
  ts.foldl (fun db t => t db) db

/-- The store reopened after a crash behind the first `n` transactions. -/
def crashed (k : LogCodec) (h : List LogCall) (n : ℕ) : RedbLogStore :=
  RedbLogStore.«open» (commits ((h.flatMap (LogCall.transactions k)).take n) {})

/-- The calls that are complete after `n` transactions, and the purge of which
only the first is. -/
def cut : List LogCall → ℕ → List LogCall × Option LogId
  | [], _ => ([], none)
  | _ :: _, 0 => ([], none)
  | .purge logId :: _, 1 => ([], some logId)
  | .purge logId :: h, n + 2 => (.purge logId :: (cut h n).1, (cut h n).2)
  | .append entries :: h, n + 1 => (.append entries :: (cut h n).1, (cut h n).2)
  | .truncate logId :: h, n + 1 => (.truncate logId :: (cut h n).1, (cut h n).2)
  | .saveVote vote :: h, n + 1 => (.saveVote vote :: (cut h n).1, (cut h n).2)

/-! ## What the consensus library promises -/

/-- Entries without a gap behind `last`, their log ids growing; a log that was
never purged starts at `first`. -/
def Continues (first : ℕ) : Option LogId → List Entry → Prop
  | _, [] => True
  | last, e :: entries =>
      e.logId.index = (last.map fun l => l.index + 1).getD first ∧
        (∀ l, last = some l → l.key ≤ e.logId.key) ∧ e.logId.index < 2 ^ 64 ∧
        Continues first (some e.logId) entries

/-- Appends are contiguous. Purges do not decrease, and each is up to an entry of
the log or up to its end. -/
def Permitted (first : ℕ) (m : MemoryLogStore) : LogCall → Prop
  | .append entries => Continues first m.getLogState.lastLogId entries
  | .purge logId => logId.Fits ∧
      (∀ l, m.lastPurgedLogId = some l → l.index ≤ logId.index ∧ l.key ≤ logId.key) ∧
      (m.lastPurgedLogId = some logId ∨ (∃ e ∈ m.entries, e.logId = logId) ∨
        ∀ e ∈ m.entries, e.logId.index ≤ logId.index)
  | _ => True

/-- Histories in which every call is permitted where it is made. -/
inductive Contract (first : ℕ) : List LogCall → Prop
  | nil : Contract first []
  | snoc {h : List LogCall} {call : LogCall} : Contract first h →
      Permitted first (MemoryLogStore.run h) call → Contract first (h ++ [call])

/-! ## What a reopened store owes -/

/-- Every range that covers the index returns its entry. -/
def Readable (k : LogCodec) (s : RedbLogStore) (e : Entry) : Prop :=
  ∀ overflowChecks range start stop, range.start overflowChecks = some start →
    range.stop overflowChecks 1000000 = some stop → start ≤ e.logId.index →
    e.logId.index < stop →
    ∃ es, s.tryGetLogEntries k overflowChecks range = some es ∧ e ∈ es

/-- The index behind a purge position, or else where the log starts. -/
def firstIndex (first : ℕ) (purged : Option LogId) : ℕ :=
  (purged.map fun l => l.index + 1).getD first

/-- **No holes**: the entries behind the purge position can be read up to the last
log id, and that is not smaller than a log id purged or last reported by `h`. -/
structure NoHoles (k : LogCodec) (first : ℕ) (h : List LogCall) (s : RedbLogStore) : Prop where
  readable : ∀ last, (s.getLogState k).lastLogId = some last →
    ∀ idx, firstIndex first s.lastPurged ≤ idx → idx ≤ last.index →
      ∃ e ∈ (MemoryLogStore.run h).entries, e.logId.index = idx ∧ Readable k s e
  purged : ∀ l, .purge l ∈ h → Reaches (s.getLogState k).lastLogId l
  reported : ∀ l, ((RedbLogStore.run k h).getLogState k).lastLogId = some l →
    Reaches (s.getLogState k).lastLogId l

/-! ## Contiguous logs -/

variable {k : LogCodec} {first : ℕ} {h : List LogCall}

/-- **What the calls keep**: the log has every index from its start to its end,
its ids grow with the index, and none is below a purged one. -/
structure Contiguous (first : ℕ) (h : List LogCall) (m : MemoryLogStore) : Prop where
  lower : ∀ e ∈ m.entries, firstIndex first m.lastPurgedLogId ≤ e.logId.index
  dense : ∀ e ∈ m.entries, ∀ idx, firstIndex first m.lastPurgedLogId ≤ idx →
    idx ≤ e.logId.index → ∃ e' ∈ m.entries, e'.logId.index = idx
  sorted : m.entries.Pairwise fun e e' => e.logId.index < e'.logId.index
  grows : ∀ e ∈ m.entries, ∀ e' ∈ m.entries, e.logId.index ≤ e'.logId.index →
    e.logId.key ≤ e'.logId.key
  above : ∀ e ∈ m.entries, ∀ p, m.lastPurgedLogId = some p → p.key ≤ e.logId.key
  purged : ∀ l, .purge l ∈ h → Reaches m.lastPurgedLogId l
  fits : ∀ l, .purge l ∈ h → l.Fits

namespace Contiguous

variable {m : MemoryLogStore}

theorem upTo (hc : Contiguous first h m) :
    firstIndex first m.lastPurgedLogId ≤ firstIndex first m.getLogState.lastLogId ∧
    (∀ idx, firstIndex first m.lastPurgedLogId ≤ idx →
      idx < firstIndex first m.getLogState.lastLogId → ∃ e ∈ m.entries, e.logId.index = idx) ∧
    (∀ e ∈ m.entries, e.logId.index < firstIndex first m.getLogState.lastLogId ∧
      Reaches m.getLogState.lastLogId e.logId) ∧
    ∀ p, m.lastPurgedLogId = some p → Reaches m.getLogState.lastLogId p := by
  show _ ≤ firstIndex first ((m.entries.getLast?.map Entry.logId).or m.lastPurgedLogId) ∧ _
  unfold MemoryLogStore.getLogState MemoryLogStore.lastLogId
  cases hlast : m.entries.getLast? with
  | none =>
      have hnil : m.entries = [] := List.getLast?_eq_none_iff.mp hlast
      rw [Option.map_none, Option.none_or, hnil]
      refine ⟨le_refl _, fun idx hlo hhi => absurd hhi (not_lt.mpr hlo), ?_, ?_⟩
      · intro e he
        cases he
      · intro p hp
        exact ⟨p, hp, le_refl _⟩
  | some z =>
      have hz := List.mem_of_getLast? hlast
      rw [Option.map_some, Option.some_or]
      have hend : firstIndex first (some z.logId) = z.logId.index + 1 := rfl
      rw [hend]
      refine ⟨Nat.le_succ_of_le (hc.lower z hz), ?_, ?_, ?_⟩
      · intro idx hlo hhi
        exact hc.dense z hz idx hlo (Nat.le_of_lt_succ hhi)
      · intro e he
        have hle := le_getLast hc.sorted hlast e he
        exact ⟨Nat.lt_succ_of_le hle, z.logId, rfl, hc.grows e he z hz hle⟩
      · intro p hp
        exact ⟨z.logId, rfl, hc.above z hz p hp⟩

theorem push (hc : Contiguous first h m) {e : Entry}
    (hindex : e.logId.index = firstIndex first m.getLogState.lastLogId)
    (hkey : ∀ l, m.getLogState.lastLogId = some l → l.key ≤ e.logId.key) :
    Contiguous first h (m.append [e]) := by
  obtain ⟨hle, hcover, hentries, hpurged⟩ := hc.upTo
  have hnewest : ∀ l, Reaches m.getLogState.lastLogId l → l.key ≤ e.logId.key := by
    rintro l ⟨last, hlast, hl⟩
    exact hl.trans (hkey last hlast)
  refine ⟨?_, ?_, ?_, ?_, ?_, hc.purged, hc.fits⟩
  · intro e' he'
    rcases List.mem_append.mp he' with he' | he'
    · exact hc.lower e' he'
    · rw [List.mem_singleton.mp he', hindex]
      exact hle
  · intro e' he' idx hlo hhi
    rcases List.mem_append.mp he' with he' | he'
    · obtain ⟨e'', he'', hidx⟩ := hc.dense e' he' idx hlo hhi
      exact ⟨e'', List.mem_append_left _ he'', hidx⟩
    · obtain rfl := List.mem_singleton.mp he'
      rcases hhi.lt_or_eq with hlt | rfl
      · obtain ⟨e'', he'', hidx⟩ := hcover idx hlo (hindex ▸ hlt)
        exact ⟨e'', List.mem_append_left _ he'', hidx⟩
      · exact ⟨e', List.mem_append_right _ he', rfl⟩
  · refine List.pairwise_append.mpr ⟨hc.sorted, List.pairwise_singleton _ _, ?_⟩
    intro e' he' e'' he''
    rw [List.mem_singleton.mp he'', hindex]
    exact (hentries e' he').1
  · intro e' he' e'' he'' hidx
    rcases List.mem_append.mp he' with he' | he' <;> rcases List.mem_append.mp he'' with he'' | he''
    · exact hc.grows e' he' e'' he'' hidx
    · rw [List.mem_singleton.mp he'']
      exact hnewest _ (hentries e' he').2
    · rw [List.mem_singleton.mp he', hindex] at hidx
      exact absurd (hentries e'' he'').1 (not_lt.mpr hidx)
    · rw [List.mem_singleton.mp he', List.mem_singleton.mp he'']
  · intro e' he' p hp
    rcases List.mem_append.mp he' with he' | he'
    · exact hc.above e' he' p hp
    · rw [List.mem_singleton.mp he']
      exact hnewest p (hpurged p hp)

theorem append {entries : List Entry} (hc : Contiguous first h m)
    (hnew : Continues first m.getLogState.lastLogId entries) :
    Contiguous first h (m.append entries) := by
  induction entries generalizing m with
  | nil =>
      rw [MemoryLogStore.append, List.append_nil]
      exact hc
  | cons e entries ih =>
      obtain ⟨hindex, hkey, -, hrest⟩ := hnew
      have hlast : (m.append [e]).getLogState.lastLogId = some e.logId := by
        show (((m.entries ++ [e]).getLast?).map Entry.logId).or _ = _
        rw [List.getLast?_concat]
        rfl
      have hstep := ih (hc.push hindex hkey) (by rw [hlast]; exact hrest)
      rw [MemoryLogStore.append, MemoryLogStore.append, List.append_assoc] at hstep
      exact hstep

theorem truncate (hc : Contiguous first h m) (logId : LogId) :
    Contiguous first h (m.truncate logId) := by
  have hmem : ∀ e, e ∈ (m.truncate logId).entries ↔
      e ∈ m.entries ∧ e.logId.index < logId.index := by
    intro e
    rw [MemoryLogStore.truncate, List.mem_filter, decide_eq_true_eq]
  refine ⟨?_, ?_, hc.sorted.filter _, ?_, ?_, hc.purged, hc.fits⟩
  · intro e he
    exact hc.lower e ((hmem e).mp he).1
  · intro e he idx hlo hhi
    obtain ⟨hold, hlt⟩ := (hmem e).mp he
    obtain ⟨e', he', rfl⟩ := hc.dense e hold idx hlo hhi
    exact ⟨e', (hmem e').mpr ⟨he', hhi.trans_lt hlt⟩, rfl⟩
  · intro e he e' he'
    exact hc.grows e ((hmem e).mp he).1 e' ((hmem e').mp he').1
  · intro e he
    exact hc.above e ((hmem e).mp he).1

theorem purge (hc : Contiguous first h m) {logId : LogId}
    (hp : Permitted first m (.purge logId)) :
    Contiguous first (h ++ [.purge logId]) (m.purge logId) := by
  obtain ⟨hfits, hmono, hwhere⟩ := hp
  have hmem : ∀ e, e ∈ (m.purge logId).entries ↔
      e ∈ m.entries ∧ logId.index < e.logId.index := by
    intro e
    rw [MemoryLogStore.purge, List.mem_filter, decide_eq_true_eq]
  have hkept : ∀ e ∈ m.entries, logId.index < e.logId.index →
      firstIndex first m.lastPurgedLogId ≤ logId.index + 1 ∧ logId.key ≤ e.logId.key := by
    intro e he hlt
    rcases hwhere with hlast | ⟨e', he', rfl⟩ | hall
    · rw [hlast]
      exact ⟨le_refl _, hc.above e he logId hlast⟩
    · exact ⟨Nat.le_succ_of_le (hc.lower e' he'), hc.grows e' he' e he hlt.le⟩
    · exact absurd (hall e he) (not_le.mpr hlt)
  have hold : ∀ l, .purge l ∈ h ++ [.purge logId] → .purge l ∈ h ∨ l = logId := by
    intro l hl
    rcases List.mem_append.mp hl with hl | hl
    · exact Or.inl hl
    · exact Or.inr (LogCall.purge.inj (List.mem_singleton.mp hl))
  refine ⟨?_, ?_, hc.sorted.filter _, ?_, ?_, ?_, ?_⟩
  · intro e he
    exact ((hmem e).mp he).2
  · intro e he idx hlo hhi
    obtain ⟨hin, hlt⟩ := (hmem e).mp he
    obtain ⟨e', he', rfl⟩ := hc.dense e hin idx ((hkept e hin hlt).1.trans hlo) hhi
    exact ⟨e', (hmem e').mpr ⟨he', hlo⟩, rfl⟩
  · intro e he e' he'
    exact hc.grows e ((hmem e).mp he).1 e' ((hmem e').mp he').1
  · intro e he p hp
    obtain rfl := Option.some.inj hp
    obtain ⟨hin, hlt⟩ := (hmem e).mp he
    exact (hkept e hin hlt).2
  · intro l hl
    rcases hold l hl with hl | rfl
    · obtain ⟨p, hp, hle⟩ := hc.purged l hl
      exact ⟨logId, rfl, hle.trans (hmono p hp).2⟩
    · exact ⟨l, rfl, le_refl _⟩
  · intro l hl
    rcases hold l hl with hl | rfl
    · exact hc.fits l hl
    · exact hfits

theorem of_history {h' : List LogCall} (hc : Contiguous first h m)
    (hsub : ∀ l, .purge l ∈ h' → .purge l ∈ h) : Contiguous first h' m :=
  ⟨hc.lower, hc.dense, hc.sorted, hc.grows, hc.above, fun l hl => hc.purged l (hsub l hl),
    fun l hl => hc.fits l (hsub l hl)⟩

end Contiguous

theorem mem_purge_snoc {call : LogCall} (hcall : call.purged = none) {l : LogId}
    (hl : .purge l ∈ h ++ [call]) : .purge l ∈ h := by
  rcases List.mem_append.mp hl with hl | hl
  · exact hl
  · rw [← List.mem_singleton.mp hl] at hcall
    cases hcall

theorem Contract.contiguous (hcon : Contract first h) :
    Contiguous first h (MemoryLogStore.run h) := by
  induction hcon with
  | nil =>
      refine ⟨?_, ?_, .nil, ?_, ?_, ?_, ?_⟩ <;> intro x hx <;> cases hx
  | @snoc h call _ hp ih =>
      rw [MemoryLogStore.run_snoc]
      cases call with
      | append entries => exact (ih.append hp).of_history fun _ => mem_purge_snoc rfl
      | truncate logId => exact (ih.truncate logId).of_history fun _ => mem_purge_snoc rfl
      | purge logId => exact ih.purge hp
      | saveVote vote =>
          have hsaved : Contiguous first h ((MemoryLogStore.run h).saveVote vote) :=
            ⟨ih.lower, ih.dense, ih.sorted, ih.grows, ih.above, ih.purged, ih.fits⟩
          exact hsaved.of_history fun _ => mem_purge_snoc rfl

theorem Continues.followsLast : ∀ {entries : List Entry} {last : Option LogId},
    Continues first last entries → FollowsLast last entries
  | [], _, _ => trivial
  | e :: entries, last, ⟨hindex, _, hfits, hrest⟩ => by
      refine ⟨?_, hfits, hrest.followsLast⟩
      rintro l rfl
      exact hindex

theorem Contract.legal (hcon : Contract first h) : LegalHistory h := by
  induction hcon with
  | nil => exact LegalHistory.nil
  | @snoc h call _ hp ih =>
      apply ih.snoc
      cases call with
      | append entries => exact Continues.followsLast hp
      | truncate | purge | saveVote => trivial

theorem Contract.of_prefix {before : List LogCall} (hcon : Contract first h)
    (hpre : before <+: h) : Contract first before := by
  induction hcon with
  | nil =>
      rw [List.prefix_nil.mp hpre]
      exact .nil
  | @snoc h call hcon hp ih =>
      rcases List.prefix_concat_iff.mp hpre with rfl | hpre
      · exact .snoc hcon hp
      · exact ih hpre

/-! ## What a crash leaves -/

theorem cut_prefix (h : List LogCall) (n : ℕ) : (cut h n).1 <+: h := by
  induction h, n using cut.induct with
  | case1 => exact List.nil_prefix
  | case2 => exact List.nil_prefix
  | case3 => exact List.nil_prefix
  | case4 logId h n ih | case5 entries h n ih | case6 logId h n ih | case7 vote h n ih =>
      rw [cut]
      exact (List.prefix_cons_inj _).mpr ih

theorem commits_transactions (s : RedbLogStore) (call : LogCall) :
    commits (call.transactions k) s.db = (s.exec k call).db := by
  cases call with
  | append entries =>
      show (((RedbLogStore.mk s.db none).append k entries).toOption.getD ⟨s.db, none⟩).db =
        ((s.append k entries).toOption.getD s).db
      unfold RedbLogStore.append
      generalize entries.foldlM (m := Except String) _ _ = table
      cases table <;> rfl
  | truncate logId => rfl
  | purge logId => rfl
  | saveVote vote =>
      show (((RedbLogStore.mk s.db none).saveVote k vote).toOption.getD ⟨s.db, none⟩).db =
        ((s.saveVote k vote).toOption.getD s).db
      unfold RedbLogStore.saveVote
      cases k.vote.serialize vote <;> rfl

/-- **A crash leaves the disk of the complete calls**, or that with the entries of
one more purge removed. -/
theorem commits_take (h : List LogCall) (n : ℕ) (s : RedbLogStore) :
    commits ((h.flatMap (LogCall.transactions k)).take n) s.db =
      (cut h n).2.elim id purgeEntries ((cut h n).1.foldl (RedbLogStore.exec k) s).db := by
  have hone : ∀ (call : LogCall) (t : RedbDatabase → RedbDatabase) (rest : List LogCall) (n : ℕ)
      (s : RedbLogStore), call.transactions k = [t] →
      commits (((call :: rest).flatMap (LogCall.transactions k)).take (n + 1)) s.db =
        commits ((rest.flatMap (LogCall.transactions k)).take n) (s.exec k call).db := by
    intro call t rest n s ht
    rw [List.flatMap_cons, ht, List.singleton_append, List.take_succ_cons,
      ← commits_transactions (k := k) s call, ht]
    rfl
  induction h, n using cut.induct generalizing s with
  | case1 n =>
      rw [List.flatMap_nil, List.take_nil, cut]
      rfl
  | case2 => rfl
  | case3 logId h => rfl
  | case4 logId h n ih =>
      rw [cut]
      exact ih (s.exec k (.purge logId))
  | case5 entries h n ih =>
      rw [cut, hone _ _ h n s rfl]
      exact ih (s.exec k (.append entries))
  | case6 logId h n ih =>
      rw [cut, hone _ _ h n s rfl]
      exact ih (s.exec k (.truncate logId))
  | case7 vote h n ih =>
      rw [cut, hone _ _ h n s rfl]
      exact ih (s.exec k (.saveVote vote))

/-! ## Reopening after the crash -/

variable {m : MemoryLogStore} {s : RedbLogStore}

theorem lastLogId_opened (hlog : Holds k m.entries s.db.logTable) :
    (s.getLogState k).lastLogId = (m.entries.getLast?.map Entry.logId).or s.lastPurged := by
  rw [RedbLogStore.getLogState, hlog.findLastLogId]

theorem readable_of_holds {entries : List Entry} (hlog : Holds k entries s.db.logTable)
    {e : Entry} (he : e ∈ entries) : Readable k s e := by
  intro overflowChecks range start stop hstart hstop hlo hhi
  refine ⟨readLogEntries k s.db.logTable start stop, ?_, ?_⟩
  · rw [RedbLogStore.tryGetLogEntries, hstart, hstop]
    rfl
  · rw [hlog.readLogEntries, List.mem_filter, Bool.and_eq_true, decide_eq_true_eq,
      decide_eq_true_eq]
    exact ⟨he, hlo, hhi⟩

theorem mem_of_readable {entries : List Entry} (hlog : Holds k entries s.db.logTable)
    {e : Entry} (hread : Readable k s e) : e ∈ entries := by
  obtain ⟨es, hes, he⟩ := hread true ⟨.included e.logId.index, .excluded (e.logId.index + 1)⟩
    e.logId.index (e.logId.index + 1) rfl rfl (le_refl _) (Nat.lt_succ_self _)
  obtain rfl : readLogEntries k s.db.logTable e.logId.index (e.logId.index + 1) = es :=
    Option.some.inj hes
  rw [hlog.readLogEntries] at he
  exact (List.mem_filter.mp he).1

/-- The position as it comes back from the disk. -/
def onNodeZero (l : LogId) : LogId := ⟨l.term, 0, l.index⟩

theorem firstIndex_onNodeZero (purged : Option LogId) :
    firstIndex first (purged.map onNodeZero) = firstIndex first purged := by
  cases purged <;> rfl

theorem onNodeZero_le (l : LogId) : (onNodeZero l).key ≤ l.key := by
  rw [LogId.key_le_iff]
  show _ ∨ _ = _ ∧ (0 < l.nodeId ∨ 0 = l.nodeId ∧ _)
  rcases Nat.eq_zero_or_pos l.nodeId with hz | hpos
  · exact Or.inr ⟨rfl, Or.inr ⟨hz.symm, le_refl _⟩⟩
  · exact Or.inr ⟨rfl, Or.inl hpos⟩

theorem node_of_le_onNodeZero {l : LogId} (h : l.key ≤ (onNodeZero l).key) : l.nodeId = 0 :=
  congrArg LogId.nodeId (LogId.key_inj (le_antisymm h (onNodeZero_le l)))

/-- With the whole log in its table the reopened store has no holes, unless the
log is empty and the position is that of another node. -/
theorem noHoles_iff_of_whole (hc : Contiguous first h m) (hrun : MemoryLogStore.run h = m)
    (hreported : ((RedbLogStore.run k h).getLogState k).lastLogId = m.getLogState.lastLogId)
    (hlog : Holds k m.entries s.db.logTable)
    (hpurged : s.lastPurged = m.lastPurgedLogId.map onNodeZero) :
    NoHoles k first h s ↔
      (m.entries = [] → ∀ l, m.lastPurgedLogId = some l → l.nodeId = 0) := by
  subst hrun
  obtain ⟨-, hcover, hentries, hp⟩ := hc.upTo
  constructor
  · intro hno hnil l hl
    have hstate : (MemoryLogStore.run h).getLogState.lastLogId = some l := by
      show ((MemoryLogStore.run h).entries.getLast?.map Entry.logId).or _ = _
      rw [hnil, hl]
      rfl
    obtain ⟨last, hlast, hle⟩ := hno.reported l (hreported.trans hstate)
    rw [lastLogId_opened hlog, hnil, hpurged, hl] at hlast
    obtain rfl := Option.some.inj hlast
    exact node_of_le_onNodeZero hle
  · intro hnode
    have hlast : (s.getLogState k).lastLogId =
        (MemoryLogStore.run h).getLogState.lastLogId := by
      rw [lastLogId_opened hlog]
      show _ = ((MemoryLogStore.run h).entries.getLast?.map Entry.logId).or _
      cases hlast : (MemoryLogStore.run h).entries.getLast? with
      | some z => rfl
      | none =>
          rw [Option.map_none, Option.none_or, Option.none_or, hpurged]
          cases hl : (MemoryLogStore.run h).lastPurgedLogId with
          | none => rfl
          | some l =>
              have hzero := hnode (List.getLast?_eq_none_iff.mp hlast) l hl
              show some (LogId.mk l.term 0 l.index) = some l
              rw [← hzero]
    refine ⟨?_, ?_, ?_⟩
    · intro last hl idx hlo hhi
      rw [hpurged, firstIndex_onNodeZero] at hlo
      rw [hlast] at hl
      obtain ⟨e, he, hidx⟩ := hcover idx hlo (by rw [hl]; exact Nat.lt_succ_of_le hhi)
      exact ⟨e, he, hidx, readable_of_holds hlog he⟩
    · intro l hl
      obtain ⟨p, hpl, hle⟩ := hc.purged l hl
      obtain ⟨last, hl', hle'⟩ := hp p hpl
      exact ⟨last, hlast.trans hl', hle.trans hle'⟩
    · intro l hl
      exact ⟨l, hlast.trans (hreported.symm.trans hl), le_refl _⟩

/-- A purge that was parted after it removed something: a hole, or a last log id
that is too small. -/
theorem not_noHoles_of_parted (hc : Contiguous first h m) (hrun : MemoryLogStore.run h = m)
    (hreported : ((RedbLogStore.run k h).getLogState k).lastLogId = m.getLogState.lastLogId)
    {logId : LogId} {e : Entry} (he : e ∈ m.entries) (hle : e.logId.index ≤ logId.index)
    (hlog : Holds k (m.purge logId).entries s.db.logTable)
    (hpurged : s.lastPurged = m.lastPurgedLogId.map onNodeZero) :
    ¬ NoHoles k first h s := by
  intro hno
  subst hrun
  have hlast := List.getLast?_eq_some_getLast (List.ne_nil_of_mem he)
  set z := (MemoryLogStore.run h).entries.getLast (List.ne_nil_of_mem he)
  have hz := List.mem_of_getLast? hlast
  have hstate : (MemoryLogStore.run h).getLogState.lastLogId = some z.logId := by
    show ((MemoryLogStore.run h).entries.getLast?.map Entry.logId).or _ = _
    rw [hlast]
    rfl
  have hopened := lastLogId_opened hlog
  cases hnew : ((MemoryLogStore.run h).purge logId).entries.getLast? with
  | none =>
      rw [hnew, Option.map_none, Option.none_or, hpurged] at hopened
      obtain ⟨last, hl, hzle⟩ := hno.reported z.logId (hreported.trans hstate)
      rw [hopened] at hl
      obtain ⟨p, hp, rfl⟩ := Option.map_eq_some_iff.mp hl
      have hkey : z.logId = onNodeZero p :=
        LogId.key_inj (le_antisymm hzle ((onNodeZero_le p).trans (hc.above z hz p hp)))
      have hlower := hc.lower z hz
      rw [hp, hkey] at hlower
      exact absurd hlower (Nat.not_succ_le_self _)
  | some z' =>
      rw [hnew] at hopened
      have hz' := List.mem_of_getLast? hnew
      have hbehind : logId.index < z'.logId.index := by
        have := (List.mem_filter.mp hz').2
        exact of_decide_eq_true this
      have hlo : firstIndex first s.lastPurged ≤ e.logId.index := by
        rw [hpurged, firstIndex_onNodeZero]
        exact hc.lower e he
      obtain ⟨e', he', hidx, hread⟩ := hno.readable z'.logId hopened e.logId.index hlo
        (hle.trans hbehind.le)
      have hin := (List.mem_filter.mp (mem_of_readable hlog hread)).2
      rw [decide_eq_true_eq, hidx] at hin
      exact absurd hin (not_lt.mpr hle)

/-- **No holes after a crash**, behind any number of transactions, exactly when the
purge it parts removed nothing, and the log is not empty behind a purge position
of another node than 0, whose node is not stored. -/
theorem no_holes_iff (hcon : Contract first h) (hround : ∀ call ∈ h, k.RoundTrips call) (n : ℕ) :
    NoHoles k first (cut h n).1 (crashed k h n) ↔
      (∀ l, (cut h n).2 = some l →
        ∀ e ∈ (MemoryLogStore.run (cut h n).1).entries, l.index < e.logId.index) ∧
      ((MemoryLogStore.run (cut h n).1).entries = [] →
        ∀ l, (MemoryLogStore.run (cut h n).1).lastPurgedLogId = some l → l.nodeId = 0) := by
  have hpre := cut_prefix h n
  have hdisk := commits_take (k := k) h n (RedbLogStore.«open» {})
  have hcrash : crashed k h n = RedbLogStore.«open»
      ((cut h n).2.elim id purgeEntries (RedbLogStore.run k (cut h n).1).db) :=
    congrArg RedbLogStore.«open» hdisk
  rw [hcrash]
  have hdone := hcon.of_prefix hpre
  have hc := hdone.contiguous
  have hmirrors := mirrors_run hdone.legal fun call hcall => hround call (hpre.subset hcall)
  generalize (cut h n).1 = done at *
  have hreported : ((RedbLogStore.run k done).getLogState k).lastLogId =
      (MemoryLogStore.run done).getLogState.lastLogId := by
    rw [lastLogId_opened hmirrors.log, hmirrors.purged]
    rfl
  have hpurged : (RedbLogStore.«open» (RedbLogStore.run k done).db).lastPurged =
      (MemoryLogStore.run done).lastPurgedLogId.map onNodeZero := by
    rw [RedbLogStore.lastPurged_reopen hc.fits, ← (RedbLogStore.run_purged done).1,
      hmirrors.purged]
    rfl
  have hwhole := fun s => noHoles_iff_of_whole (s := s) hc rfl hreported
  cases (cut h n).2 with
  | none =>
      rw [Option.elim_none, id,
        hwhole (RedbLogStore.«open» (RedbLogStore.run k done).db) hmirrors.log hpurged]
      refine ⟨fun hnode => ⟨?_, hnode⟩, And.right⟩
      intro l hl
      cases hl
  | some l =>
      rw [Option.elim_some]
      have hlegal : LegalCall (MemoryLogStore.run done) (.purge l) := trivial
      have hlog := (hmirrors.exec hlegal trivial).log
      by_cases hany : ∃ e ∈ (MemoryLogStore.run done).entries, e.logId.index ≤ l.index
      · obtain ⟨e, he, hle⟩ := hany
        constructor
        · intro hno
          exact absurd hno (not_noHoles_of_parted hc rfl hreported he hle hlog hpurged)
        · rintro ⟨hnone, -⟩
          exact absurd hle (not_le.mpr (hnone l rfl e he))
      · have hnone : ∀ e ∈ (MemoryLogStore.run done).entries, l.index < e.logId.index :=
          fun e he => not_le.mp fun hle => hany ⟨e, he, hle⟩
        have hkeep : ((MemoryLogStore.run done).purge l).entries =
            (MemoryLogStore.run done).entries :=
          List.filter_eq_self.mpr fun e he => decide_eq_true (hnone e he)
        have hkept : Holds k (MemoryLogStore.run done).entries
            (purgeEntries l (RedbLogStore.run k done).db).logTable := by
          rw [← hkeep]
          exact hlog
        rw [hwhole (RedbLogStore.«open» (purgeEntries l (RedbLogStore.run k done).db)) hkept
          hpurged]
        refine ⟨fun hnode => ⟨?_, hnode⟩, And.right⟩
        intro l' hl'
        obtain rfl := Option.some.inj hl'
        exact hnone

/-! ## A purge in two -/

def purgedOnce : List LogCall :=
  [.append [⟨⟨1, 0, 0⟩, .blank⟩, ⟨⟨1, 0, 1⟩, .blank⟩], .purge ⟨1, 0, 0⟩]

theorem contract_purgedOnce : Contract 0 purgedOnce := by
  refine Contract.snoc (h := [.append [⟨⟨1, 0, 0⟩, .blank⟩, ⟨⟨1, 0, 1⟩, .blank⟩]])
    (Contract.snoc .nil ?_) ?_
  · refine ⟨rfl, ?_, by decide, rfl, ?_, by decide, trivial⟩
    · intro l hl
      cases hl
    · intro l hl
      obtain rfl := Option.some.inj hl
      rw [LogId.key_le_iff]
      decide
  · refine ⟨⟨by decide, by decide⟩, ?_, Or.inr (Or.inl ⟨_, List.mem_cons_self, rfl⟩)⟩
    intro l hl
    cases hl

theorem roundTrips_purgedOnce : ∀ call ∈ purgedOnce, blankCodec.RoundTrips call := by
  intro call hcall
  rcases List.mem_cons.mp hcall with rfl | hcall
  · intro e he
    rcases List.mem_cons.mp he with rfl | he
    · exact ⟨_, rfl, by rfl⟩
    · obtain rfl := List.mem_singleton.mp he
      exact ⟨_, rfl, by rfl⟩
  · obtain rfl := List.mem_singleton.mp hcall
    trivial

/-- Behind both transactions of the purge the log is whole. -/
theorem no_holes_demo : NoHoles blankCodec 0 purgedOnce (crashed blankCodec purgedOnce 3) := by
  refine (no_holes_iff contract_purgedOnce roundTrips_purgedOnce 3).mpr ⟨?_, ?_⟩
  · intro l hl
    cases hl
  · intro hnil
    exact absurd hnil (by decide)

/-- Between them index 0 is gone, and the position still says that nothing is. -/
theorem hole_after_crash : Contract 0 purgedOnce ∧
    (∀ call ∈ purgedOnce, blankCodec.RoundTrips call) ∧
    ((crashed blankCodec purgedOnce 2).getLogState blankCodec).lastPurgedLogId = none ∧
    ((crashed blankCodec purgedOnce 2).getLogState blankCodec).lastLogId = some ⟨1, 0, 1⟩ ∧
    ((crashed blankCodec purgedOnce 2).tryGetLogEntries blankCodec true
      ⟨.included 0, .included 1⟩).map (List.map Entry.logId) = some [⟨1, 0, 1⟩] ∧
    ¬ NoHoles blankCodec 0 (cut purgedOnce 2).1 (crashed blankCodec purgedOnce 2) := by
  refine ⟨contract_purgedOnce, roundTrips_purgedOnce, by decide +kernel, by decide +kernel,
    by decide +kernel, ?_⟩
  intro hno
  obtain ⟨e, -, hidx, hread⟩ := hno.readable ⟨1, 0, 1⟩ (by decide +kernel) 0
    (by decide +kernel) (by decide)
  obtain ⟨es, hes, he⟩ := hread true ⟨.included 0, .included 0⟩ 0 1 rfl rfl (Nat.zero_le _)
    (by rw [hidx]; decide)
  have hnone : ((crashed blankCodec purgedOnce 2).tryGetLogEntries blankCodec true
      ⟨.included 0, .included 0⟩).map List.length = some 0 := by
    decide +kernel
  rw [hes] at hnone
  exact absurd (List.length_eq_zero_iff.mp (Option.some.inj hnone)) (List.ne_nil_of_mem he)

end Rekha.Cluster
