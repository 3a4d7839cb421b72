import Rekha.Engine.Durable
import Rekha.Lib.Replica
import Rekha.Wal.Bincode

/-!
# Shipping the log to a follower

A follower polls the leader for the log records above the last one it applied,
and applies them to memory only. The leader prunes its log at checkpoints and
does not know about followers: a delta starts at the first record that is left.
As long as no fetch asks for a pruned record the follower holds the fold of the
leader's operations up to its position (`shipping_loses_nothing`).
-/

namespace Rekha

open Collection Trace

/-! ## Deltas -/

structure WalDeltaRecord where
  seq : ℕ
  payload : List UInt8

structure WalDelta where
  records : List WalDeltaRecord
  targetSeq : ℕ

def WalDeltaRecord.ofRecord (r : WalRecord) : WalDeltaRecord := ⟨r.seq, Bincode.serialize r.op⟩

def WalDelta.fromWalRecords (records : List WalRecord) (targetSeq : ℕ) : WalDelta :=
  ⟨records.map WalDeltaRecord.ofRecord, targetSeq⟩

/-- Every seq from `fromSeq` up to the target is there. -/
def WalDelta.Complete (d : WalDelta) (fromSeq : ℕ) : Prop :=
  d.records.map WalDeltaRecord.seq = List.range' fromSeq (d.targetSeq + 1 - fromSeq)

namespace Collection

/-- The log records from `fromSeq` on, for shipping to followers. -/
def walDelta (c : Collection) (fromSeq : ℕ) : WalDelta :=
  let last := c.wal.lastSeq
  if last < fromSeq then ⟨[], last⟩
  else WalDelta.fromWalRecords (c.wal.readRange fromSeq last) last

/-- Apply operations of a leader; they are not appended to the local log. -/
def applyRemoteOps (c : Collection) (ops : List (ℕ × Operation)) : Collection :=
  ops.foldl (fun c p => c.applyOperation p.2 p.1) c

end Collection

/-! ## The polling loop -/

/-- Per collection, the highest seq applied from the leader's log. -/
structure WalReplication where
  lastApplied : FinMap Uuid ℕ

namespace WalReplication

def new : WalReplication := ⟨∅⟩

def nextSeq (r : WalReplication) (id : Uuid) : ℕ := (r.lastApplied.lookup id).getD 0 + 1

def markApplied (r : WalReplication) (id : Uuid) (seq : ℕ) : WalReplication :=
  ⟨r.lastApplied.insert id seq⟩

end WalReplication

/-- A collection on a leader and on a follower, and the part of the last delta
the follower has not come to. -/
structure Shipping where
  leader : Collection
  follower : Collection
  replication : WalReplication
  inFlight : List WalDeltaRecord

namespace Shipping

def lastApplied (s : Shipping) : ℕ :=
  (s.replication.lastApplied.lookup s.follower.config.id).getD 0

def delta (s : Shipping) : WalDelta :=
  s.leader.walDelta (s.replication.nextSeq s.follower.config.id)

/-- Apply one entry of a delta. The position moves even if its payload does not
decode. -/
def applyEntry (s : Shipping) (entry : WalDeltaRecord) (rest : List WalDeltaRecord) : Shipping where
  leader := s.leader
  follower := match Bincode.deserialize entry.payload with
    | some op => s.follower.applyRemoteOps [(entry.seq, op)]
    | none => s.follower
  replication := s.replication.markApplied s.follower.config.id entry.seq
  inFlight := rest

def applyEntries : List WalDeltaRecord → Shipping → Shipping
  | [], s => s
  | entry :: rest, s => applyEntries rest (s.applyEntry entry rest)

/-- One round of the loop that nothing comes between. -/
def poll (s : Shipping) : Shipping :=
  applyEntries s.delta.records { s with inFlight := s.delta.records }

/-- Two collections that were just created. -/
def start (config : CollectionConfig) : Shipping :=
  ⟨Collection.fresh config, Collection.fresh config, WalReplication.new, []⟩

end Shipping

/-- The steps of both, in any order, labelled with the operations the leader
acknowledges. A poll fetches only if `ready`. -/
inductive ShipStep (ready : Shipping → Prop) : List Operation → Shipping → Shipping → Prop
  | leader {s : Shipping} {c : Collection} (a : Call) : a.run s.leader = .ok c →
      ShipStep ready a.ops s { s with leader := c }
  | fetch {s : Shipping} : s.inFlight = [] → ready s →
      ShipStep ready [] s { s with inFlight := s.delta.records }
  | apply {s : Shipping} {entry : WalDeltaRecord} {rest : List WalDeltaRecord} :
      s.inFlight = entry :: rest → ShipStep ready [] s (s.applyEntry entry rest)
  | restart {s : Shipping} {c : Collection} (order : HashOrder) :
      reopen s.follower.config s.follower.disk order = .ok c →
      ShipStep ready [] s ⟨s.leader, c, WalReplication.new, []⟩

section Rounds

variable {ready : Shipping → Prop} {s : Shipping}

theorem run_applyEntries : ∀ {entries : List WalDeltaRecord} {s : Shipping},
    s.inFlight = entries → Run (ShipStep ready) s [] (Shipping.applyEntries entries s)
  | [], _, _ => Run.refl
  | _ :: _, _, hs => (Run.single (ShipStep.apply hs)).trans (run_applyEntries rfl)

theorem run_poll (hs : s.inFlight = []) (hready : ready s) : Run (ShipStep ready) s [] s.poll :=
  (Run.single (ShipStep.fetch hs hready)).trans (run_applyEntries rfl)

theorem run_leader : ∀ {calls : List Call} {s : Shipping} {c : Collection},
    runAll calls s.leader = .ok c →
      Run (ShipStep ready) s (calls.flatMap Call.ops) { s with leader := c }
  | [], _, _, hrun => by
      obtain rfl := Except.ok.inj hrun
      exact Run.refl
  | a :: calls, s, c, hrun => by
      unfold runAll at hrun
      cases ha : a.run s.leader with
      | error e =>
          rw [ha] at hrun
          cases hrun
      | ok c₁ =>
          rw [ha] at hrun
          have hrest : Run (ShipStep ready) { s with leader := c₁ } (calls.flatMap Call.ops)
              { s with leader := c } := run_leader hrun
          exact (Run.single (ShipStep.leader a ha)).trans hrest

end Rounds

/-- The leader still has everything the follower has not applied. -/
def NotPruned (s : Shipping) : Prop := s.leader.lastCheckpointSeq ≤ s.lastApplied

/-! ## What a follower should hold -/

/-- The live records after a log record. -/
def liveStep (live : Id → Option Record) (r : WalRecord) (id : Id) : Option Record :=
  if id = r.op.id then r.op.recordAfter r.seq (live id) else live id

/-- The live records after some operations, numbered from one. -/
def liveAfter (h : List Operation) : Id → Option Record :=
  (numbered 0 h).foldl liveStep fun _ => none

/-! ## What a delta holds -/

section Delta

variable {h : List Operation} {c : Collection} {n : ℕ}

theorem map_seq_numbered : ∀ (ops : List Operation) (n : ℕ),
    (numbered n ops).map WalRecord.seq = List.range' (n + 1) ops.length
  | [], _ => rfl
  | op :: ops, n => by
      rw [numbered, List.map_cons, map_seq_numbered ops, List.length_cons, List.range'_succ]

theorem numbered_drop {h : List Operation} {n : ℕ} (hn : n ≤ h.length) :
    (numbered 0 h).drop n = numbered n (h.drop n) := by
  rw [numbered_split h 0 hn, Nat.zero_add]
  apply List.drop_left'
  rw [length_numbered, List.length_take, Nat.min_eq_left hn]

theorem records_walDelta (c : Collection) (n : ℕ) : (c.walDelta (n + 1)).records =
    (c.wal.file.records.filter fun r => decide (n < r.seq)).map WalDeltaRecord.ofRecord := by
  unfold walDelta
  dsimp only
  split
  · rename_i hlt
    have hnil : (c.wal.file.records.filter fun r => decide (n < r.seq)) = [] := by
      apply List.filter_eq_nil_iff.mpr
      intro r hr
      have hle := c.wal.le_lastSeq r hr
      simp only [decide_eq_true_eq]
      omega
    rw [hnil]
    rfl
  · rw [Wal.readRange_lastSeq]
    rfl

theorem targetSeq_walDelta (c : Collection) (n : ℕ) : (c.walDelta n).targetSeq = c.wal.lastSeq := by
  unfold walDelta
  dsimp only
  split <;> rfl

theorem Collection.Logged.records_walDelta (hl : Logged h c) (hp : c.lastCheckpointSeq ≤ n)
    (hn : n ≤ h.length) :
    (c.walDelta (n + 1)).records = (numbered n (h.drop n)).map WalDeltaRecord.ofRecord := by
  rw [Rekha.records_walDelta, hl.tail, filter_numbered hp hn]

/-- **A delta is complete exactly if none of it was pruned.** -/
theorem Collection.Logged.walDelta_complete_iff (hl : Logged h c) (hn : n ≤ h.length) :
    (c.walDelta (n + 1)).Complete (n + 1) ↔ c.lastCheckpointSeq ≤ n := by
  have hseqs : ∀ rs : List WalRecord, (rs.map WalDeltaRecord.ofRecord).map WalDeltaRecord.seq =
      rs.map WalRecord.seq := by
    intro rs
    rw [List.map_map]
    rfl
  unfold WalDelta.Complete
  rw [targetSeq_walDelta, hl.last]
  refine ⟨?_, ?_⟩
  · intro hall
    by_contra hp
    have hfirst : n + 1 ∈ (c.walDelta (n + 1)).records.map WalDeltaRecord.seq := by
      have hpruned := hl.pruned.trans hl.flushed
      rw [hall, List.mem_range'_1]
      omega
    rw [Rekha.records_walDelta, hseqs, hl.tail] at hfirst
    obtain ⟨r, hr, hseq⟩ := List.mem_map.mp hfirst
    have hlt := (seq_of_mem_numbered (List.mem_filter.mp hr).1).1
    omega
  · intro hp
    rw [hl.records_walDelta hp hn, hseqs, map_seq_numbered, List.length_drop]
    congr 1
    omega

end Delta

/-! ## What an append has checked -/

section Fits

variable {c c' : Collection} {ops : List Operation}

/-- A record in the log fits the length field. -/
def FitsFrame (op : Operation) : Prop := op.recordLen ≤ 2 ^ 32 - 1

theorem Call.fits {a : Call} (hrun : a.run c = .ok c') : ∀ op ∈ a.ops, FitsFrame op := by
  have hsteps : Run (StepIn fun _ => True) c a.ops c' := Call.run_steps hrun fun _ _ => trivial
  refine hsteps.invariant (I := fun ops _ => ∀ op ∈ ops, FitsFrame op) ?_ ?_
  · intro op hop
    cases hop
  · intro h l c₁ c₂ hfits hstep
    refine List.forall_mem_append.mpr ⟨hfits, ?_⟩
    obtain ⟨p, -, hs⟩ := hstep
    cases hs with
    | commit _ hwrite =>
        obtain ⟨rs, c₃, happ, -⟩ := Outcome.bind_ok.mp hwrite
        exact recordLen_of_appendOps happ
    | _ => exact fun op hop => absurd hop List.not_mem_nil

theorem FitsFrame.deserialize {op : Operation} (h : FitsFrame op) :
    Bincode.deserialize (Bincode.serialize op) = some op := by
  apply Bincode.deserialize_serialize
  rw [Bincode.length_serialize]
  have hlen : op.recordLen = recordHeaderLen + op.encodedLen := rfl
  unfold FitsFrame at h
  omega

end Fits

/-! ## What a follower holds -/

section Follower

variable {config : CollectionConfig} {c c' : Collection} {h ops : List Operation}
  {s s' : Shipping}

/-- Nothing but the replicated records: the files are those of a new collection. -/
structure Bypassed (config : CollectionConfig) (c : Collection) : Prop where
  disk : c.disk = freshDisk config
  config : c.config = config
  segmentIndex : c.segmentIndex = ∅

theorem Bypassed.get (hb : Bypassed config c) : c.get = c.records.lookup := by
  funext id
  have hvector : c.loadVector id = none := by
    unfold loadVector
    rw [hb.segmentIndex]
    rfl
  unfold Collection.get
  rw [hvector]
  cases c.records.lookup id <;> rfl

theorem lookup_applyRecord (c : Collection) (r : WalRecord) :
    (c.applyRecord r).records.lookup = liveStep c.records.lookup r := by
  funext id
  unfold applyRecord liveStep
  rw [lookup_applyOperation]

theorem Bypassed.applyRecord (hb : Bypassed config c) (r : WalRecord) :
    Bypassed config (c.applyRecord r) := by
  have hset := c.applyOperation_settled r.op r.seq
  simp only [settled, Settled.mk.injEq] at hset
  obtain ⟨hconfig, hwal, hdir, hcatalog, -, -, -, hindex⟩ := hset
  refine ⟨?_, hconfig.trans hb.config, hindex.trans hb.segmentIndex⟩
  rw [← hb.disk]
  unfold Collection.applyRecord Collection.disk
  rw [hwal, hdir, hcatalog]

theorem Bypassed.reopen {order : HashOrder} (hb : Bypassed config c)
    (hopen : reopen c.config c.disk order = .ok c') :
    Bypassed config c' ∧ c'.records = ∅ := by
  have hflush := reopen_ok hopen
  rw [hb.disk, hb.config] at hflush
  have hempty : restored { config with dimension := (freshDisk config).catalog.dimension }
      (freshDisk config) order = Collection.fresh config := by
    rw [restored_eq_foldl, based_none rfl]
    rfl
  rw [hempty] at hflush
  rcases flushIfNeeded_ok hflush with rfl | hflush
  · exact ⟨⟨rfl, rfl, rfl⟩, rfl⟩
  · obtain ⟨x, -, rfl⟩ := flushBuffer_ok hflush
    exact ⟨⟨rfl, rfl, rfl⟩, rfl⟩

/-- The leader has acknowledged `h`, and the follower follows its log. -/
structure Ships (config : CollectionConfig) (h : List Operation) (s : Shipping) : Prop where
  leader : Reachable (fun _ => True) config h s.leader
  fits : ∀ op ∈ h, FitsFrame op
  follower : Bypassed config s.follower
  replica : ∃ rs, s.inFlight = rs.map WalDeltaRecord.ofRecord ∧
    Replica.Follows liveStep (fun _ => none) (numbered 0 h)
      ⟨s.follower.records.lookup, s.lastApplied, rs⟩

theorem ships_start : Ships config [] (Shipping.start config) where
  leader := Reachable.fresh
  fits := fun _ hop => absurd hop List.not_mem_nil
  follower := ⟨rfl, rfl, rfl⟩
  replica := ⟨[], rfl, Replica.follows_init⟩

theorem Ships.call {a : Call} (hs : Ships config h s) (hrun : a.run s.leader = .ok c) :
    Ships config (h ++ a.ops) { s with leader := c } := by
  obtain ⟨rs, hflight, hfollows⟩ := hs.replica
  refine ⟨hs.leader.call a trivial hrun, ?_, hs.follower, rs, hflight, ?_⟩
  · exact List.forall_mem_append.mpr ⟨hs.fits, Call.fits hrun⟩
  · rw [numbered_append]
    exact hfollows.append _

theorem Ships.lastApplied_le (hs : Ships config h s) : s.lastApplied ≤ h.length := by
  obtain ⟨rs, -, hle, -⟩ := hs.replica
  rw [length_numbered] at hle
  exact hle

theorem Ships.fetch (hs : Ships config h s) (hready : NotPruned s) :
    Ships config h { s with inFlight := s.delta.records } := by
  obtain ⟨rs, -, hfollows⟩ := hs.replica
  refine ⟨hs.leader, hs.fits, hs.follower, _, ?_, hfollows.send⟩
  rw [numbered_drop hs.lastApplied_le]
  exact hs.leader.logged.records_walDelta hready hs.lastApplied_le

theorem getElem?_numbered {r : WalRecord} {k : ℕ} (hr : (numbered 0 h)[k]? = some r) :
    r.seq = k + 1 ∧ r.op ∈ h := by
  refine ⟨?_, op_mem_of_mem_numbered (List.mem_of_getElem? hr)⟩
  have hseq : ((numbered 0 h).map WalRecord.seq)[k]? = some r.seq := by
    rw [List.getElem?_map, hr]
    rfl
  rw [map_seq_numbered] at hseq
  obtain ⟨hk, hget⟩ := List.getElem?_eq_some_iff.mp hseq
  rw [List.getElem_range'] at hget
  omega

theorem lastApplied_applyEntry {entry : WalDeltaRecord} {rest : List WalDeltaRecord}
    (hconfig : (s.applyEntry entry rest).follower.config = s.follower.config) :
    (s.applyEntry entry rest).lastApplied = entry.seq := by
  unfold Shipping.lastApplied
  rw [hconfig]
  show ((s.replication.lastApplied.insert s.follower.config.id entry.seq).lookup
    s.follower.config.id).getD 0 = entry.seq
  rw [FinMap.lookup_insert_ite, if_pos rfl]
  rfl

theorem Ships.apply {entry : WalDeltaRecord} {rest : List WalDeltaRecord}
    (hs : Ships config h s) (hentry : s.inFlight = entry :: rest) :
    Ships config h (s.applyEntry entry rest) := by
  obtain ⟨rs, hflight, hfollows⟩ := hs.replica
  obtain ⟨r, rs, rfl, rfl, rfl⟩ := List.map_eq_cons_iff.mp (hflight.symm.trans hentry)
  obtain ⟨hfollows, hget⟩ := hfollows.apply rfl
  obtain ⟨hseq, hop⟩ := getElem?_numbered hget
  have hfollower : (s.applyEntry (.ofRecord r) (rs.map .ofRecord)).follower =
      s.follower.applyRecord r := by
    unfold Shipping.applyEntry WalDeltaRecord.ofRecord
    dsimp only
    rw [(hs.fits r.op hop).deserialize]
    rfl
  have hbypassed := hs.follower.applyRecord r
  rw [← hfollower] at hbypassed
  refine ⟨hs.leader, hs.fits, hbypassed, rs, rfl, ?_⟩
  rw [lastApplied_applyEntry (hbypassed.config.trans hs.follower.config.symm), hfollower,
    lookup_applyRecord]
  show Replica.Follows _ _ _ ⟨_, r.seq, rs⟩
  rw [hseq]
  exact hfollows

theorem Ships.restart {order : HashOrder} (hs : Ships config h s)
    (hopen : reopen s.follower.config s.follower.disk order = .ok c) :
    Ships config h ⟨s.leader, c, WalReplication.new, []⟩ := by
  obtain ⟨hbypassed, hrecords⟩ := hs.follower.reopen hopen
  refine ⟨hs.leader, hs.fits, hbypassed, [], rfl, ?_⟩
  show Replica.Follows _ _ _ ⟨c.records.lookup, 0, []⟩
  rw [hrecords]
  exact Replica.follows_init

theorem Ships.step (hs : Ships config h s) (hstep : ShipStep NotPruned ops s s') :
    Ships config (h ++ ops) s' := by
  cases hstep with
  | leader a hrun => exact hs.call hrun
  | fetch _ hready =>
      rw [List.append_nil]
      exact hs.fetch hready
  | apply hentry =>
      rw [List.append_nil]
      exact hs.apply hentry
  | restart order hopen =>
      rw [List.append_nil]
      exact hs.restart hopen

/-- **Shipping loses no update while no fetch asks for a pruned record.** Whatever
the order of the leader's calls, the polls and the restarts, the follower shows
the fold of the operations up to its position. A delta is complete exactly when
nothing of it was pruned. -/
theorem shipping_loses_nothing (hrun : Run (ShipStep NotPruned) (Shipping.start config) h s) :
    s.follower.get = liveAfter (h.take s.lastApplied) ∧
      (s.delta.Complete (s.replication.nextSeq s.follower.config.id) ↔ NotPruned s) := by
  have hs : Ships config h s := by
    refine hrun.invariant (I := Ships config) ships_start ?_
    intro h ops s s' hs hstep
    exact hs.step hstep
  refine ⟨?_, hs.leader.logged.walDelta_complete_iff hs.lastApplied_le⟩
  obtain ⟨rs, -, -, hstate, -⟩ := hs.replica
  rw [hs.follower.get]
  apply hstate.trans
  rw [numbered_take]
  rfl

/-- Two rounds of writes and polls: adds, then a deletion and an upsert. -/
theorem shipping_loses_nothing_demo : ∃ h s,
    Run (ShipStep NotPruned) (Shipping.start demoConfig) h s ∧ s.lastApplied = 4 ∧
      s.follower.get = liveAfter (h.take s.lastApplied) ∧
      (s.follower.get "a").isNone ∧ (s.follower.get "c").isSome := by
  let polled (c : Collection) : Shipping :=
    Shipping.poll { Shipping.start demoConfig with leader := c }
  let again (c c' : Collection) : Shipping := Shipping.poll { polled c with leader := c' }
  have hcalls : (runAll [.add true ["a", "b"] [zero, one] none (some [some "x", none])]
      (Collection.fresh demoConfig)).toOption.any (fun c => decide (c.lastCheckpointSeq = 0 ∧
        (polled c).inFlight.length = 0) &&
          (runAll [.delete ["a"], .upsert true ["c"] [two] none none]
            (polled c).leader).toOption.any fun c' => decide (c'.lastCheckpointSeq = 0 ∧
              (again c c').lastApplied = 4 ∧ ((again c c').follower.get "a").isNone ∧
                ((again c c').follower.get "c").isSome)) = true := by
    decide +kernel
  obtain ⟨c, hc, hfirst⟩ := exists_runAll hcalls
  rw [Bool.and_eq_true] at hfirst
  obtain ⟨hpruned, hempty⟩ := of_decide_eq_true hfirst.1
  obtain ⟨c', hc', hsecond⟩ := exists_runAll hfirst.2
  obtain ⟨hpruned', happlied, ha, hb⟩ := of_decide_eq_true hsecond
  have hready : NotPruned { Shipping.start demoConfig with leader := c } :=
    hpruned.trans_le (Nat.zero_le _)
  have hready' : NotPruned { polled c with leader := c' } := hpruned'.trans_le (Nat.zero_le _)
  have hrun := (((run_leader hc).trans (run_poll rfl hready)).trans (run_leader hc')).trans
    (run_poll (List.length_eq_zero_iff.mp hempty) hready')
  exact ⟨_, _, hrun, happlied, (shipping_loses_nothing hrun).1, ha, hb⟩

/-- A collection that flushes every record. -/
def eagerConfig : CollectionConfig := { demoConfig with hnsw := { batchSize := 1 } }

/-- The leader flushes and checkpoints the first record before the follower has
polled; the delta that comes starts at the second, and the first is lost. -/
theorem pruned_record_never_shipped : ∃ h s,
    Run (ShipStep fun _ => True) (Shipping.start eagerConfig) h s ∧
      s.lastApplied = 2 ∧ (liveAfter (h.take s.lastApplied) "a").isSome ∧
      (s.follower.get "a").isNone := by
  have hcalls : (runAll [.add true ["a"] [zero] none none, .checkpoint,
      .add true ["b"] [one] none none] (Collection.fresh eagerConfig)).toOption.any
      (fun c => decide (
        (Shipping.poll { Shipping.start eagerConfig with leader := c }).lastApplied = 2 ∧
        ((Shipping.poll { Shipping.start eagerConfig with leader := c }).follower.get
          "a").isNone)) = true := by
    decide +kernel
  obtain ⟨c, hc, hend⟩ := exists_runAll hcalls
  obtain ⟨happlied, hlost⟩ := of_decide_eq_true hend
  have hleader : Run (ShipStep fun _ => True) (Shipping.start eagerConfig) _
      { Shipping.start eagerConfig with leader := c } := run_leader hc
  have hpoll : Run (ShipStep fun _ => True) { Shipping.start eagerConfig with leader := c } []
      (Shipping.poll { Shipping.start eagerConfig with leader := c }) := run_poll rfl trivial
  refine ⟨_, _, hleader.trans hpoll, happlied, ?_, hlost⟩
  rw [happlied]
  decide +kernel

end Follower

end Rekha
