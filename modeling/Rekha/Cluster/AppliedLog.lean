import Rekha.Lib.FinMap
import Rekha.Cluster.StateMachine

/-!
# Applying the log, with or without a snapshot in between

The state after a log is the fold of its entries. A snapshot taken anywhere and
installed anywhere else stands for the entries before it: applying the rest
there gives the state of the whole log (`snapshot_then_suffix`).

Hash maps are compared by what they hold, so the codec may bring them back in
another order.
-/

namespace Rekha.Cluster

open Bytes Outcome

/-! ## Entries -/

inductive ClusterOperation where
  | addNode (nodeId : ℕ) (addr : String)
  | removeNode (nodeId : ℕ)
  | addCollection (collectionId : Uuid) (name : String) (dimension : ℕ) (distance : String)
      (tenant database : String) (ownerNodes : List ℕ)
  | removeCollection (collectionId : Uuid)
  | transferLeadership (newLeader : ℕ)

structure Membership where
  configs : List (List ℕ)
  nodes : FinMap ℕ ℕ

def StoredMembership.new (logId : Option LogId) (m : Membership) : StoredMembership :=
  ⟨logId, m.configs, m.nodes⟩

inductive EntryPayload where
  | normal (op : ClusterOperation)
  | membership (m : Membership)
  | blank

structure Entry where
  logId : LogId
  payload : EntryPayload

/-! ## The state machine -/

namespace ClusterData

def new : ClusterData := ⟨∅, ∅, ⟨∅⟩, none, StoredMembership.new none ⟨[], ∅⟩⟩

def applyOperation (d : ClusterData) : ClusterOperation → ClusterData
  | .addNode nodeId addr => { d with nodes := d.nodes.insert nodeId ⟨nodeId, addr, false⟩ }
  | .removeNode nodeId => { d with nodes := d.nodes.erase nodeId }
  | .addCollection collectionId _ _ _ _ _ ownerNodes =>
      { d with collections := d.collections.insert collectionId ownerNodes }
  | .removeCollection collectionId => { d with collections := d.collections.erase collectionId }
  | .transferLeadership newLeader =>
      -- a leader that is not in the table leaves every node unmarked
      let appoint : ℕ → NodeInfo → NodeInfo :=
        fun _ info => { info with isLeader := decide (info.nodeId = newLeader) }
      { d with nodes := FinMap.mapVals appoint d.nodes }

/-- One round of the loop of `apply`; its response, a debug text, is left out. -/
def applyEntry (d : ClusterData) (entry : Entry) : ClusterData :=
  let d := { d with lastApplied := some entry.logId }
  match entry.payload with
  | .normal op => d.applyOperation op
  | .membership m => { d with membership := StoredMembership.new (some entry.logId) m }
  | .blank => d

end ClusterData

variable {E : Type}

namespace ClusterStateMachine

def new : ClusterStateMachine E := ⟨ClusterData.new, none⟩

def apply (sm : ClusterStateMachine E) (entries : List Entry) : ClusterStateMachine E :=
  { sm with toClusterData := entries.foldl ClusterData.applyEntry sm.toClusterData }

end ClusterStateMachine

/-- The same code as in `build_snapshot`, and there always is a snapshot. -/
def getCurrentSnapshot (k : SnapshotCodec) (p : EngineSnapshotProvider E)
    (sm : ClusterStateMachine E) : Except StorageError (Option (SnapshotMeta × List UInt8)) := do
  return some (← buildSnapshot k p sm)

/-! ## Equality of states -/

namespace ClusterData

/-- Equal fields, the hash maps compared as maps. -/
structure Same (d d' : ClusterData) : Prop where
  nodes : ∀ id, d.nodes.lookup id = d'.nodes.lookup id
  collections : ∀ id, d.collections.lookup id = d'.collections.lookup id
  clockMap : ∀ id, d.clockMap.inner.lookup id = d'.clockMap.inner.lookup id
  lastApplied : d.lastApplied = d'.lastApplied
  membership : d.membership = d'.membership

variable {d d' : ClusterData}

theorem Same.applyOperation (h : Same d d') (op : ClusterOperation) :
    Same (d.applyOperation op) (d'.applyOperation op) := by
  cases op with
  | addNode nodeId addr =>
      refine ⟨?_, h.collections, h.clockMap, h.lastApplied, h.membership⟩
      intro id
      simp only [ClusterData.applyOperation, FinMap.lookup_insert_ite, h.nodes id]
  | removeNode nodeId =>
      refine ⟨?_, h.collections, h.clockMap, h.lastApplied, h.membership⟩
      intro id
      simp only [ClusterData.applyOperation, FinMap.lookup_erase_ite, h.nodes id]
  | addCollection collectionId name dimension distance tenant database ownerNodes =>
      refine ⟨h.nodes, ?_, h.clockMap, h.lastApplied, h.membership⟩
      intro id
      simp only [ClusterData.applyOperation, FinMap.lookup_insert_ite, h.collections id]
  | removeCollection collectionId =>
      refine ⟨h.nodes, ?_, h.clockMap, h.lastApplied, h.membership⟩
      intro id
      simp only [ClusterData.applyOperation, FinMap.lookup_erase_ite, h.collections id]
  | transferLeadership newLeader =>
      refine ⟨?_, h.collections, h.clockMap, h.lastApplied, h.membership⟩
      intro id
      simp only [ClusterData.applyOperation, FinMap.lookup_mapVals, h.nodes id]

theorem Same.applyEntry (h : Same d d') (entry : Entry) :
    Same (d.applyEntry entry) (d'.applyEntry entry) := by
  obtain ⟨logId, payload⟩ := entry
  have hmoved : Same { d with lastApplied := some logId } { d' with lastApplied := some logId } :=
    ⟨h.nodes, h.collections, h.clockMap, rfl, h.membership⟩
  cases payload with
  | normal op => exact hmoved.applyOperation op
  | membership m => exact ⟨h.nodes, h.collections, h.clockMap, rfl, rfl⟩
  | blank => exact hmoved

theorem Same.foldl (h : Same d d') (entries : List Entry) :
    Same (entries.foldl ClusterData.applyEntry d) (entries.foldl ClusterData.applyEntry d') := by
  induction entries generalizing d d' with
  | nil => exact h
  | cons entry entries ih => exact ih (h.applyEntry entry)

end ClusterData

/-! ## A snapshot stands for the entries before it -/

/-- The codec brings the state back, from fewer bytes than the length field counts. -/
def RoundTrips (k : SnapshotCodec) (d : ClusterData) : Prop :=
  ∃ bytes d', k.serialize d = .ok bytes ∧ k.deserialize bytes = .ok d' ∧ d'.Same d ∧
    bytes.length < 2 ^ 32

section Transfer

variable {k : SnapshotCodec} {p : EngineSnapshotProvider E} {builder : ClusterStateMachine E}

theorem buildSnapshot_whole (hengine : builder.engine = none)
    (hround : RoundTrips k builder.toClusterData) :
    ∃ data d', buildSnapshot k p builder =
        .ok (⟨builder.lastApplied, builder.membership⟩, data) ∧
      IsSnapshot k data d' [] ∧ d'.Same builder.toClusterData := by
  obtain ⟨bytes, d', hbytes, hdec, hsame, hlen⟩ := hround
  refine ⟨_, d', ?_, ⟨bytes.length, bytes, rfl, hlen, rfl, hdec⟩, hsame⟩
  rw [buildSnapshot, hbytes]
  dsimp only
  rw [hengine]

theorem install_whole {data : List UInt8} {d d' : ClusterData} (hwhole : IsSnapshot k data d' [])
    (hsame : d'.Same d) (s : ClusterStateMachine E) :
    ∃ s', installSnapshot k p ⟨d.lastApplied, d.membership⟩ data s = .ok () s' ∧
      s'.toClusterData.Same d := by
  obtain ⟨hall, hdec, hengine⟩ := isSnapshot_iff.mp hwhole
  have hok : ¬ RestoreFails p data s := fun hfails => hfails.1 hengine.symm
  obtain ⟨s', hrun, hs'⟩ := (install_of_decoded hall hdec).2 hok
  refine ⟨s', hrun, ?_⟩
  rw [hs']
  exact ⟨hsame.nodes, hsame.collections, hsame.clockMap, rfl, rfl⟩

end Transfer

/-- **A snapshot and the rest of the log are the whole log**: for every log, at
every cut, on every follower, and from either of the two ways to take it. -/
theorem snapshot_then_suffix (k : SnapshotCodec) (p : EngineSnapshotProvider E)
    (entries : List Entry) (cut : ℕ)
    (hround : RoundTrips k (ClusterStateMachine.new.apply (entries.take cut) :
      ClusterStateMachine E).toClusterData) (s : ClusterStateMachine E) :
    ∃ m data, buildSnapshot k p (ClusterStateMachine.new.apply (entries.take cut)) =
        .ok (m, data) ∧
      getCurrentSnapshot k p (ClusterStateMachine.new.apply (entries.take cut)) =
        .ok (some (m, data)) ∧
      ∃ s', installSnapshot k p m data s = .ok () s' ∧
        (s'.apply (entries.drop cut)).Same (ClusterStateMachine.new.apply entries :
          ClusterStateMachine E).toClusterData := by
  obtain ⟨data, d', hbuild, hwhole, hsame⟩ := buildSnapshot_whole (p := p) rfl hround
  obtain ⟨s', hinstall, hs'⟩ := install_whole (p := p) hwhole hsame s
  refine ⟨_, data, hbuild, ?_, s', hinstall, ?_⟩
  · rw [getCurrentSnapshot, hbuild]
    rfl
  · have hsuffix := hs'.foldl (entries.drop cut)
    have hsplit : (ClusterStateMachine.new.apply entries : ClusterStateMachine E).toClusterData =
        (entries.drop cut).foldl ClusterData.applyEntry
          (ClusterStateMachine.new.apply (entries.take cut) :
            ClusterStateMachine E).toClusterData := by
      show entries.foldl ClusterData.applyEntry ClusterData.new = _
      conv_lhs => rw [← List.take_append_drop cut entries, List.foldl_append]
      rfl
    rw [hsplit]
    exact hsuffix

/-! ## A log with every kind of entry -/

def demoLog : List Entry :=
  [⟨⟨1, 1, 1⟩, .membership ⟨[[1]], ∅⟩⟩, ⟨⟨1, 1, 2⟩, .normal (.addNode 1 "a")⟩,
    ⟨⟨1, 1, 3⟩, .normal (.transferLeadership 1)⟩,
    ⟨⟨1, 1, 4⟩, .normal (.addCollection ⟨7#128⟩ "docs" 3 "l2" "t" "d" [1])⟩,
    ⟨⟨1, 1, 5⟩, .blank⟩, ⟨⟨1, 1, 6⟩, .normal (.removeCollection ⟨7#128⟩)⟩,
    ⟨⟨1, 1, 7⟩, .normal (.removeNode 1)⟩]

/-- The state after the first three entries as bincode writes it: one node, no
collection, an empty clock map, position 3, and the membership of entry 1. -/
def demoBytes : List UInt8 :=
  let u64 : ℕ → List UInt8 := toLe 8
  u64 1 ++ u64 1 ++ u64 1 ++ u64 1 ++ [97, 1] ++ u64 0 ++ u64 0 ++
    [1] ++ u64 1 ++ u64 1 ++ u64 3 ++
    [1] ++ u64 1 ++ u64 1 ++ u64 1 ++ u64 1 ++ u64 1 ++ u64 1 ++ u64 0

def demoState : ClusterData :=
  ⟨AList.insert 1 ⟨1, "a", true⟩ ∅, ∅, ⟨∅⟩, some ⟨1, 1, 3⟩, ⟨some ⟨1, 1, 1⟩, [[1]], ∅⟩⟩

/-- Bincode on that state and its bytes. -/
def demoCodec : SnapshotCodec where
  serialize := fun _ => .ok demoBytes
  deserialize := fun bytes => if bytes = demoBytes then .ok demoState else .error "unexpected end"

/-- Cut after the third entry, installed on a node that had other nodes. -/
theorem snapshot_then_suffix_demo : ∃ m data, buildSnapshot demoCodec failingEngine
      (ClusterStateMachine.new.apply (demoLog.take 3)) = .ok (m, data) ∧
    ∃ s', installSnapshot demoCodec failingEngine m data
        (machineOf (AList.insert 9 ⟨9, "z", false⟩ ∅)) = .ok () s' ∧
      (s'.apply (demoLog.drop 3)).Same
        (ClusterStateMachine.new.apply demoLog : ClusterStateMachine Unit).toClusterData := by
  have hround : RoundTrips demoCodec (ClusterStateMachine.new.apply (demoLog.take 3) :
      ClusterStateMachine Unit).toClusterData := by
    have hdec : demoCodec.deserialize demoBytes = .ok demoState := by
      show (if demoBytes = demoBytes then Except.ok demoState else .error "unexpected end") = _
      rw [if_pos rfl]
    refine ⟨demoBytes, demoState, rfl, hdec, ?_, by decide +kernel⟩
    exact ⟨fun id => rfl, fun id => rfl, fun id => rfl, rfl, rfl⟩
  obtain ⟨m, data, hbuild, -, s', hinstall, hsame⟩ := snapshot_then_suffix demoCodec failingEngine
    demoLog 3 hround (machineOf (AList.insert 9 ⟨9, "z", false⟩ ∅))
  exact ⟨m, data, hbuild, s', hinstall, hsame⟩

end Rekha.Cluster
