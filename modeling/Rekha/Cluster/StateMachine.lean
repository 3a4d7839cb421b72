import Rekha.Core.Types
import Rekha.Lib.Bytes
import Rekha.Lib.Outcome

/-!
# The cluster state machine and its snapshots

The metadata that Raft replicates, and the snapshot that carries it together
with the engine's data: a four-byte length, the encoded metadata, the engine's
bytes. Encoding and engine are parameters. The identifiers and memberships of
the consensus library are carried along unread.

Installing takes the length from the first four bytes and trusts it. Bytes that
end too early skip the decoding and still move the log position, and a failing
engine leaves the decoded metadata in place: `installs_whole_iff` says on which
inputs an installation is all or nothing.
-/

namespace Rekha.Cluster

open Bytes Outcome

structure NodeInfo where
  nodeId : ℕ
  addr : String
  isLeader : Bool

structure ClockTag where
  node : ℕ
  seq : ℕ

structure ClockMap where
  inner : FinMap ℕ ClockTag

structure LogId where
  term : ℕ
  nodeId : ℕ
  index : ℕ
deriving DecidableEq

/-- A membership and the log entry it comes from. -/
structure StoredMembership where
  logId : Option LogId
  configs : List (List ℕ)
  nodes : FinMap ℕ ℕ

/-- The fields of the state machine that are serialized. -/
structure ClusterData where
  nodes : FinMap ℕ NodeInfo
  collections : FinMap Uuid (List ℕ)
  clockMap : ClockMap
  lastApplied : Option LogId
  membership : StoredMembership

structure ClusterStateMachine (E : Type) extends ClusterData where
  engine : Option E

/-- What the state machine uses of an engine. -/
structure EngineSnapshotProvider (E : Type) where
  snapshot : E → Except String (List UInt8)
  restoreSnapshot : List UInt8 → EStateM String E Unit

/-- The serialization of the state machine. -/
structure SnapshotCodec where
  serialize : ClusterData → Except String (List UInt8)
  deserialize : List UInt8 → Except String ClusterData

structure SnapshotMeta where
  lastLogId : Option LogId
  lastMembership : StoredMembership

inductive StorageError where
  | io (msg : String)

/-- A method on `&mut ClusterStateMachine`. -/
abbrev MachineM (E : Type) := EStateM StorageError (ClusterStateMachine E)

variable {E : Type}

/-! ## Building and installing -/

/-- The bytes and the metadata of a snapshot of `sm`. -/
def buildSnapshot (k : SnapshotCodec) (p : EngineSnapshotProvider E)
    (sm : ClusterStateMachine E) : Except StorageError (SnapshotMeta × List UInt8) :=
  match k.serialize sm.toClusterData with
  | .error e => .error (.io s!"cluster snapshot serialize failed: {e}")
  | .ok clusterData =>
      let engineData : Except String (List UInt8) := match sm.engine with
        | none => .ok []
        | some engine => p.snapshot engine
      match engineData with
      | .error e => .error (.io s!"engine snapshot failed: {e}")
      | .ok engineData =>
          .ok (⟨sm.lastApplied, sm.membership⟩,
            toLe 4 clusterData.length ++ clusterData ++ engineData)

def clusterLen (data : List UInt8) : ℕ := ofLe (data.take 4)

def clusterBytes (data : List UInt8) : List UInt8 := (data.drop 4).take (clusterLen data)

def engineBytes (data : List UInt8) : List UInt8 := data.drop (4 + clusterLen data)

/-- Replace the metadata by the decoded one, if all its bytes are there. -/
def installCluster (k : SnapshotCodec) (data : List UInt8) : MachineM E Unit :=
  if 4 + clusterLen data ≤ data.length then
    match k.deserialize (clusterBytes data) with
    | .error e => throw (.io s!"cluster snapshot deserialize failed: {e}")
    | .ok sm => modify fun s => { s with toClusterData := sm }
  -- shorter than announced: passed over without an error
  else pure ()

/-- Hand the bytes behind the metadata, if there are any, to the engine. -/
def installEngine (p : EngineSnapshotProvider E) (data : List UInt8) : MachineM E Unit := do
  if 4 + clusterLen data < data.length then
    let s ← get
    match s.engine with
    -- without an engine the bytes are dropped
    | none => pure ()
    | some engine =>
        match p.restoreSnapshot (engineBytes data) engine with
        | .ok _ engine => modify fun s => { s with engine := some engine }
        | .error e engine => do
            modify fun s => { s with engine := some engine }
            throw (.io s!"engine restore failed: {e}")
  else pure ()

def installSnapshot (k : SnapshotCodec) (p : EngineSnapshotProvider E)
    (snapshotMeta : SnapshotMeta) (data : List UInt8) : MachineM E Unit :=
  -- not even the length is there: the position does not move either
  if data.length < 4 then pure ()
  else do
    installCluster k data
    installEngine p data
    modify fun s => { s with
      lastApplied := snapshotMeta.lastLogId
      membership := snapshotMeta.lastMembership }

/-! ## Whole snapshots -/

/-- A four-byte length, that many bytes that decode to `sm`, and the engine's. -/
def IsSnapshot (k : SnapshotCodec) (data : List UInt8) (sm : ClusterData)
    (engineData : List UInt8) : Prop :=
  ∃ n body, data = toLe 4 n ++ body ++ engineData ∧ n < 256 ^ 4 ∧ body.length = n ∧
    k.deserialize body = .ok sm

/-- The length field and all the bytes it announces are there. -/
def Complete (data : List UInt8) : Prop := 4 ≤ data.length ∧ 4 + clusterLen data ≤ data.length

theorem isSnapshot_iff {k : SnapshotCodec} {data : List UInt8} {sm : ClusterData}
    {engineData : List UInt8} : IsSnapshot k data sm engineData ↔
      Complete data ∧ k.deserialize (clusterBytes data) = .ok sm ∧
        engineData = engineBytes data := by
  refine ⟨?_, ?_⟩
  · rintro ⟨n, body, rfl, hn, rfl, hdec⟩
    have hlen : clusterLen (toLe 4 body.length ++ body ++ engineData) = body.length := by
      rw [clusterLen, List.append_assoc, List.take_left' (length_toLe 4 _), ofLe_toLe _ _ hn]
    have hdrop : (toLe 4 body.length ++ body ++ engineData).drop 4 = body ++ engineData := by
      rw [List.append_assoc, List.drop_left' (length_toLe 4 _)]
    refine ⟨⟨?_, ?_⟩, ?_, ?_⟩
    · rw [List.append_assoc, List.length_append, length_toLe]
      exact Nat.le_add_right _ _
    · rw [hlen, List.length_append, List.length_append, length_toLe]
      exact Nat.le_add_right _ _
    · rw [clusterBytes, hlen, hdrop, List.take_left]
      exact hdec
    · rw [engineBytes, hlen, ← List.drop_drop, hdrop, List.drop_left]
  · rintro ⟨⟨hfour, hall⟩, hdec, rfl⟩
    have hfield : (data.take 4).length = 4 := List.length_take_of_le hfour
    refine ⟨clusterLen data, clusterBytes data, ?_, ?_, ?_, hdec⟩
    · have htake : toLe 4 (clusterLen data) = data.take 4 := by
        have h := toLe_ofLe (data.take 4)
        rwa [hfield] at h
      rw [htake, clusterBytes, engineBytes, ← List.drop_drop, List.append_assoc,
        List.take_append_drop, List.take_append_drop]
    · have h := ofLe_lt (data.take 4)
      rwa [hfield] at h
    · rw [clusterBytes, List.length_take_of_le]
      rw [List.length_drop]
      omega

/-! ## What an installation does -/

section Install

variable {k : SnapshotCodec} {p : EngineSnapshotProvider E} {snapshotMeta : SnapshotMeta}
  {data : List UInt8} {s s' : ClusterStateMachine E} {sm : ClusterData}

def RestoreFails (p : EngineSnapshotProvider E) (data : List UInt8)
    (s : ClusterStateMachine E) : Prop :=
  engineBytes data ≠ [] ∧ ∃ engine msg engine', s.engine = some engine ∧
    p.restoreSnapshot (engineBytes data) engine = .error msg engine'

/-- Position and membership as the snapshot's metadata has them. -/
def ClusterData.positioned (sm : ClusterData) (m : SnapshotMeta) : ClusterData :=
  { sm with lastApplied := m.lastLogId, membership := m.lastMembership }

theorem engineBytes_ne_nil_iff :
    engineBytes data ≠ [] ↔ 4 + clusterLen data < data.length := by
  rw [engineBytes, ne_eq, List.drop_eq_nil_iff, not_le]

theorem installEngine_ends (p : EngineSnapshotProvider E) (data : List UInt8)
    (s : ClusterStateMachine E) :
    (RestoreFails p data s → ∃ e s', installEngine p data s = .error e s' ∧
      s'.toClusterData = s.toClusterData) ∧
    (¬ RestoreFails p data s → ∃ s', installEngine p data s = .ok () s' ∧
      s'.toClusterData = s.toClusterData) := by
  unfold installEngine RestoreFails
  rw [engineBytes_ne_nil_iff]
  by_cases hmore : 4 + clusterLen data < data.length
  · rw [if_pos hmore]
    cases he : s.engine with
    | none =>
        refine ⟨?_, ?_⟩
        · rintro ⟨-, engine, -, -, hsome, -⟩
          exact absurd hsome (by simp)
        · intro _
          refine ⟨s, bind_ok.mpr ⟨s, s, rfl, ?_⟩, rfl⟩
          rw [he]
          rfl
    | some engine =>
        cases hr : p.restoreSnapshot (engineBytes data) engine with
        | ok u engine' =>
            refine ⟨?_, ?_⟩
            · rintro ⟨-, engine₁, msg, engine₂, hsome, herr⟩
              obtain rfl := Option.some.inj hsome
              rw [hr] at herr
              exact absurd herr (by simp)
            · intro _
              refine ⟨{ s with engine := some engine' }, bind_ok.mpr ⟨s, s, rfl, ?_⟩, rfl⟩
              rw [he]
              dsimp only
              rw [hr]
              rfl
        | error msg engine' =>
            refine ⟨?_, ?_⟩
            · intro _
              refine ⟨.io s!"engine restore failed: {msg}", { s with engine := some engine' },
                bind_error.mpr (Or.inr ⟨s, s, rfl, ?_⟩), rfl⟩
              rw [he]
              dsimp only
              rw [hr]
              rfl
            · intro hno
              exact absurd ⟨hmore, engine, msg, engine', rfl, hr⟩ hno
  · rw [if_neg hmore]
    exact ⟨fun hfail => absurd hfail.1 hmore, fun _ => ⟨s, rfl, rfl⟩⟩

theorem install_of_short (hshort : data.length < 4) :
    installSnapshot k p snapshotMeta data s = .ok () s := by
  rw [installSnapshot, if_pos hshort]
  rfl

theorem install_of_truncated (hfour : 4 ≤ data.length)
    (hcut : data.length < 4 + clusterLen data) :
    installSnapshot k p snapshotMeta data s = .ok () { s with
      lastApplied := snapshotMeta.lastLogId
      membership := snapshotMeta.lastMembership } := by
  rw [installSnapshot, if_neg (not_lt.mpr hfour)]
  refine bind_ok.mpr ⟨(), s, ?_, bind_ok.mpr ⟨(), s, ?_, rfl⟩⟩
  · rw [installCluster, if_neg (not_le.mpr hcut)]
    rfl
  · rw [installEngine, if_neg (not_lt.mpr hcut.le)]
    rfl

theorem install_of_undecodable {e : String} (hall : Complete data)
    (hdec : k.deserialize (clusterBytes data) = .error e) :
    ∃ e, installSnapshot k p snapshotMeta data s = .error e s := by
  refine ⟨.io s!"cluster snapshot deserialize failed: {e}", ?_⟩
  rw [installSnapshot, if_neg (not_lt.mpr hall.1)]
  refine bind_error.mpr (Or.inl ?_)
  rw [installCluster, if_pos hall.2, hdec]
  rfl

theorem install_of_decoded (hall : Complete data)
    (hdec : k.deserialize (clusterBytes data) = .ok sm) :
    (RestoreFails p data s → ∃ e s', installSnapshot k p snapshotMeta data s = .error e s' ∧
      s'.toClusterData = sm) ∧
    (¬ RestoreFails p data s → ∃ s', installSnapshot k p snapshotMeta data s = .ok () s' ∧
      s'.toClusterData = sm.positioned snapshotMeta) := by
  have hcluster : installCluster k data s = .ok () { s with toClusterData := sm } := by
    rw [installCluster, if_pos hall.2, hdec]
    rfl
  obtain ⟨hfail, hok⟩ := installEngine_ends p data { s with toClusterData := sm }
  rw [installSnapshot, if_neg (not_lt.mpr hall.1)]
  refine ⟨?_, ?_⟩
  · intro hr
    obtain ⟨e, s', herr, hs'⟩ := hfail hr
    exact ⟨e, s', bind_error.mpr (Or.inr ⟨(), _, hcluster, bind_error.mpr (Or.inl herr)⟩), hs'⟩
  · intro hr
    obtain ⟨s', hengine, hs'⟩ := hok hr
    refine ⟨{ s' with
      lastApplied := snapshotMeta.lastLogId
      membership := snapshotMeta.lastMembership },
      bind_ok.mpr ⟨(), _, hcluster, bind_ok.mpr ⟨(), s', hengine, rfl⟩⟩, ?_⟩
    show s'.toClusterData.positioned snapshotMeta = _
    rw [hs']

/-! ## All or nothing -/

/-- **An installation that is all or nothing.** -/
structure InstallsWhole (k : SnapshotCodec) (p : EngineSnapshotProvider E)
    (snapshotMeta : SnapshotMeta) (data : List UInt8) (s : ClusterStateMachine E) : Prop where
  accepted : ∀ s', installSnapshot k p snapshotMeta data s = .ok () s' →
    ∃ sm engineData, IsSnapshot k data sm engineData ∧
      s'.toClusterData = sm.positioned snapshotMeta
  rejected : (¬ ∃ sm engineData, IsSnapshot k data sm engineData) ∨ RestoreFails p data s →
    ∃ e s', installSnapshot k p snapshotMeta data s = .error e s' ∧
      s'.toClusterData = s.toClusterData

theorem installsWhole_of_decoded (hall : Complete data)
    (hdec : k.deserialize (clusterBytes data) = .ok sm) :
    InstallsWhole k p snapshotMeta data s ↔ (RestoreFails p data s → sm = s.toClusterData) := by
  obtain ⟨hfail, hok⟩ := @install_of_decoded E k p snapshotMeta data s sm hall hdec
  have hwhole : IsSnapshot k data sm (engineBytes data) := isSnapshot_iff.mpr ⟨hall, hdec, rfl⟩
  refine ⟨?_, ?_⟩
  · intro hw hr
    obtain ⟨e, s', herr, hs'⟩ := hw.rejected (Or.inr hr)
    obtain ⟨e₁, s₁, herr₁, hs₁⟩ := hfail hr
    rw [herr₁] at herr
    cases herr
    rw [← hs₁, hs']
  · intro hsame
    refine ⟨?_, ?_⟩
    · intro s' hrun
      by_cases hr : RestoreFails p data s
      · obtain ⟨e₁, s₁, herr₁, -⟩ := hfail hr
        rw [herr₁] at hrun
        cases hrun
      · obtain ⟨s₁, hrun₁, hs₁⟩ := hok hr
        rw [hrun₁] at hrun
        cases hrun
        exact ⟨sm, _, hwhole, hs₁⟩
    · rintro (hno | hr)
      · exact absurd ⟨sm, _, hwhole⟩ hno
      · obtain ⟨e, s', herr, hs'⟩ := hfail hr
        exact ⟨e, s', herr, hs'.trans (hsame hr)⟩

/-- **An installation is all or nothing exactly when all announced bytes are
there**, and the engine does not fail on them, unless they change nothing. -/
theorem installs_whole_iff (k : SnapshotCodec) (p : EngineSnapshotProvider E)
    (snapshotMeta : SnapshotMeta) (data : List UInt8) (s : ClusterStateMachine E) :
    InstallsWhole k p snapshotMeta data s ↔
      Complete data ∧ ∀ sm, k.deserialize (clusterBytes data) = .ok sm →
        RestoreFails p data s → sm = s.toClusterData := by
  by_cases hall : Complete data
  · rw [and_iff_right hall]
    cases hdec : k.deserialize (clusterBytes data) with
    | ok sm =>
        rw [installsWhole_of_decoded hall hdec]
        exact ⟨fun h sm' heq => Except.ok.inj heq ▸ h, fun h => h sm rfl⟩
    | error e =>
        obtain ⟨e', herr⟩ := @install_of_undecodable E k p snapshotMeta data s e hall hdec
        refine iff_of_true ⟨?_, fun _ => ⟨e', s, herr, rfl⟩⟩ fun sm h => absurd h (by simp)
        intro s' hrun
        rw [herr] at hrun
        cases hrun
  · refine iff_of_false ?_ fun h => hall h.1
    intro hw
    have hno : ¬ ∃ sm engineData, IsSnapshot k data sm engineData := by
      rintro ⟨sm, engineData, hs⟩
      exact hall (isSnapshot_iff.mp hs).1
    obtain ⟨e, s', herr, -⟩ := hw.rejected (Or.inl hno)
    by_cases hfour : data.length < 4
    · rw [install_of_short hfour] at herr
      cases herr
    · have hcut : data.length < 4 + clusterLen data :=
        not_le.mp fun hle => hall ⟨not_lt.mp hfour, hle⟩
      rw [install_of_truncated (not_lt.mp hfour) hcut] at herr
      cases herr

end Install

/-! ## A truncated snapshot -/

/-- A state machine with these nodes and nothing else, and a failing engine. -/
def machineOf (nodes : FinMap ℕ NodeInfo) : ClusterStateMachine Unit :=
  ⟨⟨nodes, ∅, ⟨∅⟩, none, ⟨none, [], ∅⟩⟩, some ()⟩

/-- A codec that knows one encoding: no bytes, for the state without nodes. -/
def emptyCodec : SnapshotCodec where
  serialize := fun _ => .ok []
  deserialize := fun bytes =>
    if bytes = [] then .ok (machineOf ∅).toClusterData else .error "invalid value"

def failingEngine : EngineSnapshotProvider Unit where
  snapshot := fun _ => .error "restore not supported"
  restoreSnapshot := fun _ => throw "restore not supported"

/-- The position a leader at index 7 sends along. -/
def demoMeta : SnapshotMeta := ⟨some ⟨2, 1, 7⟩, ⟨none, [[1]], ∅⟩⟩

/-- Of five announced bytes none is there: the node ends at index 7 without them. -/
theorem truncated_snapshot_accepted :
    (∃ s, installSnapshot emptyCodec failingEngine demoMeta [5, 0, 0, 0] (machineOf ∅) =
      .ok () s ∧ s.lastApplied = some ⟨2, 1, 7⟩) ∧
    ¬ InstallsWhole emptyCodec failingEngine demoMeta [5, 0, 0, 0] (machineOf ∅) := by
  refine ⟨⟨_, rfl, rfl⟩, ?_⟩
  intro hw
  obtain ⟨e, s, herr, -⟩ := hw.rejected (Or.inl (by
    rintro ⟨sm, engineData, hs⟩
    exact absurd (isSnapshot_iff.mp hs).1.2 (by decide)))
  cases herr

end Rekha.Cluster
