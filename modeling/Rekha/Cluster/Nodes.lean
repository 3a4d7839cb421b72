import Rekha.Cluster.AppliedLog
import Rekha.Cluster.Replication
import Rekha.Server.StoreRefinement

/-!
# The nodes of a cluster

The nodes as `serve` starts them: each has its engine, a Raft state machine without
an engine, and a task that lists its own collections and fetches their logs from
another node. New collections get ids of their own, so the other node never has the
collections that are asked for: `nodes_share_nothing` shows that every node is a
store of its own, whatever the other nodes do.
-/

namespace Rekha.Cluster

open Outcome Server

/-! ## The task that follows another node -/

/-- What is left of the listing, and the delta of the collection at hand. -/
structure Follower where
  replication : WalReplication
  listed : List Uuid
  inFlight : Option (Uuid × List WalDeltaRecord)

def Follower.new : Follower := ⟨WalReplication.new, [], none⟩

end Rekha.Cluster

namespace Rekha.Server.Engine

def walDelta (e : Engine) (id : Uuid) (fromSeq : ℕ) : Except EngineError WalDelta := do
  let coll ← e.collection id
  pure (coll.walDelta fromSeq)

def applyRemoteOps (id : Uuid) (ops : List (ℕ × Operation)) : ServerM Unit := do
  let e ← MonadState.get
  let coll ← Outcome.ofExcept (e.collection id)
  modify fun e => { e with collections := e.collections.insert id (coll.applyRemoteOps ops) }

end Rekha.Server.Engine

namespace Rekha.Cluster

open Outcome Server

structure Node where
  engine : Server.Engine
  machine : ClusterStateMachine Server.Engine
  follower : Follower

namespace Node

def fresh : Node := ⟨{}, ClusterStateMachine.new, Follower.new⟩

/-- A request to the node. A restart ends the Raft state machine and the task, too. -/
def request (text : UuidText) (K : Kernels) (req : Request) (node : Node) : Node :=
  match req with
  | .restart _ => { fresh with engine := final (req.handle text K node.engine) }
  | _ => { node with engine := final (req.handle text K node.engine) }

/-- The listing at the start of a round. -/
def list (node : Node) : Node :=
  { node with follower := { node.follower with
      listed := (node.engine.listCollections "default_tenant" "default_database").map
        fun record => record.config.id } }

/-- What the task asks for a collection. -/
def fetch (node : Node) (leader : Node) (id : Uuid) :
    Except Server.EngineError WalDelta :=
  leader.engine.walDelta id (node.follower.replication.nextSeq id)

/-- The next collection of the listing, with the delta that came for it, if one came. -/
def advance (node : Node) (rest : List Uuid) (inFlight : Option (Uuid × List WalDeltaRecord)) :
    Node :=
  { node with follower := { node.follower with listed := rest, inFlight := inFlight } }

/-- Apply one record of the delta. The position moves even if this fails. -/
def applyEntry (node : Node) (id : Uuid) (entry : WalDeltaRecord) (rest : List WalDeltaRecord) :
    Node where
  engine := match Bincode.deserialize entry.payload with
    | some op => final (Engine.applyRemoteOps id [(entry.seq, op)] node.engine)
    | none => node.engine
  machine := node.machine
  follower := { node.follower with
    replication := node.follower.replication.markApplied id entry.seq
    inFlight := some (id, rest) }

end Node

/-! ## The cluster -/

structure Nodes where
  node : ℕ → Node
  drawn : Uuid → Option ℕ

namespace Nodes

def start : Nodes := ⟨fun _ => Node.fresh, fun _ => none⟩

def update (c : Nodes) (n : ℕ) (node : Node) : Nodes :=
  { c with node := Function.update c.node n node }

end Nodes

/-- The id that a request draws for a new collection. -/
def draws : Request → Option Uuid
  | .create _ _ id _ _ _ => some id
  | .find .. | .list .. | .drop .. | .record .. | .restart _ => none

/-- A request to a node, with the reply. -/
abbrev Exchange := ℕ × Request × Except Server.EngineError Reply

def ofNode (log : List Exchange) (n : ℕ) : List (Request × Except Server.EngineError Reply) :=
  (log.filter fun x => decide (x.1 = n)).map Prod.snd

/-- The steps of all nodes, in any order. Node `n` follows node `leader n`; no id is
drawn twice; a fetch may fail at any time. -/
inductive NodesStep (text : UuidText) (K : Kernels) (k : SnapshotCodec)
    (p : EngineSnapshotProvider Server.Engine) (leader : ℕ → ℕ) :
    List Exchange → Nodes → Nodes → Prop
  | request {c : Nodes} (n : ℕ) (req : Request) :
      (∀ id, draws req = some id → c.drawn id = none) →
      (∀ err e', req.handle text K (c.node n).engine = .error err e' → req.MayMeet err) →
      NodesStep text K k p leader [(n, req, result (req.handle text K (c.node n).engine))] c
        ⟨Function.update c.node n ((c.node n).request text K req),
          fun id => if draws req = some id then some n else c.drawn id⟩
  | applyLog {c : Nodes} (n : ℕ) (entries : List Entry) :
      NodesStep text K k p leader [] c (c.update n { c.node n with
        machine := (c.node n).machine.apply entries })
  | installSnapshot {c : Nodes} (n : ℕ) (snapshotMeta : SnapshotMeta) (data : List UInt8) :
      NodesStep text K k p leader [] c (c.update n { c.node n with
        machine := final (Cluster.installSnapshot k p snapshotMeta data (c.node n).machine) })
  | list {c : Nodes} (n : ℕ) : (c.node n).follower.listed = [] →
      (c.node n).follower.inFlight = none →
      NodesStep text K k p leader [] c (c.update n (c.node n).list)
  | fetched {c : Nodes} (n : ℕ) {id : Uuid} {rest : List Uuid} {delta : WalDelta} :
      (c.node n).follower.inFlight = none → (c.node n).follower.listed = id :: rest →
      (c.node n).fetch (c.node (leader n)) id = .ok delta →
      NodesStep text K k p leader [] c
        (c.update n ((c.node n).advance rest (some (id, delta.records))))
  | fetchFailed {c : Nodes} (n : ℕ) {id : Uuid} {rest : List Uuid} :
      (c.node n).follower.inFlight = none → (c.node n).follower.listed = id :: rest →
      NodesStep text K k p leader [] c (c.update n ((c.node n).advance rest none))
  | apply {c : Nodes} (n : ℕ) {id : Uuid} {entry : WalDeltaRecord} {rest : List WalDeltaRecord} :
      (c.node n).follower.inFlight = some (id, entry :: rest) →
      NodesStep text K k p leader [] c (c.update n ((c.node n).applyEntry id entry rest))
  | applied {c : Nodes} (n : ℕ) {id : Uuid} :
      (c.node n).follower.inFlight = some (id, []) →
      NodesStep text K k p leader [] c
        (c.update n ((c.node n).advance (c.node n).follower.listed none))

section Draws

variable {text : UuidText} {K : Kernels} {k : SnapshotCodec}
  {p : EngineSnapshotProvider Server.Engine} {leader : ℕ → ℕ}

theorem isSome_rows_of_step {s s' : Store} {req : Request}
    {reply : Except Server.EngineError Reply} (h : Store.Step text s req reply s') {id : Uuid}
    (hid : (s'.rows id).isSome) : (s.rows id).isSome ∨ draws req = some id := by
  cases h with
  | created hkey hrows hres hname =>
      change (Function.update s.rows _ _ id).isSome at hid
      rw [Function.update_apply] at hid
      split at hid
      · rename_i heq
        exact .inr (congrArg some heq.symm)
      · exact .inl hid
  | dropped hids hres hname =>
      change (Function.update s.rows _ none id).isSome at hid
      rw [Function.update_apply] at hid
      split at hid
      · cases hid
      · exact .inl hid
  | droppedHere hids =>
      change (Function.update s.rows _ none id).isSome at hid
      rw [Function.update_apply] at hid
      split at hid
      · cases hid
      · exact .inl hid
  | answered _ hrows | unindexed _ hrows =>
      change (Function.update s.rows _ _ id).isSome at hid
      rw [Function.update_apply] at hid
      split at hid
      · rename_i heq
        subst heq
        rw [hrows]
        exact .inl rfl
      · exact .inl hid
  | existing hkey hids hres hname => exact .inl hid
  | found hids hres hname => exact .inl hid
  | listed hnodup hiff => exact .inl hid
  | restarted => exact .inl hid
  | rejected hclean hmiss hlookup => exact .inl hid

theorem isSome_rows {e : Server.Engine} {id : Uuid} :
    (e.store.rows id).isSome ↔ id ∈ e.collections := by
  show ((e.collections.lookup id).map _).isSome ↔ _
  rw [Option.isSome_map]
  exact AList.lookup_isSome

theorem engine_request (node : Node) (req : Request) :
    (node.request text K req).engine = final (req.handle text K node.engine) := by
  cases req <;> rfl

theorem keeps_installEngine (data : List UInt8) :
    Keeps (fun s : ClusterStateMachine Server.Engine => s.engine = none) (fun _ => True)
      (installEngine p data) := by
  unfold installEngine
  split
  · refine Keeps.get_bind ?_
    intro s hs
    rw [hs]
    exact Keeps.pure ()
  · exact Keeps.pure ()

theorem engine_installSnapshot {s : ClusterStateMachine Server.Engine} (hs : s.engine = none)
    (snapshotMeta : SnapshotMeta) (data : List UInt8) :
    (final (Cluster.installSnapshot k p snapshotMeta data s)).engine = none := by
  have hkeeps : Keeps (fun s : ClusterStateMachine Server.Engine => s.engine = none)
      (fun _ => True) (Cluster.installSnapshot k p snapshotMeta data) := by
    unfold Cluster.installSnapshot
    split
    · exact Keeps.pure ()
    · refine Keeps.bind ?_ fun _ => Keeps.bind (keeps_installEngine data) fun _ => ?_
      · unfold installCluster
        split
        · split
          · exact Keeps.throw trivial
          · exact Keeps.modify fun _ h => h
        · exact Keeps.pure ()
      · exact Keeps.modify fun _ h => h
  exact (hkeeps.ends.final hs).elim id id

theorem mem_collections_of_listed {e : Server.Engine} (h : Served e) {id : Uuid}
    {tenant database : String}
    (hid : id ∈ (e.listCollections tenant database).map fun record => record.config.id) :
    id ∈ e.collections := by
  obtain ⟨record, hrecord, rfl⟩ := List.mem_map.mp hid
  have hlists : e.catalog.Lists record.config.id := ⟨record, (List.mem_filter.mp hrecord).1, rfl⟩
  exact (h.inStep _).mp (h.keyed.lists_iff.mp hlists)

theorem mem_collections_of_walDelta {e : Server.Engine} {id : Uuid} {fromSeq : ℕ} {delta : WalDelta}
    (h : e.walDelta id fromSeq = .ok delta) : id ∈ e.collections := by
  cases hcoll : e.collections.lookup id with
  | some coll => exact AList.lookup_isSome.mp (hcoll ▸ rfl)
  | none =>
      rw [Server.Engine.walDelta, Server.Engine.collection, hcoll] at h
      cases h

/-- The node is a store of its own that only holds what it drew itself. Its task never
gets a delta, its Raft state machine never gets an engine. -/
structure Alone (text : UuidText) (drawn : Uuid → Option ℕ) (log : List Exchange) (n : ℕ)
    (node : Node) : Prop where
  served : Served node.engine
  run : Store.Run text (ofNode log n) node.engine.store
  owns : ∀ id ∈ node.engine.collections, drawn id = some n
  lists : ∀ id ∈ node.follower.listed, drawn id = some n
  idle : node.follower.inFlight = none
  machine : node.machine.engine = none

variable {drawn : Uuid → Option ℕ} {log : List Exchange} {c c' : Nodes} {n : ℕ} {node : Node}

theorem Alone.advance (h : Alone text drawn log n node) {rest : List Uuid}
    (hrest : ∀ id ∈ rest, drawn id = some n) : Alone text drawn log n (node.advance rest none) :=
  ⟨h.served, h.run, h.owns, hrest, rfl, h.machine⟩

theorem ofNode_append (log : List Exchange) (x : Exchange) (n : ℕ) :
    ofNode (log ++ [x]) n = ofNode log n ++ if x.1 = n then [x.2] else [] := by
  rw [ofNode, List.filter_append, List.map_append, ofNode, List.filter_cons, List.filter_nil]
  by_cases hn : x.1 = n
  · rw [if_pos hn, if_pos (decide_eq_true hn)]
    rfl
  · rw [if_neg hn, if_neg (by simpa using hn)]
    rfl

theorem Alone.other (h : Alone text drawn log n node) {drawn' : Uuid → Option ℕ}
    (hdrawn : ∀ id, drawn id = some n → drawn' id = some n) {x : Exchange} (hx : x.1 ≠ n) :
    Alone text drawn' (log ++ [x]) n node := by
  refine ⟨h.served, ?_, ?_, ?_, h.idle, h.machine⟩
  · rw [ofNode_append, if_neg hx, List.append_nil]
    exact h.run
  · exact fun id hid => hdrawn id (h.owns id hid)
  · exact fun id hid => hdrawn id (h.lists id hid)

theorem Alone.request (h : Alone text drawn log n node) {req : Request}
    (hdraws : ∀ id, draws req = some id → drawn id = none)
    (hclean : ∀ err e', req.handle text K node.engine = .error err e' → req.MayMeet err) :
    Alone text (fun id => if draws req = some id then some n else drawn id)
      (log ++ [(n, req, result (req.handle text K node.engine))]) n (node.request text K req) := by
  have hnew : req.Drawn node.engine := by
    cases req with
    | create fault order id tenant database req =>
        show node.engine.catalog.collections.lookup id.toString = none
        rw [← Option.not_isSome_iff_eq_none, h.served.inStep]
        intro hmem
        have hfree := hdraws id rfl
        rw [h.owns id hmem] at hfree
        cases hfree
    | _ => trivial
  obtain ⟨hserved, hstep⟩ := refines_handle h.served hnew hclean
  have hlisted : ∀ id ∈ (node.request text K req).follower.listed,
      id ∈ node.follower.listed := by
    cases req <;> first | exact fun id hid => hid | exact fun id hid => by cases hid
  refine ⟨?_, ?_, ?_, ?_, ?_, ?_⟩
  · rw [engine_request]
    exact hserved
  · rw [ofNode_append, if_pos rfl, engine_request]
    exact h.run.snoc hstep
  · intro id hid
    rw [engine_request, ← isSome_rows] at hid
    rcases isSome_rows_of_step hstep hid with hold | hdrawn
    · split
      · rfl
      · exact h.owns id (isSome_rows.mp hold)
    · exact if_pos hdrawn
  · intro id hid
    split
    · rfl
    · exact h.lists id (hlisted id hid)
  · cases req <;> first | exact h.idle | rfl
  · cases req <;> first | exact h.machine | rfl

/-- All nodes of the cluster are alone. -/
def Apart (text : UuidText) (log : List Exchange) (c : Nodes) : Prop :=
  ∀ n, Alone text c.drawn log n (c.node n)

theorem Apart.update (h : Apart text log c) (hn : Alone text c.drawn log n node) :
    Apart text (log ++ []) (c.update n node) := by
  rw [List.append_nil]
  exact (Function.forall_update_iff c.node fun m node => Alone text c.drawn log m node).mpr
    ⟨hn, fun m _ => h m⟩

theorem Apart.step (hleader : ∀ n, leader n ≠ n) {l : List Exchange}
    (h : Apart text log c) (hstep : NodesStep text K k p leader l c c') :
    Apart text (log ++ l) c' := by
  cases hstep with
  | request n req hdraws hclean =>
      apply (Function.forall_update_iff c.node fun m node => Alone text _ _ m node).mpr
      refine ⟨(h n).request hdraws hclean, ?_⟩
      intro m hm
      refine (h m).other ?_ hm.symm
      intro id hid
      have hother : ¬ draws req = some id := by
        intro hdrawn
        rw [hdraws id hdrawn] at hid
        cases hid
      exact (if_neg hother).trans hid
  | applyLog n entries =>
      exact h.update ⟨(h n).served, (h n).run, (h n).owns, (h n).lists, (h n).idle, (h n).machine⟩
  | installSnapshot n snapshotMeta data =>
      exact h.update ⟨(h n).served, (h n).run, (h n).owns, (h n).lists, (h n).idle,
        engine_installSnapshot (h n).machine _ _⟩
  | list n hlisted hidle =>
      refine h.update ⟨(h n).served, (h n).run, (h n).owns, ?_, (h n).idle, (h n).machine⟩
      intro id hid
      exact (h n).owns id (mem_collections_of_listed (h n).served hid)
  | @fetched _ n id rest delta hidle hlisted hfetch =>
      have hmine : c.drawn id = some n := (h n).lists id (hlisted ▸ List.mem_cons_self)
      have htheirs := (h (leader n)).owns id (mem_collections_of_walDelta hfetch)
      exact absurd (Option.some.inj (htheirs.symm.trans hmine)) (hleader n)
  | @fetchFailed _ n id rest hidle hlisted =>
      refine h.update ((h n).advance ?_)
      intro id' hid
      exact (h n).lists id' (hlisted ▸ List.mem_cons_of_mem id hid)
  | apply n hflight =>
      rw [(h n).idle] at hflight
      cases hflight
  | applied n hflight =>
      rw [(h n).idle] at hflight
      cases hflight

end Draws

end Rekha.Cluster
