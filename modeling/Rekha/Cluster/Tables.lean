import Mathlib.Data.List.Induction
import Rekha.Cluster.AppliedLog
import Rekha.Lib.LastWrite

/-!
# The tables after a log

What the state machine holds is read off the log: every node under the address it
was last added with, every collection with the owners it was last added with, and
as leader the node that leadership was last transferred to, unless the node came
later. In whatever batches the log is applied (`tables_after_log`).
-/

namespace Rekha.Cluster

open LastWrite

/-! ## What an entry writes -/

namespace Entry

def operation (entry : Entry) : Option ClusterOperation :=
  match entry.payload with
  | .normal op => some op
  | .membership _ | .blank => none

/-- The address of a node, `none` for a node that is not there. -/
def address (n : ℕ) (entry : Entry) : Option (Option String) :=
  match entry.operation with
  | some (.addNode nodeId addr) => if n = nodeId then some (some addr) else none
  | some (.removeNode nodeId) => if n = nodeId then some none else none
  | _ => none

/-- Whether a node leads. A node that is added does not. -/
def leads (n : ℕ) (entry : Entry) : Option Bool :=
  match entry.operation with
  | some (.addNode nodeId _) => if n = nodeId then some false else none
  | some (.transferLeadership newLeader) => some (decide (n = newLeader))
  | _ => none

def leader (entry : Entry) : Option ℕ :=
  match entry.operation with
  | some (.transferLeadership newLeader) => some newLeader
  | _ => none

/-- The owners of a collection, `none` for one that is not there. -/
def owners (id : Uuid) (entry : Entry) : Option (Option (List ℕ)) :=
  match entry.operation with
  | some (.addCollection collectionId _ _ _ _ _ ownerNodes) =>
      if id = collectionId then some (some ownerNodes) else none
  | some (.removeCollection collectionId) => if id = collectionId then some none else none
  | _ => none

def members (entry : Entry) : Option StoredMembership :=
  match entry.payload with
  | .membership m => some (StoredMembership.new (some entry.logId) m)
  | .normal _ | .blank => none

end Entry

/-! ## The tables of a log -/

def nodeAfter (log : List Entry) (n : ℕ) : Option NodeInfo :=
  ((lastWrite (Entry.address n) log).getD none).map fun addr =>
    ⟨n, addr, (lastWrite (Entry.leads n) log).getD false⟩

/-- What a state machine holds after a log. -/
structure Tabulates (log : List Entry) (d : ClusterData) : Prop where
  nodes : ∀ n, d.nodes.lookup n = nodeAfter log n
  collections : ∀ id, d.collections.lookup id = (lastWrite (Entry.owners id) log).getD none
  position : d.lastApplied = log.getLast?.map Entry.logId
  membership : d.membership = (lastWrite Entry.members log).getD ClusterData.new.membership
  /-- No entry advances a clock. -/
  clocks : d.clockMap = ⟨∅⟩

theorem lastWrite_snoc {α ν : Type} (w : α → Option ν) (l : List α) (a : α) :
    lastWrite w (l ++ [a]) = (w a).or (lastWrite w l) := by
  rw [lastWrite_append, lastWrite_cons, lastWrite_nil, Option.none_or]

theorem tabulates_new : Tabulates [] ClusterData.new where
  nodes _ := rfl
  collections _ := rfl
  position := rfl
  membership := rfl
  clocks := rfl

section Step

variable {log : List Entry} {d : ClusterData}

theorem nodeAfter_snoc_of_keeps {n : ℕ} {entry : Entry} (haddr : entry.address n = none)
    (hleads : entry.leads n = none) : nodeAfter (log ++ [entry]) n = nodeAfter log n := by
  rw [nodeAfter, lastWrite_snoc, lastWrite_snoc, haddr, hleads, Option.none_or, Option.none_or]
  rfl

theorem nodes_applyOperation (hnodes : ∀ n, d.nodes.lookup n = nodeAfter log n) (logId : LogId)
    (op : ClusterOperation) (n : ℕ) :
    (d.applyOperation op).nodes.lookup n = nodeAfter (log ++ [⟨logId, .normal op⟩]) n := by
  cases op with
  | addNode nodeId addr =>
      show (d.nodes.insert nodeId _).lookup n = _
      rw [FinMap.lookup_insert_ite, hnodes]
      by_cases hn : n = nodeId
      · subst hn
        rw [if_pos rfl, nodeAfter, lastWrite_snoc, lastWrite_snoc]
        simp [Entry.address, Entry.leads, Entry.operation]
      · rw [if_neg hn]
        have haddr : Entry.address n ⟨logId, .normal (.addNode nodeId addr)⟩ = none := if_neg hn
        have hleads : Entry.leads n ⟨logId, .normal (.addNode nodeId addr)⟩ = none := if_neg hn
        exact (nodeAfter_snoc_of_keeps haddr hleads).symm
  | removeNode nodeId =>
      show (d.nodes.erase nodeId).lookup n = _
      rw [FinMap.lookup_erase_ite, hnodes]
      by_cases hn : n = nodeId
      · subst hn
        rw [if_pos rfl, nodeAfter, lastWrite_snoc (Entry.address n)]
        simp [Entry.address, Entry.operation]
      · rw [if_neg hn]
        have haddr : Entry.address n ⟨logId, .normal (.removeNode nodeId)⟩ = none := if_neg hn
        exact (nodeAfter_snoc_of_keeps haddr rfl).symm
  | addCollection collectionId name dimension distance tenant database ownerNodes =>
      exact (hnodes n).trans (nodeAfter_snoc_of_keeps rfl rfl).symm
  | removeCollection collectionId => exact (hnodes n).trans (nodeAfter_snoc_of_keeps rfl rfl).symm
  | transferLeadership newLeader =>
      show (FinMap.mapVals _ d.nodes).lookup n = _
      rw [FinMap.lookup_mapVals, hnodes, nodeAfter, nodeAfter, Option.map_map, lastWrite_snoc,
        lastWrite_snoc]
      rfl

theorem collections_applyOperation
    (hcollections : ∀ id, d.collections.lookup id = (lastWrite (Entry.owners id) log).getD none)
    (logId : LogId) (op : ClusterOperation) (id : Uuid) :
    (d.applyOperation op).collections.lookup id =
      (lastWrite (Entry.owners id) (log ++ [⟨logId, .normal op⟩])).getD none := by
  rw [lastWrite_snoc]
  cases op with
  | addNode | removeNode | transferLeadership => exact hcollections id
  | addCollection collectionId name dimension distance tenant database ownerNodes =>
      show (d.collections.insert collectionId ownerNodes).lookup id = _
      rw [FinMap.lookup_insert_ite, hcollections]
      by_cases hid : id = collectionId
      · simp [Entry.owners, Entry.operation, hid]
      · simp [Entry.owners, Entry.operation, hid]
  | removeCollection collectionId =>
      show (d.collections.erase collectionId).lookup id = _
      rw [FinMap.lookup_erase_ite, hcollections]
      by_cases hid : id = collectionId
      · simp [Entry.owners, Entry.operation, hid]
      · simp [Entry.owners, Entry.operation, hid]

theorem applyOperation_rest (d : ClusterData) (op : ClusterOperation) :
    (d.applyOperation op).lastApplied = d.lastApplied ∧
      (d.applyOperation op).membership = d.membership ∧
      (d.applyOperation op).clockMap = d.clockMap := by
  cases op <;> exact ⟨rfl, rfl, rfl⟩

theorem Tabulates.snoc (h : Tabulates log d) (entry : Entry) :
    Tabulates (log ++ [entry]) (d.applyEntry entry) := by
  obtain ⟨hnodes, hcollections, -, hmembership, hclocks⟩ := h
  have hlast : (log ++ [entry]).getLast?.map Entry.logId = some entry.logId := by
    rw [List.getLast?_concat]
    rfl
  obtain ⟨logId, payload⟩ := entry
  cases payload with
  | blank =>
      refine ⟨fun n => ?_, fun id => ?_, hlast.symm, ?_, hclocks⟩
      · exact (hnodes n).trans (nodeAfter_snoc_of_keeps rfl rfl).symm
      · rw [lastWrite_snoc]
        exact hcollections id
      · rw [lastWrite_snoc]
        exact hmembership
  | membership m =>
      refine ⟨fun n => ?_, fun id => ?_, hlast.symm, ?_, hclocks⟩
      · exact (hnodes n).trans (nodeAfter_snoc_of_keeps rfl rfl).symm
      · rw [lastWrite_snoc]
        exact hcollections id
      · rw [lastWrite_snoc]
        rfl
  | normal op =>
      obtain ⟨hposition, hmembers, hclock⟩ :=
        applyOperation_rest { d with lastApplied := some logId } op
      have hmoved := @nodes_applyOperation log { d with lastApplied := some logId } hnodes logId op
      have hheld := @collections_applyOperation log { d with lastApplied := some logId }
        hcollections logId op
      refine ⟨hmoved, hheld, hposition.trans hlast.symm, ?_, hclock.trans hclocks⟩
      rw [lastWrite_snoc]
      exact hmembers.trans hmembership

end Step

theorem tabulates_foldl (log : List Entry) :
    Tabulates log (log.foldl ClusterData.applyEntry ClusterData.new) := by
  induction log using List.reverseRecOn with
  | nil => exact tabulates_new
  | append_singleton log entry ih =>
      rw [List.foldl_append]
      exact ih.snoc entry

/-! ## The leader -/

theorem leader_of_leads {n : ℕ} : ∀ {log : List Entry},
    lastWrite (Entry.leads n) log = some true → lastWrite Entry.leader log = some n
  | [], h => by cases h
  | entry :: log, h => by
      rw [lastWrite_cons, Option.or_eq_some_iff] at h
      rw [lastWrite_cons, Option.or_eq_some_iff]
      rcases h with h | ⟨hnone, h⟩
      · exact Or.inl (leader_of_leads h)
      · have hlater : lastWrite Entry.leader log = none := by
          rw [lastWrite_eq_none_iff] at hnone ⊢
          intro b hb
          have hwrites := hnone b hb
          unfold Entry.leads at hwrites
          unfold Entry.leader
          split at hwrites
          · rename_i hop
            rw [hop]
          · cases hwrites
          · split
            · rename_i hne _ newLeader hop
              exact absurd hop (hne newLeader)
            · rfl
        refine Or.inr ⟨hlater, ?_⟩
        unfold Entry.leads at h
        unfold Entry.leader
        split at h
        · split at h
          · cases h
          · cases h
        · rename_i newLeader hop
          rw [hop]
          exact congrArg some (of_decide_eq_true (Option.some.inj h)).symm
        · cases h

theorem isLeader_nodeAfter {log : List Entry} {n : ℕ} {info : NodeInfo}
    (h : nodeAfter log n = some info) (hleader : info.isLeader = true) :
    info.nodeId = n ∧ lastWrite Entry.leader log = some n := by
  obtain ⟨addr, -, rfl⟩ := Option.map_eq_some_iff.mp h
  refine ⟨rfl, leader_of_leads ?_⟩
  cases hleads : lastWrite (Entry.leads n) log with
  | none =>
      rw [hleads] at hleader
      cases hleader
  | some b =>
      rw [hleads] at hleader
      exact congrArg some hleader

/-- **The tables are those of the log.** In whatever batches a log is applied,
the state is the one read off its entries, and at most one node leads: the one
that leadership was last transferred to. -/
theorem tables_after_log (E : Type) (batches : List (List Entry)) :
    Tabulates batches.flatten
        (batches.foldl ClusterStateMachine.apply ClusterStateMachine.new :
          ClusterStateMachine E).toClusterData ∧
      ∀ n info, (batches.foldl ClusterStateMachine.apply ClusterStateMachine.new :
          ClusterStateMachine E).nodes.lookup n = some info → info.isLeader = true →
        info.nodeId = n ∧ lastWrite Entry.leader batches.flatten = some n := by
  have hfold : ∀ (batches : List (List Entry)) (sm : ClusterStateMachine E),
      (batches.foldl ClusterStateMachine.apply sm).toClusterData =
        batches.flatten.foldl ClusterData.applyEntry sm.toClusterData := by
    intro batches
    induction batches with
    | nil => exact fun _ => rfl
    | cons batch batches ih =>
        intro sm
        rw [List.foldl_cons, ih, List.flatten_cons, List.foldl_append]
        rfl
  have htab : Tabulates batches.flatten (batches.foldl ClusterStateMachine.apply
      ClusterStateMachine.new : ClusterStateMachine E).toClusterData := by
    rw [hfold]
    exact tabulates_foldl batches.flatten
  refine ⟨htab, fun n info h hleader => ?_⟩
  rw [htab.nodes] at h
  exact isLeader_nodeAfter h hleader

end Rekha.Cluster
