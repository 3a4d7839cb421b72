import Mathlib.Data.Finset.Basic
import Mathlib.Data.List.Infix
import Rekha.Lib.Json
import Rekha.Lib.Outcome

/-!
# The Raft administration routes

A removal asks for all other members as voters, whether they vote or are
learners. `keepsVoters_iff` says for every sequence of requests when that leaves
the learners learners: when each removal finds no learner besides the node it
removes.
-/

namespace Rekha.Server

open Outcome

structure Members where
  voters : Finset UInt64
  learners : Finset UInt64
  disjoint : Disjoint voters learners

/-- The two requests to `openraft`, on the membership they find. -/
structure Openraft where
  addLearner (m : Members) (id node : UInt64) (blocking : Bool) : Except String Members
  changeMembership (m : Members) (voters : Finset UInt64) (retain : Bool) : Except String Members

inductive StatusCode where
  | ok
  | badRequest
  | internalServerError
  | serviceUnavailable
deriving DecidableEq

/-- A handler; the membership is the one that the metrics report. -/
abbrev RaftM := EStateM StatusCode Members

/-- A request to `openraft`: an error leaves the membership as it is. -/
def request (change : Members → Except String Members) : RaftM StatusCode := fun m =>
  match change m with
  | .ok m' => .ok .ok m'
  | .error _ => .error .internalServerError m

/-- The state's `raft`, and the `node_id` of the body. -/
def raftRequest (raft : Option Openraft) (req : Json) : Except StatusCode (Openraft × UInt64) :=
  match raft with
  | none => .error .serviceUnavailable
  | some raft =>
      match (req.index "node_id").asU64 with
      | none => .error .badRequest
      | some nodeId => .ok (raft, nodeId)

def raftAddLearner (raft : Option Openraft) (req : Json) : RaftM StatusCode := do
  let (raft, nodeId) ← Outcome.ofExcept (raftRequest raft req)
  request fun m => raft.addLearner m nodeId nodeId true

/-- The members a removal asks for: voters, then learners, without the node. -/
def newMembers (m : Members) (nodeId : UInt64) : Finset UInt64 :=
  (m.voters ∪ m.learners).filter fun id => id ≠ nodeId

def raftRemoveMember (raft : Option Openraft) (req : Json) : RaftM StatusCode := do
  let (raft, nodeId) ← Outcome.ofExcept (raftRequest raft req)
  let metrics ← get
  if newMembers metrics nodeId = ∅ then throw .badRequest
  else request fun m => raft.changeMembership m (newMembers metrics nodeId) true

/-- `openraft` applies exactly the change it is asked for: a new learner votes
only if it did, and a voter that is voted out stays as a learner. -/
structure Openraft.Exact (raft : Openraft) : Prop where
  addLearner : ∀ {m m' : Members} {id node : UInt64} {blocking : Bool},
    raft.addLearner m id node blocking = .ok m' →
      m'.voters = m.voters ∧ m'.learners = m.learners ∪ ({id} \ m.voters)
  changeMembership : ∀ {m m' : Members} {voters : Finset UInt64},
    raft.changeMembership m voters true = .ok m' →
      m'.voters = voters ∧ m'.learners = (m.voters ∪ m.learners) \ voters

/-! ## Requests -/

inductive AdminRequest where
  | addLearner (req : Json)
  | removeMember (req : Json)

namespace AdminRequest

def handle (raft : Option Openraft) : AdminRequest → RaftM StatusCode
  | .addLearner req => raftAddLearner raft req
  | .removeMember req => raftRemoveMember raft req

def removes : AdminRequest → Option UInt64
  | .addLearner _ => none
  | .removeMember req => (req.index "node_id").asU64

/-- The membership after a request, whatever its status. -/
def after (raft : Option Openraft) (m : Members) (a : AdminRequest) : Members :=
  Outcome.final (a.handle raft m)

end AdminRequest

def Members.afterAll (raft : Option Openraft) (m : Members) (requests : List AdminRequest) :
    Members :=
  requests.foldl (AdminRequest.after raft) m

theorem Members.afterAll_snoc (raft : Option Openraft) (m : Members)
    (requests : List AdminRequest) (a : AdminRequest) :
    m.afterAll raft (requests ++ [a]) = a.after raft (m.afterAll raft requests) :=
  List.foldl_concat ..

/-! ## One request -/

/-- A removal asks for the voters without the node exactly when no other member
is a learner. -/
theorem newMembers_eq_erase_iff (m : Members) (nodeId : UInt64) :
    newMembers m nodeId = m.voters.erase nodeId ↔ m.learners ⊆ {nodeId} := by
  constructor
  · intro h id hid
    rw [Finset.mem_singleton]
    by_contra hne
    have hmem : id ∈ newMembers m nodeId :=
      Finset.mem_filter.mpr ⟨Finset.mem_union_right m.voters hid, hne⟩
    rw [h] at hmem
    exact Finset.disjoint_left.mp m.disjoint (Finset.mem_of_mem_erase hmem) hid
  · intro h
    ext id
    rw [newMembers, Finset.mem_filter, Finset.mem_union, Finset.mem_erase]
    constructor
    · rintro ⟨hvoter | hlearner, hne⟩
      · exact ⟨hne, hvoter⟩
      · exact absurd (Finset.mem_singleton.mp (h hlearner)) hne
    · rintro ⟨hne, hvoter⟩
      exact ⟨Or.inl hvoter, hne⟩

section Requests

variable {raft : Openraft} {req : Json}

theorem final_request (change : Members → Except String Members) (m : Members) :
    final (request change m) = m ∨
      ∃ m', change m = .ok m' ∧ final (request change m) = m' := by
  rw [request]
  cases change m with
  | ok m' => exact Or.inr ⟨m', rfl, rfl⟩
  | error e => exact Or.inl rfl

theorem raftRequest_none (hid : (req.index "node_id").asU64 = none) (m : Members) :
    (Outcome.ofExcept (raftRequest raft req) : RaftM _) m = .error .badRequest m := by
  unfold raftRequest
  rw [hid]
  rfl

theorem raftRequest_some {nodeId : UInt64} (hid : (req.index "node_id").asU64 = some nodeId)
    (m : Members) :
    (Outcome.ofExcept (raftRequest raft req) : RaftM _) m = .ok (raft, nodeId) m := by
  unfold raftRequest
  rw [hid]
  rfl

theorem AdminRequest.after_cases (h : raft.Exact) (m : Members) (a : AdminRequest) :
    (a.after raft m).voters = m.voters ∨
      ∃ nodeId, a.removes = some nodeId ∧ (a.after raft m).voters = newMembers m nodeId := by
  cases a with
  | addLearner req =>
      refine Or.inl ?_
      show (final (raftAddLearner raft req m)).voters = m.voters
      cases hid : (req.index "node_id").asU64 with
      | none =>
          rw [raftAddLearner, bind_of_error (raftRequest_none hid m)]
          rfl
      | some nodeId =>
          rw [raftAddLearner, bind_of_ok (raftRequest_some hid m)]
          dsimp only
          rcases final_request (fun m => raft.addLearner m nodeId nodeId true) m with
            hfinal | ⟨m', hchange, hfinal⟩
          · rw [hfinal]
          · rw [hfinal]
            exact (h.addLearner hchange).1
  | removeMember req =>
      show (final (raftRemoveMember raft req m)).voters = m.voters ∨ ∃ nodeId,
        (req.index "node_id").asU64 = some nodeId ∧
          (final (raftRemoveMember raft req m)).voters = newMembers m nodeId
      cases hid : (req.index "node_id").asU64 with
      | none =>
          rw [raftRemoveMember, bind_of_error (raftRequest_none hid m)]
          exact Or.inl rfl
      | some nodeId =>
          rw [raftRemoveMember, bind_of_ok (raftRequest_some hid m)]
          dsimp only
          rw [bind_of_ok (rfl : (get : RaftM Members) m = .ok m m)]
          split
          · exact Or.inl rfl
          · rcases final_request (fun m' => raft.changeMembership m' (newMembers m nodeId) true) m
              with hfinal | ⟨m', hchange, hfinal⟩
            · rw [hfinal]
              exact Or.inl rfl
            · rw [hfinal]
              exact Or.inr ⟨nodeId, rfl, (h.changeMembership hchange).1⟩

end Requests

/-! ## Sequences of requests -/

/-- Along the requests every removal asks for the voters without its node, no
learner becomes a voter, and all voters voted at the start. -/
structure KeepsVoters (raft : Openraft) (m : Members) (requests : List AdminRequest) : Prop where
  asks : ∀ pre a nodeId, pre ++ [a] <+: requests → a.removes = some nodeId →
    newMembers (m.afterAll raft pre) nodeId = (m.afterAll raft pre).voters.erase nodeId
  learners : ∀ pre a, pre ++ [a] <+: requests →
    Disjoint (m.afterAll raft pre).learners (m.afterAll raft (pre ++ [a])).voters
  voters : ∀ pre, pre <+: requests → (m.afterAll raft pre).voters ⊆ m.voters

theorem AdminRequest.voters_after {raft : Openraft} (h : raft.Exact) {m : Members}
    {a : AdminRequest} (hlearners : ∀ nodeId, a.removes = some nodeId → m.learners ⊆ {nodeId}) :
    (a.after raft m).voters ⊆ m.voters := by
  rcases after_cases h m a with hsame | ⟨nodeId, hremoves, hasked⟩
  · exact hsame.subset
  · rw [hasked, (newMembers_eq_erase_iff m nodeId).mpr (hlearners nodeId hremoves)]
    exact Finset.erase_subset nodeId m.voters

/-- Sequences of requests keep the voters exactly when every removal finds no
learner besides the node it removes. -/
theorem keepsVoters_iff (raft : Openraft) (h : raft.Exact) (m : Members)
    (requests : List AdminRequest) :
    KeepsVoters raft m requests ↔ ∀ pre a nodeId, pre ++ [a] <+: requests →
      a.removes = some nodeId → (m.afterAll raft pre).learners ⊆ {nodeId} := by
  constructor
  · intro hkeeps pre a nodeId hpre hremoves
    exact (newMembers_eq_erase_iff _ _).mp (hkeeps.asks pre a nodeId hpre hremoves)
  · intro hlearners
    have hstep : ∀ pre a, pre ++ [a] <+: requests →
        (m.afterAll raft (pre ++ [a])).voters ⊆ (m.afterAll raft pre).voters := by
      intro pre a hpre
      rw [Members.afterAll_snoc]
      exact AdminRequest.voters_after h fun nodeId => hlearners pre a nodeId hpre
    refine ⟨?_, ?_, ?_⟩
    · intro pre a nodeId hpre hremoves
      exact (newMembers_eq_erase_iff _ _).mpr (hlearners pre a nodeId hpre hremoves)
    · intro pre a hpre
      exact (m.afterAll raft pre).disjoint.symm.mono_right (hstep pre a hpre)
    · intro pre hpre
      induction pre using List.reverseRecOn with
      | nil => exact Finset.Subset.refl m.voters
      | append_singleton pre a ih =>
          exact (hstep pre a hpre).trans (ih ((List.prefix_append pre [a]).trans hpre))

/-! ## A learner that is promoted -/

/-- A cluster that applies every change to members it knows. -/
def obedient : Openraft where
  addLearner m id _ _ := .ok ⟨m.voters, m.learners ∪ ({id} \ m.voters), by
    rw [Finset.disjoint_union_right]
    exact ⟨m.disjoint, Finset.disjoint_sdiff⟩⟩
  changeMembership m voters retain :=
    if voters ⊆ m.voters ∪ m.learners then
      .ok ⟨voters, (if retain then m.voters ∪ m.learners else m.learners) \ voters,
        Finset.disjoint_sdiff⟩
    else .error "learner not found"

theorem exact_obedient : obedient.Exact where
  addLearner h := by
    cases h
    exact ⟨rfl, rfl⟩
  changeMembership {m m' voters} h := by
    rw [obedient] at h
    dsimp only at h
    split at h
    · cases h
      exact ⟨rfl, rfl⟩
    · cases h

def naming (nodeId : UInt64) : Json := .object [("node_id", .number (.posInt nodeId))]

/-- Removing a voter makes the learner vote, and so does removing a second voter
with the first. -/
theorem learner_promoted :
    ¬ KeepsVoters obedient ⟨{1, 2}, {3}, by decide⟩ [.removeMember (naming 2)] ∧
    ¬ KeepsVoters obedient ⟨{1, 2, 3}, ∅, by decide⟩
      [.removeMember (naming 3), .removeMember (naming 2)] := by
  refine ⟨fun h => ?_, fun h => ?_⟩
  · have hvoters := h.voters _ List.prefix_rfl
    exact absurd hvoters (by decide +kernel)
  · have hlearners := h.learners [.removeMember (naming 3)] _ List.prefix_rfl
    exact absurd hlearners (by decide +kernel)

theorem keepsVoters_demo :
    let m : Members := ⟨{1, 2}, ∅, by decide⟩
    let requests : List AdminRequest := [.removeMember (naming 2), .addLearner (naming 3)]
    KeepsVoters obedient m requests ↔ ∀ pre a nodeId, pre ++ [a] <+: requests →
      a.removes = some nodeId → (m.afterAll obedient pre).learners ⊆ {nodeId} :=
  keepsVoters_iff obedient exact_obedient _ _

end Rekha.Server
