import Rekha.Engine.Commute
import Rekha.Engine.Rejected

/-!
# What is accepted in any order

Below the checkpoint threshold a write call is accepted when its checks pass and
its operations fit the framing of the log, and the checks look at the live ones
among its own ids. A client is therefore accepted or rejected by what it wrote
itself, whatever a client on other ids does in between
(`disjoint_writes_accepted`).
-/

namespace Rekha

open Trace Interleaving Outcome Collection

/-! ## What a call is accepted on -/

def Call.validate (a : Call) (c : Collection) : Except EngineError Unit :=
  match a with
  | .add _ ids es ms ds => c.validateAdd ids es ms ds
  | .upsert _ ids es ms ds => c.validateUpsert ids es ms ds
  | .update ids ms ds => c.validateUpdate ids ms ds
  | _ => .ok ()

/-- The call passes its checks, and its operations fit the framing of the log. -/
structure Call.Admitted (a : Call) (c : Collection) : Prop where
  valid : a.validate c = .ok ()
  small : ∀ op ∈ a.ops, op.recordLen ≤ 2 ^ 32 - 1

section Admitted

variable {a : Call} {c c' : Collection} {ops : List Operation} {d : ℕ}

theorem admitted_of_putBatch {p : Bool} {validate : Collection → Except EngineError Unit}
    {es : List Embedding} {u : Unit} (hd : c.config.dimension ≠ 0)
    (h : putBatch p validate es ops c = .ok u c') :
    validate c = .ok () ∧ ∀ op ∈ ops, op.recordLen ≤ 2 ^ 32 - 1 := by
  obtain ⟨o, c₁, c₂, c₃, c₄, hinfer, hvalid, -, hwrite, -, -⟩ := putBatch_ok h
  rcases inferDimension_ok hinfer with ⟨-, rfl⟩ | ⟨e, rest, -, hzero, -, -⟩
  · exact ⟨hvalid, recordLen_of_writeOps hwrite⟩
  · exact absurd hzero hd

theorem Call.admitted_of_run (ha : a.isWrite) (hd : c.config.dimension ≠ 0)
    (hrun : a.run c = .ok c') : a.Admitted c := by
  cases a with
  | add p ids es ms ds =>
      obtain ⟨u, hrun⟩ := accepted_eq_ok.mp hrun
      obtain ⟨hvalid, hsmall⟩ := admitted_of_putBatch hd hrun
      exact ⟨hvalid, hsmall⟩
  | upsert p ids es ms ds =>
      obtain ⟨u, hrun⟩ := accepted_eq_ok.mp hrun
      obtain ⟨hvalid, hsmall⟩ := admitted_of_putBatch hd hrun
      exact ⟨hvalid, hsmall⟩
  | update ids ms ds =>
      obtain ⟨u, hrun⟩ := accepted_eq_ok.mp hrun
      obtain ⟨hvalid, c₁, hwrite, -⟩ := update_ok hrun
      exact ⟨hvalid, recordLen_of_writeOps hwrite⟩
  | delete ids =>
      obtain ⟨u, hrun⟩ := accepted_eq_ok.mp hrun
      obtain ⟨c₁, hwrite, -⟩ := delete_ok hrun
      exact ⟨rfl, recordLen_of_writeOps hwrite⟩
  | flush | checkpoint | optimize | restart => exact ha.elim

theorem succeeds_autoCheckpoint_below
    (hroom : c.wal.lastSeq - c.lastCheckpointSeq < c.config.hnsw.syncThreshold) :
    Succeeds autoCheckpoint c := by
  refine Succeeds.bind rfl ?_
  split
  · exact ⟨_, _, rfl⟩
  · rw [if_neg (not_le.mpr hroom)]
    exact ⟨_, _, rfl⟩

theorem Collection.Fits.succeeds_putBatch {p : Bool}
    {validate : Collection → Except EngineError Unit} {es : List Embedding} (hd : d ≠ 0)
    (hf : Fits d c) (hvalid : validate c = .ok ()) (hacc : c.Accepts ops)
    (hsmall : ∀ op ∈ ops, op.recordLen ≤ 2 ^ 32 - 1)
    (hroom : c.wal.lastSeq + ops.length - c.lastCheckpointSeq < c.config.hnsw.syncThreshold) :
    Succeeds (putBatch p validate es ops) c := by
  have hinfer : inferDimension es c = .ok none c := by
    obtain ⟨o, hrun⟩ := inferDimension_run es c
    rcases inferDimension_ok hrun with ⟨rfl, heq⟩ | ⟨e, rest, -, hzero, -, -⟩
    · rw [hrun, heq]
    · exact absurd (hf.config.symm.trans hzero) hd
  obtain ⟨u₁, c₁, hwrite⟩ := succeeds_writeOps hsmall c
  have hf₁ : Fits d c₁ := hf.commit hd hacc hwrite
  obtain ⟨c₂, hflush⟩ := flushIfNeeded_succeeds hf₁.wf fun r hr e he =>
    (hf₁.buffer r hr e he).trans hf₁.dimension.symm
  have hsteps : Run (StepIn Phase.isUnchecked) c ops c₂ := by
    have hcommit : Run (StepIn Phase.isUnchecked) c ops c₁ :=
      Run.single ⟨_, by simp [Phase.isUnchecked], Step.commit hacc hwrite⟩
    have hend := hcommit.trans (run_flushIfNeeded hflush (by simp [Phase.isUnchecked]))
    rwa [List.append_nil] at hend
  have he := appended_run hsteps
  rw [← he.lastSeq, ← he.lastCheckpointSeq, ← he.hnsw] at hroom
  have hchecked : (Outcome.ofExcept (validate c) : EngineM Unit) c = .ok () c :=
    ofExcept_ok.mpr ⟨hvalid, rfl⟩
  refine Succeeds.bind hinfer (Succeeds.bind rfl (Succeeds.bind hchecked (Succeeds.bind rfl ?_)))
  exact Succeeds.bind hwrite (Succeeds.bind hflush (succeeds_autoCheckpoint_below hroom))

theorem Call.run_of_admitted (ha : a.isWrite) (hd : d ≠ 0) (hf : Fits d c) (h : a.Admitted c)
    (hroom : c.wal.lastSeq + a.ops.length - c.lastCheckpointSeq < c.config.hnsw.syncThreshold) :
    ∃ c', a.run c = .ok c' := by
  have hcommit : ∀ c₁, c.Accepts a.ops → writeOps a.ops c = .ok () c₁ →
      Succeeds autoCheckpoint c₁ := by
    intro c₁ hacc hwrite
    have hstep : Run (StepIn Phase.isUnchecked) c a.ops c₁ :=
      Run.single ⟨_, by simp [Phase.isUnchecked], Step.commit hacc hwrite⟩
    have he := appended_run hstep
    rw [← he.lastSeq, ← he.lastCheckpointSeq, ← he.hnsw] at hroom
    exact succeeds_autoCheckpoint_below hroom
  obtain ⟨u₁, c₁, hwrite⟩ := succeeds_writeOps h.small c
  cases a with
  | add p ids es ms ds =>
      have hacc : c.Accepts (addOps ids es ms ds) := accepts_addOps h.valid
      have hput : Succeeds (Rekha.add p ids es ms ds) c :=
        hf.succeeds_putBatch hd h.valid hacc h.small hroom
      obtain ⟨u, c', hrun⟩ := hput
      exact ⟨c', accepted_eq_ok.mpr ⟨u, hrun⟩⟩
  | upsert p ids es ms ds =>
      have hacc : c.Accepts (upsertOps ids es ms ds) := accepts_upsertOps h.valid
      have hput : Succeeds (Rekha.upsert p ids es ms ds) c :=
        hf.succeeds_putBatch hd h.valid hacc h.small hroom
      obtain ⟨u, c', hrun⟩ := hput
      exact ⟨c', accepted_eq_ok.mpr ⟨u, hrun⟩⟩
  | update ids ms ds =>
      have hauto := hcommit c₁ (accepts_updateOps h.valid) hwrite
      have hrun : Succeeds (Rekha.update ids ms ds) c :=
        Succeeds.bind rfl (Succeeds.bind (ofExcept_ok.mpr ⟨h.valid, rfl⟩)
          (Succeeds.bind hwrite hauto))
      obtain ⟨u, c', hrun⟩ := hrun
      exact ⟨c', accepted_eq_ok.mpr ⟨u, hrun⟩⟩
  | delete ids =>
      have hrun : Succeeds (Rekha.delete ids) c :=
        Succeeds.bind hwrite (hcommit c₁ (accepts_delete c ids) hwrite)
      obtain ⟨u, c', hrun⟩ := hrun
      exact ⟨c', accepted_eq_ok.mpr ⟨u, hrun⟩⟩
  | flush | checkpoint | optimize | restart => exact ha.elim

theorem checkNewIds_congr {records records' : FinMap Id Record} {ids : List Id}
    (hlive : ∀ id ∈ ids, (records.lookup id).isSome = (records'.lookup id).isSome)
    (seen : List Id) : checkNewIds records seen ids = checkNewIds records' seen ids := by
  induction ids generalizing seen with
  | nil => rfl
  | cons id ids ih =>
      obtain ⟨hid, hids⟩ := List.forall_mem_cons.mp hlive
      rw [checkNewIds, checkNewIds, hid, ih hids]

theorem checkKnownIds_congr {records records' : FinMap Id Record} {ids : List Id}
    (hlive : ∀ id ∈ ids, (records.lookup id).isSome = (records'.lookup id).isSome) :
    checkKnownIds records ids = checkKnownIds records' ids := by
  induction ids with
  | nil => rfl
  | cons id ids ih =>
      obtain ⟨hid, hids⟩ := List.forall_mem_cons.mp hlive
      rw [checkKnownIds, checkKnownIds, hid, ih hids]

theorem exists_putOp {mk : Id → Embedding → Option Metadata → Option Document → Operation}
    (hmk : ∀ id e md doc, (mk id e md doc).id = id) {ids : List Id} {es : List Embedding}
    {ms : Option (List (Option Metadata))} {ds : Option (List (Option Document))} {id : Id}
    (hid : id ∈ ids) : ∃ op ∈ putOps mk ids es ms ds, op.id = id := by
  obtain ⟨i, hi⟩ := List.mem_iff_getElem?.mp hid
  refine ⟨_, List.mem_map.mpr ⟨(id, i), List.mem_zipIdx_iff_getElem?.mpr hi, rfl⟩, ?_⟩
  exact hmk _ _ _ _

theorem Call.validate_congr (hdim : c.config.dimension = c'.config.dimension)
    (hlive : ∀ op ∈ a.ops, (c.records.lookup op.id).isSome = (c'.records.lookup op.id).isSome) :
    a.validate c = a.validate c' := by
  cases a with
  | add p ids es ms ds =>
      have hids : ∀ id ∈ ids, (c.records.lookup id).isSome = (c'.records.lookup id).isSome := by
        intro id hid
        have hmk : ∀ id e md doc, (Operation.add id e md doc).id = id := fun _ _ _ _ => rfl
        obtain ⟨op, hop, rfl⟩ := exists_putOp hmk hid
        exact hlive op hop
      simp only [validate, validateAdd, checkCounts, hdim, checkNewIds_congr hids]
  | upsert p ids es ms ds => simp only [validate, validateUpsert, checkCounts, hdim]
  | update ids ms ds =>
      have hids : ∀ id ∈ ids, (c.records.lookup id).isSome = (c'.records.lookup id).isSome := by
        intro id hid
        obtain ⟨i, hi⟩ := List.mem_iff_getElem?.mp hid
        have hop : Operation.update id (nthOpt ms i) (nthOpt ds i) ∈ updateOps ids ms ds :=
          List.mem_map.mpr ⟨(id, i), List.mem_zipIdx_iff_getElem?.mpr hi, rfl⟩
        exact hlive _ hop
      simp only [validate, validateUpdate, checkKnownIds_congr hids]
  | _ => rfl

theorem Call.Admitted.of_holding (h : a.Admitted c)
    (hdim : c.config.dimension = c'.config.dimension)
    (hsame : ∀ op ∈ a.ops, c.holding op.id = c'.holding op.id) : a.Admitted c' := by
  refine ⟨?_, h.small⟩
  rw [← h.valid]
  refine (Call.validate_congr hdim fun op hop => ?_).symm
  have hrecord := congrArg (fun holding => holding.record.isSome) (hsame op hop)
  simpa only [holding, Option.isSome_map] using hrecord

end Admitted

/-! ## One client among others -/

/-- The calls of one client are admitted one after another where the ids hold `v`. -/
def Admissible (d : ℕ) : List Call → (Id → Holding) → Prop
  | [], _ => True
  | a :: calls, v =>
      (∃ c, c.config.dimension = d ∧ (∀ op ∈ a.ops, c.holding op.id = v op.id) ∧ a.Admitted c) ∧
        Admissible d calls fun id =>
          register Operation.id Operation.holdingAfter id a.ops (v id)

section Admissible

variable {d : ℕ} {config : CollectionConfig} {h : List Operation} {c₀ c c₁ : Collection}
  {v v' : Id → Holding} {left right calls others : List Call} {a : Call}

theorem Admissible.congr (h : Admissible d calls v)
    (hsame : ∀ op ∈ calls.flatMap Call.ops, v op.id = v' op.id) : Admissible d calls v' := by
  induction calls generalizing v v' with
  | nil => exact trivial
  | cons a calls ih =>
      obtain ⟨⟨c, hdim, hholding, hadm⟩, hrest⟩ := h
      rw [List.flatMap_cons, List.forall_mem_append] at hsame
      refine ⟨⟨c, hdim, ?_, hadm⟩, ih hrest ?_⟩
      · intro op hop
        rw [hholding op hop, hsame.1 op hop]
      · intro op hop
        rw [hsame.2 op hop]

theorem Call.holding_run (hd : config.dimension ≠ 0)
    (hr : Reachable (fun _ => True) config h c₀) (ha : a.isWrite) (hrun : a.run c₀ = .ok c₁)
    (hquiet : c₁.records.size ≠ 0 → ¬ a.CheckpointDue c₀) (id : Id) :
    c₁.holding id = register Operation.id Operation.holdingAfter id a.ops (c₀.holding id) := by
  have hw := (QuietRun.cons ha hrun hquiet (.nil c₁)).written hd hr
  rw [hw.holding, List.flatMap_singleton]

theorem Call.holding_other (hd : config.dimension ≠ 0)
    (hr : Reachable (fun _ => True) config h c₀) (ha : a.isWrite) (hrun : a.run c₀ = .ok c₁)
    (hquiet : c₁.records.size ≠ 0 → ¬ a.CheckpointDue c₀)
    (hapart : ∀ op ∈ a.ops, ∀ op' ∈ others.flatMap Call.ops, op.id ≠ op'.id) :
    ∀ op ∈ others.flatMap Call.ops, c₁.holding op.id = c₀.holding op.id := by
  intro op' hop'
  rw [Call.holding_run hd hr ha hrun hquiet]
  exact register_of_ne (fun op hop => hapart op hop op' hop') _

theorem Admissible.before (hd : config.dimension ≠ 0)
    (hr : Reachable (fun _ => True) config h c₀) (ha : a.isWrite) (hrun : a.run c₀ = .ok c₁)
    (hquiet : c₁.records.size ≠ 0 → ¬ a.CheckpointDue c₀)
    (hapart : ∀ op ∈ a.ops, ∀ op' ∈ others.flatMap Call.ops, op.id ≠ op'.id)
    (hown : Admissible config.dimension calls c₁.holding)
    (hothers : Admissible config.dimension others c₁.holding) :
    Admissible config.dimension (a :: calls) c₀.holding ∧
      Admissible config.dimension others c₀.holding := by
  have hdim := (hr.fits hd).config
  have hadm := Call.admitted_of_run ha (hdim ▸ hd) hrun
  refine ⟨⟨⟨c₀, hdim, fun _ _ => rfl, hadm⟩, hown.congr fun op _ => ?_⟩, ?_⟩
  · exact Call.holding_run hd hr ha hrun hquiet op.id
  · exact hothers.congr (Call.holding_other hd hr ha hrun hquiet hapart)

theorem Admissible.turn (hd : config.dimension ≠ 0) (hr : Reachable (fun _ => True) config h c₀)
    (ha : a.isWrite) (hapart : ∀ op ∈ a.ops, ∀ op' ∈ others.flatMap Call.ops, op.id ≠ op'.id)
    (hroom : c₀.wal.lastSeq + a.ops.length - c₀.lastCheckpointSeq <
      c₀.config.hnsw.syncThreshold)
    (hown : Admissible config.dimension (a :: calls) c₀.holding)
    (hothers : Admissible config.dimension others c₀.holding) :
    ∃ c₁, a.run c₀ = .ok c₁ ∧ Appended a.ops c₀ c₁ ∧
      Admissible config.dimension calls c₁.holding ∧
      Admissible config.dimension others c₁.holding := by
  obtain ⟨⟨c, hdim, hsame, hadmitted⟩, hrest⟩ := hown
  have hf := hr.fits hd
  have hquiet : ¬ a.CheckpointDue c₀ := not_le.mpr hroom
  obtain ⟨c₁, hrun⟩ := Call.run_of_admitted ha hd hf
    (hadmitted.of_holding (hdim.trans hf.config.symm) hsame) hroom
  refine ⟨c₁, hrun, appended_run (Call.run_quiet ha hrun fun _ => hquiet), ?_, ?_⟩
  · exact hrest.congr fun op _ => (Call.holding_run hd hr ha hrun (fun _ => hquiet) op.id).symm
  · have hother := Call.holding_other hd hr ha hrun (fun _ => hquiet) hapart
    exact hothers.congr fun op hop => (hother op hop).symm

theorem QuietRun.admissible (hd : config.dimension ≠ 0) (hcalls : Interleaved left right calls)
    (hr : Reachable (fun _ => True) config h c₀)
    (hapart : ∀ op ∈ left.flatMap Call.ops, ∀ op' ∈ right.flatMap Call.ops, op.id ≠ op'.id)
    (hrun : QuietRun calls c₀ c) : Admissible config.dimension left c₀.holding ∧
      Admissible config.dimension right c₀.holding := by
  induction hcalls generalizing h c₀ with
  | nil => exact ⟨trivial, trivial⟩
  | @left a left right calls _ ih =>
      cases hrun with
      | cons ha hcall hquiet hrest =>
          rw [List.flatMap_cons, List.forall_mem_append] at hapart
          obtain ⟨hleft, hright⟩ := ih (Reachable.call a hr trivial hcall) hapart.2 hrest
          exact hleft.before hd hr ha hcall hquiet hapart.1 hright
  | @right a left right calls _ ih =>
      cases hrun with
      | cons ha hcall hquiet hrest =>
          simp only [List.flatMap_cons, List.forall_mem_append, forall_and] at hapart
          obtain ⟨hleft, hright⟩ := ih (Reachable.call a hr trivial hcall) hapart.2 hrest
          have hturn := hright.before hd hr ha hcall hquiet
            (fun op hop op' hop' => (hapart.1 op' hop' op hop).symm) hleft
          exact hturn.symm

theorem exists_runAll_of_admissible (hd : config.dimension ≠ 0)
    (hcalls : Interleaved left right calls) (hr : Reachable (fun _ => True) config h c₀)
    (hapart : ∀ op ∈ left.flatMap Call.ops, ∀ op' ∈ right.flatMap Call.ops, op.id ≠ op'.id)
    (hall : ∀ a ∈ calls, a.isWrite) (hleft : Admissible config.dimension left c₀.holding)
    (hright : Admissible config.dimension right c₀.holding)
    (hroom : c₀.wal.lastSeq + (calls.flatMap Call.ops).length - c₀.lastCheckpointSeq <
      c₀.config.hnsw.syncThreshold) : ∃ c, runAll calls c₀ = .ok c := by
  induction hcalls generalizing h c₀ with
  | nil => exact ⟨c₀, rfl⟩
  | @left a left right calls _ ih =>
      obtain ⟨ha, hall⟩ := List.forall_mem_cons.mp hall
      rw [List.flatMap_cons, List.length_append] at hroom
      rw [List.flatMap_cons, List.forall_mem_append] at hapart
      obtain ⟨c₁, hrun, he, hleft, hright⟩ :=
        Admissible.turn hd hr ha hapart.1 (by omega) hleft hright
      rw [runAll, hrun]
      apply ih (Reachable.call a hr trivial hrun) hapart.2 hall hleft hright
      rw [he.lastSeq, he.lastCheckpointSeq, he.hnsw]
      omega
  | @right a left right calls _ ih =>
      obtain ⟨ha, hall⟩ := List.forall_mem_cons.mp hall
      rw [List.flatMap_cons, List.length_append] at hroom
      simp only [List.flatMap_cons, List.forall_mem_append, forall_and] at hapart
      obtain ⟨c₁, hrun, he, hright, hleft⟩ := Admissible.turn hd hr ha
        (fun op hop op' hop' => (hapart.1 op' hop' op hop).symm) (by omega) hright hleft
      rw [runAll, hrun]
      apply ih (Reachable.call a hr trivial hrun) hapart.2 hall hleft hright
      rw [he.lastSeq, he.lastCheckpointSeq, he.hnsw]
      omega

end Admissible

/-- **The order does not decide what is accepted.** Where one interleaving of two
clients on different ids runs, so does every other that stays below the checkpoint
threshold. -/
theorem disjoint_writes_accepted {config : CollectionConfig} {h : List Operation}
    {c₀ c : Collection} {left right calls calls' : List Call} (hd : config.dimension ≠ 0)
    (hr : Reachable (fun _ => True) config h c₀)
    (hapart : ∀ op ∈ left.flatMap Call.ops, ∀ op' ∈ right.flatMap Call.ops, op.id ≠ op'.id)
    (hcalls : Interleaved left right calls) (hcalls' : Interleaved left right calls')
    (hrun : QuietRun calls c₀ c)
    (hroom : c₀.wal.lastSeq + (calls.flatMap Call.ops).length - c₀.lastCheckpointSeq <
      c₀.config.hnsw.syncThreshold) : ∃ c', QuietRun calls' c₀ c' := by
  obtain ⟨hleft, hright⟩ := hrun.admissible hd hcalls hr hapart
  have hall : ∀ a ∈ calls', a.isWrite := by
    intro a ha
    rw [hcalls'.mem_iff, ← hcalls.mem_iff] at ha
    exact hrun.isWrite a ha
  rw [hcalls.length_flatMap, ← hcalls'.length_flatMap] at hroom
  obtain ⟨c', hrun'⟩ := exists_runAll_of_admissible hd hcalls' hr hapart hall hleft hright hroom
  exact ⟨c', .of_runAll hall hrun' hroom⟩

end Rekha
