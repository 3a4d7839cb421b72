import Rekha.Engine.Spec
import Rekha.Lib.Trace

/-!
# The steps calls are made of

Every accepted call is a sequence of phases: infer and persist a dimension,
commit a validated batch, flush, checkpoint, rebuild the index, restart. An
invariant of a collection is proved one phase at a time (`Run.invariant`) and
then holds of every reachable state (`Reachable.run`).
-/

namespace Rekha

open Collection Trace

def Operation.vector : Operation → Option Embedding
  | .add _ e _ _ | .upsert _ e _ _ => some e
  | .update _ _ _ | .delete _ => none

def Operation.isUpdate : Operation → Prop
  | .update _ _ _ => True
  | _ => False

namespace Collection

/-- What validation established about a batch: its vectors fit the dimension,
and a batch of updates names live ids only. -/
structure Accepts (c : Collection) (ops : List Operation) : Prop where
  fits : ∀ op ∈ ops, ∀ e, op.vector = some e →
    c.config.dimension = 0 ∨ e.length = c.config.dimension
  live : (∀ op ∈ ops, ¬ op.isUpdate) ∨
    ∀ op ∈ ops, op.isUpdate ∧ (c.records.lookup op.id).isSome

end Collection

inductive Phase where
  | infer
  | persist
  | commit
  | flush
  | checkpoint
  | rebuild
  | restart
deriving DecidableEq

/-- One phase of a call, with the operations it acknowledges. -/
inductive Step : Phase → List Operation → Collection → Collection → Prop
  | infer {c : Collection} (dim : ℕ) : c.config.dimension = 0 →
      Step .infer [] c (c.setDimension dim)
  | persist {c : Collection} :
      Step .persist [] c { c with
        catalog := { c.catalog with dimension := c.config.dimension } }
  | commit {c c' : Collection} {ops : List Operation} : c.Accepts ops →
      writeOps ops c = .ok () c' → Step .commit ops c c'
  | flush {c c' : Collection} : flushBuffer c = .ok () c' → Step .flush [] c c'
  | checkpoint {c c' : Collection} : Collection.checkpoint c = .ok () c' →
      Step .checkpoint [] c c'
  | rebuild {c c' : Collection} : rebuildIndex c = .ok () c' → Step .rebuild [] c c'
  | restart {c c' : Collection} (order : HashOrder) :
      reopen c.config c.disk order = .ok c' → Step .restart [] c c'

/-- A step of one of the phases in `ok`. -/
def StepIn (ok : Phase → Prop) (ops : List Operation) (c c' : Collection) : Prop :=
  ∃ p, ok p ∧ Step p ops c c'

def Call.phases : Call → List Phase
  | .add .. | .upsert .. => [.infer, .persist, .commit, .flush, .checkpoint]
  | .update .. | .delete _ => [.commit, .checkpoint]
  | .flush => [.flush]
  | .checkpoint => [.checkpoint]
  | .optimize => [.flush, .rebuild, .checkpoint]
  | .restart _ => [.restart]

/-! ## What validation establishes -/

theorem find?_length_eq_none {es : List Embedding} {d : ℕ}
    (h : es.find? (fun e => decide (e.length ≠ d)) = none) {e : Embedding} (he : e ∈ es) :
    e.length = d := by
  have := List.find?_eq_none.mp h e he
  simpa using this

theorem checkDimensions_ok {op : String} {es : List Embedding} {d : ℕ}
    (h : checkDimensions op es d = .ok ()) {e : Embedding} (he : e ∈ es) :
    d = 0 ∨ e.length = d := by
  rw [checkDimensions] at h
  split at h
  · rename_i hd
    exact Or.inl hd
  · split at h
    · exact absurd h (by simp)
    · rename_i hfind
      exact Or.inr (find?_length_eq_none hfind he)

theorem checkCounts_ok {op : String} {c : Collection} {ids : List Id} {es : List Embedding}
    {ms : Option (List (Option Metadata))} {ds : Option (List (Option Document))}
    (h : checkCounts op c ids es ms ds = .ok ()) :
    ids.length = es.length ∧ checkDimensions op es c.config.dimension = .ok () := by
  simp only [checkCounts, bind, Except.bind, throw, throwThe, MonadExceptOf.throw] at h
  split at h
  · exact absurd h (by simp)
  · rename_i hlen
    split at h
    · exact absurd h (by simp)
    · split at h
      · exact absurd h (by simp)
      · exact ⟨not_not.mp hlen, h⟩

theorem validateAdd_ok {c : Collection} {ids : List Id} {es : List Embedding}
    {ms : Option (List (Option Metadata))} {ds : Option (List (Option Document))}
    (h : c.validateAdd ids es ms ds = .ok ()) :
    checkCounts "add" c ids es ms ds = .ok () ∧ checkNewIds c.records [] ids = .ok () := by
  simp only [validateAdd, bind, Except.bind] at h
  split at h
  · exact absurd h (by simp)
  · rename_i hcounts
    exact ⟨hcounts, h⟩

theorem checkKnownIds_ok {records : FinMap Id Record} : ∀ {ids : List Id},
    checkKnownIds records ids = .ok () → ∀ id ∈ ids, (records.lookup id).isSome
  | [], _, id, hid => absurd hid List.not_mem_nil
  | key :: ids, h, id, hid => by
      rw [checkKnownIds] at h
      split at h
      · rename_i hkey
        rcases List.mem_cons.mp hid with rfl | hid
        · exact hkey
        · exact checkKnownIds_ok h id hid
      · exact absurd h (by simp)

theorem validateUpdate_ok {c : Collection} {ids : List Id}
    {ms : Option (List (Option Metadata))} {ds : Option (List (Option Document))}
    (h : c.validateUpdate ids ms ds = .ok ()) :
    ∀ id ∈ ids, (c.records.lookup id).isSome := by
  simp only [validateUpdate, bind, Except.bind] at h
  split at h
  · exact absurd h (by simp)
  · split at h
    · exact absurd h (by simp)
    · exact checkKnownIds_ok h

theorem mem_putOps {mk : Id → Embedding → Option Metadata → Option Document → Operation}
    {ids : List Id} {es : List Embedding} {ms : Option (List (Option Metadata))}
    {ds : Option (List (Option Document))} (hlen : ids.length = es.length)
    {op : Operation} (hop : op ∈ putOps mk ids es ms ds) :
    ∃ id ∈ ids, ∃ e ∈ es, ∃ md doc, op = mk id e md doc := by
  rw [putOps, List.mem_map] at hop
  obtain ⟨⟨id, i⟩, hmem, rfl⟩ := hop
  obtain ⟨hi, hid⟩ := List.getElem?_eq_some_iff.mp (List.mem_zipIdx_iff_getElem?.mp hmem)
  have hlt : i < es.length := hlen ▸ hi
  refine ⟨id, List.mem_of_getElem hid, es[i], List.getElem_mem hlt, nthOpt ms i,
    nthOpt ds i, ?_⟩
  rw [List.getD_eq_getElem?_getD, List.getElem?_eq_getElem hlt, Option.getD_some]

theorem mem_updateOps {ids : List Id} {ms : Option (List (Option Metadata))}
    {ds : Option (List (Option Document))} {op : Operation} (hop : op ∈ updateOps ids ms ds) :
    ∃ id ∈ ids, ∃ md doc, op = .update id md doc := by
  rw [updateOps, List.mem_map] at hop
  obtain ⟨⟨id, i⟩, hmem, rfl⟩ := hop
  have hid := List.mem_of_getElem? (List.mem_zipIdx_iff_getElem?.mp hmem)
  exact ⟨id, hid, nthOpt ms i, nthOpt ds i, rfl⟩

theorem accepts_putOps {mk : Id → Embedding → Option Metadata → Option Document → Operation}
    (hvec : ∀ id e md doc, (mk id e md doc).vector = some e)
    (hupd : ∀ id e md doc, ¬ (mk id e md doc).isUpdate)
    {op : String} {c : Collection} {ids : List Id} {es : List Embedding}
    {ms : Option (List (Option Metadata))} {ds : Option (List (Option Document))}
    (h : checkCounts op c ids es ms ds = .ok ()) : c.Accepts (putOps mk ids es ms ds) := by
  obtain ⟨hlen, hdim⟩ := checkCounts_ok h
  constructor
  · intro o ho e he
    obtain ⟨id, -, e', he', md, doc, rfl⟩ := mem_putOps hlen ho
    rw [hvec] at he
    obtain rfl := Option.some.inj he
    exact checkDimensions_ok hdim he'
  · refine Or.inl fun o ho => ?_
    obtain ⟨id, -, e, -, md, doc, rfl⟩ := mem_putOps hlen ho
    exact hupd id e md doc

theorem accepts_addOps {c : Collection} {ids : List Id} {es : List Embedding}
    {ms : Option (List (Option Metadata))} {ds : Option (List (Option Document))}
    (h : c.validateAdd ids es ms ds = .ok ()) : c.Accepts (addOps ids es ms ds) :=
  accepts_putOps (fun _ _ _ _ => rfl) (fun _ _ _ _ => id) (validateAdd_ok h).1

theorem accepts_upsertOps {c : Collection} {ids : List Id} {es : List Embedding}
    {ms : Option (List (Option Metadata))} {ds : Option (List (Option Document))}
    (h : c.validateUpsert ids es ms ds = .ok ()) : c.Accepts (upsertOps ids es ms ds) :=
  accepts_putOps (fun _ _ _ _ => rfl) (fun _ _ _ _ => id) h

theorem accepts_updateOps {c : Collection} {ids : List Id}
    {ms : Option (List (Option Metadata))} {ds : Option (List (Option Document))}
    (h : c.validateUpdate ids ms ds = .ok ()) : c.Accepts (updateOps ids ms ds) := by
  constructor
  · intro o ho e he
    obtain ⟨id, -, md, doc, rfl⟩ := mem_updateOps ho
    exact absurd he (by simp [Operation.vector])
  · refine Or.inr fun o ho => ?_
    obtain ⟨id, hid, md, doc, rfl⟩ := mem_updateOps ho
    exact ⟨trivial, validateUpdate_ok h id hid⟩

theorem accepts_delete (c : Collection) (ids : List Id) : c.Accepts (ids.map .delete) := by
  constructor
  · intro o ho e he
    obtain ⟨id, -, rfl⟩ := List.mem_map.mp ho
    exact absurd he (by simp [Operation.vector])
  · refine Or.inl fun o ho => ?_
    obtain ⟨key, -, rfl⟩ := List.mem_map.mp ho
    exact id

/-! ## Calls as runs of steps -/

section Runs

variable {ok : Phase → Prop} {c c' : Collection}

theorem run_flushIfNeeded {u : Unit} (h : flushIfNeeded c = .ok u c') (hok : ok .flush) :
    Run (StepIn ok) c [] c' := by
  rcases flushIfNeeded_ok h with rfl | h
  · exact Run.refl
  · exact Run.single ⟨_, hok, Step.flush h⟩

theorem run_autoCheckpoint {u : Unit} (h : autoCheckpoint c = .ok u c')
    (hok : ok .checkpoint) : Run (StepIn ok) c [] c' := by
  rcases autoCheckpoint_ok h with ⟨-, rfl⟩ | ⟨-, -, h⟩
  · exact Run.refl
  · exact Run.single ⟨_, hok, Step.checkpoint h⟩

theorem run_written {p : Bool} {es : List Embedding} {ops : List Operation} {d : Option ℕ}
    {c₁ c₂ : Collection} (hinfer : inferDimension es c = .ok d c₁) (hacc : c₁.Accepts ops)
    (hpersist : persistDimension p d c₁ = .ok () c₂) (hwrite : writeOps ops c₂ = .ok () c')
    (hok : ∀ q ∈ [Phase.infer, .persist, .commit], ok q) : Run (StepIn ok) c ops c' := by
  simp only [List.forall_mem_cons] at hok
  obtain ⟨hinf, hper, hcom, -⟩ := hok
  have hprep : Run (StepIn ok) c [] c₂ ∧ c₂.Accepts ops := by
    rcases inferDimension_ok hinfer with ⟨rfl, rfl⟩ | ⟨e, rest, -, hzero, rfl, rfl⟩
    · rcases persistDimension_ok hpersist with rfl | ⟨dim, hd, rfl⟩
      · exact ⟨Run.refl, hacc⟩
      · exact absurd hd (by simp)
    · have hrun : Run (StepIn ok) c [] (c.setDimension e.length) :=
        Run.single ⟨_, hinf, Step.infer _ hzero⟩
      rcases persistDimension_ok hpersist with rfl | ⟨dim, hd, rfl⟩
      · exact ⟨hrun, hacc⟩
      · obtain rfl := Option.some.inj hd
        exact ⟨hrun.trans (Run.single ⟨_, hper, Step.persist⟩), ⟨hacc.fits, hacc.live⟩⟩
  have hrun := hprep.1.trans (Run.single ⟨_, hcom, Step.commit hprep.2 hwrite⟩)
  rwa [List.nil_append] at hrun

theorem run_putBatch_unchecked {p : Bool} {validate : Collection → Except EngineError Unit}
    {es : List Embedding} {ops : List Operation} {u : Unit}
    (h : putBatch p validate es ops c = .ok u c')
    (hval : ∀ c, validate c = .ok () → c.Accepts ops)
    (hok : ∀ q ∈ [Phase.infer, .persist, .commit, .flush], ok q) :
    ∃ c₁, Run (StepIn ok) c ops c₁ ∧ autoCheckpoint c₁ = .ok () c' := by
  obtain ⟨d, c₁, c₂, c₃, c₄, hinfer, hvalid, hpersist, hwrite, hflush, hauto⟩ := putBatch_ok h
  have hwritten : Run (StepIn ok) c ops c₃ := run_written hinfer (hval c₁ hvalid) hpersist hwrite
    fun q hq => hok q (List.mem_append_left [Phase.flush] hq)
  have hrun := hwritten.trans (run_flushIfNeeded hflush (hok _ (by simp)))
  rw [List.append_nil] at hrun
  exact ⟨c₄, hrun, hauto⟩

theorem run_putBatch {p : Bool} {validate : Collection → Except EngineError Unit}
    {es : List Embedding} {ops : List Operation} {u : Unit}
    (h : putBatch p validate es ops c = .ok u c')
    (hval : ∀ c, validate c = .ok () → c.Accepts ops)
    (hok : ∀ q ∈ [Phase.infer, .persist, .commit, .flush, .checkpoint], ok q) :
    Run (StepIn ok) c ops c' := by
  have hbefore : ∀ q ∈ [Phase.infer, .persist, .commit, .flush], ok q := by
    intro q hq
    exact hok q (List.mem_append_left [Phase.checkpoint] hq)
  obtain ⟨c₁, hrun, hauto⟩ := run_putBatch_unchecked h hval hbefore
  have hend := hrun.trans (run_autoCheckpoint hauto (hok _ (by simp)))
  rwa [List.append_nil] at hend

/-- **An accepted call is a run of its phases** that acknowledges its operations. -/
theorem Call.run_steps {a : Call} (h : a.run c = .ok c') (hok : ∀ p ∈ a.phases, ok p) :
    Run (StepIn ok) c a.ops c' := by
  cases a with
  | add p ids es ms ds =>
      obtain ⟨u, h⟩ := accepted_eq_ok.mp h
      exact run_putBatch h (fun c hval => accepts_addOps hval) hok
  | upsert p ids es ms ds =>
      obtain ⟨u, h⟩ := accepted_eq_ok.mp h
      exact run_putBatch h (fun c hval => accepts_upsertOps hval) hok
  | update ids ms ds =>
      obtain ⟨u, h⟩ := accepted_eq_ok.mp h
      obtain ⟨hval, c₁, hwrite, hauto⟩ := update_ok h
      have hrun : Run (StepIn ok) c (updateOps ids ms ds) c₁ :=
        Run.single ⟨_, hok _ (by simp [phases]), Step.commit (accepts_updateOps hval) hwrite⟩
      have hend := hrun.trans (run_autoCheckpoint hauto (hok _ (by simp [phases])))
      rwa [List.append_nil] at hend
  | delete ids =>
      obtain ⟨u, h⟩ := accepted_eq_ok.mp h
      obtain ⟨c₁, hwrite, hauto⟩ := delete_ok h
      have hrun : Run (StepIn ok) c (ids.map .delete) c₁ :=
        Run.single ⟨_, hok _ (by simp [phases]), Step.commit (accepts_delete c ids) hwrite⟩
      have hend := hrun.trans (run_autoCheckpoint hauto (hok _ (by simp [phases])))
      rwa [List.append_nil] at hend
  | flush =>
      obtain ⟨u, h⟩ := accepted_eq_ok.mp h
      exact Run.single ⟨_, hok _ (by simp [phases]), Step.flush h⟩
  | checkpoint =>
      obtain ⟨u, h⟩ := accepted_eq_ok.mp h
      exact Run.single ⟨_, hok _ (by simp [phases]), Step.checkpoint h⟩
  | optimize =>
      obtain ⟨s, h⟩ := accepted_eq_ok.mp h
      obtain ⟨c₁, c₂, h₁, h₂, h₃⟩ := optimize_ok h
      have hflush : Run (StepIn ok) c [] c₁ :=
        Run.single ⟨_, hok _ (by simp [phases]), Step.flush h₁⟩
      have hrebuild : Run (StepIn ok) c₁ [] c₂ :=
        Run.single ⟨_, hok _ (by simp [phases]), Step.rebuild h₂⟩
      exact (hflush.trans hrebuild).trans
        (Run.single ⟨_, hok _ (by simp [phases]), Step.checkpoint h₃⟩)
  | restart order => exact Run.single ⟨_, hok _ (by simp [phases]), Step.restart order h⟩

theorem runAll_steps : ∀ {calls : List Call} {c c' : Collection}, runAll calls c = .ok c' →
    (∀ a ∈ calls, ∀ p ∈ a.phases, ok p) → Run (StepIn ok) c (calls.flatMap Call.ops) c'
  | [], c, c', h, _ => by
      obtain rfl := Except.ok.inj h
      exact Run.refl
  | a :: calls, c, c', h, hok => by
      rw [runAll] at h
      cases ha : a.run c with
      | error e =>
          rw [ha] at h
          exact absurd h (by simp)
      | ok c₁ =>
          rw [ha] at h
          have hrest := runAll_steps h fun b hb => hok b (List.mem_cons_of_mem a hb)
          exact (Call.run_steps ha (hok a List.mem_cons_self)).trans hrest

/-- **Reachable states are reached by steps** of the phases the calls go through. -/
theorem Reachable.steps {allowed : Call → Prop} {config : CollectionConfig}
    {h : List Operation} (hr : Reachable allowed config h c)
    (hok : ∀ a, allowed a → ∀ p ∈ a.phases, ok p) :
    Run (StepIn ok) (Collection.fresh config) h c := by
  induction hr with
  | fresh => exact Run.refl
  | call a _ ha hrun ih => exact ih.trans (Call.run_steps hrun (hok a ha))

end Runs

/-! ## Up to the automatic checkpoint -/

/-- The phases of a write call before its automatic checkpoint. -/
def Phase.isUnchecked (p : Phase) : Prop := p ∈ [Phase.infer, .persist, .commit, .flush]

/-- `c'` is `c` after some operations, with the log of `c` at its start. -/
structure Appended (ops : List Operation) (c c' : Collection) : Prop where
  lastSeq : c'.wal.lastSeq = c.wal.lastSeq + ops.length
  lastCheckpointSeq : c'.lastCheckpointSeq = c.lastCheckpointSeq
  hnsw : c'.config.hnsw = c.config.hnsw
  loadVector : c'.loadVector = c.loadVector

section Appended

variable {c c₀ c' : Collection} {h ops : List Operation}

theorem Appended.step {p : Phase} (he : Appended h c₀ c) (hp : p.isUnchecked)
    (hs : Step p ops c c') : Appended (h ++ ops) c₀ c' := by
  cases hs with
  | infer | persist =>
      rw [List.append_nil]
      exact ⟨he.lastSeq, he.lastCheckpointSeq, he.hnsw, he.loadVector⟩
  | commit hacc hw =>
      obtain ⟨w, -, hlast, rfl⟩ := writeOps_ok hw
      have hset := foldl_applyRecord_settled (numbered c.wal.lastSeq ops) { c with wal := w }
      simp only [settled, Settled.mk.injEq] at hset
      obtain ⟨hconfig, hwal, -, -, -, hcheckpoint, hsegments, hindex⟩ := hset
      refine ⟨?_, hcheckpoint.trans he.lastCheckpointSeq, ?_, ?_⟩
      · rw [hwal, hlast, he.lastSeq, List.length_append, Nat.add_assoc]
      · rw [hconfig, he.hnsw]
      · rw [← he.loadVector]
        ext1 id
        unfold Collection.loadVector
        rw [hsegments, hindex]
  | flush hf =>
      obtain ⟨x, -, rfl⟩ := flushBuffer_ok hf
      rw [List.append_nil]
      exact ⟨he.lastSeq, he.lastCheckpointSeq, he.hnsw, he.loadVector⟩
  | checkpoint | rebuild | restart => exact absurd hp (by simp [Phase.isUnchecked])

theorem appended_run (hr : Run (StepIn Phase.isUnchecked) c₀ ops c) : Appended ops c₀ c :=
  hr.invariant (I := fun ops c => Appended ops c₀ c) ⟨rfl, rfl, rfl, rfl⟩
    fun _ _ _ _ he ⟨_, hp, hs⟩ => he.step hp hs

end Appended

def Phase.isWriteOrFlush (p : Phase) : Prop := p ≠ .rebuild ∧ p ≠ .restart

theorem isWriteOrFlush_phases : ∀ a : Call, a.isWriteOrFlush →
    ∀ p ∈ a.phases, p.isWriteOrFlush := by
  intro a ha
  cases a with
  | checkpoint => exact ha.elim
  | optimize => exact ha.elim
  | restart => exact ha.elim
  | _ => simp [Call.phases, Phase.isWriteOrFlush]

end Rekha
