import Rekha.Engine.Commute
import Rekha.Engine.DerivedIndex

/-!
# What an update touches

An update carries a metadata and a document for each id, and an argument that is
omitted is logged as `None` for every one of them. Replayed, that `None`
overwrites. So an update leaves what it was not given alone exactly when there
was nothing to overwrite, and when no checkpoint it sets off drops the vector of
some record (`update_frame_iff`).
-/

namespace Rekha

open Collection Trace LastWrite

namespace Collection

/-! ## Replaying a batch of updates -/

def updateWrite (id : Id) (w : WalRecord) : Option (Option Metadata × Option Document × ℕ) :=
  match w.op with
  | .update key md doc => if id = key then some (md, doc, w.seq) else none
  | _ => none

/-- A live record after a batch of updates: the last one at its id counts, and
the embedding stays. -/
theorem lookup_updates {id : Id} {rs : List WalRecord} {c : Collection} {r : Record}
    (hall : ∀ w ∈ rs, w.op.isUpdate) (hr : c.records.lookup id = some r) :
    (rs.foldl applyRecord c).records.lookup id =
      some ((lastWrite (updateWrite id) rs).elim r fun w =>
        { r with metadata := w.1, document := w.2.1, seq := w.2.2 }) := by
  induction rs generalizing c r with
  | nil => exact hr
  | cons w rs ih =>
      rw [List.forall_mem_cons] at hall
      obtain ⟨hw, hall⟩ := hall
      obtain ⟨seq, op⟩ := w
      cases op with
      | update key md doc =>
          have hstep : (c.applyRecord ⟨seq, .update key md doc⟩).records.lookup id =
              if id = key then some { r with metadata := md, document := doc, seq := seq }
              else some r := by
            rw [applyRecord, lookup_applyOperation, hr]
            rfl
          have hwrite : updateWrite id ⟨seq, .update key md doc⟩ =
              if id = key then some (md, doc, seq) else none := rfl
          rw [List.foldl_cons, lastWrite_cons, hwrite]
          by_cases hid : id = key
          · rw [if_pos hid] at hstep
            rw [ih hall hstep, if_pos hid]
            cases lastWrite (updateWrite id) rs <;> rfl
          · rw [if_neg hid] at hstep
            rw [ih hall hstep, if_neg hid, Option.or_none]
      | add | upsert | delete => exact hw.elim

theorem lookup_replay_of_not_mem {id : Id} {rs : List WalRecord} {c : Collection}
    (hid : ∀ w ∈ rs, w.op.id ≠ id) :
    (rs.foldl applyRecord c).records.lookup id = c.records.lookup id := by
  induction rs generalizing c with
  | nil => rfl
  | cons w rs ih =>
      obtain ⟨hw, hid⟩ := List.forall_mem_cons.mp hid
      rw [List.foldl_cons, ih hid, applyRecord, lookup_applyOperation, if_neg hw.symm]

/-! ## The batch of an update call -/

section Batch

variable {ids : List Id} {ms : Option (List (Option Metadata))}
  {ds : Option (List (Option Document))} {id : Id}

theorem lastWrite_updateOps (ms : Option (List (Option Metadata)))
    (ds : Option (List (Option Document))) (n : ℕ) (hid : id ∈ ids) :
    ∃ md doc seq, lastWrite (updateWrite id) (numbered n (updateOps ids ms ds)) =
      some (md, doc, seq) ∧ (ms = none → md = none) ∧ (ds = none → doc = none) := by
  obtain ⟨i, hi⟩ := List.mem_iff_getElem?.mp hid
  have hop : .update id (nthOpt ms i) (nthOpt ds i) ∈ updateOps ids ms ds :=
    List.mem_map.mpr ⟨(id, i), List.mem_zipIdx_iff_getElem?.mpr hi, rfl⟩
  rw [← map_op_numbered (updateOps ids ms ds) n] at hop
  obtain ⟨w, hw, hwop⟩ := List.mem_map.mp hop
  have hwrites : updateWrite id w = some (nthOpt ms i, nthOpt ds i, w.seq) := by
    rw [updateWrite, hwop]
    exact if_pos rfl
  cases hlast : lastWrite (updateWrite id) (numbered n (updateOps ids ms ds)) with
  | none =>
      rw [lastWrite_eq_none_iff.mp hlast w hw] at hwrites
      cases hwrites
  | some v =>
      obtain ⟨u, hu, hwrite⟩ := exists_of_lastWrite hlast
      have huop := op_mem_of_mem_numbered hu
      rw [updateOps, List.mem_map] at huop
      obtain ⟨⟨key, j⟩, -, huop⟩ := huop
      rw [updateWrite, ← huop] at hwrite
      obtain ⟨-, hv⟩ := Option.ite_none_right_eq_some.mp hwrite
      obtain rfl := Option.some.inj hv
      refine ⟨_, _, _, rfl, ?_, ?_⟩
      · rintro rfl
        rfl
      · rintro rfl
        rfl

theorem update_written {c c' : Collection} {u : Unit} (h : update ids ms ds c = .ok u c') :
    ∃ c₁, autoCheckpoint c₁ = .ok () c' ∧ Appended (updateOps ids ms ds) c c₁ ∧
      (∀ id, id ∉ ids → c₁.records.lookup id = c.records.lookup id) ∧
      ∀ id ∈ ids, ∃ r md doc seq, c.records.lookup id = some r ∧
        c₁.records.lookup id =
          some { r with metadata := md, document := doc, seq := seq } ∧
        (ms = none → md = none) ∧ (ds = none → doc = none) := by
  obtain ⟨hval, c₁, hwrite, hauto⟩ := update_ok h
  have hstep : Step .commit (updateOps ids ms ds) c c₁ :=
    .commit (accepts_updateOps hval) hwrite
  have happended := appended_run (Run.single ⟨_, by simp [Phase.isUnchecked], hstep⟩)
  obtain ⟨w, -, -, rfl⟩ := writeOps_ok hwrite
  refine ⟨_, hauto, happended, fun id hid => ?_, fun id hid => ?_⟩
  · apply lookup_replay_of_not_mem
    intro w hw
    obtain ⟨key, hkey, _, _, hop⟩ := mem_updateOps (op_mem_of_mem_numbered hw)
    rw [hop]
    rintro rfl
    exact hid hkey
  · obtain ⟨r, hr⟩ := Option.isSome_iff_exists.mp (validateUpdate_ok hval id hid)
    obtain ⟨md, doc, seq, hlast, hmd, hdoc⟩ := lastWrite_updateOps ms ds c.wal.lastSeq hid
    refine ⟨r, md, doc, seq, hr, ?_, hmd, hdoc⟩
    have hall : ∀ v ∈ numbered c.wal.lastSeq (updateOps ids ms ds), v.op.isUpdate := by
      intro v hv
      obtain ⟨key, -, _, _, hop⟩ := mem_updateOps (op_mem_of_mem_numbered hv)
      rw [hop]
      trivial
    have hlookup := lookup_updates (c := { c with wal := w }) hall hr
    rwa [hlast] at hlookup

end Batch

/-! ## Reads after the call -/

theorem map_get {α : Type} {f : Record → α}
    (hf : ∀ (r : Record) (e : Option Embedding), f { r with embedding := e } = f r)
    (c : Collection) (id : Id) : (c.get id).map f = (c.records.lookup id).map f := by
  rw [get, Option.map_map]
  congr 1
  ext1 r
  exact hf r _

theorem get_autoCheckpoint {c c' : Collection} (h : autoCheckpoint c = .ok () c') :
    (¬ c.config.hnsw.syncThreshold ≤ c.wal.lastSeq - c.lastCheckpointSeq ∧ c' = c) ∨
      c.config.hnsw.syncThreshold ≤ c.wal.lastSeq - c.lastCheckpointSeq ∧
        ∀ id, c'.get id = c.records.lookup id := by
  rcases autoCheckpoint_ok h with ⟨hnot, rfl⟩ | ⟨hsize, hdue, hcheckpoint⟩
  · by_cases hdue : c'.config.hnsw.syncThreshold ≤ c'.wal.lastSeq - c'.lastCheckpointSeq
    · have hzero : c'.records.size = 0 := by
        by_contra hsize
        exact hnot ⟨hsize, hdue⟩
      refine Or.inr ⟨hdue, fun id => ?_⟩
      rw [get, FinMap.lookup_eq_none_of_size_zero hzero]
      rfl
    · exact Or.inl ⟨hdue, rfl⟩
  · rcases checkpoint_ok hcheckpoint with ⟨hzero, -⟩ | ⟨-, files, hfiles, rfl⟩
    · exact absurd hzero hsize
    · exact Or.inr ⟨hdue, fun id => get_checkpointed hfiles id⟩

theorem Derived.selects_iff_get {c : Collection} (hd : Derived c) {F : WhereFilter} {id : Id} :
    c.Selects F id ↔
      ∃ md, (c.get id).map Record.metadata = some md ∧ keyMatches F md = true := by
  rw [hd.selects_iff, map_get (fun _ _ => rfl)]
  cases c.records.lookup id <;> simp [Record.payload]

end Collection

open Collection

/-- What an update call promises to leave alone. -/
structure UpdateFrame (ids : List Id) (ms : Option (List (Option Metadata)))
    (ds : Option (List (Option Document))) (c c' : Collection) : Prop where
  others : ∀ id, id ∉ ids → c'.get id = c.get id
  embedding : ∀ id ∈ ids, (c'.get id).map Record.embedding = (c.get id).map Record.embedding
  metadata : ms = none → ∀ id ∈ ids,
    (c'.get id).map Record.metadata = (c.get id).map Record.metadata
  document : ds = none → ∀ id ∈ ids,
    (c'.get id).map Record.document = (c.get id).map Record.document
  selects : ∀ id, (c'.get id).map Record.metadata = (c.get id).map Record.metadata →
    ∀ F, c'.Selects F id ↔ c.Selects F id

/-- The call has nothing to overwrite that it was not given, and no checkpoint is
due while a live record depends on its segment copy. -/
structure NothingOverwritten (ids : List Id) (ms : Option (List (Option Metadata)))
    (ds : Option (List (Option Document))) (c : Collection) : Prop where
  metadata : ms = none → ∀ id ∈ ids, (c.get id).bind Record.metadata = none
  document : ds = none → ∀ id ∈ ids, (c.get id).bind Record.document = none
  vectors : (Call.update ids ms ds).CheckpointDue c → SegmentCopiesInMemory c

section Frame

variable {config : CollectionConfig} {h : List Operation} {c c' : Collection} {ids : List Id}
  {ms : Option (List (Option Metadata))} {ds : Option (List (Option Document))} {u : Unit}

theorem Collection.embedding_get_iff (c : Collection) (id : Id) :
    (c.records.lookup id).map Record.embedding = (c.get id).map Record.embedding ↔
      c.records.lookup id = c.get id := by
  constructor
  · intro heq
    rw [Collection.get] at heq ⊢
    cases hr : c.records.lookup id with
    | none => rfl
    | some r =>
        rw [hr, Option.map_some, Option.map_some, Option.map_some] at heq
        have hsame : r.embedding = (c.loadVector id).or r.embedding := Option.some.inj heq
        rw [Option.map_some, ← hsame]
  · intro heq
    rw [← heq]

theorem update_vectors_iff (hrun : update ids ms ds c = .ok u c') :
    ((∀ id, id ∉ ids → c'.get id = c.get id) ∧
      ∀ id ∈ ids, (c'.get id).map Record.embedding = (c.get id).map Record.embedding) ↔
    ((Call.update ids ms ds).CheckpointDue c → SegmentCopiesInMemory c) := by
  obtain ⟨c₁, hauto, happended, hout, hin⟩ := update_written hrun
  have hembedding : ∀ id ∈ ids, (c₁.records.lookup id).map Record.embedding =
      (c.records.lookup id).map Record.embedding := by
    intro id hid
    obtain ⟨r, md, doc, seq, hr, hr₁, -, -⟩ := hin id hid
    rw [hr₁, hr]
    rfl
  have hget := get_autoCheckpoint hauto
  rw [happended.hnsw, happended.lastSeq, happended.lastCheckpointSeq] at hget
  rcases hget with ⟨hnot, rfl⟩ | ⟨hdue, hget⟩
  · refine iff_of_true ⟨fun id hid => ?_, fun id hid => ?_⟩ fun hdue => absurd hdue hnot
    · rw [Collection.get, Collection.get, hout id hid, happended.loadVector]
    · obtain ⟨r, md, doc, seq, hr, hr₁, -, -⟩ := hin id hid
      rw [Collection.get, Collection.get, hr₁, hr, happended.loadVector]
      rfl
  · have hcopies : ((Call.update ids ms ds).CheckpointDue c → SegmentCopiesInMemory c) ↔
        ∀ id, c.records.lookup id = c.get id := by
      simp only [get_eq_lookup_iff]
      exact ⟨fun h => h hdue, fun h _ => h⟩
    rw [hcopies]
    constructor
    · rintro ⟨hothers, hupdated⟩ id
      by_cases hid : id ∈ ids
      · have heq := hupdated id hid
        rw [hget, hembedding id hid] at heq
        exact (c.embedding_get_iff id).mp heq
      · have heq := hothers id hid
        rwa [hget, hout id hid] at heq
    · intro hall
      refine ⟨fun id hid => ?_, fun id hid => ?_⟩
      · rw [hget, hout id hid, hall id]
      · rw [hget, hembedding id hid, hall id]

theorem update_payload (hrun : update ids ms ds c = .ok u c') {id : Id} (hid : id ∈ ids) :
    (∃ md, (c'.get id).map Record.metadata = some md ∧ (ms = none → md = none)) ∧
      ∃ doc, (c'.get id).map Record.document = some doc ∧ (ds = none → doc = none) := by
  obtain ⟨c₁, hauto, -, -, hin⟩ := update_written hrun
  obtain ⟨r, md, doc, seq, -, hr₁, hmd, hdoc⟩ := hin id hid
  have hread : ∀ {α : Type} {f : Record → α},
      (∀ (r : Record) (e : Option Embedding), f { r with embedding := e } = f r) →
      (c'.get id).map f = (c₁.records.lookup id).map f := by
    intro α f hf
    rcases get_autoCheckpoint hauto with ⟨-, rfl⟩ | ⟨-, hget⟩
    · exact map_get hf c' id
    · rw [hget]
  refine ⟨⟨md, ?_, hmd⟩, ⟨doc, ?_, hdoc⟩⟩
  · rw [hread fun _ _ => rfl, hr₁]
    rfl
  · rw [hread fun _ _ => rfl, hr₁]
    rfl

theorem reset_unchanged_iff {α β : Type} {x y : Option α} {f : α → Option β}
    (hx : x.isSome) (hy : y.map f = some none) : y.map f = x.map f ↔ x.bind f = none := by
  obtain ⟨a, rfl⟩ := Option.isSome_iff_exists.mp hx
  rw [hy, Option.map_some, Option.bind_some, Option.some.injEq, eq_comm]

/-- **An update touches only what it is given exactly when it has nothing else to
overwrite**: the records it names carry nothing in an omitted argument's field,
and no checkpoint it sets off drops a vector. -/
theorem update_frame_iff (hr : Reachable (fun _ => True) config h c)
    (hrun : (Call.update ids ms ds).run c = .ok c') :
    UpdateFrame ids ms ds c c' ↔ NothingOverwritten ids ms ds c := by
  obtain ⟨u, hupdate⟩ := accepted_eq_ok.mp hrun
  have hlive : ∀ id ∈ ids, (c.get id).isSome := by
    intro id hid
    rw [Collection.get, Option.isSome_map]
    exact validateUpdate_ok (update_ok hupdate).1 id hid
  have hmetadata : ms = none → ∀ id ∈ ids,
      ((c'.get id).map Record.metadata = (c.get id).map Record.metadata ↔
        (c.get id).bind Record.metadata = none) := by
    intro hms id hid
    obtain ⟨⟨md, hmd, hnone⟩, -⟩ := update_payload hupdate hid
    rw [hnone hms] at hmd
    exact reset_unchanged_iff (hlive id hid) hmd
  have hdocument : ds = none → ∀ id ∈ ids,
      ((c'.get id).map Record.document = (c.get id).map Record.document ↔
        (c.get id).bind Record.document = none) := by
    intro hds id hid
    obtain ⟨-, doc, hdoc, hnone⟩ := update_payload hupdate hid
    rw [hnone hds] at hdoc
    exact reset_unchanged_iff (hlive id hid) hdoc
  constructor
  · rintro ⟨hothers, hembedding, hms, hds, -⟩
    refine ⟨fun h id hid => ?_, fun h id hid => ?_, ?_⟩
    · exact (hmetadata h id hid).mp (hms h id hid)
    · exact (hdocument h id hid).mp (hds h id hid)
    · exact (update_vectors_iff hupdate).mp ⟨hothers, hembedding⟩
  · rintro ⟨hms, hds, hvectors⟩
    obtain ⟨hothers, hembedding⟩ := (update_vectors_iff hupdate).mpr hvectors
    refine ⟨hothers, hembedding, fun h id hid => ?_, fun h id hid => ?_, ?_⟩
    · exact (hmetadata h id hid).mpr (hms h id hid)
    · exact (hdocument h id hid).mpr (hds h id hid)
    · intro id hsame F
      rw [(Reachable.call _ hr trivial hrun).derived.selects_iff_get, hr.derived.selects_iff_get,
        hsame]

end Frame

/-- A document for a record that has neither. -/
theorem update_frame_iff_demo : ∃ c c',
    (Call.update ["a"] none (some [some "text"])).run c = .ok c' ∧
      (UpdateFrame ["a"] none (some [some "text"]) c c' ↔
        NothingOverwritten ["a"] none (some [some "text"]) c) := by
  obtain ⟨c, hrun, hP⟩ : ∃ c, runAll [.add true ["a"] [one] none none] (fresh demoConfig) =
      .ok c ∧ ((Call.accepted (update ["a"] none (some [some "text"])) c).toOption.any
        fun _ => true) = true := exists_runAll (by decide +kernel)
  obtain ⟨u, c', hupdate, -⟩ := exists_accepted hP
  have hcall : (Call.update ["a"] none (some [some "text"])).run c = .ok c' :=
    accepted_eq_ok.mpr ⟨u, hupdate⟩
  have hreach : Reachable (fun _ => True) demoConfig _ c :=
    Reachable.fresh.runAll (fun _ _ => trivial) hrun
  exact ⟨c, c', hcall, update_frame_iff hreach hcall⟩

/-- **Setting a document erases the metadata** of the record. -/
theorem update_erases_metadata : ∃ h c c', Reachable (fun _ => True) demoConfig h c ∧
    (Call.update ["a"] none (some [some "text"])).run c = .ok c' ∧
      (c.get "a").bind Record.metadata ≠ none ∧ (c'.get "a").bind Record.metadata = none ∧
      ¬ UpdateFrame ["a"] none (some [some "text"]) c c' := by
  let md : Metadata := (∅ : Metadata).insert "colour" (.str "red")
  obtain ⟨c, hrun, hP⟩ : ∃ c, runAll [.add true ["a"] [one] (some [some md]) none]
      (fresh demoConfig) = .ok c ∧
      ((Call.accepted (update ["a"] none (some [some "text"])) c).toOption.any fun c' =>
        ((c.get "a").bind Record.metadata).isSome &&
          ((c'.get "a").bind Record.metadata).isNone) = true :=
    exists_runAll (by decide +kernel)
  obtain ⟨u, c', hupdate, hreads⟩ := exists_accepted hP
  have hcall : (Call.update ["a"] none (some [some "text"])).run c = .ok c' :=
    accepted_eq_ok.mpr ⟨u, hupdate⟩
  obtain ⟨hbefore, hafter⟩ := Bool.and_eq_true_iff.mp hreads
  rw [← Option.ne_none_iff_isSome] at hbefore
  rw [Option.isNone_iff_eq_none] at hafter
  have hreach : Reachable (fun _ => True) demoConfig _ c :=
    Reachable.fresh.runAll (fun _ _ => trivial) hrun
  refine ⟨_, c, c', hreach, hcall, hbefore, hafter, fun hframe => hbefore ?_⟩
  have hjoin : ∀ o : Option Record, (o.map Record.metadata).join = o.bind Record.metadata := by
    intro o
    cases o <;> rfl
  have hkept := congrArg Option.join (hframe.metadata rfl "a" List.mem_cons_self)
  rw [hjoin, hjoin, hafter] at hkept
  exact hkept.symm

end Rekha
