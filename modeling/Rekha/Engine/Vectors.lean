import Rekha.Engine.Query
import Rekha.Engine.Steps
import Rekha.Lib.LastWrite

/-!
# Where a vector is read from

A vector lives in the record, the buffer, the index and the segment, and `get`,
the exact scan and a rebuild all prefer the segment's copy. A checkpoint
replaces the segment by the vectors then held in memory, and strips them. So a
checkpoint is invisible exactly when no live record depends on a segment copy
(`checkpoint_invisible_iff`), and a write is read back exactly when no older
segment copy shadows it (`read_your_writes_iff`).
-/

namespace Rekha

open LastWrite

namespace Collection

/-! ## Registers of a record -/

/-- The vector of `id` held in memory. -/
def memVector (c : Collection) (id : Id) : Option Embedding :=
  (c.records.lookup id).bind Record.embedding

theorem stripped_vector (f : ℕ) (records : FinMap Id Record) (id : Id) :
    ((stripRecords f records).lookup id).bind Record.embedding =
      (records.lookup id).bind fun r => if r.seq ≤ f then none else r.embedding := by
  rw [lookup_stripRecords]
  cases records.lookup id with
  | none => rfl
  | some r =>
      simp only [Option.map_some, Option.bind_some]
      split <;> rfl

theorem memVector_of_stripped {c : Collection} {f : ℕ} {id : Id} {e : Embedding}
    (h : ((stripRecords f c.records).lookup id).bind Record.embedding = some e) :
    c.memVector id = some e := by
  rw [stripped_vector] at h
  obtain ⟨r, hr, he⟩ := Option.bind_eq_some_iff.mp h
  rw [memVector, hr]
  split at he
  · cases he
  · exact he

/-- What one log record does to the vector of an id: a put sets it, a delete
clears it, an update leaves it. -/
def vectorWrite (r : WalRecord) (id : Id) : Option (Option Embedding) :=
  if id = r.op.id then
    match r.op with
    | .add _ e _ _ | .upsert _ e _ _ => some (some e)
    | .update _ _ _ => none
    | .delete _ => some none
  else none

theorem memVector_applyRecord (c : Collection) (r : WalRecord) :
    (c.applyRecord r).memVector = overwrite vectorWrite c.memVector r := by
  funext id
  simp only [memVector, applyRecord, overwrite, vectorWrite, lookup_applyOperation]
  by_cases hid : id = r.op.id
  · rw [if_pos hid, if_pos hid]
    cases hop : r.op with
    | add key e md doc => rfl
    | upsert key e md doc => rfl
    | delete key => rfl
    | update key md doc =>
        simp only [Operation.recordAfter, Option.bind_some, Option.getD_none]
        cases c.records.lookup id <;> rfl
  · rw [if_neg hid, if_neg hid]
    rfl

theorem memVector_foldl (rs : List WalRecord) (c : Collection) (id : Id) :
    (rs.foldl applyRecord c).memVector id =
      (lastWrite (fun r => vectorWrite r id) rs).getD (c.memVector id) :=
  foldl_register memVector_applyRecord id rs c

/-! ## Collecting vectors -/

theorem mem_sortedVectors {records : FinMap Id Record}
    {vector : Id → Record → Option Embedding} {id : Id} {v : Embedding} :
    (id, v) ∈ sortedVectors records vector ↔
      ∃ r, records.lookup id = some r ∧ vector id r = some v := by
  rw [sortedVectors, (List.perm_insertionSort _ _).mem_iff, List.mem_filterMap]
  constructor
  · rintro ⟨⟨key, r⟩, he, hv⟩
    obtain ⟨u, hu, heq⟩ := Option.map_eq_some_iff.mp hv
    obtain ⟨rfl, rfl⟩ := Prod.mk.inj heq
    exact ⟨r, FinMap.mem_entries_iff.mp he, hu⟩
  · rintro ⟨r, hr, hv⟩
    exact ⟨⟨id, r⟩, FinMap.mem_entries_iff.mpr hr, by rw [hv]; rfl⟩

/-- What is read off the records one by one, each result under its record's id, has its ids
among those of the records, in their order. -/
theorem keys_filterMap_sublist {β : Type} {f : (Sigma fun _ : Id => Record) → Option β}
    {key : β → Id} (hf : ∀ e b, f e = some b → key b = e.1) :
    ∀ l : List (Sigma fun _ : Id => Record),
      ((l.filterMap f).map key).Sublist (l.map Sigma.fst)
  | [] => List.Sublist.refl _
  | e :: l => by
      have ih := keys_filterMap_sublist hf l
      rw [List.map_cons]
      cases hv : f e with
      | none =>
          rw [List.filterMap_cons_none hv]
          exact ih.cons _
      | some b =>
          rw [List.filterMap_cons_some hv, List.map_cons, hf e b hv]
          exact ih.cons_cons _

theorem nodup_sortedVectors (records : FinMap Id Record)
    (vector : Id → Record → Option Embedding) :
    ((sortedVectors records vector).map Prod.fst).Nodup := by
  rw [sortedVectors, ((List.perm_insertionSort _ _).map _).nodup_iff]
  refine (keys_filterMap_sublist (fun e b hb => ?_) records.entries).nodup records.keys_nodup
  obtain ⟨v, -, rfl⟩ := Option.map_eq_some_iff.mp hb
  rfl

/-! ## The exact scan -/

/-- The `(id, distance)` pairs of the exact scan. -/
def scores (K : Kernels) (c : Collection) (query : Embedding) (id : Id) (d : F32) : Prop :=
  ∃ p ∈ bruteForce K c query c.config.space, p.id = id ∧ p.distance = d

theorem scores_iff {K : Kernels} {c : Collection} {query : Embedding} {id : Id} {d : F32} :
    scores K c query id d ↔ ∃ v, (c.get id).bind Record.embedding = some v ∧
      d = K.distance c.config.space query v := by
  have hget : (c.get id).bind Record.embedding =
      (c.records.lookup id).bind fun r => (c.loadVector id).or r.embedding := by
    rw [get]
    cases c.records.lookup id <;> rfl
  rw [scores, hget]
  simp only [bruteForce, List.mem_filterMap, (K.order.perm c.records).mem_iff,
    Option.map_eq_some_iff, Option.bind_eq_some_iff]
  constructor
  · rintro ⟨p, ⟨⟨key, r⟩, he, v, hv, rfl⟩, rfl, rfl⟩
    exact ⟨v, ⟨r, FinMap.mem_entries_iff.mp he, hv⟩, rfl⟩
  · rintro ⟨v, ⟨r, hr, hv⟩, rfl⟩
    exact ⟨_, ⟨⟨id, r⟩, FinMap.mem_entries_iff.mpr hr, v, hv, rfl⟩, rfl, rfl⟩

/-! ## Checkpoints -/

theorem loadVector_checkpointed {c : Collection} {files : Option (Segment × FinMap Id ℕ)}
    (h : c.segmentFiles = some files) (id : Id) :
    (c.checkpointed files).loadVector id = c.memVector id := by
  have hmem : ∀ v, (id, v) ∈ c.segmentEntries ↔ c.memVector id = some v := by
    intro v
    rw [segmentEntries, mem_sortedVectors, memVector, Option.bind_eq_some_iff]
  rw [segmentFiles] at h
  cases he : c.segmentEntries with
  | nil =>
      rw [he] at h
      obtain rfl := Option.some.inj h
      cases hv : c.memVector id with
      | none => rfl
      | some v =>
          have := (hmem v).mpr hv
          rw [he] at this
          exact absurd this List.not_mem_nil
  | cons e rest =>
      rw [he] at h
      obtain ⟨⟨w, idx⟩, hrows, rfl⟩ := Option.map_eq_some_iff.mp h
      rw [← he] at hrows
      obtain ⟨hin, hout⟩ := lookup_writeRows (nodup_sortedVectors _ _) hrows
      show (idx.lookup id).bind w.write.getVector = c.memVector id
      cases hv : c.memVector id with
      | some v => exact hin id v ((hmem v).mpr hv)
      | none =>
          have hnot : id ∉ c.segmentEntries.map Prod.fst := by
            intro hid
            obtain ⟨⟨key, v⟩, hkv, rfl⟩ := List.mem_map.mp hid
            rw [(hmem v).mp hkv] at hv
            exact absurd hv (by simp)
          rw [hout id hnot]
          rfl

theorem get_checkpointed {c : Collection} {files : Option (Segment × FinMap Id ℕ)}
    (h : c.segmentFiles = some files) (id : Id) :
    (c.checkpointed files).get id = c.records.lookup id := by
  rw [get, loadVector_checkpointed h, memVector]
  show ((stripRecords c.flushedSeq c.records).lookup id).map _ = _
  rw [lookup_stripRecords, Option.map_map]
  cases hr : c.records.lookup id with
  | none => rfl
  | some r =>
      have hemb : ∀ e : Option Embedding, e = none ∨ e = r.embedding →
          r.embedding.or e = r.embedding := by
        rintro e (rfl | rfl)
        · exact Option.or_none
        · exact Option.or_self
      simp only [Option.map_some, Function.comp_apply, Option.bind_some, Option.some.injEq]
      split
      · rw [hemb none (Or.inl rfl)]
      · rw [hemb _ (Or.inr rfl)]

/-- Two states no reader can tell apart. -/
structure SameReads (K : Kernels) (c c' : Collection) : Prop where
  get : ∀ id, c'.get id = c.get id
  count : c'.count = c.count
  scan : ∀ query id d, scores K c' query id d ↔ scores K c query id d

/-- Every live record with a segment copy has that vector in memory as well. -/
def SegmentCopiesInMemory (c : Collection) : Prop :=
  ∀ id r v, c.records.lookup id = some r → c.loadVector id = some v → r.embedding = some v

theorem get_eq_lookup_iff (c : Collection) (id : Id) :
    c.records.lookup id = c.get id ↔
      ∀ r v, c.records.lookup id = some r → c.loadVector id = some v →
        r.embedding = some v := by
  rw [get]
  cases hr : c.records.lookup id with
  | none => simp
  | some r =>
      cases hv : c.loadVector id with
      | none => simp
      | some v =>
          simp only [Option.map_some, Option.some_or, Option.some.injEq]
          constructor
          · rintro h r' v' rfl rfl
            rw [h]
          · intro h
            rw [← h r v rfl rfl]

/-- **A checkpoint is invisible to readers exactly when every live record that
has a segment copy still holds that vector in memory.** -/
theorem checkpoint_invisible_iff {K : Kernels} {c c' : Collection}
    (h : checkpoint c = .ok () c') : SameReads K c c' ↔ SegmentCopiesInMemory c := by
  rcases checkpoint_ok h with ⟨hsize, rfl⟩ | ⟨-, files, hfiles, rfl⟩
  · refine ⟨fun _ id r v hr => ?_, fun _ => ⟨fun _ => rfl, rfl, fun _ _ _ => Iff.rfl⟩⟩
    rw [FinMap.lookup_eq_none_of_size_zero hsize] at hr
    exact absurd hr (by simp)
  · have hiff : (∀ id, (c.checkpointed files).get id = c.get id) ↔
        SegmentCopiesInMemory c := by
      simp only [get_checkpointed hfiles, get_eq_lookup_iff, SegmentCopiesInMemory]
    rw [← hiff]
    refine ⟨SameReads.get, fun hget => ⟨hget, FinMap.size_mapVals _ _, ?_⟩⟩
    intro query id d
    rw [scores_iff, scores_iff, hget]
    rfl

/-- One record, not yet checkpointed. -/
theorem checkpoint_invisible_iff_demo : ∃ c c', checkpoint c = .ok () c' ∧
    (SameReads (exactKernels fun _ _ _ => ⟨0⟩) c c' ↔ SegmentCopiesInMemory c) := by
  obtain ⟨c, -, hP⟩ : ∃ c, runAll [.add true ["a"] [zero] none none] (fresh demoConfig) =
      .ok c ∧ ((Call.accepted checkpoint c).toOption.any fun _ => true) = true :=
    exists_runAll (by decide +kernel)
  obtain ⟨u, c', h, -⟩ := exists_accepted hP
  exact ⟨c, c', h, checkpoint_invisible_iff h⟩

/-- **The second checkpoint loses vectors**: `a` was stripped by the first one,
and the segment the second one writes holds `b` only. -/
theorem second_checkpoint_visible : ∃ h c c',
    Reachable (fun _ => True) demoConfig h c ∧ checkpoint c = .ok () c' ∧
      (c.get "a").bind Record.embedding = some one ∧
      (c'.get "a").bind Record.embedding = none ∧ ∀ K, ¬ SameReads K c c' := by
  let calls : List Call := [.add true ["a"] [one] none none, .flush, .checkpoint,
    .add true ["b"] [two] none none]
  obtain ⟨c, hrun, hP⟩ : ∃ c, runAll calls (fresh demoConfig) = .ok c ∧
      ((Call.accepted checkpoint c).toOption.any fun c' =>
        decide ((c.get "a").bind Record.embedding = some one ∧
          (c'.get "a").bind Record.embedding = none)) = true :=
    exists_runAll (by decide +kernel)
  have hreach := Reachable.fresh.runAll (fun _ _ => trivial) hrun
  obtain ⟨u, c', h, hreads⟩ := exists_accepted hP
  obtain ⟨hbefore, hafter⟩ := of_decide_eq_true hreads
  refine ⟨_, c, c', hreach, h, hbefore, hafter, fun K hsame => ?_⟩
  rw [hsame.get, hbefore] at hafter
  exact absurd hafter (by simp)

/-! ## Rebuilding -/

theorem mem_rebuildVectors {c : Collection} {id : Id} {v : Embedding} :
    (id, v) ∈ c.rebuildVectors ↔ (c.get id).bind Record.embedding = some v := by
  rw [rebuildVectors, mem_sortedVectors, get]
  cases c.records.lookup id <;> simp

theorem vector_of_inserted {x x' : UsearchIndex} {l : List (Id × Embedding)}
    (h : Inserted x l x') (hx : x.Wf) (hnodup : (l.map Prod.fst).Nodup) :
    (∀ id v, (id, v) ∈ l → x'.vector id = some v) ∧
      ∀ id, id ∉ l.map Prod.fst → x'.vector id = x.vector id := by
  induction h with
  | nil x => exact ⟨fun id v hmem => absurd hmem List.not_mem_nil, fun _ _ => rfl⟩
  | cons hadd _ ih =>
      rename_i x₁ x₂ x₃ key e rest _
      rw [List.map_cons, List.nodup_cons] at hnodup
      obtain ⟨hin, hout⟩ := ih (hx.add hadd) hnodup.2
      refine ⟨fun id v hmem => ?_, fun id hid => ?_⟩
      · rcases List.mem_cons.mp hmem with heq | hmem
        · obtain ⟨rfl, rfl⟩ := Prod.mk.inj heq
          rw [hout id hnodup.1, hx.vector_add hadd, if_pos rfl]
        · exact hin id v hmem
      · rw [List.map_cons, List.mem_cons, not_or] at hid
        rw [hout id hid.2, hx.vector_add hadd, if_neg hid.1]

theorem vector_rebuildIndex {c c' : Collection} {u : Unit} {id : Id} {v : Embedding}
    (h : rebuildIndex c = .ok u c') (hv : (c.get id).bind Record.embedding = some v) :
    c'.index.vector id = some v := by
  obtain ⟨x, hx, rfl⟩ := rebuildIndex_ok h
  exact (vector_of_inserted hx (UsearchIndex.wf_withHnsw _ _)
    (nodup_sortedVectors _ _)).1 id v (mem_rebuildVectors.mpr hv)

/-! ## Reading one's own writes -/

/-- Every reader and the next rebuild see `v` as the vector of `id`. -/
structure ReadsVector (K : Kernels) (c : Collection) (id : Id) (v : Embedding) : Prop where
  get : (c.get id).bind Record.embedding = some v
  scan : ∀ query d, scores K c query id d ↔ d = K.distance c.config.space query v
  rebuild : ∀ u, (id, u) ∈ c.rebuildVectors ↔ u = v
  index : ∀ c', rebuildIndex c = .ok () c' → c'.index.vector id = some v

theorem readsVector_iff {K : Kernels} {c : Collection} {id : Id} {v : Embedding} :
    ReadsVector K c id v ↔ (c.get id).bind Record.embedding = some v := by
  refine ⟨ReadsVector.get, fun h => ⟨h, ?_, ?_, fun c' hc' => vector_rebuildIndex hc' h⟩⟩
  · intro query d
    rw [scores_iff]
    simp [h]
  · intro u
    rw [mem_rebuildVectors, h, Option.some.injEq, eq_comm]

theorem lastWrite_numbered {id : Id} {v : Embedding} {op : Operation}
    {l₁ l₂ : List Operation} (n : ℕ) (hop : ∀ seq, vectorWrite ⟨seq, op⟩ id = some (some v))
    (hlater : ∀ o ∈ l₂, o.id ≠ id) :
    lastWrite (fun r => vectorWrite r id) (numbered n (l₁ ++ op :: l₂)) = some (some v) := by
  rw [numbered_append, numbered]
  refine lastWrite_of_last (hop _) fun r hr => ?_
  rw [vectorWrite, if_neg]
  exact fun h => hlater r.op (op_mem_of_mem_numbered hr) h.symm

end Collection

open Collection

/-- The call gives `id` the vector `v`: its last position in the batch does. -/
def Call.Assigns (a : Call) (id : Id) (v : Embedding) : Prop :=
  match a with
  | .add _ ids es _ _ | .upsert _ ids es _ _ =>
      ∃ i : ℕ, ids[i]? = some id ∧ es[i]? = some v ∧ ∀ j, i < j → ids[j]? ≠ some id
  | _ => False

def Call.CheckpointDue (a : Call) (c : Collection) : Prop :=
  c.config.hnsw.syncThreshold ≤ c.wal.lastSeq + a.ops.length - c.lastCheckpointSeq

theorem putOps_split {mk : Id → Embedding → Option Metadata → Option Document → Operation}
    (hmk : ∀ id e md doc, (mk id e md doc).id = id) {ids : List Id} {es : List Embedding}
    (ms : Option (List (Option Metadata))) (ds : Option (List (Option Document)))
    {i : ℕ} {id : Id} {v : Embedding} (hid : ids[i]? = some id) (hv : es[i]? = some v)
    (hlast : ∀ j, i < j → ids[j]? ≠ some id) :
    ∃ l₁ l₂ md doc, putOps mk ids es ms ds = l₁ ++ mk id v md doc :: l₂ ∧
      ∀ o ∈ l₂, o.id ≠ id := by
  have hget : ∀ j, (putOps mk ids es ms ds)[j]? = ids[j]?.map fun key =>
      mk key (es.getD j []) (nthOpt ms j) (nthOpt ds j) := by
    intro j
    rw [putOps, List.getElem?_map, List.getElem?_zipIdx]
    cases ids[j]? <;> simp
  have hi := hget i
  rw [hid, Option.map_some, List.getD_eq_getElem?_getD, hv, Option.getD_some] at hi
  obtain ⟨hlt, hi⟩ := List.getElem?_eq_some_iff.mp hi
  refine ⟨(putOps mk ids es ms ds).take i, (putOps mk ids es ms ds).drop (i + 1),
    nthOpt ms i, nthOpt ds i, ?_, fun o ho => ?_⟩
  · rw [← hi, List.cons_getElem_drop_succ, List.take_append_drop]
  · obtain ⟨j, hj⟩ := List.mem_iff_getElem?.mp ho
    rw [List.getElem?_drop, hget] at hj
    obtain ⟨key, hkey, rfl⟩ := Option.map_eq_some_iff.mp hj
    rw [hmk]
    rintro rfl
    exact hlast (i + 1 + j) (by omega) hkey

theorem putBatch_written {p : Bool} {validate : Collection → Except EngineError Unit}
    {es : List Embedding} {ops : List Operation} {c c' : Collection} {u : Unit}
    (h : putBatch p validate es ops c = .ok u c')
    (hval : ∀ c, validate c = .ok () → c.Accepts ops) :
    ∃ c₁, autoCheckpoint c₁ = .ok () c' ∧ Appended ops c c₁ ∧
      ∀ id, c₁.memVector id =
        (lastWrite (fun r => vectorWrite r id) (numbered c.wal.lastSeq ops)).getD
          (c.memVector id) := by
  have hphases : ∀ q ∈ [Phase.infer, .persist, .commit, .flush], q.isUnchecked := fun _ hq => hq
  obtain ⟨c₁, hrun, hauto⟩ := run_putBatch_unchecked h hval hphases
  refine ⟨c₁, hauto, appended_run hrun, ?_⟩
  have hboth := hrun.invariant
    (I := fun ops c₁ => Appended ops c c₁ ∧ ∀ id, c₁.memVector id =
      (lastWrite (fun r => vectorWrite r id) (numbered c.wal.lastSeq ops)).getD (c.memVector id))
    ⟨⟨rfl, rfl, rfl, rfl⟩, fun _ => rfl⟩ ?_
  · exact hboth.2
  · rintro l ops c₁ c₂ ⟨he, hmem⟩ ⟨q, hq, hs⟩
    refine ⟨he.step hq hs, fun id => ?_⟩
    cases hs with
    | infer | persist =>
        rw [List.append_nil]
        exact hmem id
    | commit hacc hwrite =>
        obtain ⟨w, -, -, rfl⟩ := writeOps_ok hwrite
        have hfold := memVector_foldl (numbered c₁.wal.lastSeq ops) { c₁ with wal := w } id
        have hsame : ({ c₁ with wal := w } : Collection).memVector id = c₁.memVector id := rfl
        rw [hfold, hsame, hmem, numbered_append, lastWrite_append, he.lastSeq]
        cases lastWrite (fun r => vectorWrite r id) (numbered (c.wal.lastSeq + l.length) ops) <;>
          rfl
    | flush hf =>
        obtain ⟨x, -, rfl⟩ := flushBuffer_ok hf
        rw [List.append_nil]
        exact hmem id
    | checkpoint | rebuild | restart => exact absurd hq (by simp [Phase.isUnchecked])

/-- **A written vector is read back exactly when the write's own checkpoint
replaced the segment, or no other vector for the id was in the segment.** -/
theorem read_your_writes_iff {K : Kernels} {a : Call} {c c' : Collection} {id : Id}
    {v : Embedding} (ha : a.Assigns id v) (h : a.run c = .ok c') :
    ReadsVector K c' id v ↔
      (a.CheckpointDue c ∨ ∀ u, c.loadVector id = some u → u = v) := by
  have hput : ∃ c₁, autoCheckpoint c₁ = .ok () c' ∧ Appended a.ops c c₁ ∧
      c₁.memVector id = some v := by
    cases a with
    | add p ids es ms ds =>
        obtain ⟨u, h⟩ := accepted_eq_ok.mp h
        obtain ⟨c₁, hauto, he, hmem⟩ := putBatch_written h fun c hval => accepts_addOps hval
        obtain ⟨i, hid, hv, hlater⟩ := ha
        have hmk : ∀ id e md doc, (Operation.add id e md doc).id = id := fun _ _ _ _ => rfl
        obtain ⟨l₁, l₂, md, doc, hops, hl₂⟩ := putOps_split hmk ms ds hid hv hlater
        refine ⟨c₁, hauto, he, ?_⟩
        have hwrites : ∀ seq, vectorWrite ⟨seq, .add id v md doc⟩ id = some (some v) :=
          fun _ => if_pos rfl
        rw [hmem, addOps, hops, lastWrite_numbered _ hwrites hl₂]
        rfl
    | upsert p ids es ms ds =>
        obtain ⟨u, h⟩ := accepted_eq_ok.mp h
        obtain ⟨c₁, hauto, he, hmem⟩ := putBatch_written h fun c hval => accepts_upsertOps hval
        obtain ⟨i, hid, hv, hlater⟩ := ha
        have hmk : ∀ id e md doc, (Operation.upsert id e md doc).id = id := fun _ _ _ _ => rfl
        obtain ⟨l₁, l₂, md, doc, hops, hl₂⟩ := putOps_split hmk ms ds hid hv hlater
        refine ⟨c₁, hauto, he, ?_⟩
        have hwrites : ∀ seq, vectorWrite ⟨seq, .upsert id v md doc⟩ id = some (some v) :=
          fun _ => if_pos rfl
        rw [hmem, upsertOps, hops, lastWrite_numbered _ hwrites hl₂]
        rfl
    | update => exact ha.elim
    | delete => exact ha.elim
    | flush => exact ha.elim
    | checkpoint => exact ha.elim
    | optimize => exact ha.elim
    | restart => exact ha.elim
  obtain ⟨c₁, hauto, he, hmem⟩ := hput
  obtain ⟨r, hr, hrv⟩ := Option.bind_eq_some_iff.mp hmem
  have hsize : c₁.records.size ≠ 0 := fun hz => by
    rw [FinMap.lookup_eq_none_of_size_zero hz] at hr
    exact absurd hr (by simp)
  rw [readsVector_iff]
  rcases autoCheckpoint_ok hauto with ⟨hnot, rfl⟩ | ⟨-, hdue, hcp⟩
  · have hnotDue : ¬ a.CheckpointDue c := by
      intro hdue
      rw [Call.CheckpointDue, ← he.hnsw, ← he.lastSeq, ← he.lastCheckpointSeq] at hdue
      exact hnot ⟨hsize, hdue⟩
    rw [Collection.get, hr, he.loadVector, Option.map_some, Option.bind_some, hrv]
    simp only [hnotDue, false_or]
    cases c.loadVector id with
    | none => simp
    | some u => simp
  · have hisDue : a.CheckpointDue c := by
      rw [Call.CheckpointDue, ← he.hnsw, ← he.lastSeq, ← he.lastCheckpointSeq]
      exact hdue
    rcases checkpoint_ok hcp with ⟨hz, -⟩ | ⟨-, files, hfiles, rfl⟩
    · exact absurd hz hsize
    · rw [get_checkpointed hfiles, hr, Option.bind_some]
      exact ⟨fun _ => Or.inl hisDue, fun _ => hrv⟩

/-- The first vector of a new id. -/
theorem read_your_writes_iff_demo : ∃ c',
    (Call.add true ["a"] [zero] none none).run (fresh demoConfig) = .ok c' ∧
      (ReadsVector (exactKernels fun _ _ _ => ⟨0⟩) c' "a" zero ↔
        ((Call.add true ["a"] [zero] none none).CheckpointDue (fresh demoConfig) ∨
          ∀ u, (fresh demoConfig).loadVector "a" = some u → u = zero)) := by
  have hassigns : (Call.add true ["a"] [zero] none none).Assigns "a" zero :=
    ⟨0, rfl, rfl, fun j hj => by
      rw [List.getElem?_eq_none (Nat.succ_le_of_lt hj)]
      exact Option.some_ne_none _ ∘ Eq.symm⟩
  obtain ⟨c', hrun, -⟩ : ∃ c', runAll [.add true ["a"] [zero] none none]
      (fresh demoConfig) = .ok c' ∧ true = true :=
    exists_runAll (by decide +kernel)
  rw [runAll] at hrun
  cases h : (Call.add true ["a"] [zero] none none).run (fresh demoConfig) with
  | error e =>
      rw [h] at hrun
      exact absurd hrun (by simp)
  | ok c => exact ⟨c, rfl, read_your_writes_iff hassigns h⟩

/-- **An upsert over a checkpointed vector is not read back**: the segment's
copy shadows it. -/
theorem upsert_shadowed : ∃ h c a c', Reachable (fun _ => True) demoConfig h c ∧
    Call.Assigns a "a" two ∧ a.run c = .ok c' ∧
      (c'.get "a").bind Record.embedding = some one ∧ ∀ K, ¬ ReadsVector K c' "a" two := by
  let a : Call := .upsert true ["a"] [two] none none
  have hassigns : a.Assigns "a" two :=
    ⟨0, rfl, rfl, fun j hj => by
      rw [List.getElem?_eq_none (Nat.succ_le_of_lt hj)]
      exact Option.some_ne_none _ ∘ Eq.symm⟩
  let calls : List Call := [.add true ["a"] [one] none none, .flush, .checkpoint]
  obtain ⟨c, hrun, hP⟩ : ∃ c, runAll calls (fresh demoConfig) = .ok c ∧
      (a.run c).toOption.any (fun c' =>
        decide ((c'.get "a").bind Record.embedding = some one)) = true :=
    exists_runAll (by decide +kernel)
  have hreach := Reachable.fresh.runAll (fun _ _ => trivial) hrun
  cases h : a.run c with
  | error e =>
      rw [h] at hP
      exact absurd hP (by simp [Except.toOption])
  | ok c' =>
      rw [h] at hP
      have hget := of_decide_eq_true hP
      refine ⟨_, c, a, c', hreach, hassigns, h, hget, fun K hreads => ?_⟩
      rw [hreads.get] at hget
      exact absurd hget (by decide)

end Rekha
