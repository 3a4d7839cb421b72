import Rekha.Engine.FilteredSound

/-!
# The index path against the exact scan

Without a checkpoint every vector is in memory, and the index holds the current
vector of every live id that is not buffered. For a buffered id it may still
hold an outdated one. The hybrid search overrides the distances of buffered ids
after the index has cut its hits to `k`, so outdated vectors take places that
belong to others: `index_path_agrees_iff` says exactly when that is harmless.
-/

namespace Rekha

open Trace TopK

/-- An index search that returns the `min k len` nearest stored vectors with
their true distances. -/
def ExactSearch (distance : Distance → Embedding → Embedding → F32) (find : GraphSearch) :
    Prop :=
  ∀ space (inner : Graph) q k ef,
    (∀ e ∈ inner.entries, (distance space q e.2).isNaN = false) →
    ∃ f, Nearest (fun e => (distance space q e.2).orderKey) inner.entries k f ∧
      find space inner q k ef = .ok (f.map fun e => (e.1, distance space q e.2))

theorem exactSearch_exactFind (distance : Distance → Embedding → Embedding → F32) :
    ExactSearch distance (exactFind distance) := by
  intro space inner q k ef hnum
  have hnodup : inner.entries.Nodup := List.Nodup.of_map Sigma.fst inner.keys_nodup
  have hmap := List.map_insertionSort
    (r := fun a b : Sigma fun _ : ℕ => Embedding =>
      (distance space q a.2).orderKey ≤ (distance space q b.2).orderKey)
    (s := fun a b : ℕ × F32 => a.2.le b.2 = true)
    (fun e => (e.1, distance space q e.2)) inner.entries
    fun a ha b hb => by simp [Ieee.le, hnum a ha, hnum b hb]
  refine ⟨_, nearest_take_sortOn hnodup, ?_⟩
  rw [exactFind, ← hmap, List.map_take]
  rfl

namespace Collection

def IsBuffered (c : Collection) (id : Id) : Prop := ∃ b ∈ c.buffer, b.id = id

/-! ## What the index holds -/

/-- Before the first checkpoint every vector is in memory and the index agrees
with memory on the ids that are not buffered. -/
structure Synced (c : Collection) : Prop where
  unmapped : c.segments = [] ∧ c.segmentIndex = ∅
  index : ∀ id, ¬ c.IsBuffered id → c.index.vector id = c.memVector id

section Synced

variable {c c' : Collection} {h ops : List Operation}

theorem isBuffered_applyRecord_of_ne {r : WalRecord} {id : Id} (hid : id ≠ r.op.id) :
    (c.applyRecord r).IsBuffered id ↔ c.IsBuffered id := by
  rw [IsBuffered, IsBuffered, applyRecord, applyOperation_buffer]
  have hput : ∀ (key : Id) (new : Record), key = r.op.id → new.id = r.op.id →
      ((∃ b ∈ c.buffer.filter (fun b => decide (b.id ≠ key)) ++ [new], b.id = id) ↔
        ∃ b ∈ c.buffer, b.id = id) := by
    rintro key new rfl hnew
    constructor
    · rintro ⟨b, hb, rfl⟩
      rcases List.mem_append.mp hb with hb | hb
      · exact ⟨b, List.mem_of_mem_filter hb, rfl⟩
      · rw [List.mem_singleton.mp hb] at hid
        exact absurd hnew hid
    · rintro ⟨b, hb, rfl⟩
      exact ⟨b, List.mem_append_left _ (List.mem_filter.mpr ⟨hb, decide_eq_true hid⟩), rfl⟩
  cases hop : r.op with
  | add key e md doc =>
      exact hput key ⟨key, some e, md, doc, r.seq⟩ (by rw [hop]; rfl) (by rw [hop]; rfl)
  | upsert key e md doc =>
      exact hput key ⟨key, some e, md, doc, r.seq⟩ (by rw [hop]; rfl) (by rw [hop]; rfl)
  | update key md doc => exact Iff.rfl
  | delete key =>
      rw [hop] at hid
      constructor
      · rintro ⟨b, hb, rfl⟩
        exact ⟨b, List.mem_of_mem_filter hb, rfl⟩
      · rintro ⟨b, hb, rfl⟩
        exact ⟨b, List.mem_filter.mpr ⟨hb, decide_eq_true hid⟩, rfl⟩

/-- **One record through the tiers**: if the index holds the vectors `v` of the ids
that are not buffered, it holds what the record makes of them. -/
theorem index_applyRecord {v : Id → Option Embedding}
    (hv : ∀ id, ¬ c.IsBuffered id → c.index.vector id = v id) (hx : c.index.Wf) (r : WalRecord)
    (id : Id) (hnot : ¬ (c.applyRecord r).IsBuffered id) :
    (c.applyRecord r).index.vector id = LastWrite.overwrite vectorWrite v r id := by
  rw [Collection.applyRecord, applyOperation_index]
  simp only [LastWrite.overwrite, vectorWrite]
  by_cases hid : id = r.op.id
  · rw [if_pos hid]
    cases hop : r.op with
    | add key e md doc =>
        refine absurd ⟨⟨key, some e, md, doc, r.seq⟩, ?_, by rw [hid, hop]; rfl⟩ hnot
        rw [Collection.applyRecord, applyOperation_buffer, hop]
        exact List.mem_append_right _ (List.mem_singleton_self _)
    | upsert key e md doc =>
        refine absurd ⟨⟨key, some e, md, doc, r.seq⟩, ?_, by rw [hid, hop]; rfl⟩ hnot
        rw [Collection.applyRecord, applyOperation_buffer, hop]
        exact List.mem_append_right _ (List.mem_singleton_self _)
    | update key md doc =>
        refine hv id fun hbuf => hnot ?_
        obtain ⟨b, hb, hbid⟩ := hbuf
        refine ⟨b, ?_, hbid⟩
        rw [Collection.applyRecord, applyOperation_buffer, hop]
        exact hb
    | delete key =>
        rw [hid, hop]
        show (c.index.delete key).vector key = _
        rw [hx.vector_delete, if_pos rfl]
        rfl
  · rw [if_neg hid, Option.getD_none,
      ← hv id fun hbuf => hnot ((isBuffered_applyRecord_of_ne hid).mpr hbuf)]
    cases hop : r.op with
    | delete key =>
        rw [hop] at hid
        show (c.index.delete key).vector id = _
        rw [hx.vector_delete]
        exact if_neg hid
    | _ => rfl

theorem Synced.applyRecord (hs : Synced c) (hx : c.index.Wf) (r : WalRecord) :
    Synced (c.applyRecord r) := by
  have hset := c.applyOperation_settled r.op r.seq
  simp only [settled, Settled.mk.injEq] at hset
  refine ⟨⟨hset.2.2.2.2.2.2.1.trans hs.unmapped.1, hset.2.2.2.2.2.2.2.trans hs.unmapped.2⟩, ?_⟩
  intro id hnot
  rw [memVector_applyRecord]
  exact index_applyRecord hs.index hx r id hnot

theorem Synced.replay : ∀ (rs : List WalRecord) {c : Collection}, Synced c → c.index.Wf →
    Synced (rs.foldl Collection.applyRecord c)
  | [], _, hs, _ => hs
  | r :: rs, _, hs, hx =>
      Synced.replay rs (hs.applyRecord hx r) (applyRecord_index_wf r hx).1

theorem Reindexed.vector {x x' : UsearchIndex} {batch : List Record}
    (h : Reindexed x batch x') (hx : x.Wf) (hnodup : (batch.map Record.id).Nodup) :
    (∀ r ∈ batch, r.embedding.isSome → x'.vector r.id = r.embedding) ∧
      ∀ id, id ∉ batch.map Record.id → x'.vector id = x.vector id := by
  induction h with
  | nil x => exact ⟨fun r hr => absurd hr List.not_mem_nil, fun _ _ => rfl⟩
  | skip hnone _ ih =>
      rw [List.map_cons, List.nodup_cons] at hnodup
      obtain ⟨hin, hout⟩ := ih hx hnodup.2
      refine ⟨fun r hr hsome => ?_, fun id hid => hout id fun hm => hid (List.mem_cons_of_mem _ hm)⟩
      rcases List.mem_cons.mp hr with rfl | hr
      · rw [hnone] at hsome
        exact absurd hsome (by simp)
      · exact hin r hr hsome
  | insert hsome hre hrest ih =>
      rename_i x x₁ x' r e batch
      rw [List.map_cons, List.nodup_cons] at hnodup
      obtain ⟨hin, hout⟩ := ih (reindexed_wf hre hx).1 hnodup.2
      have hstep : ∀ id, x₁.vector id = if id = r.id then some e else x.vector id := by
        intro id
        rw [reindexed_iff_add] at hre
        rw [(hx.delete r.id).vector_add hre, hx.vector_delete]
        split <;> rfl
      refine ⟨fun r' hr' hsome' => ?_, fun id hid => ?_⟩
      · rcases List.mem_cons.mp hr' with rfl | hr'
        · rw [hout r'.id hnodup.1, hstep, if_pos rfl, hsome]
        · exact hin r' hr' hsome'
      · rw [List.map_cons, List.mem_cons, not_or] at hid
        rw [hout id hid.2, hstep, if_neg hid.1]

/-- The vectors `v` are in the two tiers: a buffered id's in the buffer, the others'
in the index. -/
structure Tiered (v : Id → Option Embedding) (c : Collection) : Prop where
  buffer : ∀ b ∈ c.buffer, b.embedding.isSome ∧ b.embedding = v b.id
  index : ∀ id, ¬ c.IsBuffered id → c.index.vector id = v id

variable {v : Id → Option Embedding}

theorem Buffered.tiered (hb : Buffered c)
    (hv : ∀ id, ¬ c.IsBuffered id → c.index.vector id = c.memVector id) :
    Tiered c.memVector c := by
  refine ⟨?_, hv⟩
  intro b hbmem
  obtain ⟨r, hr, hemb, hsome, -⟩ := hb.live b hbmem
  refine ⟨hsome, ?_⟩
  rw [memVector, hr, Option.bind_some, hemb]

theorem Tiered.flush (ht : Tiered v c) (hx : c.index.Wf) (hnodup : (c.buffer.map Record.id).Nodup)
    (hf : flushBuffer c = .ok () c') : Tiered v c' := by
  obtain ⟨x, hre, rfl⟩ := flushBuffer_ok hf
  obtain ⟨hin, hout⟩ := hre.vector hx hnodup
  refine ⟨fun b hb => absurd hb List.not_mem_nil, fun id _ => ?_⟩
  show x.vector id = v id
  by_cases hbuf : c.IsBuffered id
  · obtain ⟨b, hbmem, rfl⟩ := hbuf
    obtain ⟨hsome, hemb⟩ := ht.buffer b hbmem
    rw [hin b hbmem hsome, hemb]
  · rw [hout id, ht.index id hbuf]
    intro hmem
    obtain ⟨b, hbmem, hid⟩ := List.mem_map.mp hmem
    exact hbuf ⟨b, hbmem, hid⟩

theorem Tiered.cover (ht : Tiered v c) (hx : c.index.Wf) (id : Id) :
    (v id).isSome ↔ c.IsBuffered id ∨ c.index.contains id := by
  by_cases hbuf : c.IsBuffered id
  · refine iff_of_true ?_ (Or.inl hbuf)
    obtain ⟨b, hb, rfl⟩ := hbuf
    obtain ⟨hsome, hemb⟩ := ht.buffer b hb
    rwa [hemb] at hsome
  · rw [← ht.index id hbuf, hx.isSome_vector]
    exact ⟨Or.inr, fun h => h.resolve_left hbuf⟩

theorem Synced.flush (hs : Synced c) (hx : c.index.Wf) (hb : Buffered c)
    (hf : flushBuffer c = .ok () c') : Synced c' := by
  have ht := (hb.tiered hs.index).flush hx hb.nodup hf
  obtain ⟨x, -, rfl⟩ := flushBuffer_ok hf
  exact ⟨hs.unmapped, ht.index⟩

theorem Synced.step {p : Phase} (hs : c.dir.checkpointJson = none → Synced c)
    (hb : Buffered c) (hx : c.index.Wf) (hp : p.isWriteOrFlush) (hstep : Step p ops c c') :
    c'.dir.checkpointJson = none → Synced c' := by
  intro hnone
  cases hstep with
  | infer dim hzero => exact ⟨(hs hnone).unmapped, (hs hnone).index⟩
  | persist => exact ⟨(hs hnone).unmapped, (hs hnone).index⟩
  | commit hacc hw =>
      obtain ⟨w, -, -, rfl⟩ := writeOps_ok hw
      have hdir := congrArg Settled.dir
        (foldl_applyRecord_settled (numbered c.wal.lastSeq ops) { c with wal := w })
      simp only [settled] at hdir
      rw [hdir] at hnone
      have hlogged : Synced { c with wal := w } := ⟨(hs hnone).unmapped, (hs hnone).index⟩
      exact hlogged.replay _ hx
  | flush hf =>
      have hdir : c'.dir = c.dir := by
        obtain ⟨x, -, rfl⟩ := flushBuffer_ok hf
        rfl
      exact (hs (hdir ▸ hnone)).flush hx hb hf
  | checkpoint hck =>
      rcases checkpoint_ok hck with ⟨-, rfl⟩ | ⟨-, files, -, rfl⟩
      · exact hs hnone
      · exact absurd hnone (by simp [checkpointed, checkpointFiles])
  | rebuild hr => exact absurd rfl hp.1
  | restart order ho => exact absurd rfl hp.2

theorem synced_fresh (config : CollectionConfig) : Synced (Collection.fresh config) where
  unmapped := ⟨rfl, rfl⟩
  index := fun id _ => by simp [fresh, new, UsearchIndex.vector, UsearchIndex.withHnsw, memVector]

end Synced

end Collection

open Collection

theorem Reachable.synced {config : CollectionConfig} {h : List Operation} {c : Collection}
    (hr : Reachable Call.isWriteOrFlush config h c) (hnone : c.dir.checkpointJson = none) :
    Synced c := by
  have hall := (hr.steps isWriteOrFlush_phases).invariant
    (I := fun h c => Logged h c ∧ Current h c ∧ Buffered c ∧
      (c.dir.checkpointJson = none → Synced c))
    ⟨logged_fresh config, current_fresh config, Buffered.of_nil rfl,
      fun _ => synced_fresh config⟩
    fun _ _ _ _ ⟨hl, hc, hb, hs⟩ ⟨_, hp, hstep⟩ => ⟨hl.step hstep, hc.step hl hp hstep,
      hb.step hl hstep, Synced.step hs hb hc.wf hp hstep⟩
  exact hall.2.2.2 hnone

namespace Collection

/-! ## The two paths -/

section Paths

variable {K : Kernels} {c : Collection} {q : Embedding} {config : CollectionConfig}
  {h : List Operation} {k ef : ℕ}

/-- The unfiltered query by way of the exact scan. -/
def scanResults (K : Kernels) (c : Collection) (q : Embedding) (k : ℕ) : List ScoredPoint :=
  (sortByDistance K (bruteForce K c q c.config.space)).take (max k 1)

def indexResults (K : Kernels) (c : Collection) (q : Embedding) (k ef : ℕ) :
    Except EngineError (List ScoredPoint) :=
  match c.hybridSearch K q (max k 1) ef c.config.space with
  | .error e => .error e
  | .ok out => .ok ((sortByDistance K out).take (max k 1))

theorem query_unfiltered {options : QueryOptions} (hF : options.whereFilter = none)
    (hq : c.config.dimension ≠ 0 → q.length = c.config.dimension) :
    c.query K q k options =
      if c.index.len + c.buffer.length ≤ c.config.hnsw.maxScan then .ok (scanResults K c q k)
      else indexResults K c q k
        (if options.ef = 0 then c.config.hnsw.efSearch else options.ef) := by
  have hdim : ¬ (c.config.dimension ≠ 0 ∧ q.length ≠ c.config.dimension) :=
    fun h => h.2 (hq h.1)
  rw [query, if_neg hdim, hF]
  by_cases hscan : c.index.len + c.buffer.length ≤ c.config.hnsw.maxScan
  · simp only [if_pos hscan]
    rfl
  · simp only [if_neg hscan]
    unfold indexResults
    cases c.hybridSearch K q (max k 1)
      (if options.ef = 0 then c.config.hnsw.efSearch else options.ef) c.config.space <;> rfl

/-- The distances from the query differ between ids, over the vectors in memory
and those in the index, and none is NaN. -/
structure DistinctDistances (K : Kernels) (c : Collection) (q : Embedding) : Prop where
  number : ∀ id v, (c.memVector id = some v ∨ c.index.vector id = some v) →
    (K.distance c.config.space q v).isNaN = false
  distinct : ∀ id v id' v', (c.memVector id = some v ∨ c.index.vector id = some v) →
    (c.memVector id' = some v' ∨ c.index.vector id' = some v') → id ≠ id' →
    (K.distance c.config.space q v).orderKey ≠ (K.distance c.config.space q v').orderKey

/-- The ids of a collection, each once, with the vectors the query can meet. -/
def metVectors (c : Collection) : List (Id × Embedding) :=
  (c.records.entries.map Sigma.fst ++ c.index.labels.entries.map Sigma.fst).flatMap fun id =>
    ((c.memVector id).toList ++ (c.index.vector id).toList).map fun v => (id, v)

theorem mem_metVectors {id : Id} {v : Embedding} :
    (id, v) ∈ c.metVectors ↔ c.memVector id = some v ∨ c.index.vector id = some v := by
  rw [metVectors, List.mem_flatMap]
  constructor
  · rintro ⟨id', -, hmem⟩
    obtain ⟨v', hv', heq⟩ := List.mem_map.mp hmem
    rw [Prod.mk.injEq] at heq
    obtain ⟨rfl, rfl⟩ := heq
    simpa [Option.mem_toList] using hv'
  · intro h
    refine ⟨id, ?_, List.mem_map.mpr ⟨v, by simpa [Option.mem_toList] using h, rfl⟩⟩
    rw [List.mem_append]
    rcases h with h | h
    · obtain ⟨r, hr, -⟩ := Option.bind_eq_some_iff.mp h
      exact Or.inl (List.mem_map_of_mem (FinMap.mem_entries_iff.mpr hr))
    · obtain ⟨label, hlabel, -⟩ := Option.bind_eq_some_iff.mp h
      exact Or.inr (List.mem_map_of_mem (FinMap.mem_entries_iff.mpr hlabel))

instance : Decidable (DistinctDistances K c q) :=
  decidable_of_iff
    ((∀ e ∈ c.metVectors, (K.distance c.config.space q e.2).isNaN = false) ∧
      ∀ e ∈ c.metVectors, ∀ e' ∈ c.metVectors, e.1 ≠ e'.1 →
        (K.distance c.config.space q e.2).orderKey ≠ (K.distance c.config.space q e'.2).orderKey)
    ⟨fun h => ⟨fun id v hv => h.1 (id, v) (mem_metVectors.mpr hv),
        fun id v id' v' hv hv' => h.2 (id, v) (mem_metVectors.mpr hv) (id', v')
          (mem_metVectors.mpr hv')⟩,
      fun h => ⟨fun e he => h.number e.1 e.2 (mem_metVectors.mp he),
        fun e he e' he' => h.distinct e.1 e.2 e'.1 e'.2 (mem_metVectors.mp he)
          (mem_metVectors.mp he')⟩⟩

/-- How many live vectors are nearer to the query than `v`. -/
def nearerLive (K : Kernels) (c : Collection) (q v : Embedding) : ℕ :=
  c.records.entries.countP fun e => e.2.embedding.any fun u =>
    (K.distance c.config.space q u).lt (K.distance c.config.space q v)

/-- How many vectors stored in the index are nearer to the query than `v`. -/
def nearerIndexed (K : Kernels) (c : Collection) (q v : Embedding) : ℕ :=
  c.index.inner.entries.countP fun e =>
    (K.distance c.config.space q e.2).lt (K.distance c.config.space q v)

/-- A point that carries the live payload of its id. -/
def pointOf (K : Kernels) (c : Collection) (q : Embedding) (id : Id) (v : Embedding) :
    ScoredPoint :=
  ⟨id, K.distance c.config.space q v, (c.records.lookup id).bind Record.metadata,
    (c.records.lookup id).bind Record.document⟩

theorem Synced.loadVector (hs : Synced c) (id : Id) : c.loadVector id = none := by
  rw [Collection.loadVector, hs.unmapped.2]
  rfl

theorem Synced.mem_bruteForce (hs : Synced c) {p : ScoredPoint} :
    p ∈ bruteForce K c q c.config.space ↔
      ∃ v, c.memVector p.id = some v ∧ p = pointOf K c q p.id v := by
  rw [bruteForce, List.mem_filterMap]
  constructor
  · rintro ⟨⟨id, r⟩, he, hmap⟩
    rw [hs.loadVector, Option.none_or] at hmap
    obtain ⟨v, hv, rfl⟩ := Option.map_eq_some_iff.mp hmap
    have hr := FinMap.mem_entries_iff.mp ((K.order.perm c.records).mem_iff.mp he)
    refine ⟨v, ?_, ?_⟩
    · rw [memVector, hr]
      exact hv
    · rw [pointOf, hr]
      rfl
  · rintro ⟨v, hv, hp⟩
    rw [memVector, Option.bind_eq_some_iff] at hv
    obtain ⟨r, hr, hv⟩ := hv
    refine ⟨⟨p.id, r⟩, (K.order.perm c.records).mem_iff.mpr (FinMap.mem_entries_iff.mpr hr), ?_⟩
    rw [hs.loadVector, Option.none_or, hv, Option.map_some, hp, pointOf, hr]
    rfl

theorem nodup_bruteForce : ((bruteForce K c q c.config.space).map ScoredPoint.id).Nodup := by
  have hsub : ((bruteForce K c q c.config.space).map ScoredPoint.id).Sublist
      ((K.order.iter c.records).map Sigma.fst) := by
    refine keys_filterMap_sublist (fun e b hb => ?_) _
    obtain ⟨v, -, rfl⟩ := Option.map_eq_some_iff.mp hb
    rfl
  exact hsub.nodup (((K.order.perm c.records).map _).nodup_iff.mpr c.records.keys_nodup)

theorem Synced.countP_bruteForce (hs : Synced c) (hdist : DistinctDistances K c q) {id : Id}
    {v : Embedding} (hv : c.memVector id = some v) :
    (bruteForce K c q c.config.space).countP
        (fun b => decide (b.key < (pointOf K c q id v).key)) = nearerLive K c q v := by
  rw [nearerLive, bruteForce, List.countP_filterMap, ← (K.order.perm c.records).countP_eq]
  apply List.countP_congr
  intro e he
  have hr := FinMap.mem_entries_iff.mp ((K.order.perm c.records).mem_iff.mp he)
  rw [hs.loadVector, Option.none_or]
  cases hemb : e.2.embedding with
  | none => simp
  | some u =>
      have hu : c.memVector e.1 = some u := by
        rw [memVector, hr]
        exact hemb
      rw [Option.map_some, Option.map_some, Option.getD_some, Option.any_some]
      simp only [Ieee.lt, hdist.number id v (Or.inl hv), hdist.number e.1 u (Or.inl hu),
        ScoredPoint.key, pointOf, Bool.not_false, Bool.true_and]
      exact Iff.rfl

theorem exists_id_of_stored {x : UsearchIndex} (hx : x.Wf) {e : Sigma fun _ : ℕ => Embedding}
    (he : e ∈ x.inner.entries) : ∃ id, x.ids.lookup e.1 = some id ∧
      x.labels.lookup id = some e.1 ∧ x.vector id = some e.2 := by
  have hl := FinMap.mem_entries_iff.mp he
  have hsome := hx.graph e.1
  rw [hl] at hsome
  obtain ⟨id, hid⟩ := Option.isSome_iff_exists.mp hsome.symm
  have hlabel := hx.labels_of_ids e.1 id hid
  refine ⟨id, hid, hlabel, ?_⟩
  rw [UsearchIndex.vector, hlabel, Option.bind_some, hl]

theorem mem_named_iff {ids : FinMap ℕ Id} {score : Embedding → F32}
    {f : List (Sigma fun _ : ℕ => Embedding)} {hit : IndexHit} :
    hit ∈ ((f.map fun e => (e.1, score e.2)).filterMap fun p =>
        (ids.lookup p.1).map fun id => (⟨id, p.2⟩ : IndexHit)) ↔
      ∃ e ∈ f, ids.lookup e.1 = some hit.id ∧ hit.distance = score e.2 := by
  simp only [List.mem_filterMap, List.mem_map, Option.map_eq_some_iff]
  constructor
  · rintro ⟨p, ⟨e, he, rfl⟩, id, hid, rfl⟩
    exact ⟨e, he, hid, rfl⟩
  · rintro ⟨e, he, hid, hd⟩
    exact ⟨_, ⟨e, he, rfl⟩, hit.id, hid, by rw [← hd]⟩

theorem DistinctDistances.stored_inj (hdist : DistinctDistances K c q) (hx : c.index.Wf)
    {x y : Sigma fun _ : ℕ => Embedding} (hxmem : x ∈ c.index.inner.entries)
    (hymem : y ∈ c.index.inner.entries)
    (heq : (K.distance c.config.space q x.2).orderKey =
      (K.distance c.config.space q y.2).orderKey) : x = y := by
  obtain ⟨id, -, hlx, hvx⟩ := exists_id_of_stored hx hxmem
  obtain ⟨id', -, hly, hvy⟩ := exists_id_of_stored hx hymem
  have hid : id = id' := by
    by_contra hne
    exact hdist.distinct id x.2 id' y.2 (Or.inr hvx) (Or.inr hvy) hne heq
  subst hid
  rw [hlx, Option.some.injEq] at hly
  rw [hvx, Option.some.injEq] at hvy
  exact Sigma.ext hly (heq_of_eq hvy)

theorem search_exact (hx : c.index.Wf) (hspace : c.index.space = c.config.space)
    (hdist : DistinctDistances K c q) (hfind : ExactSearch K.distance K.find)
    (hq : q.length = c.index.dimension) :
    ∃ hits, c.index.search K.find q k ef = .ok hits ∧ ∀ id,
      (∀ hit ∈ hits, hit.id = id → ∃ v, c.index.vector id = some v ∧
        hit.distance = K.distance c.config.space q v) ∧
      ∀ v, c.index.vector id = some v →
        ((∃ hit ∈ hits, hit.id = id) ↔ nearerIndexed K c q v < k) := by
  have hnum : ∀ e ∈ c.index.inner.entries,
      (K.distance c.config.space q e.2).isNaN = false := by
    intro e he
    obtain ⟨id, -, -, hv⟩ := exists_id_of_stored hx he
    exact hdist.number id e.2 (Or.inr hv)
  obtain ⟨f, hnear, hfound⟩ := hfind c.config.space c.index.inner q k ef hnum
  have hnodup : c.index.inner.entries.Nodup := List.Nodup.of_map Sigma.fst c.index.inner.keys_nodup
  have hsearch : c.index.search K.find q k ef = .ok
      ((f.map fun e => (e.1, K.distance c.config.space q e.2)).filterMap fun p =>
        (c.index.ids.lookup p.1).map fun id => ⟨id, p.2⟩) := by
    rw [UsearchIndex.search, if_neg (not_not.mpr hq), hspace, hfound]
  refine ⟨_, hsearch, fun id => ⟨fun hit hmem hid => ?_, fun v hv => ?_⟩⟩
  · obtain ⟨e, he, hids, hd⟩ := mem_named_iff.mp hmem
    obtain ⟨id', hids', -, hvec⟩ := exists_id_of_stored hx (hnear.sub he)
    rw [hids', Option.some.injEq] at hids
    rw [← hid, ← hids]
    exact ⟨e.2, hvec, hd⟩
  · rw [UsearchIndex.vector, Option.bind_eq_some_iff] at hv
    obtain ⟨label, hlabel, hinner⟩ := hv
    have hmem : (⟨label, v⟩ : Sigma fun _ : ℕ => Embedding) ∈ c.index.inner.entries :=
      FinMap.mem_entries_iff.mpr hinner
    have hrank : c.index.inner.entries.countP (fun b =>
        decide ((K.distance c.config.space q b.2).orderKey <
          (K.distance c.config.space q v).orderKey)) = nearerIndexed K c q v := by
      apply List.countP_congr
      intro e he
      simp [Ieee.lt, hnum e he, hnum _ hmem]
    rw [← hrank]
    have hmemf := hnear.mem_iff (a := ⟨label, v⟩) hnodup
      fun x hxmem y hymem heq => hdist.stored_inj hx hxmem hymem heq
    constructor
    · rintro ⟨hit, hhitmem, hid⟩
      obtain ⟨e, he, hids, -⟩ := mem_named_iff.mp hhitmem
      have hl := hx.labels_of_ids e.1 hit.id hids
      rw [hid, hlabel, Option.some.injEq] at hl
      have hv' := FinMap.mem_entries_iff.mp (hnear.sub he)
      rw [← hl, hinner, Option.some.injEq] at hv'
      have he' : e = ⟨label, v⟩ := Sigma.ext hl.symm (heq_of_eq hv'.symm)
      exact (hmemf.mp (he' ▸ he)).2
    · intro hlt
      exact ⟨⟨id, _⟩, mem_named_iff.mpr ⟨⟨label, v⟩, hmemf.mpr ⟨hmem, hlt⟩,
        hx.ids_of_labels id label hlabel, rfl⟩, rfl⟩

/-- The hybrid search scores the buffered ids and the ids the index finds, all by
their vectors in memory. -/
theorem mem_hybridSearch (hs : Synced c) (hb : Buffered c) {hits : List IndexHit}
    (hhits : ∀ id, ∀ hit ∈ hits, hit.id = id → ∃ v, c.index.vector id = some v ∧
      hit.distance = K.distance c.config.space q v) {p : ScoredPoint} :
    p ∈ buildScored K c (insertBuffer K (fun _ => true) q c.config.space
        (insertHits (fun _ => true) ∅ hits) c.buffer) ↔
      ∃ v, c.memVector p.id = some v ∧ p = pointOf K c q p.id v ∧
        (c.IsBuffered p.id ∨ ∃ hit ∈ hits, hit.id = p.id) := by
  have hpoint : ∀ v, p = pointOf K c q p.id v ↔
      p.distance = K.distance c.config.space q v ∧
        p.metadata = (c.records.lookup p.id).bind Record.metadata ∧
        p.document = (c.records.lookup p.id).bind Record.document := by
    intro v
    constructor
    · intro hp
      rw [hp]
      exact ⟨rfl, rfl, rfl⟩
    · rintro ⟨hd, hm, hdoc⟩
      rw [pointOf, ← hd, ← hm, ← hdoc]
  rw [mem_buildScored, lookup_insertBuffer _ _ _ _ hb.nodup, lookup_insertHits,
    AList.lookup_empty, Option.none_or]
  cases hfind : c.buffer.find? fun b => decide (b.id = p.id) with
  | some b =>
      have hbmem := List.mem_of_find?_eq_some hfind
      have hid : b.id = p.id := by simpa using List.find?_some hfind
      obtain ⟨r, hr, hemb, hsome, -⟩ := hb.live b hbmem
      obtain ⟨e, he⟩ := Option.isSome_iff_exists.mp hsome
      have hmem : c.memVector p.id = some e := by
        rw [memVector, ← hid, hr]
        exact hemb.trans he
      rw [Option.bind_some, bufferScore, if_pos rfl, he, Option.map_some, Option.some_or,
        Option.some.injEq, hmem]
      constructor
      · rintro ⟨hd, hm, hdoc⟩
        exact ⟨e, rfl, (hpoint e).mpr ⟨hd.symm, hm, hdoc⟩, Or.inl ⟨b, hbmem, hid⟩⟩
      · rintro ⟨v, hv, hp, -⟩
        obtain ⟨hd, hm, hdoc⟩ := (hpoint v).mp hp
        rw [Option.some.injEq] at hv
        exact ⟨hv ▸ hd.symm, hm, hdoc⟩
  | none =>
      have hnot : ¬ c.IsBuffered p.id := by
        rintro ⟨b, hbmem, hid⟩
        exact absurd (decide_eq_true hid) (List.find?_eq_none.mp hfind b hbmem)
      rw [Option.bind_none, Option.none_or]
      simp only [Bool.true_and]
      constructor
      · rintro ⟨hd, hm, hdoc⟩
        obtain ⟨hit, hhit, hdist⟩ := Option.map_eq_some_iff.mp hd
        have hmem := List.mem_of_find?_eq_some hhit
        have hid : hit.id = p.id := by simpa using List.find?_some hhit
        obtain ⟨v, hv, hvd⟩ := hhits p.id hit hmem hid
        rw [hs.index p.id hnot] at hv
        exact ⟨v, hv, (hpoint v).mpr ⟨hdist.symm.trans hvd, hm, hdoc⟩, Or.inr ⟨hit, hmem, hid⟩⟩
      · rintro ⟨v, hv, hp, hwhy⟩
        obtain ⟨hd, hm, hdoc⟩ := (hpoint v).mp hp
        obtain ⟨hit, hmem, hid⟩ := hwhy.resolve_left hnot
        refine ⟨?_, hm, hdoc⟩
        cases hhit : hits.find? fun hit => decide (hit.id = p.id) with
        | none => exact absurd (decide_eq_true hid) (List.find?_eq_none.mp hhit hit hmem)
        | some hit' =>
            have hid' : hit'.id = p.id := by simpa using List.find?_some hhit
            obtain ⟨v', hv', hvd'⟩ := hhits p.id hit' (List.mem_of_find?_eq_some hhit) hid'
            rw [hs.index p.id hnot, hv, Option.some.injEq] at hv'
            rw [Option.map_some, hvd', hd, hv']

/-- **The index path agrees with the exact scan** exactly when every id that is
among the `k` nearest live ones and not buffered is also among the `k` nearest
of the vectors stored in the index. -/
theorem index_path_agrees_iff (hr : Reachable Call.isWriteOrFlush config h c)
    (hd : config.dimension ≠ 0) (hnone : c.dir.checkpointJson = none)
    (hfind : ExactSearch K.distance K.find) (hq : q.length = config.dimension)
    (hdist : DistinctDistances K c q) :
    indexResults K c q k ef = .ok (scanResults K c q k) ↔
      ∀ id v, ¬ c.IsBuffered id → c.index.vector id = some v →
        nearerLive K c q v < max k 1 → nearerIndexed K c q v < max k 1 := by
  have hs := hr.synced hnone
  have hb := hr.buffered
  have hc := hr.current
  have hf := hr.fits hd
  obtain ⟨hits, hsearch, hspec⟩ := @search_exact K c q (max k 1) ef hc.wf hc.space hdist
    hfind (hq.trans hf.dimension.symm)
  set out := buildScored K c (insertBuffer K (fun _ => true) q c.config.space
    (insertHits (fun _ => true) ∅ hits) c.buffer) with hout
  set scan := bruteForce K c q c.config.space with hscan
  have hmemOut : ∀ {p}, p ∈ out ↔ _ := fun {p} =>
    mem_hybridSearch hs hb (fun id hit hit' hid => (hspec id).1 hit hit' hid)
  have hmemScan : ∀ {p}, p ∈ scan ↔ _ := fun {p} => hs.mem_bruteForce
  -- the index path offers some of the scanned points, under the same distances
  have hsub : out ⊆ scan := by
    intro p hp
    obtain ⟨v, hv, hpv, -⟩ := hmemOut.mp hp
    exact hmemScan.mpr ⟨v, hv, hpv⟩
  have hnumber : ∀ p ∈ scan, p.distance.isNaN = false := by
    intro p hp
    obtain ⟨v, hv, hpv⟩ := hmemScan.mp hp
    rw [hpv]
    exact hdist.number p.id v (Or.inl hv)
  have hinj : ∀ x ∈ scan, ∀ y ∈ scan, x.key = y.key → x = y := by
    intro x hx y hy hkey
    obtain ⟨v, hv, hxv⟩ := hmemScan.mp hx
    obtain ⟨u, hu, hyu⟩ := hmemScan.mp hy
    have hid : x.id = y.id := by
      by_contra hne
      refine hdist.distinct x.id v y.id u (Or.inl hv) (Or.inl hu) hne ?_
      rw [hxv, hyu] at hkey
      exact hkey
    rw [hid, hu, Option.some.injEq] at hv
    rw [hxv, hyu, hid, hv]
  have hnodupScan : scan.Nodup := List.Nodup.of_map _ nodup_bruteForce
  have hnodupOut : out.Nodup := List.Nodup.of_map _ (nodup_buildScored _)
  rw [indexResults, hybridSearch, hsearch]
  simp only [Except.ok.injEq]
  rw [scanResults, ← hout, ← hscan, sortByDistance_eq hnumber,
    sortByDistance_eq fun p hp => hnumber p (hsub hp),
    take_sortOn_eq_iff hnodupScan hnodupOut hsub hinj]
  have hrank : ∀ {p}, p ∈ (sortOn ScoredPoint.key scan).take (max k 1) ↔ _ := fun {p} =>
    (nearest_take_sortOn hnodupScan).mem_iff hnodupScan hinj
  constructor
  · intro hall id v hnot hv hlive
    have hmem : c.memVector id = some v := (hs.index id hnot).symm.trans hv
    have hp : pointOf K c q id v ∈ scan := hmemScan.mpr ⟨v, hmem, rfl⟩
    obtain ⟨-, -, -, hwhy⟩ := hmemOut.mp (hall _ (hrank.mpr
      ⟨hp, (hs.countP_bruteForce hdist hmem).trans_lt hlive⟩))
    exact ((hspec id).2 v hv).mp (hwhy.resolve_left hnot)
  · intro hcond p hp
    obtain ⟨hpscan, hlive⟩ := hrank.mp hp
    obtain ⟨v, hv, hpv⟩ := hmemScan.mp hpscan
    refine hmemOut.mpr ⟨v, hv, hpv, ?_⟩
    by_cases hbuf : c.IsBuffered p.id
    · exact Or.inl hbuf
    · have hstored : c.index.vector p.id = some v := (hs.index p.id hbuf).trans hv
      rw [hpv, hs.countP_bruteForce hdist hv] at hlive
      exact Or.inr (((hspec p.id).2 v hstored).mpr (hcond p.id v hbuf hstored hlive))

end Paths

end Collection

/-- The squared distance of `zero`, `one` and `two` from `zero`. -/
def squareFromZero : Distance → Embedding → Embedding → F32 := fun _ _ v =>
  if v = two then ⟨0x40800000#32⟩ else v.headD ⟨0#32⟩

/-- A collection that always takes the index path. -/
def indexedConfig : CollectionConfig := { demoConfig with hnsw := { maxScan := 0 } }

/-- Two flushed records. -/
theorem index_path_agrees_iff_demo : ∃ c, runAll [.add true ["a", "b"] [zero, one] none none,
      .flush] (Collection.fresh indexedConfig) = .ok c ∧
    (indexResults (exactKernels squareFromZero) c zero 1 100 =
        .ok (scanResults (exactKernels squareFromZero) c zero 1) ↔
      ∀ id v, ¬ c.IsBuffered id → c.index.vector id = some v →
        nearerLive (exactKernels squareFromZero) c zero v < max 1 1 →
          nearerIndexed (exactKernels squareFromZero) c zero v < max 1 1) := by
  obtain ⟨c, hrun, hP⟩ : ∃ c, runAll [.add true ["a", "b"] [zero, one] none none, .flush]
      (Collection.fresh indexedConfig) = .ok c ∧
      decide (c.dir.checkpointJson.isNone ∧
        DistinctDistances (exactKernels squareFromZero) c zero) = true :=
    exists_runAll (by decide +kernel)
  obtain ⟨hnone, hdist⟩ := of_decide_eq_true hP
  have hr : Reachable Call.isWriteOrFlush indexedConfig _ c := Reachable.fresh.runAll
    (by simp [Call.isWriteOrFlush]) hrun
  exact ⟨c, hrun, index_path_agrees_iff hr (by decide) (Option.isNone_iff_eq_none.mp hnone)
    (exactSearch_exactFind squareFromZero) rfl hdist⟩

/-- **An outdated vector takes the place of the nearest record**: `a` moves away
while its old vector is the nearest in the index, so `b` is never fetched. -/
theorem outdated_vector_wins : ∃ K h c, ExactSearch K.distance K.find ∧
    Reachable Call.isWriteOrFlush indexedConfig h c ∧ c.dir.checkpointJson = none ∧
    DistinctDistances K c zero ∧ c.query K zero 1 {} = indexResults K c zero 1 100 ∧
    indexResults K c zero 1 100 ≠ .ok (scanResults K c zero 1) := by
  let calls : List Call := [.add true ["a", "b"] [zero, one] none none, .flush,
    .upsert true ["a"] [two] none none]
  let K := exactKernels squareFromZero
  obtain ⟨c, hrun, hP⟩ : ∃ c, runAll calls (Collection.fresh indexedConfig) = .ok c ∧
      decide (c.dir.checkpointJson.isNone ∧ DistinctDistances K c zero ∧
        c.config.dimension = 1 ∧ ¬ c.index.len + c.buffer.length ≤ c.config.hnsw.maxScan ∧
        c.config.hnsw.efSearch = 100 ∧
        (indexResults K c zero 1 100).toOption.map (List.map ScoredPoint.id) = some ["a"] ∧
        (scanResults K c zero 1).map ScoredPoint.id = ["b"]) = true :=
    exists_runAll (by decide +kernel)
  obtain ⟨hnone, hdist, hdim, hmany, hef, hindex, hscan⟩ := of_decide_eq_true hP
  have hr : Reachable Call.isWriteOrFlush indexedConfig _ c := Reachable.fresh.runAll
    (by simp [calls, Call.isWriteOrFlush]) hrun
  refine ⟨K, _, c, exactSearch_exactFind squareFromZero, hr, Option.isNone_iff_eq_none.mp hnone,
    hdist, ?_, fun heq => ?_⟩
  · have hq : c.config.dimension ≠ 0 → zero.length = c.config.dimension := fun _ => hdim.symm
    have hquery := query_unfiltered (K := K) (k := 1)
      (show ({} : QueryOptions).whereFilter = none from rfl) hq
    rwa [if_neg hmany, if_pos rfl, hef] at hquery
  · rw [heq] at hindex
    simp [Except.toOption, hscan] at hindex

end Rekha
