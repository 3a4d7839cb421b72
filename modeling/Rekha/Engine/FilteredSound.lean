import Rekha.Engine.Filtered

/-!
# Soundness of filtered queries

Which record a filtered query returns is decided by two copies of its metadata,
the buffered one and the indexed one, and the distance comes from the buffered,
the in-memory or the indexed vector. In a run of writes and flushes a vector in
memory is always the last one assigned; the other copies may be stale.
`FilterSound` is the exact condition under which every returned point is right.
-/

namespace Rekha

open Trace LastWrite TopK

/-- The vectors after a history: the last one assigned to each id. -/
def foldVector (h : List Operation) (id : Id) : Option Embedding :=
  (lastWrite (fun r => Collection.vectorWrite r id) (Collection.numbered 0 h)).getD none

/-- A graph walk that reports stored vectors with their true distances. -/
def Truthful (distance : Distance → Embedding → Embedding → F32) (find : GraphSearch) : Prop :=
  ∀ space inner q k ef found, find space inner q k ef = .ok found →
    ∀ p ∈ found, ∃ v, inner.lookup p.1 = some v ∧ p.2 = distance space q v

def findLabel (distance : Distance → Embedding → Embedding → F32) (label : ℕ) : GraphSearch :=
  fun space inner q _ _ =>
    .ok ((inner.lookup label).toList.map fun v => (label, distance space q v))

theorem truthful_findLabel (distance : Distance → Embedding → Embedding → F32) (label : ℕ) :
    Truthful distance (findLabel distance label) := by
  intro space inner q k ef found hfound p hp
  obtain rfl := Except.ok.inj hfound
  obtain ⟨v, hv, rfl⟩ := List.mem_map.mp hp
  exact ⟨v, Option.mem_toList.mp hv, rfl⟩

def labelKernels (distance : Distance → Embedding → Embedding → F32) (label : ℕ) : Kernels :=
  { exactKernels distance with find := findLabel distance label }

namespace Collection

/-! ## Vectors along runs of writes and flushes -/

/-- A vector in memory is the last one assigned, and the index is well formed. -/
structure Current (h : List Operation) (c : Collection) : Prop where
  memory : ∀ id e, c.memVector id = some e → foldVector h id = some e
  wf : c.index.Wf
  space : c.index.space = c.config.space

section Current

variable {c c' : Collection} {h ops : List Operation}

theorem foldVector_append (h ops : List Operation) (id : Id) : foldVector (h ++ ops) id =
    (lastWrite (fun r => vectorWrite r id) (numbered h.length ops)).getD (foldVector h id) := by
  rw [foldVector, numbered_append, lastWrite_append, Nat.zero_add, foldVector]
  cases lastWrite (fun r => vectorWrite r id) (numbered h.length ops) <;> rfl

theorem Current.step {p : Phase} (hc : Current h c) (hl : Logged h c) (hp : p.isWriteOrFlush)
    (hs : Step p ops c c') : Current (h ++ ops) c' := by
  cases hs with
  | infer dim hzero =>
      rw [List.append_nil]
      exact ⟨hc.memory, hc.wf, hc.space⟩
  | persist =>
      rw [List.append_nil]
      exact ⟨hc.memory, hc.wf, hc.space⟩
  | commit hacc hw =>
      obtain ⟨w, -, -, rfl⟩ := writeOps_ok hw
      have hwf := (foldl_applyRecord_index_wf (numbered c.wal.lastSeq ops)
        (c := { c with wal := w }) hc.wf).1
      have hspace := foldl_applyRecord_index_space (numbered c.wal.lastSeq ops)
        { c with wal := w }
      have hconfig := congrArg Settled.config
        (foldl_applyRecord_settled (numbered c.wal.lastSeq ops) { c with wal := w })
      simp only [settled] at hconfig
      refine ⟨fun id e he => ?_, hwf, by rw [hspace, hconfig]; exact hc.space⟩
      rw [memVector_foldl, hl.last] at he
      rw [foldVector_append]
      cases hlw : lastWrite (fun r => vectorWrite r id) (numbered h.length ops) with
      | none =>
          rw [hlw] at he
          exact hc.memory id e he
      | some v =>
          rw [hlw] at he
          exact he
  | flush hf =>
      rw [List.append_nil]
      obtain ⟨x, hx, rfl⟩ := flushBuffer_ok hf
      exact ⟨hc.memory, (hx.wf hc.wf).1, hx.space.trans hc.space⟩
  | checkpoint hck =>
      rw [List.append_nil]
      rcases checkpoint_ok hck with ⟨-, rfl⟩ | ⟨-, files, -, rfl⟩
      · exact hc
      · exact ⟨fun id e he => hc.memory id e (memVector_of_stripped he), hc.wf, hc.space⟩
  | rebuild hr => exact absurd rfl hp.1
  | restart order ho => exact absurd rfl hp.2

theorem current_fresh (config : CollectionConfig) : Current [] (Collection.fresh config) where
  memory := fun id e he => absurd he (by simp [memVector, fresh, new])
  wf := UsearchIndex.wf_withHnsw _ _
  space := rfl

end Current

end Collection

open Collection

theorem Reachable.current {config : CollectionConfig} {h : List Operation} {c : Collection}
    (hr : Reachable Call.isWriteOrFlush config h c) : Current h c := by
  have hboth := (hr.steps isWriteOrFlush_phases).invariant
    (I := fun h c => Logged h c ∧ Current h c) ⟨logged_fresh config, current_fresh config⟩
    fun _ _ _ _ hi ⟨_, hp, hs⟩ => ⟨hi.1.step hs, hi.2.step hi.1 hp hs⟩
  exact hboth.2

namespace Collection

/-! ## The over-fetched graph walk -/

section Walk

variable {distance : Distance → Embedding → Embedding → F32} {c : Collection}
  {F : WhereFilter} {q : Embedding} {h : List Operation}

theorem search_truthful {x : UsearchIndex} {find : GraphSearch} {k ef : ℕ}
    {hits : List IndexHit} (hx : x.Wf) (hfind : Truthful distance find)
    (hs : x.search find q k ef = .ok hits) {hit : IndexHit} (hhit : hit ∈ hits) :
    ∃ v, x.vector hit.id = some v ∧ hit.distance = distance x.space q v := by
  rw [UsearchIndex.search] at hs
  split at hs
  · exact absurd hs (by simp)
  · split at hs
    · exact absurd hs (by simp)
    · rename_i found hfound
      obtain rfl := Except.ok.inj hs
      obtain ⟨p, hp, hmap⟩ := List.mem_filterMap.mp hhit
      obtain ⟨id, hid, rfl⟩ := Option.map_eq_some_iff.mp hmap
      obtain ⟨v, hv, hd⟩ := hfind _ _ _ _ _ _ hfound p hp
      refine ⟨v, ?_, hd⟩
      rw [UsearchIndex.vector, hx.labels_of_ids p.1 id hid, Option.bind_some, hv]

def walkPoints (K : Kernels) (c : Collection) (F : WhereFilter) (q : Embedding)
    (hits : List IndexHit) : List ScoredPoint :=
  buildScored K c (insertHits (c.isCandidate (c.postings.evaluate F))
    (insertBuffer K (fun r => filterMatchesOpt F r.metadata) q c.config.space ∅ c.buffer) hits)

theorem filteredQuery_walk (hcard : ¬ (c.postings.evaluate F).card ≤ c.config.hnsw.maxScan)
    {K : Kernels} {k ef oversampling : ℕ} {out : List ScoredPoint} :
    c.filteredQuery K q k ef c.config.space F oversampling = .ok out ↔
      ∃ hits, c.index.search K.find q (min (k * max oversampling 1) usizeMax) ef = .ok hits ∧
        out = walkPoints K c F q hits := by
  rw [filteredQuery]
  simp only [if_neg hcard]
  cases c.index.search K.find q (min (k * max oversampling 1) usizeMax) ef with
  | error e => simp
  | ok hits =>
      simp only [Except.ok.injEq, exists_eq_left']
      exact eq_comm

/-- The graph walk scores `id` by the indexed vector `x`. -/
def ScoresByWalk (c : Collection) (F : WhereFilter) (id : Id) (x : Embedding) : Prop :=
  ¬ BufferPasses c F id ∧ c.index.vector id = some x ∧
    ∃ r, c.records.lookup id = some r ∧ keyMatches F r.metadata = true

theorem mem_walkPoints (hd : Derived c) (hb : Buffered c) {K : Kernels} {hits : List IndexHit}
    {p : ScoredPoint} (hp : p ∈ walkPoints K c F q hits) :
    (BufferPasses c F p.id ∧ ∃ r e, c.records.lookup p.id = some r ∧ r.embedding = some e ∧
        p.distance = K.distance c.config.space q e) ∨
      (¬ BufferPasses c F p.id ∧
        (∃ r, c.records.lookup p.id = some r ∧ keyMatches F r.metadata = true) ∧
        ∃ hit ∈ hits, hit.id = p.id ∧ p.distance = hit.distance) := by
  have hl := (mem_buildScored.mp hp).1
  rw [lookup_insertHits, Option.or_eq_some_iff] at hl
  rcases hl with hl | ⟨hnone, hl⟩
  · exact Or.inl (hb.lookup_insertBuffer.mp hl)
  · obtain ⟨hit, hfind, hdist⟩ := Option.map_eq_some_iff.mp hl
    have hmem := List.mem_of_find?_eq_some hfind
    have hkeep := List.find?_some hfind
    rw [Bool.and_eq_true, decide_eq_true_eq] at hkeep
    obtain ⟨r, hr, hkey⟩ := hd.isCandidate_iff.mp hkeep.1
    rw [hkeep.2] at hr
    refine Or.inr ⟨fun hpass => ?_, ⟨r, hr, hkey⟩, hit, hmem, hkeep.2, hdist.symm⟩
    obtain ⟨b, hbmem, hid, hpass'⟩ := hpass
    obtain ⟨r', hr', hemb, hsome, -⟩ := hb.live b hbmem
    obtain ⟨e, he⟩ := Option.isSome_iff_exists.mp hsome
    have hscore := (@Buffered.lookup_insertBuffer c F p.id hb K q c.config.space _).mpr
        ⟨⟨b, hbmem, hid, hpass'⟩, r', e, hid ▸ hr', hemb.trans he, rfl⟩
    rw [hnone] at hscore
    exact absurd hscore (by simp)

end Walk

/-! ## Soundness -/

/-- Every returned point is a live record that passes the filter, at the distance
of its current vector; for every truthful backend, `k` and oversampling. -/
def FilterIsSound (distance : Distance → Embedding → Embedding → F32) (h : List Operation)
    (c : Collection) (F : WhereFilter) (q : Embedding) : Prop :=
  ∀ K : Kernels, K.distance = distance → Truthful distance K.find →
    ∀ k options out, options.whereFilter = some F → c.query K q k options = .ok out →
      ∀ p ∈ out, ∃ r v, c.records.lookup p.id = some r ∧
        filterMatchesOpt F r.metadata = true ∧ foldVector h p.id = some v ∧
        p.distance = distance c.config.space q v

/-- The query passes the dimension checks on its way. -/
def Answers (c : Collection) (F : WhereFilter) (q : Embedding) : Prop :=
  (c.config.dimension ≠ 0 → q.length = c.config.dimension) ∧
    ((c.postings.evaluate F).card ≤ c.config.hnsw.maxScan ∨ q.length = c.index.dimension)

/-- No stale copy decides: the buffered metadata that pass belong to records that
pass, the other records passing on canonical keys pass, and where the walk is
used their indexed vectors are at the distance of the current ones. -/
structure FilterSound (distance : Distance → Embedding → Embedding → F32)
    (h : List Operation) (c : Collection) (F : WhereFilter) (q : Embedding) : Prop where
  buffered : ∀ id r, BufferPasses c F id → c.records.lookup id = some r →
    filterMatchesOpt F r.metadata = true
  exact : (c.postings.evaluate F).card ≤ c.config.hnsw.maxScan →
    ∀ id r e, ¬ BufferPasses c F id → c.records.lookup id = some r →
      keyMatches F r.metadata = true → r.embedding = some e →
      filterMatchesOpt F r.metadata = true
  walk : ¬ (c.postings.evaluate F).card ≤ c.config.hnsw.maxScan →
    ∀ id r x, ¬ BufferPasses c F id → c.records.lookup id = some r →
      keyMatches F r.metadata = true → c.index.vector id = some x →
      filterMatchesOpt F r.metadata = true ∧
        ∃ v, foldVector h id = some v ∧ distance c.config.space q x = distance c.config.space q v

section Sound

variable {distance : Distance → Embedding → Embedding → F32} {config : CollectionConfig}
  {c : Collection} {F : WhereFilter} {q : Embedding} {h : List Operation}

/-- What a point must satisfy, said of an id and the vector it was scored by. -/
def SoundScore (distance : Distance → Embedding → Embedding → F32) (h : List Operation)
    (c : Collection) (F : WhereFilter) (q : Embedding) (id : Id) (x : Embedding) : Prop :=
  ∃ r v, c.records.lookup id = some r ∧ filterMatchesOpt F r.metadata = true ∧
    foldVector h id = some v ∧ distance c.config.space q x = distance c.config.space q v

theorem SoundScore.live {id : Id} {e : Embedding} {r : Record}
    (hs : SoundScore distance h c F q id e) (hr : c.records.lookup id = some r) :
    filterMatchesOpt F r.metadata = true ∧ ∃ v, foldVector h id = some v ∧
      distance c.config.space q e = distance c.config.space q v := by
  obtain ⟨r', v, hr', hpass, hv, hev⟩ := hs
  rw [hr, Option.some.injEq] at hr'
  exact ⟨hr' ▸ hpass, v, hv, hev⟩

theorem mem_take_all {K : Kernels} {out : List ScoredPoint} {p : ScoredPoint} (hp : p ∈ out) :
    p ∈ (sortByDistance K out).take (max out.length 1) := by
  rw [List.take_of_length_le]
  · exact (perm_sortByDistance K out).mem_iff.mpr hp
  · rw [(perm_sortByDistance K out).length_eq]
    exact le_max_left _ _

theorem sound_exact_iff (hd : Derived c) (hb : Buffered c)
    (hcard : (c.postings.evaluate F).card ≤ c.config.hnsw.maxScan)
    (hq : c.config.dimension ≠ 0 → q.length = c.config.dimension) :
    FilterIsSound distance h c F q ↔
      ∀ id e, ScoresExactly c F id e → SoundScore distance h c F q id e := by
  constructor
  · intro hsound id e hscore
    let K := labelKernels distance 0
    obtain ⟨p, hp, rfl, hdist⟩ := exists_exactPoint (q := q) hd hb hscore K
    obtain ⟨r, v, hr, hpass, hv, hpv⟩ := hsound K rfl (truthful_findLabel distance 0) _
      { whereFilter := some F } _ rfl (query_exact hcard hq K _ rfl) p (mem_take_all hp)
    exact ⟨r, v, hr, hpass, hv, hdist.symm.trans hpv⟩
  · intro hsound K hK hfind k options out hF hout p hp
    rw [query_exact hcard hq K k hF, Except.ok.injEq] at hout
    rw [← hout] at hp
    obtain ⟨e, he, hdist⟩ := mem_exactPoints hd hb
      ((perm_sortByDistance K _).mem_iff.mp (List.mem_of_mem_take hp))
    obtain ⟨r, v, hr, hpass, hv, hev⟩ := hsound p.id e he
    rw [hK] at hdist
    exact ⟨r, v, hr, hpass, hv, hdist.trans hev⟩

theorem query_walk (hcard : ¬ (c.postings.evaluate F).card ≤ c.config.hnsw.maxScan)
    {K : Kernels} {k : ℕ} {options : QueryOptions} {out : List ScoredPoint}
    (hF : options.whereFilter = some F) :
    c.query K q k options = .ok out ↔
      (c.config.dimension ≠ 0 → q.length = c.config.dimension) ∧
        ∃ hits, c.index.search K.find q (min (max k 1 * max options.oversampling 1) usizeMax)
            (if options.ef = 0 then c.config.hnsw.efSearch else options.ef) = .ok hits ∧
          out = (sortByDistance K (walkPoints K c F q hits)).take (max k 1) := by
  rw [query]
  by_cases hdim : c.config.dimension ≠ 0 ∧ q.length ≠ c.config.dimension
  · rw [if_pos hdim]
    simp only [reduceCtorEq, false_iff, not_and]
    exact fun hq => absurd (hq hdim.1) hdim.2
  · rw [if_neg hdim, hF]
    simp only
    have hq : c.config.dimension ≠ 0 → q.length = c.config.dimension :=
      fun hz => by_contra fun hne => hdim ⟨hz, hne⟩
    cases hfq : c.filteredQuery K q (max k 1)
        (if options.ef = 0 then c.config.hnsw.efSearch else options.ef) c.config.space F
        options.oversampling with
    | error e =>
        simp only [reduceCtorEq, false_iff, not_and, not_exists]
        rintro - hits hhits -
        rw [(filteredQuery_walk hcard).mpr ⟨hits, hhits, rfl⟩] at hfq
        exact absurd hfq (by simp)
    | ok out' =>
        obtain ⟨hits, hhits, rfl⟩ := (filteredQuery_walk hcard).mp hfq
        rw [Except.ok.injEq, eq_comm]
        refine ⟨fun hout => ⟨hq, hits, hhits, hout⟩, ?_⟩
        rintro ⟨-, hits', hhits', hout⟩
        rw [hhits, Except.ok.injEq] at hhits'
        rw [hhits']
        exact hout

theorem sound_walk_iff (hd : Derived c) (hb : Buffered c) (hc : Current h c)
    (hcard : ¬ (c.postings.evaluate F).card ≤ c.config.hnsw.maxScan)
    (hq : c.config.dimension ≠ 0 → q.length = c.config.dimension)
    (hx : q.length = c.index.dimension) :
    FilterIsSound distance h c F q ↔
      (∀ id r e, BufferPasses c F id → c.records.lookup id = some r → r.embedding = some e →
        SoundScore distance h c F q id e) ∧
      ∀ id x, ScoresByWalk c F id x → SoundScore distance h c F q id x := by
  constructor
  · intro hsound
    have hreturn : ∀ label (hits : List IndexHit),
        c.index.search (findLabel distance label) q
          (min (max (walkPoints (labelKernels distance label) c F q hits).length 1 * max 1 1)
            usizeMax) c.config.hnsw.efSearch = .ok hits →
        ∀ p ∈ walkPoints (labelKernels distance label) c F q hits, ∃ r v,
          c.records.lookup p.id = some r ∧ filterMatchesOpt F r.metadata = true ∧
          foldVector h p.id = some v ∧ p.distance = distance c.config.space q v := by
      intro label hits hhits p hp
      refine hsound (labelKernels distance label) rfl (truthful_findLabel distance label)
        (walkPoints (labelKernels distance label) c F q hits).length
        { whereFilter := some F, oversampling := 1 } _ rfl
        ((query_walk hcard rfl).mpr ⟨hq, hits, hhits, rfl⟩) p (mem_take_all hp)
    have hsearch : ∀ label k, c.index.search (findLabel distance label) q k
        c.config.hnsw.efSearch = .ok
          (((c.index.inner.lookup label).toList.map fun v =>
            (label, distance c.index.space q v)).filterMap fun p =>
              (c.index.ids.lookup p.1).map fun id => ⟨id, p.2⟩) := by
      intro label k
      rw [UsearchIndex.search, if_neg (not_not.mpr hx)]
      rfl
    refine ⟨fun id r e hpass hr he => ?_, fun id x hscore => ?_⟩
    · have hl := (@Buffered.lookup_insertBuffer c F id hb (labelKernels distance 0) q
        c.config.space _).mpr ⟨hpass, r, e, hr, he, rfl⟩
      obtain ⟨r', v, hr', hpass', hv, hdist⟩ := hreturn 0 _ (hsearch 0 _)
        ⟨id, distance c.config.space q e, (c.records.lookup id).bind Record.metadata,
          (c.records.lookup id).bind Record.document⟩
        (mem_buildScored.mpr ⟨by rw [lookup_insertHits, hl]; rfl, rfl, rfl⟩)
      exact ⟨r', v, hr', hpass', hv, hdist⟩
    · obtain ⟨hnot, hvec, r, hr, hkey⟩ := hscore
      rw [UsearchIndex.vector, Option.bind_eq_some_iff] at hvec
      obtain ⟨label, hlabel, hinner⟩ := hvec
      have hids := hc.wf.ids_of_labels id label hlabel
      have hhits : (((c.index.inner.lookup label).toList.map fun v =>
          (label, distance c.index.space q v)).filterMap fun p =>
            (c.index.ids.lookup p.1).map fun id => (⟨id, p.2⟩ : IndexHit)) =
          [⟨id, distance c.config.space q x⟩] := by
        rw [hinner, hc.space]
        simp [hids]
      have hbuf : (insertBuffer (labelKernels distance label)
          (fun r => filterMatchesOpt F r.metadata) q c.config.space ∅ c.buffer).lookup id =
          none := by
        rw [Option.eq_none_iff_forall_not_mem]
        intro d hdm
        exact hnot (hb.lookup_insertBuffer.mp hdm).1
      have hcand := hd.isCandidate_iff.mpr ⟨r, hr, hkey⟩
      obtain ⟨r', v, hr', hpass', hv, hdist⟩ := hreturn label _ (hsearch label _)
        ⟨id, distance c.config.space q x, (c.records.lookup id).bind Record.metadata,
          (c.records.lookup id).bind Record.document⟩
        (mem_buildScored.mpr ⟨by
          rw [lookup_insertHits, hbuf, hhits]
          simp [hcand], rfl, rfl⟩)
      exact ⟨r', v, hr', hpass', hv, hdist⟩
  · rintro ⟨hbuffer, hwalk⟩ K hK hfind k options out hF hout p hp
    obtain ⟨-, hits, hhits, rfl⟩ := (query_walk hcard hF).mp hout
    have hmem := (perm_sortByDistance K _).mem_iff.mp (List.mem_of_mem_take hp)
    rcases mem_walkPoints hd hb hmem with ⟨hpass, r, e, hr, he, hdist⟩ |
      ⟨hnot, ⟨r, hr, hkey⟩, hit, hhit, hid, hdist⟩
    · obtain ⟨r', v, hr', hpass', hv, hev⟩ := hbuffer p.id r e hpass hr he
      rw [hK] at hdist
      exact ⟨r', v, hr', hpass', hv, hdist.trans hev⟩
    · obtain ⟨x, hvec, hxd⟩ := search_truthful hc.wf hfind hhits hhit
      rw [hid] at hvec
      obtain ⟨r', v, hr', hpass', hv, hev⟩ := hwalk p.id x ⟨hnot, hvec, r, hr, hkey⟩
      rw [hc.space] at hxd
      exact ⟨r', v, hr', hpass', hv, (hdist.trans hxd).trans hev⟩

/-- **Soundness of filtered queries.** In a run of writes and flushes every
returned point is right exactly when no stale copy decides. -/
theorem filtered_sound_iff (hr : Reachable Call.isWriteOrFlush config h c) :
    FilterIsSound distance h c F q ↔ (Answers c F q → FilterSound distance h c F q) := by
  have hd := hr.derived
  have hb := hr.buffered
  have hc := hr.current
  -- a vector in memory is current, so only the filter can be wrong about it
  have hmemory : ∀ id r e, c.records.lookup id = some r → r.embedding = some e →
      filterMatchesOpt F r.metadata = true → SoundScore distance h c F q id e := by
    intro id r e hr he hpass
    refine ⟨r, e, hr, hpass, hc.memory id e ?_, rfl⟩
    rw [memVector, hr, Option.bind_some, he]
  have hbuffered : ∀ id, BufferPasses c F id →
      ∃ r e, c.records.lookup id = some r ∧ r.embedding = some e := by
    rintro id ⟨b, hbmem, rfl, -⟩
    obtain ⟨r, hr, hemb, hsome, -⟩ := hb.live b hbmem
    obtain ⟨e, he⟩ := Option.isSome_iff_exists.mp hsome
    exact ⟨r, e, hr, hemb.trans he⟩
  by_cases hq : c.config.dimension ≠ 0 → q.length = c.config.dimension
  · by_cases hcard : (c.postings.evaluate F).card ≤ c.config.hnsw.maxScan
    · rw [sound_exact_iff hd hb hcard hq]
      constructor
      · refine fun hsound _ => ⟨fun id r hpass hr => ?_, fun _ id r e hnot hr hkey he => ?_,
          fun hno => absurd hcard hno⟩
        · obtain ⟨r', e, hr', he⟩ := hbuffered id hpass
          exact ((hsound id e ⟨r', hr', he, Or.inr hpass⟩).live hr).1
        · exact ((hsound id e ⟨r, hr, he, Or.inl hkey⟩).live hr).1
      · rintro hsound id e ⟨r, hr, he, hwhy⟩
        have hs := hsound ⟨hq, Or.inl hcard⟩
        refine hmemory id r e hr he ?_
        by_cases hpass : BufferPasses c F id
        · exact hs.buffered id r hpass hr
        · exact hs.exact hcard id r e hpass hr (hwhy.resolve_right hpass) he
    · by_cases hx : q.length = c.index.dimension
      · rw [sound_walk_iff hd hb hc hcard hq hx]
        constructor
        · rintro ⟨hbuf, hwalk⟩ -
          refine ⟨fun id r hpass hr => ?_, fun hyes => absurd hyes hcard,
            fun _ id r x hnot hr hkey hvec => ?_⟩
          · obtain ⟨r', e, hr', he⟩ := hbuffered id hpass
            exact ((hbuf id r' e hpass hr' he).live hr).1
          · exact (hwalk id x ⟨hnot, hvec, r, hr, hkey⟩).live hr
        · intro hsound
          have hs := hsound ⟨hq, Or.inr hx⟩
          refine ⟨fun id r e hpass hr he => hmemory id r e hr he (hs.buffered id r hpass hr), ?_⟩
          rintro id x ⟨hnot, hvec, r, hr, hkey⟩
          obtain ⟨hpass, v, hv, hev⟩ := hs.walk hcard id r x hnot hr hkey hvec
          exact ⟨r, v, hr, hpass, hv, hev⟩
      · refine ⟨fun _ hans => absurd (hans.2.resolve_left hcard) hx, ?_⟩
        intro _ K _ _ k options out hF hout
        obtain ⟨-, hits, hhits, -⟩ := (query_walk hcard hF).mp hout
        rw [UsearchIndex.search, if_pos hx] at hhits
        exact absurd hhits (by simp)
  · refine ⟨fun _ hans => absurd hans.1 hq, ?_⟩
    intro _ K _ _ k options out _ hout
    rw [query, if_pos (Classical.not_imp.mp hq)] at hout
    exact absurd hout (by simp)

end Sound

end Collection

open Collection

/-- One buffered record. -/
theorem filtered_sound_iff_demo : ∃ c, runAll [.add true ["a"] [one] none none]
      (Collection.fresh demoConfig) = .ok c ∧
    (FilterIsSound (fun _ _ _ => ⟨0⟩) [.add "a" one none none] c matchAllFilter zero ↔
      (Answers c matchAllFilter zero →
        FilterSound (fun _ _ _ => ⟨0⟩) [.add "a" one none none] c matchAllFilter zero)) := by
  obtain ⟨c, hrun, -⟩ : ∃ c, runAll [.add true ["a"] [one] none none]
      (Collection.fresh demoConfig) = .ok c ∧ true = true :=
    exists_runAll (by decide +kernel)
  have hr : Reachable Call.isWriteOrFlush demoConfig _ c := Reachable.fresh.runAll
    (by simp [Call.isWriteOrFlush]) hrun
  exact ⟨c, hrun, filtered_sound_iff hr⟩

def colorFilter (color : String) : WhereFilter := ⟨.comparison "color" (.eq (.str color))⟩

def colored (color : String) : Metadata := (∅ : Metadata).insert "color" (.str color)

/-- **A stale buffered copy decides**: `a` is updated from red to blue while its
record is still buffered, and the filter for red returns it. -/
theorem filtered_query_stale : ∃ h c, Reachable Call.isWriteOrFlush demoConfig h c ∧
    ∀ distance, ¬ FilterIsSound distance h c (colorFilter "red") zero := by
  let calls : List Call := [.add true ["a"] [one] (some [some (colored "red")]) none,
    .update ["a"] (some [some (colored "blue")]) none]
  obtain ⟨c, hrun, hP⟩ : ∃ c, runAll calls (Collection.fresh demoConfig) = .ok c ∧
      decide ((c.postings.evaluate (colorFilter "red")).card ≤ c.config.hnsw.maxScan ∧
        c.config.dimension = 1 ∧
        (c.buffer.any fun b => decide (b.id = "a") &&
          filterMatchesOpt (colorFilter "red") b.metadata) = true ∧
        (c.records.lookup "a").any (fun r =>
          !filterMatchesOpt (colorFilter "red") r.metadata) = true) = true :=
    exists_runAll (by decide +kernel)
  obtain ⟨hcard, hdim, hbuf, hlive⟩ := of_decide_eq_true hP
  have hr : Reachable Call.isWriteOrFlush demoConfig _ c := Reachable.fresh.runAll
    (by simp [calls, Call.isWriteOrFlush]) hrun
  refine ⟨_, c, hr, fun distance hsound => ?_⟩
  have hs := (sound_exact_iff (q := zero) hr.derived hr.buffered hcard
    fun _ => hdim.symm).mp hsound
  obtain ⟨b, hbmem, hb⟩ := List.any_eq_true.mp hbuf
  rw [Bool.and_eq_true, decide_eq_true_eq] at hb
  obtain ⟨r, hlook, hnot⟩ := (Option.any_eq_true _ _).mp hlive
  obtain ⟨r', hr', hemb, hsome, -⟩ := hr.buffered.live b hbmem
  obtain ⟨e, he⟩ := Option.isSome_iff_exists.mp hsome
  rw [hb.1] at hr'
  obtain ⟨r'', v, hr'', hpass, -⟩ :=
    hs "a" e ⟨r', hr', hemb.trans he, Or.inr ⟨b, hbmem, hb.1, hb.2⟩⟩
  rw [hlook, Option.some.injEq] at hr''
  rw [hr'', hpass] at hnot
  exact absurd hnot (by simp)

end Rekha
