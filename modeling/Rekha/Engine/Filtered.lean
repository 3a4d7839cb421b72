import Rekha.Engine.Scoring

/-!
# Completeness of the exact filtered path

The exact path of a filtered query reads vectors from memory, while `get` and
the unfiltered scan prefer the mapped segment: a record whose vector a
checkpoint moved to the segment is eligible but not scored. `ExactPathAgrees`
is the exact condition under which a filtered query misses nothing.
-/

namespace Rekha

open TopK

namespace Collection

section Candidates

variable {c : Collection} {F : WhereFilter} {id : Id}

/-- **The candidates of a filter** are the live records that pass on canonical keys. -/
theorem Derived.isCandidate_iff (h : Derived c) :
    c.isCandidate (c.postings.evaluate F) id = true ↔
      ∃ r, c.records.lookup id = some r ∧ keyMatches F r.metadata = true := by
  simp only [isCandidate, Option.any_eq_true, decide_eq_true_eq, h.offsets.postings.mem_evaluate]
  constructor
  · rintro ⟨o, hoff, md, hdoc, hmatch⟩
    obtain ⟨r, hr⟩ := Option.isSome_iff_exists.mp (h.offsets.live id o hoff)
    rw [docs, h.offsets.forth id o hoff, Option.map_some, hr, Option.bind_some,
      Option.some.injEq] at hdoc
    exact ⟨r, hr, hdoc ▸ hmatch⟩
  · rintro ⟨r, hr, hmatch⟩
    obtain ⟨o, hoff⟩ := Option.isSome_iff_exists.mp (h.listed id (by rw [hr]; rfl))
    refine ⟨o, hoff, r.metadata, ?_, hmatch⟩
    rw [docs, h.offsets.forth id o hoff, Option.map_some, hr, Option.bind_some]

/-- A buffered copy of the record of `id` passes the filter. -/
def BufferPasses (c : Collection) (F : WhereFilter) (id : Id) : Prop :=
  ∃ b ∈ c.buffer, b.id = id ∧ filterMatchesOpt F b.metadata = true

/-- The exact path scores `id` by the vector `e`: the live record holds it in
memory, and its metadata passes on canonical keys or in the buffered copy. -/
def ScoresExactly (c : Collection) (F : WhereFilter) (id : Id) (e : Embedding) : Prop :=
  ∃ r, c.records.lookup id = some r ∧ r.embedding = some e ∧
    (keyMatches F r.metadata = true ∨ BufferPasses c F id)

theorem Buffered.lookup_insertBuffer (hb : Buffered c) {K : Kernels} {q : Embedding}
    {space : Distance} {d : F32} :
    (insertBuffer K (fun r => filterMatchesOpt F r.metadata) q space ∅ c.buffer).lookup id =
        some d ↔
      BufferPasses c F id ∧ ∃ r e, c.records.lookup id = some r ∧ r.embedding = some e ∧
        d = K.distance space q e := by
  rw [Collection.lookup_insertBuffer _ _ _ _ hb.nodup, AList.lookup_empty, Option.or_none]
  cases hfind : c.buffer.find? fun b => decide (b.id = id) with
  | none =>
      simp only [Option.bind_none, reduceCtorEq, false_iff, not_and]
      rintro ⟨b, hmem, hid, -⟩
      exact absurd (decide_eq_true hid) (List.find?_eq_none.mp hfind b hmem)
  | some b =>
      have hmem := List.mem_of_find?_eq_some hfind
      have hid : b.id = id := by simpa using List.find?_some hfind
      obtain ⟨r, hr, hemb, hsome, -⟩ := hb.live b hmem
      obtain ⟨e, he⟩ := Option.isSome_iff_exists.mp hsome
      rw [hid] at hr
      rw [Option.bind_some, bufferScore, he, Option.map_some]
      constructor
      · intro hd
        split at hd
        · rename_i hkeep
          exact ⟨⟨b, hmem, hid, hkeep⟩, r, e, hr, hemb.trans he, (Option.some.inj hd).symm⟩
        · exact absurd hd (by simp)
      · rintro ⟨⟨b', hmem', hid', hpass⟩, r', e', hr', he', rfl⟩
        have hbb : b' = b :=
          List.inj_on_of_nodup_map hb.nodup hmem' hmem (hid'.trans hid.symm)
        rw [hr, Option.some.injEq] at hr'
        rw [← hr', hemb, he, Option.some.injEq] at he'
        rw [if_pos (hbb ▸ hpass), he']

/-- **What the exact path scores.** -/
theorem lookup_filteredExact (hd : Derived c) (hb : Buffered c) {K : Kernels} {q : Embedding}
    {space : Distance} {d : F32} :
    (insertCandidates K c q space
        (insertBuffer K (fun r => filterMatchesOpt F r.metadata) q space ∅ c.buffer)
        (ascending (c.postings.evaluate F))).lookup id = some d ↔
      ∃ e, ScoresExactly c F id e ∧ d = K.distance space q e := by
  have hcand : ((c.offsets.lookup id).any fun o =>
      decide (o ∈ ascending (c.postings.evaluate F))) =
      c.isCandidate (c.postings.evaluate F) id := by
    simp only [isCandidate, mem_ascending]
  rw [hd.offsets.lookup_insertCandidates, hcand, Option.or_eq_some_iff, hb.lookup_insertBuffer]
  constructor
  · rintro (⟨hpass, r, e, hr, he, rfl⟩ | ⟨-, hscore⟩)
    · exact ⟨e, ⟨r, hr, he, Or.inr hpass⟩, rfl⟩
    · split at hscore
      · rename_i hc
        obtain ⟨r, hr, hkey⟩ := hd.isCandidate_iff.mp hc
        rw [memVector, hr, Option.bind_some, Option.map_eq_some_iff] at hscore
        obtain ⟨e, he, rfl⟩ := hscore
        exact ⟨e, ⟨r, hr, he, Or.inl hkey⟩, rfl⟩
      · exact absurd hscore (by simp)
  · rintro ⟨e, ⟨r, hr, he, hwhy⟩, rfl⟩
    by_cases hpass : BufferPasses c F id
    · exact Or.inl ⟨hpass, r, e, hr, he, rfl⟩
    · have hkey := hwhy.resolve_right hpass
      refine Or.inr ⟨?_, ?_⟩
      · rw [Option.eq_none_iff_forall_not_mem]
        intro d' hd'
        exact hpass (hb.lookup_insertBuffer.mp hd').1
      · rw [if_pos (hd.isCandidate_iff.mpr ⟨r, hr, hkey⟩), memVector, hr, Option.bind_some, he]
        rfl

end Candidates

/-! ## Eligible records -/

/-- A live record with the vector `get` returns whose metadata passes the filter. -/
def Eligible (c : Collection) (F : WhereFilter) (id : Id) (v : Embedding) : Prop :=
  ∃ r, c.get id = some r ∧ r.embedding = some v ∧ filterMatchesOpt F r.metadata = true

def eligibleIds (c : Collection) (F : WhereFilter) : List Id :=
  (c.records.entries.filter fun e => filterMatchesOpt F e.2.metadata &&
    ((c.loadVector e.1).or e.2.embedding).isSome).map Sigma.fst

/-- No eligible record is missing, from the scores or from the `k` results. -/
structure Complete (distance : Distance → Embedding → Embedding → F32) (c : Collection)
    (F : WhereFilter) (q : Embedding) : Prop where
  scored : ∀ K : Kernels, K.distance = distance → ∀ k ef oversampling,
    ∃ out, c.filteredQuery K q k ef c.config.space F oversampling = .ok out ∧
      ∀ id v, Eligible c F id v →
        ∃ p ∈ out, p.id = id ∧ p.distance = distance c.config.space q v
  kept : ∀ K : Kernels, K.distance = distance → ∀ k options, options.whereFilter = some F →
    (c.eligibleIds F).length ≤ k → ∃ out, c.query K q k options = .ok out ∧
      ∀ id v, Eligible c F id v → ∃ p ∈ out, p.id = id

/-- The exact path finds every eligible record's vector in memory, and a record
it scores in error is farther than every eligible one. -/
structure ExactPathAgrees (distance : Distance → Embedding → Embedding → F32)
    (c : Collection) (F : WhereFilter) (q : Embedding) : Prop where
  found : ∀ id v, Eligible c F id v →
    ∃ e, ScoresExactly c F id e ∧ distance c.config.space q e = distance c.config.space q v
  apart : ∀ id e id' v', ScoresExactly c F id e → (∀ v, ¬ Eligible c F id v) →
    Eligible c F id' v' →
    (∀ j u, ScoresExactly c F j u → (distance c.config.space q u).isNaN = false) ∧
      (distance c.config.space q v').lt (distance c.config.space q e) = true

theorem mem_eligibleIds {c : Collection} {F : WhereFilter} {id : Id} :
    id ∈ c.eligibleIds F ↔ ∃ v, Eligible c F id v := by
  rw [eligibleIds, List.mem_map]
  constructor
  · rintro ⟨⟨key, r⟩, he, rfl⟩
    obtain ⟨hmem, hpass⟩ := List.mem_filter.mp he
    rw [Bool.and_eq_true] at hpass
    obtain ⟨v, hv⟩ := Option.isSome_iff_exists.mp hpass.2
    refine ⟨v, { r with embedding := (c.loadVector key).or r.embedding }, ?_, hv, hpass.1⟩
    rw [get, FinMap.mem_entries_iff.mp hmem]
    rfl
  · rintro ⟨v, r, hr, hv, hpass⟩
    rw [get] at hr
    obtain ⟨r', hr', rfl⟩ := Option.map_eq_some_iff.mp hr
    refine ⟨⟨id, r'⟩, List.mem_filter.mpr ⟨FinMap.mem_entries_iff.mpr hr', ?_⟩, rfl⟩
    rw [Bool.and_eq_true]
    exact ⟨hpass, by rw [show (c.loadVector id).or r'.embedding = some v from hv]; rfl⟩

theorem nodup_eligibleIds (c : Collection) (F : WhereFilter) : (c.eligibleIds F).Nodup :=
  (List.filter_sublist.map _).nodup c.records.keys_nodup

/-! ## A hash order that brings one id first -/

def frontOrder (id : Id) : HashOrder where
  iter m := m.entries.filter (fun e => decide (e.1 = id)) ++
    m.entries.filter fun e => !decide (e.1 = id)
  perm _ := List.filter_append_perm _ _

def frontKernels (distance : Distance → Embedding → Embedding → F32) (id : Id) : Kernels where
  distance := distance
  find := exactFind distance
  order := frontOrder id
  unordered := fun l => l
  unordered_perm := fun _ => List.Perm.refl _

theorem frontOrder_iter {ν : Type} {m : FinMap Id ν} {id : Id} {x : ν}
    (h : m.lookup id = some x) : ∃ rest, (frontOrder id).iter m = ⟨id, x⟩ :: rest := by
  have hmem : (⟨id, x⟩ : Sigma fun _ : Id => ν) ∈
      m.entries.filter fun e => decide (e.1 = id) :=
    List.mem_filter.mpr ⟨FinMap.mem_entries_iff.mpr h, decide_eq_true rfl⟩
  cases hf : m.entries.filter fun e => decide (e.1 = id) with
  | nil =>
      rw [hf] at hmem
      exact absurd hmem List.not_mem_nil
  | cons e rest =>
      obtain ⟨key, y⟩ := e
      have he : (⟨key, y⟩ : Sigma fun _ : Id => ν) ∈
          m.entries.filter fun e => decide (e.1 = id) := by
        rw [hf]
        exact List.mem_cons_self
      obtain ⟨hentry, hkey⟩ := List.mem_filter.mp he
      have hkey' : key = id := of_decide_eq_true hkey
      subst hkey'
      have hy := FinMap.mem_entries_iff.mp hentry
      rw [h, Option.some.injEq] at hy
      refine ⟨rest ++ m.entries.filter fun e => !decide (e.1 = key), ?_⟩
      show m.entries.filter _ ++ _ = _
      rw [hf, hy, List.cons_append]

theorem buildScored_front {K : Kernels} {c : Collection} {dist : FinMap Id F32}
    {p : ScoredPoint} (hK : K.order = frontOrder p.id) (hp : p ∈ buildScored K c dist) :
    ∃ rest, buildScored K c dist = p :: rest := by
  obtain ⟨hl, hmd, hdoc⟩ := mem_buildScored.mp hp
  obtain ⟨rest, hrest⟩ := frontOrder_iter hl
  rw [buildScored, hK, hrest, List.map_cons]
  refine ⟨_, congrArg (· :: _) ?_⟩
  rw [← hmd, ← hdoc]

/-! ## The exact path as a list of points -/

section Exact

variable {distance : Distance → Embedding → Embedding → F32} {c : Collection}
  {F : WhereFilter} {q : Embedding}

def exactPoints (K : Kernels) (c : Collection) (F : WhereFilter) (q : Embedding) :
    List ScoredPoint :=
  buildScored K c (insertCandidates K c q c.config.space
    (insertBuffer K (fun r => filterMatchesOpt F r.metadata) q c.config.space ∅ c.buffer)
    (ascending (c.postings.evaluate F)))

theorem filteredQuery_exact (hcard : (c.postings.evaluate F).card ≤ c.config.hnsw.maxScan)
    (K : Kernels) (k ef oversampling : ℕ) :
    c.filteredQuery K q k ef c.config.space F oversampling = .ok (exactPoints K c F q) := by
  rw [filteredQuery]
  simp only [if_pos hcard]
  rfl

theorem query_exact (hcard : (c.postings.evaluate F).card ≤ c.config.hnsw.maxScan)
    (hq : c.config.dimension ≠ 0 → q.length = c.config.dimension) (K : Kernels) (k : ℕ)
    {options : QueryOptions} (hF : options.whereFilter = some F) :
    c.query K q k options =
      .ok ((sortByDistance K (exactPoints K c F q)).take (max k 1)) := by
  have hdim : ¬ (c.config.dimension ≠ 0 ∧ q.length ≠ c.config.dimension) :=
    fun h => h.2 (hq h.1)
  rw [query, if_neg hdim, hF]
  simp only [filteredQuery_exact hcard]

theorem mem_exactPoints (hd : Derived c) (hb : Buffered c) {K : Kernels} {p : ScoredPoint}
    (hp : p ∈ exactPoints K c F q) :
    ∃ e, ScoresExactly c F p.id e ∧ p.distance = K.distance c.config.space q e :=
  (lookup_filteredExact hd hb).mp (mem_buildScored.mp hp).1

theorem exists_exactPoint (hd : Derived c) (hb : Buffered c) {id : Id} {e : Embedding}
    (h : ScoresExactly c F id e) (K : Kernels) :
    ∃ p ∈ exactPoints K c F q, p.id = id ∧ p.distance = K.distance c.config.space q e := by
  have hl := (@lookup_filteredExact c F id hd hb K q c.config.space _).mpr ⟨e, h, rfl⟩
  exact ⟨⟨id, K.distance c.config.space q e, (c.records.lookup id).bind Record.metadata,
    (c.records.lookup id).bind Record.document⟩, mem_buildScored.mpr ⟨hl, rfl, rfl⟩, rfl, rfl⟩

/-- A result list that holds every eligible id and has no room for more holds
nothing else. -/
theorem eligible_of_mem_take {K : Kernels} {out : List ScoredPoint}
    (hnodup : (out.map ScoredPoint.id).Nodup) {k : ℕ} (hk : (c.eligibleIds F).length = k)
    (hall : ∀ id v, Eligible c F id v → ∃ p ∈ (sortByDistance K out).take k, p.id = id)
    {p : ScoredPoint} (hp : p ∈ (sortByDistance K out).take k) :
    p.id ∈ c.eligibleIds F := by
  let ids := ((sortByDistance K out).take k).map ScoredPoint.id
  have hids : ids.Nodup := by
    refine ((List.take_sublist _ _).map _).nodup ?_
    exact ((perm_sortByDistance K out).map _).nodup_iff.mpr hnodup
  have hsub : c.eligibleIds F ⊆ ids := by
    intro id hid
    obtain ⟨v, hv⟩ := mem_eligibleIds.mp hid
    obtain ⟨p, hp, rfl⟩ := hall id v hv
    exact List.mem_map_of_mem hp
  have hlen : ids.length ≤ (c.eligibleIds F).length := by
    rw [List.length_map, hk]
    exact List.length_take_le _ _
  have hperm := ((nodup_eligibleIds c F).subperm hsub).perm_of_length_le hlen
  exact hperm.mem_iff.mpr (List.mem_map_of_mem hp)

theorem ScoresExactly.unique {id : Id} {e e' : Embedding} (h : ScoresExactly c F id e)
    (h' : ScoresExactly c F id e') : e = e' := by
  obtain ⟨r, hr, he, -⟩ := h
  obtain ⟨r', hr', he', -⟩ := h'
  rw [hr, Option.some.injEq] at hr'
  rw [← hr', he, Option.some.injEq] at he'
  exact he'

/-- Where a sort that leaves incomparable points in place cuts the first point, no
distance is NaN. -/
theorem isNaN_eq_false_of_cut {K : Kernels} (hK : ∀ l, K.unordered l = l) {p₀ : ScoredPoint}
    {rest : List ScoredPoint} {n : ℕ} (hpos : 1 ≤ n)
    (hcut : p₀ ∉ (sortByDistance K (p₀ :: rest)).take n) :
    ∀ p ∈ p₀ :: rest, p.distance.isNaN = false := by
  intro p hp
  cases hnan : p.distance.isNaN with
  | false => rfl
  | true =>
      have hany : ((p₀ :: rest).any fun p => p.distance.isNaN) = true :=
        List.any_eq_true.mpr ⟨p, hp, hnan⟩
      refine absurd ?_ hcut
      rw [sortByDistance, if_pos hany, hK, ← Nat.succ_pred_eq_of_pos hpos, List.take_succ_cons]
      exact List.mem_cons_self

theorem lt_of_cut {K : Kernels} (hK : ∀ l, K.unordered l = l) {p₀ p : ScoredPoint}
    {rest : List ScoredPoint} {n : ℕ} (hpos : 1 ≤ n)
    (hcut : p₀ ∉ (sortByDistance K (p₀ :: rest)).take n)
    (hp : p ∈ (sortByDistance K (p₀ :: rest)).take n) :
    p.distance.lt p₀.distance = true := by
  have hnum := isNaN_eq_false_of_cut hK hpos hcut
  have hmem := (perm_sortByDistance K _).mem_iff.mp (List.mem_of_mem_take hp)
  rw [sortByDistance_eq hnum] at hcut hp
  have hkey : ¬ p₀.key ≤ p.key := fun hle => hcut (head_mem_take hp hle)
  exact (Ieee.lt_iff (hnum p hmem) (hnum p₀ List.mem_cons_self)).mpr (lt_of_not_ge hkey)

theorem Complete.found (hd : Derived c) (hb : Buffered c)
    (hcard : (c.postings.evaluate F).card ≤ c.config.hnsw.maxScan)
    (h : Complete distance c F q) {id : Id} {v : Embedding} (hv : Eligible c F id v) :
    ∃ e, ScoresExactly c F id e ∧
      distance c.config.space q e = distance c.config.space q v := by
  obtain ⟨out, hout, hscored⟩ := h.scored (exactKernels distance) rfl 1 1 1
  rw [filteredQuery_exact hcard, Except.ok.injEq] at hout
  obtain ⟨p, hp, rfl, hdist⟩ := hscored id v hv
  obtain ⟨e, he, hpe⟩ := mem_exactPoints hd hb (hout ▸ hp)
  exact ⟨e, he, hpe.symm.trans hdist⟩

/-- Iterate the hash maps with the ineligible id first, and ask for as many results
as there are eligible records. -/
theorem Complete.apart (hd : Derived c) (hb : Buffered c)
    (hcard : (c.postings.evaluate F).card ≤ c.config.hnsw.maxScan)
    (hq : c.config.dimension ≠ 0 → q.length = c.config.dimension)
    (h : Complete distance c F q) {id id' : Id} {e v' : Embedding}
    (hscore : ScoresExactly c F id e) (hnot : ∀ v, ¬ Eligible c F id v)
    (hv' : Eligible c F id' v') :
    (∀ j u, ScoresExactly c F j u → (distance c.config.space q u).isNaN = false) ∧
      (distance c.config.space q v').lt (distance c.config.space q e) = true := by
  have hpos : 1 ≤ (c.eligibleIds F).length :=
    List.length_pos_of_mem (mem_eligibleIds.mpr ⟨v', hv'⟩)
  let K := frontKernels distance id
  obtain ⟨res, hres, hkept⟩ := h.kept K rfl (c.eligibleIds F).length
    { whereFilter := some F } rfl (le_refl _)
  rw [query_exact hcard hq K _ rfl, Except.ok.injEq, max_eq_left hpos] at hres
  obtain ⟨p₀, hp₀, hid₀, hdist₀⟩ := exists_exactPoint (q := q) hd hb hscore K
  obtain ⟨rest, hfront⟩ : ∃ rest, exactPoints K c F q = p₀ :: rest :=
    buildScored_front (congrArg frontOrder hid₀.symm) hp₀
  have hcut : p₀ ∉ (sortByDistance K (exactPoints K c F q)).take (c.eligibleIds F).length := by
    intro hin
    obtain ⟨v, hv⟩ := mem_eligibleIds.mp (eligible_of_mem_take (nodup_buildScored _) rfl
      (fun id v hv => hres ▸ hkept id v hv) hin)
    exact hnot v (hid₀ ▸ hv)
  refine ⟨fun j u hu => ?_, ?_⟩
  · obtain ⟨p, hp, -, hdist⟩ := exists_exactPoint (q := q) hd hb hu K
    rw [hfront] at hcut hp
    rw [show distance c.config.space q u = p.distance from hdist.symm]
    exact isNaN_eq_false_of_cut (fun _ => rfl) hpos hcut p hp
  · obtain ⟨p', hp', rfl⟩ := hkept id' v' hv'
    rw [← hres] at hp'
    obtain ⟨e', he', hdist'⟩ := h.found hd hb hcard hv'
    obtain ⟨e₁, he₁, hp₁⟩ := mem_exactPoints hd hb
      ((perm_sortByDistance K _).mem_iff.mp (List.mem_of_mem_take hp'))
    have hpd : p'.distance = distance c.config.space q v' := by
      rw [hp₁, he₁.unique he']
      exact hdist'
    rw [hfront] at hcut hp'
    rw [← hpd, show distance c.config.space q e = p₀.distance from hdist₀.symm]
    exact lt_of_cut (fun _ => rfl) hpos hcut hp'

theorem ExactPathAgrees.exists_point (hd : Derived c) (hb : Buffered c)
    (h : ExactPathAgrees distance c F q) {K : Kernels} (hK : K.distance = distance) {id : Id}
    {v : Embedding} (hv : Eligible c F id v) :
    ∃ p ∈ exactPoints K c F q, p.id = id ∧ p.distance = distance c.config.space q v := by
  subst hK
  obtain ⟨e, he, hdist⟩ := h.found id v hv
  obtain ⟨p, hp, hid, hpd⟩ := exists_exactPoint (q := q) hd hb he K
  exact ⟨p, hp, hid, hpd.trans hdist⟩

theorem countP_eligible_le {K : Kernels} :
    (exactPoints K c F q).countP (fun p => decide (p.id ∈ c.eligibleIds F)) ≤
      (c.eligibleIds F).length := by
  have hnodup : ((exactPoints K c F q).map ScoredPoint.id).Nodup := nodup_buildScored _
  rw [List.countP_eq_length_filter, ← List.length_map (f := ScoredPoint.id)]
  refine List.Subperm.length_le (((List.filter_sublist.map _).nodup hnodup).subperm fun j hj => ?_)
  obtain ⟨p, hp, rfl⟩ := List.mem_map.mp hj
  exact of_decide_eq_true (List.mem_filter.mp hp).2

theorem ExactPathAgrees.farther (hd : Derived c) (hb : Buffered c)
    (h : ExactPathAgrees distance c F q) {K : Kernels} (hK : K.distance = distance)
    {p : ScoredPoint} (hp : p ∈ exactPoints K c F q) (hnot : p.id ∉ c.eligibleIds F) {id : Id}
    {v : Embedding} (hv : Eligible c F id v) :
    (∀ p ∈ exactPoints K c F q, p.distance.isNaN = false) ∧
      (distance c.config.space q v).lt p.distance = true := by
  subst hK
  obtain ⟨e, he, hpd⟩ := mem_exactPoints hd hb hp
  obtain ⟨hnum, hlt⟩ := h.apart p.id e id v he
    (fun u hu => hnot (mem_eligibleIds.mpr ⟨u, hu⟩)) hv
  refine ⟨fun p' hp' => ?_, ?_⟩
  · obtain ⟨u, hu, hpd'⟩ := mem_exactPoints hd hb hp'
    rw [hpd']
    exact hnum _ u hu
  · rw [hpd]
    exact hlt

theorem ExactPathAgrees.kept (hd : Derived c) (hb : Buffered c)
    (h : ExactPathAgrees distance c F q) {K : Kernels} (hK : K.distance = distance) {k : ℕ}
    (hk : (c.eligibleIds F).length ≤ k) {id : Id} {v : Embedding} (hv : Eligible c F id v) :
    ∃ p ∈ (sortByDistance K (exactPoints K c F q)).take k, p.id = id := by
  obtain ⟨p, hp, hid, hpd⟩ := h.exists_point hd hb hK hv
  have hcount := (@countP_eligible_le c F q K).trans hk
  refine ⟨p, ?_, hid⟩
  by_cases hall : ∀ p ∈ exactPoints K c F q, p.id ∈ c.eligibleIds F
  · rw [List.countP_eq_length.mpr fun p hp => decide_eq_true (hall p hp)] at hcount
    rw [List.take_of_length_le (by rwa [(perm_sortByDistance K _).length_eq])]
    exact (perm_sortByDistance K _).mem_iff.mpr hp
  · simp only [not_forall] at hall
    obtain ⟨p₁, hp₁, hnot₁⟩ := hall
    rw [sortByDistance_eq (h.farther hd hb hK hp₁ hnot₁ hv).1]
    refine mem_take_of_countP hp (fun b hb' hle => ?_) hcount
    rw [decide_eq_true_eq]
    by_contra hnot
    have hlt := (h.farther hd hb hK hb' hnot hv).2
    rw [← hpd] at hlt
    simp only [Ieee.lt, Bool.and_eq_true, decide_eq_true_eq] at hlt
    exact absurd hle (not_le.mpr hlt.2)

/-- **Completeness of the exact filtered path.** Within the scan budget a
filtered query misses no eligible record, under any hash order, exactly when the
exact path agrees with what `get` returns. -/
theorem filtered_complete_iff {allowed : Call → Prop} {config : CollectionConfig}
    {h : List Operation} (hr : Reachable allowed config h c)
    (hcard : (c.postings.evaluate F).card ≤ c.config.hnsw.maxScan)
    (hq : c.config.dimension ≠ 0 → q.length = c.config.dimension) :
    Complete distance c F q ↔ ExactPathAgrees distance c F q := by
  have hd := hr.derived
  have hb := hr.buffered
  constructor
  · intro hcomplete
    exact ⟨fun id v hv => hcomplete.found hd hb hcard hv,
      fun id e id' v' hscore hnot hv' => hcomplete.apart hd hb hcard hq hscore hnot hv'⟩
  · intro hagrees
    refine ⟨fun K hK k ef ov => ⟨_, filteredQuery_exact hcard K k ef ov,
      fun id v hv => hagrees.exists_point hd hb hK hv⟩,
      fun K hK k options hF hk => ⟨_, query_exact hcard hq K k hF, fun id v hv => ?_⟩⟩
    exact hagrees.kept hd hb hK (hk.trans (le_max_left _ _)) hv

end Exact

end Collection

open Collection

def matchAllFilter : WhereFilter := ⟨.and []⟩

/-- One buffered record. -/
theorem filtered_complete_iff_demo : ∃ c, runAll [.add true ["a"] [one] none none]
      (Collection.fresh demoConfig) = .ok c ∧
    (Complete (fun _ _ _ => ⟨0⟩) c matchAllFilter zero ↔
      ExactPathAgrees (fun _ _ _ => ⟨0⟩) c matchAllFilter zero) := by
  obtain ⟨c, hrun, hP⟩ : ∃ c, runAll [.add true ["a"] [one] none none]
      (Collection.fresh demoConfig) = .ok c ∧
        decide ((c.postings.evaluate matchAllFilter).card ≤ c.config.hnsw.maxScan ∧
          c.config.dimension = 1) = true :=
    exists_runAll (by decide +kernel)
  obtain ⟨hcard, hdim⟩ := of_decide_eq_true hP
  have hr : Reachable (fun _ => True) demoConfig _ c :=
    Reachable.fresh.runAll (fun _ _ => trivial) hrun
  exact ⟨c, hrun, filtered_complete_iff hr hcard fun _ => hdim.symm⟩

/-- **A filtered query misses a checkpointed record**: `get` returns its vector
from the segment, the exact path finds none in memory. -/
theorem filtered_query_misses : ∃ h c, Reachable (fun _ => True) demoConfig h c ∧
    (c.postings.evaluate matchAllFilter).card ≤ c.config.hnsw.maxScan ∧
      Eligible c matchAllFilter "a" one ∧
        ∀ distance, ¬ Complete distance c matchAllFilter zero := by
  let calls : List Call := [.add true ["a"] [one] none none, .flush, .checkpoint]
  obtain ⟨c, hrun, hP⟩ : ∃ c, runAll calls (Collection.fresh demoConfig) = .ok c ∧
      decide ((c.postings.evaluate matchAllFilter).card ≤ c.config.hnsw.maxScan ∧
        (c.get "a").any (fun r => decide (r.embedding = some one) &&
          filterMatchesOpt matchAllFilter r.metadata) = true ∧
        c.memVector "a" = none) = true :=
    exists_runAll (by decide +kernel)
  obtain ⟨hcard, hget, hmem⟩ := of_decide_eq_true hP
  have hr : Reachable (fun _ => True) demoConfig _ c :=
    Reachable.fresh.runAll (fun _ _ => trivial) hrun
  have heligible : Eligible c matchAllFilter "a" one := by
    obtain ⟨r, hr', hboth⟩ := (Option.any_eq_true _ _).mp hget
    rw [Bool.and_eq_true, decide_eq_true_eq] at hboth
    exact ⟨r, hr', hboth.1, hboth.2⟩
  refine ⟨_, c, hr, hcard, heligible, fun distance hcomplete => ?_⟩
  obtain ⟨out, hout, hscored⟩ := hcomplete.scored (exactKernels distance) rfl 1 1 1
  rw [filteredQuery_exact hcard, Except.ok.injEq] at hout
  obtain ⟨p, hp, hid, -⟩ := hscored "a" one heligible
  obtain ⟨e, ⟨r, hr', he, -⟩, -⟩ := mem_exactPoints hr.derived hr.buffered (hout ▸ hp)
  rw [memVector, ← hid, hr', Option.bind_some, he] at hmem
  exact absurd hmem (by simp)

end Rekha
