import Rekha.Engine.IndexPath

/-!
# Transferring an engine snapshot

A snapshot carries the in-memory records of every collection. Restoring it looks
each collection up by a name, for which it uses the text of the id, and skips
the collections it does not find; in the others it inserts the records and
touches nothing else. `restore_faithful_iff` says between which engines that
makes the follower show what the leader shows.

Encoding a map and decoding it gives the same entries, in the order of another
hash map.
-/

namespace Rekha

open Collection

/-! ## Engines -/

/-- The catalog's tables of collections and the collections that are open. -/
structure Engine where
  collectionByName : FinMap (String × String × String) Uuid
  collectionRecords : FinMap Uuid CollectionConfig
  collections : FinMap Uuid Collection

/-- What a snapshot holds, in the iteration order of the map it is read from. -/
abbrev SnapshotData := List (Uuid × List Record)

namespace Collection

def restoreRecords (c : Collection) (records : List Record) : Collection :=
  { c with records := records.foldl (fun m r => m.insert r.id r) c.records }

end Collection

namespace Engine

/-- Look up a collection by `(tenant, database, name)`. -/
def getCollection (e : Engine) (tenant database name : String) : Option CollectionConfig :=
  (e.collectionByName.lookup (tenant, database, name)).bind fun id => e.collectionRecords.lookup id

def snapshot (order : HashOrder) (e : Engine) : SnapshotData :=
  e.collections.entries.map fun p => (p.1, (order.iter p.2.records).map Sigma.snd)

def configOrDefaultTenant : String := "default_tenant"

def configOrDefaultDatabase : String := "default_database"

def restoreCollection (e : Engine) (p : Uuid × List Record) : Engine :=
  match e.getCollection configOrDefaultTenant configOrDefaultDatabase p.1.toString with
  | none => e
  | some _ =>
      match e.collections.lookup p.1 with
      | some coll => { e with collections := e.collections.insert p.1 (coll.restoreRecords p.2) }
      | none => e

def restoreSnapshot (e : Engine) (data : SnapshotData) : Engine := data.foldl restoreCollection e

end Engine

/-! ## What a reader sees -/

namespace Collection

/-- The points of an exact query, in the order they are scored. -/
def exactScan (K : Kernels) (c : Collection) (filter : Option WhereFilter) (q : Embedding) :
    List ScoredPoint :=
  match filter with
  | none => c.bruteForce K q c.config.space
  | some F => c.exactPoints K F q

def PlansExact (c : Collection) (filter : Option WhereFilter) : Prop :=
  match filter with
  | none => c.index.len + c.buffer.length ≤ c.config.hnsw.maxScan
  | some F => (c.postings.evaluate F).card ≤ c.config.hnsw.maxScan

/-- The query vectors that a collection takes. -/
def TakesQuery (c : Collection) (q : Embedding) : Prop :=
  c.config.dimension ≠ 0 → q.length = c.config.dimension

theorem query_exactScan {c : Collection} {q : Embedding} {filter : Option WhereFilter}
    (hplan : c.PlansExact filter) (hq : c.TakesQuery q) (K : Kernels) (k : ℕ)
    {options : QueryOptions} (hfilter : options.whereFilter = filter) :
    c.query K q k options =
      .ok ((sortByDistance K (c.exactScan K filter q)).take (max k 1)) := by
  cases filter with
  | some F => exact query_exact hplan hq K k hfilter
  | none =>
      rw [query_unfiltered hfilter hq]
      exact if_pos hplan

/-- The first `k` points are those with an id in `S`, in whatever order the points come
and whatever `sort_by` makes of incomparable distances. -/
def Cuts (scan : List ScoredPoint) (k : ℕ) (S : Set Id) : Prop :=
  ∀ K : Kernels, ∀ scan' : List ScoredPoint, scan'.Perm scan →
    ∀ id, id ∈ ((sortByDistance K scan').take k).map ScoredPoint.id ↔ id ∈ S

/-- An exact query returns the ids in `S`, in whatever order the maps are iterated. -/
def Returns (distance : Distance → Embedding → Embedding → F32) (c : Collection)
    (filter : Option WhereFilter) (q : Embedding) (k : ℕ) (S : Set Id) : Prop :=
  ∀ K : Kernels, K.distance = distance → Cuts (c.exactScan K filter q) (max k 1) S

theorem Returns.query {c : Collection} {K : Kernels} {filter : Option WhereFilter}
    {q : Embedding} {k : ℕ} {S : Set Id} (h : Returns K.distance c filter q k S)
    (hplan : c.PlansExact filter) (hq : c.TakesQuery q) {options : QueryOptions}
    (hfilter : options.whereFilter = filter) :
    ∃ out, c.query K q k options = .ok out ∧ ∀ id, id ∈ out.map ScoredPoint.id ↔ id ∈ S :=
  ⟨_, query_exactScan hplan hq K k hfilter, h K rfl K _ (List.Perm.refl _)⟩

/-- The follower's collection reads like the leader's: the same records, and from every
query that is exact on both the same ids, as far as the leader's own state determines
them. -/
structure ReadsAlike (distance : Distance → Embedding → Embedding → F32) (l f : Collection) :
    Prop where
  get : f.get = l.get
  count : f.count = l.count
  query : ∀ filter q k S, l.PlansExact filter → f.PlansExact filter → l.TakesQuery q →
    Returns distance l filter q k S → Returns distance f filter q k S

/-- The vector that the exact path of a filter ranks an id by, with `live` for
the live records: that of its last buffered copy that passes, or else that of
the record at the first offset the postings select. -/
def exactVector (c : Collection) (live : Id → Option Record) (F : WhereFilter) (id : Id) :
    Option Embedding :=
  (c.buffer.reverse.findSome? fun b =>
    if b.id = id ∧ filterMatchesOpt F b.metadata = true then b.embedding else none).or
  ((ascending (c.postings.evaluate F)).findSome? fun o =>
    (c.idByOffset.lookup o).bind fun key => (live key).bind fun r =>
      if r.id = id then r.embedding else none)

/-- The ids that have a vector in `v` have one in `w`, and who is nearer by `v` is
nearer by `w`. Where a distance by `v` is no number nobody is nearer. -/
structure RanksAlike (d : Embedding → F32) (v w : Id → Option Embedding) : Prop where
  ids : ∀ id, (w id).isSome = (v id).isSome
  nearer : (∀ id x, v id = some x → (d x).isNaN = false) →
    ∀ a b x y, v a = some x → v b = some y → (d x).lt (d y) = true →
      (∀ id z, w id = some z → (d z).isNaN = false) ∧
        ∀ x' y', w a = some x' → w b = some y' → (d x').lt (d y') = true

/-- What the restore leaves as it is must fit the leader's records: no live id
the leader does not have, no other vector in the segment, and a buffer and
postings from which a filter that both plan exactly selects vectors that rank alike. -/
structure Merges (distance : Distance → Embedding → Embedding → F32) (l f : Collection) :
    Prop where
  stale : ∀ id, (f.records.lookup id).isSome → (l.records.lookup id).isSome
  vectors : ∀ id r, l.records.lookup id = some r →
    (f.loadVector id).or r.embedding = (l.loadVector id).or r.embedding
  filters : ∀ F q, l.PlansExact (some F) → f.PlansExact (some F) → l.TakesQuery q →
    RanksAlike (distance l.config.space q) (l.exactVector l.records.lookup F)
      (f.exactVector l.records.lookup F)

/-! ## The exact path -/

section Exact

variable {c l f : Collection} {K : Kernels} {q : Embedding} {space : Distance} {id : Id}

theorem lookup_insertBuffer_last (keep : Record → Bool) (id : Id) : ∀ (buffer : List Record)
    (dist : FinMap Id F32), (insertBuffer K keep q space dist buffer).lookup id =
      ((buffer.reverse.findSome? fun b =>
        if b.id = id ∧ keep b = true then b.embedding else none).map (K.distance space q)).or
          (dist.lookup id)
  | [], dist => rfl
  | b :: buffer, dist => by
      have hhead : ((bufferScore K keep q space b).elim dist (dist.insert b.id)).lookup id =
          ((if b.id = id ∧ keep b = true then b.embedding else none).map
            (K.distance space q)).or (dist.lookup id) := by
        unfold bufferScore
        by_cases hkeep : keep b = true
        · cases b.embedding with
          | none => simp [hkeep]
          | some v =>
              by_cases hid : b.id = id
              · simp [hkeep, hid]
              · simp [hkeep, hid, Ne.symm hid]
        · simp [hkeep]
      rw [insertBuffer_cons, lookup_insertBuffer_last keep id buffer, hhead, List.reverse_cons,
        List.findSome?_append, Option.map_or, Option.or_assoc, List.findSome?_singleton]

theorem lookup_insertCandidates_first (id : Id) : ∀ (offsets : List ℕ) (dist : FinMap Id F32),
    (insertCandidates K c q space dist offsets).lookup id =
      (dist.lookup id).or ((offsets.findSome? fun o =>
        (c.idByOffset.lookup o).bind fun key => (c.records.lookup key).bind fun r =>
          if r.id = id then r.embedding else none).map (K.distance space q))
  | [], dist => (Option.or_none).symm
  | o :: offsets, dist => by
      have hhead : ((c.candidate o).elim dist fun p =>
          orInsert dist p.1 (K.distance space q p.2)).lookup id = (dist.lookup id).or
            (((c.idByOffset.lookup o).bind fun key => (c.records.lookup key).bind fun r =>
              if r.id = id then r.embedding else none).map (K.distance space q)) := by
        unfold candidate
        cases c.idByOffset.lookup o with
        | none => exact (Option.or_none).symm
        | some key =>
            simp only [Option.bind_some]
            cases c.records.lookup key with
            | none => exact (Option.or_none).symm
            | some r =>
                simp only [Option.bind_some]
                cases r.embedding with
                | none => simp
                | some v =>
                    simp only [Option.map_some, Option.elim_some, lookup_orInsert]
                    by_cases hid : r.id = id
                    · simp [hid]
                    · simp [hid, Ne.symm hid]
      rw [insertCandidates_cons, lookup_insertCandidates_first id offsets, hhead, Option.or_assoc,
        List.findSome?_cons]
      congr 1
      split
      · rename_i hsome
        rw [hsome]
        rfl
      · rename_i hnone
        rw [hnone]
        rfl

/-- **What the exact path of a filter finds**, whatever the collection. -/
theorem mem_exactPoints_iff {F : WhereFilter} {p : ScoredPoint} : p ∈ c.exactPoints K F q ↔
    (c.exactVector c.records.lookup F p.id).map (K.distance c.config.space q) =
        some p.distance ∧
      p.metadata = (c.get p.id).bind Record.metadata ∧
      p.document = (c.get p.id).bind Record.document := by
  have hmetadata : (c.get p.id).bind Record.metadata =
      (c.records.lookup p.id).bind Record.metadata := by
    unfold Collection.get
    cases c.records.lookup p.id <;> rfl
  have hdocument : (c.get p.id).bind Record.document =
      (c.records.lookup p.id).bind Record.document := by
    unfold Collection.get
    cases c.records.lookup p.id <;> rfl
  unfold exactPoints
  rw [mem_buildScored, lookup_insertCandidates_first, lookup_insertBuffer_last,
    AList.lookup_empty, Option.or_none, ← Option.map_or, hmetadata, hdocument]
  rfl

theorem mem_bruteForce_iff {p : ScoredPoint} : p ∈ c.bruteForce K q space ↔
    ((c.get p.id).bind Record.embedding).map (K.distance space q) = some p.distance ∧
      p.metadata = (c.get p.id).bind Record.metadata ∧
      p.document = (c.get p.id).bind Record.document := by
  unfold bruteForce
  rw [List.mem_filterMap]
  constructor
  · rintro ⟨⟨id, r⟩, he, hpoint⟩
    have hr := FinMap.mem_entries_iff.mp ((K.order.perm c.records).mem_iff.mp he)
    obtain ⟨v, hv, rfl⟩ := Option.map_eq_some_iff.mp hpoint
    unfold Collection.get
    rw [hr]
    exact ⟨congrArg (Option.map (K.distance space q)) hv, rfl, rfl⟩
  · rintro ⟨hd, hmetadata, hdocument⟩
    unfold Collection.get at hd hmetadata hdocument
    cases hr : c.records.lookup p.id with
    | none =>
        rw [hr] at hd
        cases hd
    | some r =>
        rw [hr] at hd hmetadata hdocument
        obtain ⟨v, hv, hd⟩ := Option.map_eq_some_iff.mp hd
        have hv : (c.loadVector p.id).or r.embedding = some v := hv
        refine ⟨⟨p.id, r⟩, (K.order.perm c.records).mem_iff.mpr (FinMap.mem_entries_iff.mpr hr),
          ?_⟩
        rw [hv, Option.map_some, hd]
        exact congrArg some (congrArg₂ (ScoredPoint.mk _ _) hmetadata.symm hdocument.symm)

theorem nodup_exactScan (filter : Option WhereFilter) : (c.exactScan K filter q).Nodup := by
  refine List.Nodup.of_map ScoredPoint.id ?_
  cases filter with
  | none => exact nodup_bruteForce
  | some F => exact nodup_buildScored _

end Exact

/-! ## Cuts -/

section Cut

variable {scan : List ScoredPoint} {k : ℕ} {S : Set Id} {id : Id}

theorem exists_first {p : ScoredPoint} (hp : p ∈ scan) :
    ∃ rest : List ScoredPoint, (p :: rest).Perm scan := by
  obtain ⟨s₁, s₂, rfl⟩ := List.append_of_mem hp
  exact ⟨s₁ ++ s₂, List.perm_middle.symm⟩

theorem Cuts.perm {scan' : List ScoredPoint} (h : Cuts scan k S) (hperm : scan'.Perm scan) :
    Cuts scan' k S := fun K _ hscan => h K _ (hscan.trans hperm)

/-- With room for all points nothing is cut. -/
theorem cuts_all (hk : scan.length ≤ k) : Cuts scan k {id | id ∈ scan.map ScoredPoint.id} := by
  intro K scan' hscan id
  have hperm := (perm_sortByDistance K scan').trans hscan
  rw [List.take_of_length_le (hperm.length_eq.trans_le hk)]
  exact (hperm.map _).mem_iff

theorem Cuts.mem_take (h : Cuts scan k S) (hnodup : (scan.map ScoredPoint.id).Nodup)
    {K : Kernels} {scan' : List ScoredPoint} (hscan : scan'.Perm scan) {p : ScoredPoint}
    (hp : p ∈ scan) : p ∈ (sortByDistance K scan').take k ↔ p.id ∈ S := by
  rw [← h K scan' hscan p.id]
  refine ⟨fun hmem => List.mem_map_of_mem hmem, fun hmem => ?_⟩
  obtain ⟨r, hr, hid⟩ := List.mem_map.mp hmem
  have hr' := ((perm_sortByDistance K scan').trans hscan).mem_iff.mp (List.mem_of_mem_take hr)
  rwa [← List.inj_on_of_nodup_map hnodup hr' hp hid]

theorem Cuts.sub (h : Cuts scan k S) (hid : id ∈ S) : id ∈ scan.map ScoredPoint.id := by
  have hmem := (h (exactKernels fun _ _ _ => ⟨0⟩) scan (List.Perm.refl _) id).mpr hid
  obtain ⟨p, hp, rfl⟩ := List.mem_map.mp hmem
  exact List.mem_map_of_mem ((perm_sortByDistance _ scan).mem_iff.mp (List.mem_of_mem_take hp))

/-- As many points are kept as there is room for. -/
theorem Cuts.count [DecidablePred (· ∈ S)] (h : Cuts scan k S)
    (hnodup : (scan.map ScoredPoint.id).Nodup) (hk : k ≤ scan.length) :
    scan.countP (fun p => decide (p.id ∈ S)) = k := by
  let K := exactKernels fun _ _ _ => ⟨0⟩
  have hpoints := List.Nodup.of_map _ hnodup
  have hsorted := perm_sortByDistance K scan
  have hperm : (scan.filter fun p => decide (p.id ∈ S)).Perm ((sortByDistance K scan).take k) := by
    refine (List.perm_ext_iff_of_nodup (hpoints.filter _) ?_).mpr fun p => ?_
    · exact (List.take_sublist _ _).nodup (hsorted.nodup_iff.mpr hpoints)
    · rw [List.mem_filter, decide_eq_true_eq]
      constructor
      · rintro ⟨hp, hS⟩
        exact (h.mem_take hnodup (List.Perm.refl _) hp).mpr hS
      · intro hp
        have hmem := hsorted.mem_iff.mp (List.mem_of_mem_take hp)
        exact ⟨hmem, (h.mem_take hnodup (List.Perm.refl _) hmem).mp hp⟩
  rw [List.countP_eq_length_filter, hperm.length_eq, List.length_take, hsorted.length_eq]
  exact min_eq_left hk

theorem Cuts.exists_kept (h : Cuts scan k S) (hnodup : (scan.map ScoredPoint.id).Nodup)
    (hk : 1 ≤ k) (hroom : k ≤ scan.length) : ∃ p ∈ scan, p.id ∈ S := by
  classical
  obtain ⟨p, hp, hS⟩ := List.countP_pos_iff.mp (h.count hnodup hroom ▸ hk)
  exact ⟨p, hp, of_decide_eq_true hS⟩

theorem Cuts.exists_cut (h : Cuts scan k S) (hnodup : (scan.map ScoredPoint.id).Nodup)
    (hfew : k < scan.length) : ∃ r ∈ scan, r.id ∉ S := by
  classical
  by_contra! hall
  have hfull := List.countP_eq_length.mpr fun p hp => decide_eq_true (hall p hp)
  rw [h.count hnodup hfew.le] at hfull
  exact absurd hfull hfew.ne

/-- **What a cut tells.** If it does not depend on the order of the points and leaves
some out, then all distances are numbers and what is kept is nearer. -/
theorem Cuts.separated (h : Cuts scan k S) (hnodup : (scan.map ScoredPoint.id).Nodup)
    (hk : 1 ≤ k) (hfew : k < scan.length) :
    (∀ p ∈ scan, p.distance.isNaN = false) ∧
      ∀ p ∈ scan, ∀ r ∈ scan, p.id ∈ S → r.id ∉ S → p.distance.lt r.distance = true := by
  let K := exactKernels fun _ _ _ => ⟨0⟩
  have hcut : ∀ r ∈ scan, r.id ∉ S → ∀ rest : List ScoredPoint, (r :: rest).Perm scan →
      r ∉ (sortByDistance K (r :: rest)).take k := by
    intro r hr hS rest hfirst
    rwa [h.mem_take hnodup hfirst hr]
  constructor
  · obtain ⟨r, hr, hS⟩ := h.exists_cut hnodup hfew
    obtain ⟨rest, hfirst⟩ := exists_first hr
    intro p hp
    exact isNaN_eq_false_of_cut (fun _ => rfl) hk (hcut r hr hS rest hfirst) p
      (hfirst.mem_iff.mpr hp)
  · intro p hp r hr hpS hrS
    obtain ⟨rest, hfirst⟩ := exists_first hr
    exact lt_of_cut (fun _ => rfl) hk (hcut r hr hrS rest hfirst)
      ((h.mem_take hnodup hfirst hp).mpr hpS)

/-- Conversely, `k` points that are nearer than all others make a cut. -/
theorem cuts_of_separated {keep : Id → Bool} (hnodup : (scan.map ScoredPoint.id).Nodup)
    (hnum : ∀ p ∈ scan, p.distance.isNaN = false)
    (hsep : ∀ p ∈ scan, ∀ r ∈ scan, keep p.id = true → keep r.id = false →
      p.distance.lt r.distance = true)
    (hcount : scan.countP (fun p => keep p.id) = k) :
    Cuts scan k {id | id ∈ scan.map ScoredPoint.id ∧ keep id = true} := by
  intro K scan' hscan id
  have hnear : ∀ p ∈ scan, keep p.id = true → p ∈ (sortByDistance K scan').take k := by
    intro p hp hkeep
    rw [sortByDistance_eq fun r hr => hnum r (hscan.mem_iff.mp hr)]
    refine TopK.mem_take_of_countP (hscan.mem_iff.mpr hp) (fun r hr hle => ?_)
      (hscan.countP_eq _ ▸ hcount).le
    by_contra hcut
    have hlt := hsep p hp r (hscan.mem_iff.mp hr) hkeep (Bool.eq_false_iff.mpr hcut)
    rw [Ieee.lt_iff (hnum p hp) (hnum r (hscan.mem_iff.mp hr))] at hlt
    exact absurd hle (not_le.mpr hlt)
  have hpoints := List.Nodup.of_map _ hnodup
  have hperm : (scan.filter fun p => keep p.id).Perm ((sortByDistance K scan').take k) := by
    refine ((hpoints.filter _).subperm fun p hp => ?_).perm_of_length_le ?_
    · obtain ⟨hp, hkeep⟩ := List.mem_filter.mp hp
      exact hnear p hp hkeep
    · rw [← List.countP_eq_length_filter, hcount]
      exact List.length_take_le _ _
  rw [← (hperm.map ScoredPoint.id).mem_iff, Set.mem_ofPred_eq, List.mem_map, List.mem_map]
  constructor
  · rintro ⟨p, hp, rfl⟩
    obtain ⟨hp, hkeep⟩ := List.mem_filter.mp hp
    exact ⟨⟨p, hp, rfl⟩, hkeep⟩
  · rintro ⟨⟨p, hp, rfl⟩, hkeep⟩
    exact ⟨p, List.mem_filter.mpr ⟨hp, hkeep⟩, rfl⟩

end Cut

/-! ## Ranking -/

/-- `scan` scores exactly the ids with a vector, each by its own. -/
structure Scores (d : Embedding → F32) (v : Id → Option Embedding) (scan : List ScoredPoint) :
    Prop where
  nodup : (scan.map ScoredPoint.id).Nodup
  distance : ∀ p ∈ scan, (v p.id).map d = some p.distance
  complete : ∀ id, (v id).isSome → id ∈ scan.map ScoredPoint.id

section Ranking

variable {l f : Collection} {K : Kernels} {F : WhereFilter} {q : Embedding} {k : ℕ} {S : Set Id}
  {d : Embedding → F32} {v w : Id → Option Embedding} {scan scan' : List ScoredPoint} {id : Id}
  {distance : Distance → Embedding → Embedding → F32}

theorem scores_exactScan (c : Collection) (K : Kernels) (F : WhereFilter) (q : Embedding) :
    Scores (K.distance c.config.space q) (c.exactVector c.records.lookup F)
      (c.exactScan K (some F) q) := by
  refine ⟨nodup_buildScored _, fun p hp => (mem_exactPoints_iff.mp hp).1, fun id hid => ?_⟩
  obtain ⟨e, he⟩ := Option.isSome_iff_exists.mp hid
  refine List.mem_map.mpr ⟨⟨id, K.distance c.config.space q e, (c.get id).bind Record.metadata,
    (c.get id).bind Record.document⟩, ?_, rfl⟩
  exact mem_exactPoints_iff.mpr ⟨congrArg (Option.map _) he, rfl, rfl⟩

namespace Scores

theorem mem_iff (h : Scores d v scan) : id ∈ scan.map ScoredPoint.id ↔ (v id).isSome := by
  refine ⟨fun hid => ?_, h.complete id⟩
  obtain ⟨p, hp, rfl⟩ := List.mem_map.mp hid
  have hsome := congrArg Option.isSome (h.distance p hp)
  rwa [Option.isSome_map] at hsome

theorem exists_point {x : Embedding} (h : Scores d v scan) (hx : v id = some x) :
    ∃ p ∈ scan, p.id = id ∧ p.distance = d x := by
  obtain ⟨p, hp, rfl⟩ := List.mem_map.mp (h.complete id (Option.isSome_of_eq_some hx))
  have hd := h.distance p hp
  rw [hx, Option.map_some, Option.some.injEq] at hd
  exact ⟨p, hp, rfl, hd.symm⟩

theorem exists_vector {p : ScoredPoint} (h : Scores d v scan) (hp : p ∈ scan) :
    ∃ x, v p.id = some x ∧ p.distance = d x := by
  obtain ⟨x, hx, hd⟩ := Option.map_eq_some_iff.mp (h.distance p hp)
  exact ⟨x, hx, hd.symm⟩

theorem isNaN_iff (h : Scores d v scan) : (∀ p ∈ scan, p.distance.isNaN = false) ↔
    ∀ id x, v id = some x → (d x).isNaN = false := by
  constructor
  · intro hnum id x hx
    obtain ⟨p, hp, -, hd⟩ := h.exists_point hx
    exact hd ▸ hnum p hp
  · intro hnum p hp
    obtain ⟨x, hx, hd⟩ := h.exists_vector hp
    exact hd ▸ hnum p.id x hx

theorem perm_ids (h : Scores d v scan) (h' : Scores d w scan')
    (hids : ∀ id, (w id).isSome = (v id).isSome) :
    (scan'.map ScoredPoint.id).Perm (scan.map ScoredPoint.id) := by
  refine (List.perm_ext_iff_of_nodup h'.nodup h.nodup).mpr fun id => ?_
  rw [h.mem_iff, h'.mem_iff, hids]

theorem length_eq (h : Scores d v scan) (h' : Scores d w scan')
    (hids : ∀ id, (w id).isSome = (v id).isSome) : scan'.length = scan.length := by
  simpa using (h.perm_ids h' hids).length_eq

/-- Who is nearer in the one scan is nearer by the vectors of the other. -/
theorem nearer (h : Scores d v scan) (halike : RanksAlike d v w)
    (hnum : ∀ p ∈ scan, p.distance.isNaN = false) {p r : ScoredPoint} (hp : p ∈ scan)
    (hr : r ∈ scan) (hlt : p.distance.lt r.distance = true) :
    (∀ id z, w id = some z → (d z).isNaN = false) ∧
      ∀ x' y', w p.id = some x' → w r.id = some y' → (d x').lt (d y') = true := by
  obtain ⟨x, hx, hpd⟩ := h.exists_vector hp
  obtain ⟨y, hy, hrd⟩ := h.exists_vector hr
  rw [hpd, hrd] at hlt
  exact halike.nearer (h.isNaN_iff.mp hnum) p.id r.id x y hx hy hlt

/-- If the vectors of two scans rank alike, every cut of the one is a cut of the other. -/
theorem cuts (h : Scores d v scan) (h' : Scores d w scan') (halike : RanksAlike d v w)
    (hk : 1 ≤ k) (hcuts : Cuts scan k S) : Cuts scan' k S := by
  classical
  have hperm := h.perm_ids h' halike.ids
  have hlength := h.length_eq h' halike.ids
  rcases le_or_gt scan.length k with hroom | hfew
  · let K := exactKernels fun _ _ _ => ⟨0⟩
    have hall : S = {id | id ∈ scan'.map ScoredPoint.id} := by
      ext id
      rw [← hcuts K scan (List.Perm.refl _) id, cuts_all hroom K scan (List.Perm.refl _) id]
      exact hperm.mem_iff.symm
    rw [hall]
    exact cuts_all (hlength.trans_le hroom)
  · obtain ⟨hnum, hsep⟩ := hcuts.separated h.nodup hk hfew
    have hkept : S = {id | id ∈ scan'.map ScoredPoint.id ∧ decide (id ∈ S) = true} := by
      ext id
      rw [Set.mem_ofPred_eq, decide_eq_true_eq, hperm.mem_iff]
      exact ⟨fun hid => ⟨hcuts.sub hid, hid⟩, fun hid => hid.2⟩
    have hback : ∀ {p}, p ∈ scan' → ∃ p₀ ∈ scan, p₀.id = p.id := fun hp =>
      List.mem_map.mp (hperm.mem_iff.mp (List.mem_map_of_mem hp))
    rw [hkept]
    refine cuts_of_separated h'.nodup ?_ ?_ ?_
    · obtain ⟨p, hp, hpS⟩ := hcuts.exists_kept h.nodup hk hfew.le
      obtain ⟨r, hr, hrS⟩ := hcuts.exists_cut h.nodup hfew
      exact h'.isNaN_iff.mpr (h.nearer halike hnum hp hr (hsep p hp r hr hpS hrS)).1
    · intro p hp r hr hpS hrS
      obtain ⟨p₀, hp₀, hpid⟩ := hback hp
      obtain ⟨r₀, hr₀, hrid⟩ := hback hr
      obtain ⟨x, hx, hpd⟩ := h'.exists_vector hp
      obtain ⟨y, hy, hrd⟩ := h'.exists_vector hr
      rw [hpd, hrd]
      rw [decide_eq_true_eq, ← hpid] at hpS
      rw [decide_eq_false_iff_not, ← hrid] at hrS
      exact (h.nearer halike hnum hp₀ hr₀ (hsep p₀ hp₀ r₀ hr₀ hpS hrS)).2 x y (hpid ▸ hx)
        (hrid ▸ hy)
    · have hsame := hperm.countP_eq fun id => decide (id ∈ S)
      rw [List.countP_map, List.countP_map] at hsame
      exact hsame.trans (hcuts.count h.nodup hfew.le)

theorem ids_of_cuts (h : Scores d v scan) (h' : Scores d w scan')
    (hcuts : ∀ k S, 1 ≤ k → Cuts scan k S → Cuts scan' k S) (id : Id) :
    (w id).isSome = (v id).isSome := by
  let k := max (max scan.length scan'.length) 1
  have hroom : scan.length ≤ k := (le_max_left _ _).trans (le_max_left _ _)
  have hroom' : scan'.length ≤ k := (le_max_right _ _).trans (le_max_left _ _)
  have hall := hcuts k _ (le_max_right _ _) (cuts_all hroom) (exactKernels fun _ _ _ => ⟨0⟩)
    scan' (List.Perm.refl _) id
  rw [cuts_all hroom' _ scan' (List.Perm.refl _) id, Set.mem_ofPred_eq, Set.mem_ofPred_eq,
    h.mem_iff, h'.mem_iff] at hall
  exact Bool.eq_iff_iff.mpr hall

/-- The id has a vector at distance `t` or nearer. -/
def within (d : Embedding → F32) (v : Id → Option Embedding) (t : F32) (id : Id) : Bool :=
  (v id).any fun z => (d z).le t

theorem within_iff (h : Scores d v scan) (hnum : ∀ p ∈ scan, p.distance.isNaN = false) {t : F32}
    (ht : t.isNaN = false) {p : ScoredPoint} (hp : p ∈ scan) :
    within d v t p.id = true ↔ p.distance.orderKey ≤ t.orderKey := by
  obtain ⟨z, hz, hd⟩ := h.exists_vector hp
  rw [← Ieee.le_iff (hnum p hp) ht, within, hz, hd]
  rfl

theorem cuts_within (h : Scores d v scan) (hnum : ∀ p ∈ scan, p.distance.isNaN = false) {t : F32}
    (ht : t.isNaN = false) : Cuts scan (scan.countP fun p => within d v t p.id)
      {id | id ∈ scan.map ScoredPoint.id ∧ within d v t id = true} := by
  refine cuts_of_separated h.nodup hnum (fun p hp r hr hpt hrt => ?_) rfl
  rw [h.within_iff hnum ht hp] at hpt
  rw [Bool.eq_false_iff, ne_eq, h.within_iff hnum ht hr, not_le] at hrt
  exact (Ieee.lt_iff (hnum p hp) (hnum r hr)).mpr (hpt.trans_lt hrt)

/-- The converse: cuts that carry over show that the vectors rank alike. -/
theorem ranksAlike (h : Scores d v scan) (h' : Scores d w scan')
    (hcuts : ∀ k S, 1 ≤ k → Cuts scan k S → Cuts scan' k S) : RanksAlike d v w := by
  have hids := h.ids_of_cuts h' hcuts
  refine ⟨hids, fun hnum a b x y hx hy hlt => ?_⟩
  have hnum' := h.isNaN_iff.mpr hnum
  have hdx := hnum a x hx
  obtain ⟨p, hp, rfl, hpd⟩ := h.exists_point hx
  obtain ⟨r, hr, rfl, hrd⟩ := h.exists_point hy
  have hpin : within d v (d x) p.id = true := by
    rw [h.within_iff hnum' hdx hp, hpd]
  have hrout : ¬ within d v (d x) r.id = true := by
    rw [h.within_iff hnum' hdx hr, hrd, not_le]
    exact (Ieee.lt_iff hdx (hnum r.id y hy)).mp hlt
  have hpos : 1 ≤ scan.countP fun p => within d v (d x) p.id :=
    List.countP_pos_iff.mpr ⟨p, hp, hpin⟩
  have hfew : scan.countP (fun p => within d v (d x) p.id) < scan'.length := by
    rw [h.length_eq h' hids]
    refine lt_of_le_of_ne List.countP_le_length fun hfull => hrout ?_
    exact List.countP_eq_length.mp hfull r hr
  obtain ⟨hnumw, hsep⟩ :=
    (hcuts _ _ hpos (h.cuts_within hnum' hdx)).separated h'.nodup hpos hfew
  refine ⟨h'.isNaN_iff.mp hnumw, fun x' y' hx' hy' => ?_⟩
  obtain ⟨p', hp', hpid, hpd'⟩ := h'.exists_point hx'
  obtain ⟨r', hr', hrid, hrd'⟩ := h'.exists_point hy'
  rw [← hpd', ← hrd']
  refine hsep p' hp' r' hr' ?_ ?_
  · rw [hpid]
    exact ⟨List.mem_map_of_mem hp, hpin⟩
  · rw [hrid]
    exact fun hin => hrout hin.2

end Scores

theorem RanksAlike.refl (d : Embedding → F32) (v : Id → Option Embedding) : RanksAlike d v v := by
  refine ⟨fun _ => rfl, fun hnum a b x y hx hy hlt => ⟨hnum, fun x' y' hx' hy' => ?_⟩⟩
  obtain rfl := Option.some.inj (hx.symm.trans hx')
  obtain rfl := Option.some.inj (hy.symm.trans hy')
  exact hlt

theorem returns_filter_iff (hK : K.distance = distance) (c : Collection) :
    Returns distance c (some F) q k S ↔ Cuts (c.exactScan K (some F) q) (max k 1) S := by
  constructor
  · intro h
    exact h K hK
  · intro h K' hK'
    refine h.perm ?_
    refine (List.perm_ext_iff_of_nodup (nodup_exactScan _) (nodup_exactScan _)).mpr fun p => ?_
    show p ∈ c.exactPoints K' F q ↔ p ∈ c.exactPoints K F q
    rw [mem_exactPoints_iff, mem_exactPoints_iff, hK, hK']

theorem returns_all (hconfig : f.config = l.config) (hget : f.get = l.get)
    (h : Returns distance l none q k S) : Returns distance f none q k S := by
  intro K hK
  refine (h K hK).perm ?_
  refine (List.perm_ext_iff_of_nodup (nodup_exactScan _) (nodup_exactScan _)).mpr fun p => ?_
  show p ∈ f.bruteForce K q f.config.space ↔ p ∈ l.bruteForce K q l.config.space
  rw [mem_bruteForce_iff, mem_bruteForce_iff, hget, hconfig]

/-- **Reading alike** comes down to `get` and to how the vectors rank that the filters
select. -/
theorem readsAlike_iff (hconfig : f.config = l.config) : ReadsAlike distance l f ↔ f.get = l.get ∧
    ∀ F q, l.PlansExact (some F) → f.PlansExact (some F) → l.TakesQuery q →
      RanksAlike (distance l.config.space q) (l.exactVector l.records.lookup F)
        (f.exactVector f.records.lookup F) := by
  let K := exactKernels distance
  have hK : K.distance = distance := rfl
  have hscores : ∀ F q, Scores (distance l.config.space q) (l.exactVector l.records.lookup F)
      (l.exactScan K (some F) q) := scores_exactScan l K
  have hscores' : ∀ F q, Scores (distance l.config.space q) (f.exactVector f.records.lookup F)
      (f.exactScan K (some F) q) := by
    rw [← hconfig]
    exact scores_exactScan f K
  constructor
  · intro h
    refine ⟨h.get, fun F q hl hf hq => (hscores F q).ranksAlike (hscores' F q) ?_⟩
    intro k S hk hcuts
    have hreturns := h.query (some F) q k S hl hf hq
    rw [returns_filter_iff hK, returns_filter_iff hK, max_eq_left hk] at hreturns
    exact hreturns hcuts
  · rintro ⟨hget, hfilters⟩
    refine ⟨hget, ?_, ?_⟩
    · apply FinMap.size_eq_of_isSome
      intro id
      have hid := congrArg Option.isSome (congrFun hget id)
      unfold Collection.get at hid
      rwa [Option.isSome_map, Option.isSome_map] at hid
    · intro filter q k S hl hf hq hreturns
      cases filter with
      | none => exact returns_all hconfig hget hreturns
      | some F =>
          rw [returns_filter_iff hK] at hreturns ⊢
          exact (hscores F q).cuts (hscores' F q) (hfilters F q hl hf hq) (le_max_right k 1)
            hreturns

end Ranking

/-! ## One collection -/

section Restored

variable {l f : Collection} {order : HashOrder}
  {distance : Distance → Embedding → Embedding → F32}

theorem lookup_restoreRecords (hkeyed : ∀ id r, l.records.lookup id = some r → r.id = id)
    (id : Id) :
    (f.restoreRecords ((order.iter l.records).map Sigma.snd)).records.lookup id =
      (l.records.lookup id).or (f.records.lookup id) := by
  have hperm := order.perm l.records
  have hnodup : (order.iter l.records).NodupKeys :=
    (List.perm_nodupKeys hperm).mpr l.records.nodupKeys
  have hfold : (f.restoreRecords ((order.iter l.records).map Sigma.snd)).records =
      (order.iter l.records).foldl (fun m e => m.insert e.1 e.2) f.records := by
    unfold restoreRecords
    rw [List.foldl_map]
    refine List.foldl_ext _ _ _ ?_
    intro m e he
    rw [hkeyed e.1 e.2 (FinMap.mem_entries_iff.mp (hperm.mem_iff.mp he))]
  rw [hfold, FinMap.lookup_foldl_insert id _ hnodup, List.perm_dlookup id hnodup hperm]
  rfl

/-- **What a restore makes of a collection** reads like the leader's exactly if
what it left there fits. -/
theorem readsAlike_restoreRecords_iff (hconfig : f.config = l.config)
    (hkeyed : ∀ id r, l.records.lookup id = some r → r.id = id) :
    ReadsAlike distance l (f.restoreRecords ((order.iter l.records).map Sigma.snd)) ↔
      Merges distance l f := by
  have hlookup := @lookup_restoreRecords l f order hkeyed
  have hget : ∀ id, (f.restoreRecords ((order.iter l.records).map Sigma.snd)).get id =
      ((l.records.lookup id).or (f.records.lookup id)).map fun r =>
        { r with embedding := (f.loadVector id).or r.embedding } := by
    intro id
    unfold Collection.get
    rw [hlookup]
    rfl
  have hleader : (∀ id, (f.records.lookup id).isSome → (l.records.lookup id).isSome) →
      ∀ id, (l.records.lookup id).or (f.records.lookup id) = l.records.lookup id := by
    intro hstale id
    cases hl : l.records.lookup id with
    | some r => rfl
    | none =>
        have hf := mt (hstale id)
        rw [hl] at hf
        exact Option.not_isSome_iff_eq_none.mp (hf Bool.false_ne_true)
  have hrecords : (∀ id, (f.records.lookup id).isSome → (l.records.lookup id).isSome) →
      (f.restoreRecords ((order.iter l.records).map Sigma.snd)).records.lookup =
        l.records.lookup := by
    intro hstale
    ext1 id
    rw [hlookup, hleader hstale]
  have hrestored : (f.restoreRecords ((order.iter l.records).map Sigma.snd)).config = l.config :=
    hconfig
  rw [readsAlike_iff hrestored]
  constructor
  · rintro ⟨hsame, hfilters⟩
    have hstale : ∀ id, (f.records.lookup id).isSome → (l.records.lookup id).isSome := by
      intro id hid
      have hl := congrArg Option.isSome (congrFun hsame id)
      rw [hget] at hl
      unfold Collection.get at hl
      rw [Option.isSome_map, Option.isSome_map, Option.isSome_or, hid, Bool.or_true] at hl
      exact hl.symm
    refine ⟨hstale, ?_, ?_⟩
    · intro id r hr
      have hl := congrFun hsame id
      rw [hget] at hl
      unfold Collection.get at hl
      rw [hr] at hl
      exact congrArg Record.embedding (Option.some.inj hl)
    · intro F q hl hf hq
      have hF := hfilters F q hl hf hq
      rwa [hrecords hstale] at hF
  · intro h
    refine ⟨?_, ?_⟩
    · ext1 id
      rw [hget, hleader h.stale]
      unfold Collection.get
      cases hl : l.records.lookup id with
      | none => rfl
      | some r => exact congrArg (fun e => some { r with embedding := e }) (h.vectors id r hl)
    · intro F q hl hf hq
      rw [hrecords h.stale]
      exact h.filters F q hl hf hq

end Restored

end Collection

/-! ## The engines -/

namespace Engine

/-- The restore looks the collection up by the text of its id, and finds one. -/
def finds (e : Engine) (id : Uuid) : Bool :=
  (e.getCollection configOrDefaultTenant configOrDefaultDatabase id.toString).isSome

/-- Every collection has come to its state through calls. -/
def Serves (e : Engine) : Prop := ∀ id c, e.collections.lookup id = some c →
  ∃ config h, Reachable (fun _ => True) config h c

def SameCollections (leader follower : Engine) : Prop :=
  ∀ id l, leader.collections.lookup id = some l →
    ∃ f, follower.collections.lookup id = some f ∧ f.config = l.config

/-- Every collection of the leader reads alike on the follower. -/
def Shows (distance : Distance → Embedding → Embedding → F32) (leader follower : Engine) : Prop :=
  ∀ id l, leader.collections.lookup id = some l →
    ∃ f, follower.collections.lookup id = some f ∧ ReadsAlike distance l f

section Restore

variable {e leader follower : Engine} {order : HashOrder} {data : SnapshotData} {id : Uuid}

theorem finds_restoreCollection (p : Uuid × List Record) (id : Uuid) :
    (e.restoreCollection p).finds id = e.finds id := by
  unfold restoreCollection
  split
  · rfl
  · split <;> rfl

theorem lookup_restoreCollection (p : Uuid × List Record) (id : Uuid) :
    (e.restoreCollection p).collections.lookup id = (e.collections.lookup id).map fun c =>
      if id = p.1 ∧ e.finds id = true then c.restoreRecords p.2 else c := by
  unfold restoreCollection finds
  split
  · rename_i hnone
    have hskip : ¬ (id = p.1 ∧ (e.getCollection configOrDefaultTenant configOrDefaultDatabase
        id.toString).isSome = true) := by
      rintro ⟨rfl, hsome⟩
      rw [hnone] at hsome
      cases hsome
    simp only [if_neg hskip, Option.map_id_fun', id_eq]
  · rename_i config hsome
    split
    · rename_i c hc
      show (e.collections.insert p.1 (c.restoreRecords p.2)).lookup id = _
      rw [FinMap.lookup_insert_ite]
      by_cases hid : id = p.1
      · rw [hid, if_pos rfl, hc, hsome, Option.map_some, if_pos ⟨rfl, rfl⟩]
      · simp [hid]
    · rename_i hnone
      by_cases hid : id = p.1
      · rw [hid, hnone]
        rfl
      · simp [hid]

theorem lookup_restoreSnapshot_other : ∀ {data : SnapshotData} {e : Engine},
    id ∉ data.map Prod.fst → (e.restoreSnapshot data).collections.lookup id =
      e.collections.lookup id
  | [], _, _ => rfl
  | p :: data, e, hnot => by
      rw [List.map_cons, List.mem_cons, not_or] at hnot
      have hrest : ((e.restoreCollection p).restoreSnapshot data).collections.lookup id =
          (e.restoreCollection p).collections.lookup id := lookup_restoreSnapshot_other hnot.2
      apply hrest.trans
      rw [lookup_restoreCollection]
      simp only [hnot.1, false_and, if_false, Option.map_id_fun', id_eq]

theorem lookup_restoreSnapshot {records : List Record} {f : Collection} :
    ∀ {data : SnapshotData} {e : Engine}, (data.map Prod.fst).Nodup → (id, records) ∈ data →
      e.collections.lookup id = some f → (e.restoreSnapshot data).collections.lookup id =
        some (if e.finds id then f.restoreRecords records else f)
  | p :: data, e, hnodup, hmem, hf => by
      obtain ⟨hnot, hnodup⟩ := List.nodup_cons.mp hnodup
      show ((e.restoreCollection p).restoreSnapshot data).collections.lookup id = _
      rcases List.mem_cons.mp hmem with rfl | hmem
      · rw [lookup_restoreSnapshot_other hnot, lookup_restoreCollection, hf]
        simp only [true_and, Option.map_some]
      · have hid : id ≠ p.1 := by
          intro hid
          exact hnot (List.mem_map.mpr ⟨_, hmem, hid⟩)
        rw [← finds_restoreCollection p id]
        refine lookup_restoreSnapshot hnodup hmem ?_
        rw [lookup_restoreCollection, hf]
        simp only [hid, false_and, if_false, Option.map_some]

/-- **A transferred snapshot is faithful** exactly if every collection either is
found by the text of its id and what the follower keeps of it fits the leader's
records, or reads like the leader's already. -/
theorem restore_faithful_iff (distance : Distance → Embedding → Embedding → F32)
    (hleader : leader.Serves) (hsame : leader.SameCollections follower)
    (hdata : data.Perm (leader.snapshot order)) :
    Shows distance leader (follower.restoreSnapshot data) ↔
      ∀ id l f, leader.collections.lookup id = some l → follower.collections.lookup id = some f →
        if follower.finds id then Merges distance l f else ReadsAlike distance l f := by
  have hids : (data.map Prod.fst).Nodup := by
    refine (hdata.map Prod.fst).nodup_iff.mpr ?_
    unfold snapshot
    rw [List.map_map]
    exact leader.collections.keys_nodup
  have hrestored : ∀ {id l f}, leader.collections.lookup id = some l →
      follower.collections.lookup id = some f →
        (follower.restoreSnapshot data).collections.lookup id = some (if follower.finds id then
          f.restoreRecords ((order.iter l.records).map Sigma.snd) else f) := by
    intro id l f hl hf
    refine lookup_restoreSnapshot hids (hdata.mem_iff.mpr ?_) hf
    exact List.mem_map.mpr ⟨⟨id, l⟩, FinMap.mem_entries_iff.mpr hl, rfl⟩
  have hone : ∀ {id l f}, leader.collections.lookup id = some l →
      follower.collections.lookup id = some f →
        ((∃ f', (follower.restoreSnapshot data).collections.lookup id = some f' ∧
          ReadsAlike distance l f') ↔
            if follower.finds id then Merges distance l f else ReadsAlike distance l f) := by
    intro id l f hl hf
    obtain ⟨config, h, hr⟩ := hleader id l hl
    have hconfig : f.config = l.config := by
      obtain ⟨f', hf', hconfig⟩ := hsame id l hl
      rw [hf] at hf'
      exact Option.some.inj hf' ▸ hconfig
    rw [hrestored hl hf]
    simp only [Option.some.injEq, exists_eq_left']
    split
    · exact readsAlike_restoreRecords_iff hconfig hr.derived.offsets.keyed
    · exact Iff.rfl
  constructor
  · intro hshows id l f hl hf
    exact (hone hl hf).mp (hshows id l hl)
  · intro hall id l hl
    obtain ⟨f, hf, -⟩ := hsame id l hl
    exact (hone hl hf).mpr (hall id l f hl hf)

end Restore

/-! ## Runs -/

/-- One collection in the default tenant and database, under a name. -/
def single (name : String) (c : Collection) : Engine where
  collectionByName :=
    AList.singleton (configOrDefaultTenant, configOrDefaultDatabase, name) c.config.id
  collectionRecords := AList.singleton c.config.id c.config
  collections := AList.singleton c.config.id c

theorem lookup_single {name : String} {c d : Collection} {id : Uuid}
    (h : (single name c).collections.lookup id = some d) : d = c ∧ id = c.config.id := by
  have hmem := AList.mem_lookup_iff.mp h
  obtain ⟨rfl, hd⟩ := Sigma.mk.inj (List.mem_singleton.mp hmem)
  exact ⟨eq_of_heq hd, rfl⟩

theorem lookup_single_self (name : String) (c : Collection) :
    (single name c).collections.lookup c.config.id = some c :=
  FinMap.mem_entries_iff.mp (List.mem_singleton.mpr rfl)

/-- A collection named by its own id, restored to where it came from. -/
theorem restore_faithful_iff_demo : ∃ c, runAll [.add true ["a", "b"] [one, zero] none none,
        .flush, .checkpoint, .upsert true ["b"] [one] none none, .delete ["a"]]
      (Collection.fresh demoConfig) = .ok c ∧ (c.get "b").isSome = true ∧
    ∀ distance, Shows distance (single demoConfig.id.toString c)
      ((single demoConfig.id.toString c).restoreSnapshot
        ((single demoConfig.id.toString c).snapshot (exactKernels fun _ _ _ => ⟨0⟩).order)) := by
  obtain ⟨c, hrun, hget⟩ : ∃ c, runAll [.add true ["a", "b"] [one, zero] none none,
        .flush, .checkpoint, .upsert true ["b"] [one] none none, .delete ["a"]]
      (Collection.fresh demoConfig) = .ok c ∧ (c.get "b").isSome = true :=
    exists_runAll (by decide +kernel)
  refine ⟨c, hrun, hget, fun distance =>
    (restore_faithful_iff distance ?_ ?_ (List.Perm.refl _)).mpr ?_⟩
  · intro id d hd
    obtain ⟨rfl, -⟩ := lookup_single hd
    exact ⟨_, _, Reachable.fresh.runAll (fun _ _ => trivial) hrun⟩
  · intro id d hd
    exact ⟨d, hd, rfl⟩
  · intro id l f hl hf
    obtain ⟨rfl, rfl⟩ := lookup_single hl
    obtain ⟨rfl, -⟩ := lookup_single hf
    split
    · exact ⟨fun _ h => h, fun _ _ _ => rfl, fun _ _ _ _ _ => .refl _ _⟩
    · exact ⟨rfl, rfl, fun _ _ _ _ _ _ _ h => h⟩

/-- **A snapshot restores nothing** into a collection that is not named by its
id: the follower misses the record. -/
theorem restored_record_missing : ∃ (leader follower : Engine) (order : HashOrder),
    leader.Serves ∧ follower.Serves ∧ leader.SameCollections follower ∧
      ∀ distance, ¬ Shows distance leader (follower.restoreSnapshot (leader.snapshot order)) := by
  let order := (exactKernels fun _ _ _ => ⟨0⟩).order
  let follower (c : Collection) := single demoConfig.name (Collection.fresh c.config)
  let restored (c : Collection) :=
    (follower c).restoreSnapshot ((single demoConfig.name c).snapshot order)
  obtain ⟨c, hrun, hP⟩ : ∃ c, runAll [.add true ["a"] [one] none none]
      (Collection.fresh demoConfig) = .ok c ∧
        decide ((c.get "a").isSome = true ∧ ((restored c).collections.lookup c.config.id).all
          (fun f => (f.get "a").isNone) = true) = true :=
    exists_runAll (by decide +kernel)
  obtain ⟨hget, hmissing⟩ := of_decide_eq_true hP
  refine ⟨single demoConfig.name c, follower c, order, ?_, ?_, ?_, ?_⟩
  · intro id d hd
    obtain ⟨rfl, -⟩ := lookup_single hd
    exact ⟨_, _, Reachable.fresh.runAll (fun _ _ => trivial) hrun⟩
  · intro id d hd
    obtain ⟨rfl, -⟩ := lookup_single hd
    exact ⟨_, _, Reachable.fresh⟩
  · intro id d hd
    obtain ⟨rfl, rfl⟩ := lookup_single hd
    exact ⟨Collection.fresh d.config, lookup_single_self _ _, rfl⟩
  · intro distance hshows
    obtain ⟨f, hf, halike⟩ := hshows c.config.id c (lookup_single_self _ _)
    rw [hf] at hmissing
    have hnone : (f.get "a").isNone = true := hmissing
    rw [halike.get, Option.isNone_iff_eq_none] at hnone
    rw [hnone] at hget
    cases hget

end Engine

end Rekha
