import Rekha.Index.Usearch
import Rekha.Lib.Trace

/-!
# Labels

The bookkeeping of an index over its whole life: adds that may fail in the
graph, deletes, searches, and saving and loading. The maps stay inverse to each
other and to the graph, and no label is handed out twice (`label_bookkeeping`).
-/

namespace Rekha

open Trace

/-! ## Calls that fail -/

/-- A failure below the checks of the index: a removal that is refused, the
reservation of capacity, the insert into the graph. -/
inductive IndexFault where
  | delete (msg : String)
  | reserve (msg : String)
  | insert (msg : String)

namespace UsearchIndex

/-- `delete` behind the trait: `UsearchIndex` never refuses. -/
def tryDelete (fault : Option IndexFault) (x : UsearchIndex) (id : Id) :
    EStateM.Result IndexError UsearchIndex Unit :=
  match fault with
  | some (.delete msg) => .error (.usearch msg) x
  | _ => .ok () (x.delete id)

/-- `add` when the graph may fail it. A failed insert leaves its label consumed. -/
def tryAdd (fault : Option IndexFault) (x : UsearchIndex) (id : Id) (embedding : Embedding) :
    EStateM.Result IndexError UsearchIndex Unit :=
  if embedding.length ≠ x.dimension then
    .error (.dimensionMismatch x.dimension embedding.length) x
  else if (x.labels.lookup id).isSome then .error (.duplicateId id) x
  else
    match fault with
    | some (.reserve msg) => .error (.usearch msg) x
    | some (.insert msg) =>
        let label := x.nextLabel
        .error (.usearch msg) { x with
          labels := (x.labels.insert id label).erase id
          ids := (x.ids.insert label id).erase label
          nextLabel := label + 1 }
    | _ => x.add id embedding

theorem tryAdd_none (x : UsearchIndex) (id : Id) (e : Embedding) :
    x.tryAdd none id e = x.add id e := by
  unfold tryAdd
  split
  · rename_i hlen
    rw [add, if_pos hlen]
  · rename_i hlen
    split
    · rename_i hdup
      rw [add, if_neg hlen, if_pos hdup]
    · rfl

theorem tryAdd_ok {fault : Option IndexFault} {x x' : UsearchIndex} {id : Id} {e : Embedding}
    {u : Unit} (h : x.tryAdd fault id e = .ok u x') : x.add id e = .ok u x' := by
  unfold tryAdd at h
  split at h
  · cases h
  · split at h
    · cases h
    · split at h
      · cases h
      · cases h
      · exact h

theorem tryAdd_error {fault : Option IndexFault} {x x' : UsearchIndex} {id : Id} {e : Embedding}
    {err : IndexError} (hnew : x.labels.lookup id = none)
    (h : x.tryAdd fault id e = .error err x') : x'.labels.lookup id = none := by
  have hrolled : ((x.labels.insert id x.nextLabel).erase id).lookup id = none :=
    AList.lookup_erase _ _
  unfold tryAdd at h
  split at h
  · cases h
    exact hnew
  · split at h
    · cases h
      exact hnew
    · split at h
      · cases h
        exact hnew
      · cases h
        exact hrolled
      · rename_i hlen hdup _ _ _
        rw [add, if_neg hlen, if_neg hdup] at h
        dsimp only at h
        split at h
        · cases h
          exact hrolled
        · cases h

section Failed

variable {fault : Option IndexFault} {x x' : UsearchIndex} {id : Id} {e : Embedding}
  {err : IndexError}

theorem Wf.ids_nextLabel (hx : Wf x) : x.ids.lookup x.nextLabel = none := by
  cases hids : x.ids.lookup x.nextLabel with
  | none => rfl
  | some id =>
      have hlt := hx.below x.nextLabel (by rw [hids]; rfl)
      exact absurd hlt (lt_irrefl _)

/-- What an add that fails leaves: at most the label counter has moved. -/
structure Unchanged (x x' : UsearchIndex) : Prop where
  labels : ∀ id, x'.labels.lookup id = x.labels.lookup id
  ids : ∀ label, x'.ids.lookup label = x.ids.lookup label
  inner : x'.inner = x.inner
  nextLabel : x'.nextLabel = x.nextLabel ∨ x'.nextLabel = x.nextLabel + 1
  space : x'.space = x.space
  dimension : x'.dimension = x.dimension

theorem Unchanged.refl (x : UsearchIndex) : Unchanged x x :=
  ⟨fun _ => rfl, fun _ => rfl, rfl, .inl rfl, rfl, rfl⟩

theorem unchanged_rolledBack (hx : Wf x) (hnew : x.labels.lookup id = none) :
    Unchanged x { x with
      labels := (x.labels.insert id x.nextLabel).erase id
      ids := (x.ids.insert x.nextLabel id).erase x.nextLabel
      nextLabel := x.nextLabel + 1 } := by
  constructor
  · intro id'
    simp only [FinMap.lookup_erase_ite, FinMap.lookup_insert_ite]
    by_cases hid : id' = id
    · subst hid
      rw [if_pos rfl, hnew]
    · rw [if_neg hid, if_neg hid]
  · intro label
    simp only [FinMap.lookup_erase_ite, FinMap.lookup_insert_ite]
    by_cases hlabel : label = x.nextLabel
    · subst hlabel
      rw [if_pos rfl, hx.ids_nextLabel]
    · rw [if_neg hlabel, if_neg hlabel]
  · rfl
  · exact .inr rfl
  · rfl
  · rfl

theorem tryAdd_unchanged (hx : Wf x) (h : x.tryAdd fault id e = .error err x') :
    Unchanged x x' := by
  unfold tryAdd at h
  split at h
  · cases h
    exact .refl x
  · rename_i hlen
    split at h
    · cases h
      exact .refl x
    · rename_i hdup
      have hnew : x.labels.lookup id = none := by simpa using hdup
      split at h
      · cases h
        exact .refl x
      · cases h
        exact unchanged_rolledBack hx hnew
      · rw [add, if_neg hlen, if_neg hdup] at h
        dsimp only at h
        split at h
        · cases h
          exact unchanged_rolledBack hx hnew
        · cases h

theorem Unchanged.wf (h : Unchanged x x') (hx : Wf x) : Wf x' where
  ids_of_labels id label := by
    rw [h.labels, h.ids]
    exact hx.ids_of_labels id label
  labels_of_ids label id := by
    rw [h.labels, h.ids]
    exact hx.labels_of_ids label id
  graph label := by
    rw [h.inner, h.ids]
    exact hx.graph label
  below label := by
    intro hl
    rw [h.ids] at hl
    have hlt := hx.below label hl
    rcases h.nextLabel with heq | heq <;> omega

end Failed

/-! ## Loading -/

/-- What a load takes and gives: both files, the expected space and dimension, and
as many labels as vectors. -/
theorem load_eq_ok_iff {bin : Option Graph} {im : Option IndexMeta} {space : Distance} {d : ℕ}
    {x : UsearchIndex} : load bin im space d = .ok x ↔
      ∃ inner m, bin = some inner ∧ im = some m ∧ m.space = space.name ∧ m.dimension = d ∧
        inner.size = m.labels.size ∧ x = ⟨inner, space, d, m.labels, m.ids, m.nextLabel⟩ := by
  unfold load
  constructor
  · intro h
    cases im with
    | none => exact absurd h (by simp)
    | some m =>
        simp only at h
        split at h
        · exact absurd h (by simp)
        · rename_i hspace
          split at h
          · exact absurd h (by simp)
          · rename_i hdim
            cases bin with
            | none => exact absurd h (by simp)
            | some inner =>
                simp only at h
                split at h
                · exact absurd h (by simp)
                · rename_i hsize
                  exact ⟨inner, m, rfl, rfl, not_not.mp hspace, not_not.mp hdim,
                    not_not.mp hsize, (Except.ok.inj h).symm⟩
  · rintro ⟨inner, m, rfl, rfl, hspace, hdim, hsize, rfl⟩
    simp [hspace, hdim, hsize]

theorem load_ok {bin : Option Graph} {im : Option IndexMeta} {space : Distance} {d : ℕ}
    {x : UsearchIndex} (h : load bin im space d = .ok x) :
    ∃ inner m, bin = some inner ∧ im = some m ∧ inner.size = m.labels.size ∧
      x = ⟨inner, space, d, m.labels, m.ids, m.nextLabel⟩ := by
  obtain ⟨inner, m, hbin, hmeta, -, -, hsize, hx⟩ := load_eq_ok_iff.mp h
  exact ⟨inner, m, hbin, hmeta, hsize, hx⟩

theorem Wf.retag {x : UsearchIndex} (hx : x.Wf) (space : Distance) (d : ℕ) :
    Wf { x with space := space, dimension := d } :=
  ⟨hx.ids_of_labels, hx.labels_of_ids, hx.graph, hx.below⟩

/-- Loading what was just saved gives the index back: there are as many labels as
vectors. -/
theorem Wf.load_saved {x : UsearchIndex} (hx : Wf x) :
    load (some x.inner) (some x.savedMeta) x.space x.dimension = .ok x := by
  have hsize : x.inner.size = x.labels.size := by
    rw [FinMap.size_eq_of_isSome hx.graph]
    exact FinMap.size_eq_of_inverse fun label id =>
      ⟨hx.labels_of_ids label id, hx.ids_of_labels id label⟩
  exact load_eq_ok_iff.mpr ⟨x.inner, x.savedMeta, rfl, rfl, rfl, rfl, hsize, rfl⟩

end UsearchIndex

theorem Distance.name_injective {s t : Distance} (h : s.name = t.name) : s = t := by
  cases s <;> cases t <;> first | rfl | exact absurd h (by decide)

open UsearchIndex

/-! ## Runs -/

/-- What happened to an index. An add that failed may have consumed a label. -/
inductive IndexEvent where
  | added (id : Id) (label : ℕ)
  | failed (id : Id) (label : Option ℕ)
  | deleted (id : Id)
  | searched
  | reloaded

def IndexEvent.label : IndexEvent → Option ℕ
  | .added _ label => some label
  | .failed _ label => label
  | _ => none

/-- One call on an index. The graph may fail an add at any point; a removal
succeeds. -/
inductive IndexStep : List IndexEvent → UsearchIndex → UsearchIndex → Prop
  | added {fault : Option IndexFault} {x x' : UsearchIndex} {id : Id} {e : Embedding}
      {label : ℕ} (h : x.tryAdd fault id e = .ok () x')
      (hl : x'.labels.lookup id = some label) : IndexStep [.added id label] x x'
  | failed {fault : Option IndexFault} {x x' : UsearchIndex} {id : Id} {e : Embedding}
      {err : IndexError} (h : x.tryAdd fault id e = .error err x') :
      IndexStep [.failed id (if x'.nextLabel = x.nextLabel then none else some x.nextLabel)] x x'
  | deleted (x : UsearchIndex) (id : Id) : IndexStep [.deleted id] x (x.delete id)
  | searched {x : UsearchIndex} {find : GraphSearch} {query : Embedding} {k ef : ℕ}
      {result : Except IndexError (List IndexHit)} (h : x.search find query k ef = result) :
      IndexStep [.searched] x x
  | reloaded {x x' : UsearchIndex} {space : Distance} {dimension : ℕ}
      (h : load (some x.inner) (some x.savedMeta) space dimension = .ok x') :
      IndexStep [.reloaded] x x'

def AddedSince (events : List IndexEvent) (id : Id) : Prop :=
  ∃ pre label post, events = pre ++ .added id label :: post ∧ .deleted id ∉ post

/-- **The bookkeeping** of an index with the given past. -/
structure Bookkeeping (events : List IndexEvent) (x : UsearchIndex) : Prop where
  /-- The maps are inverse to each other, and their labels are the graph's and
  below the counter. -/
  wf : x.Wf
  /-- No two adds were given the same label. -/
  distinct : (events.filterMap IndexEvent.label).Nodup
  given : ∀ label ∈ events.filterMap IndexEvent.label, label < x.nextLabel
  contains : ∀ id, x.contains id = true ↔ AddedSince events id
  /-- A failed add changes neither the indexed ids nor the graph. -/
  failed : ∀ fault id e err x', x.tryAdd fault id e = .error err x' →
    (∀ id', x'.contains id' = x.contains id') ∧ x'.inner = x.inner
  /-- A search finds only ids that are indexed now. -/
  hits : ∀ find query k ef hits, x.search find query k ef = .ok hits →
    ∀ hit ∈ hits, x.contains hit.id = true
  /-- The saved files load, as the same index. -/
  reload : load (some x.inner) (some x.savedMeta) x.space x.dimension = .ok x

section Runs

variable {x x' : UsearchIndex} {l events : List IndexEvent} {ev : IndexEvent} {id : Id}

theorem addedSince_snoc : AddedSince (events ++ [ev]) id ↔
    (∃ label, ev = .added id label) ∨ (ev ≠ .deleted id ∧ AddedSince events id) := by
  constructor
  · rintro ⟨pre, label, post, heq, hnot⟩
    rcases List.eq_nil_or_concat post with rfl | ⟨post, last, rfl⟩
    · obtain ⟨-, hev⟩ := List.append_inj' heq rfl
      exact .inl ⟨label, List.singleton_inj.mp hev⟩
    · rw [List.concat_eq_append, ← List.cons_append, ← List.append_assoc] at heq
      obtain ⟨hpre, hev⟩ := List.append_inj' heq rfl
      obtain rfl := List.singleton_inj.mp hev
      refine .inr ⟨fun hdel => hnot ?_, pre, label, post, hpre, fun hmem => hnot ?_⟩
      · simp [hdel]
      · simp [hmem]
  · rintro (⟨label, rfl⟩ | ⟨hne, pre, label, post, rfl, hnot⟩)
    · exact ⟨events, label, [], rfl, List.not_mem_nil⟩
    · refine ⟨pre, label, post ++ [ev], by simp, fun hmem => ?_⟩
      rcases List.mem_append.mp hmem with h | h
      · exact hnot h
      · exact hne (List.mem_singleton.mp h).symm

/-- What a step does to the bookkeeping: labels only grow, and the indexed ids
change by the one that was added or deleted. -/
structure Kept (ev : IndexEvent) (x x' : UsearchIndex) : Prop where
  wf : x'.Wf
  fresh : ∀ label, ev.label = some label → x.nextLabel ≤ label ∧ label < x'.nextLabel
  mono : x.nextLabel ≤ x'.nextLabel
  contains : ∀ id, x'.contains id = true ↔
    (∃ label, ev = .added id label) ∨ (ev ≠ .deleted id ∧ x.contains id = true)

theorem kept_added {e : Embedding} {label : ℕ} (hx : x.Wf) (h : x.add id e = .ok () x')
    (hl : x'.labels.lookup id = some label) : Kept (.added id label) x x' := by
  have hwf := hx.add h
  obtain ⟨-, hnew, -, rfl⟩ := add_ok h
  have hlabel : x.nextLabel = label := by
    simpa using hl
  refine ⟨hwf, fun label' hl' => ?_, Nat.le_succ _, fun id' => ?_⟩
  · obtain rfl : label = label' := by simpa [IndexEvent.label] using hl'
    exact ⟨hlabel.le, hlabel ▸ Nat.lt_succ_self _⟩
  · simp only [UsearchIndex.contains, FinMap.lookup_insert_ite]
    by_cases hid : id' = id
    · subst hid
      simp
    · simp [hid, Ne.symm hid]

theorem kept_failed {label : Option ℕ} (hx : x.Wf) (h : Unchanged x x')
    (hl : label = if x'.nextLabel = x.nextLabel then none else some x.nextLabel) :
    Kept (.failed id label) x x' := by
  have hle : x.nextLabel ≤ x'.nextLabel := by
    rcases h.nextLabel with heq | heq <;> omega
  refine ⟨h.wf hx, fun label' hl' => ?_, hle, fun id' => ?_⟩
  · rw [IndexEvent.label, hl] at hl'
    split at hl'
    · cases hl'
    · cases hl'
      exact ⟨le_rfl, by omega⟩
  · simp [UsearchIndex.contains, h.labels]

theorem kept_deleted (hx : x.Wf) (id : Id) : Kept (.deleted id) x (x.delete id) := by
  refine ⟨hx.delete id, fun label hl => ?_, (delete_nextLabel x id).ge, fun id' => ?_⟩
  · cases hl
  · rw [UsearchIndex.contains, labels_delete]
    by_cases hid : id' = id
    · subst hid
      simp
    · simp [hid, Ne.symm hid, UsearchIndex.contains]

theorem kept_same (hx : x.Wf) (hev : ev = .searched ∨ ev = .reloaded) : Kept ev x x := by
  refine ⟨hx, fun label hl => ?_, le_rfl, fun id' => ?_⟩
  · rcases hev with rfl | rfl <;> cases hl
  · rcases hev with rfl | rfl <;> simp

theorem load_saved_eq {space : Distance} {d : ℕ}
    (h : load (some x.inner) (some x.savedMeta) space d = .ok x') : x' = x := by
  obtain ⟨inner, m, hbin, hmeta, hspace, hdim, -, rfl⟩ := load_eq_ok_iff.mp h
  obtain rfl := Option.some.inj hbin
  obtain rfl := Option.some.inj hmeta
  obtain rfl : x.space = space := Distance.name_injective hspace
  obtain rfl : x.dimension = d := hdim
  rfl

theorem IndexStep.kept (hx : x.Wf) (hs : IndexStep l x x') : ∃ ev, l = [ev] ∧ Kept ev x x' := by
  cases hs with
  | added h hl => exact ⟨_, rfl, kept_added hx (tryAdd_ok h) hl⟩
  | failed h => exact ⟨_, rfl, kept_failed hx (tryAdd_unchanged hx h) rfl⟩
  | deleted _ id => exact ⟨_, rfl, kept_deleted hx id⟩
  | searched h => exact ⟨_, rfl, kept_same hx (.inl rfl)⟩
  | reloaded h =>
      obtain rfl := load_saved_eq h
      exact ⟨_, rfl, kept_same hx (.inr rfl)⟩

structure Tracked (events : List IndexEvent) (x : UsearchIndex) : Prop where
  wf : x.Wf
  distinct : (events.filterMap IndexEvent.label).Nodup
  given : ∀ label ∈ events.filterMap IndexEvent.label, label < x.nextLabel
  contains : ∀ id, x.contains id = true ↔ AddedSince events id

theorem tracked_withHnsw (space : Distance) (dimension : ℕ) :
    Tracked [] (withHnsw space dimension) := by
  refine ⟨wf_withHnsw space dimension, List.nodup_nil, by simp, fun id => ?_⟩
  have hnot : ¬ AddedSince [] id := by
    rintro ⟨pre, label, post, heq, -⟩
    exact absurd heq (by simp)
  simp [UsearchIndex.contains, withHnsw, hnot]

theorem Tracked.snoc (h : Tracked events x) (hk : Kept ev x x') :
    Tracked (events ++ [ev]) x' := by
  refine ⟨hk.wf, ?_, ?_, fun id => ?_⟩
  · rw [List.filterMap_append]
    refine List.Nodup.append h.distinct ?_ fun label hold hnew => ?_
    · cases hl : ev.label <;> simp [hl]
    · have hev : ev.label = some label := by simpa using hnew
      exact absurd (h.given label hold) (not_lt.mpr (hk.fresh label hev).1)
  · intro label hmem
    rw [List.filterMap_append, List.mem_append] at hmem
    rcases hmem with hold | hnew
    · exact lt_of_lt_of_le (h.given label hold) hk.mono
    · have hev : ev.label = some label := by simpa using hnew
      exact (hk.fresh label hev).2
  · rw [hk.contains id, addedSince_snoc, h.contains id]

theorem Tracked.hits (h : Tracked events x) {find : GraphSearch} {query : Embedding} {k ef : ℕ}
    {hits : List IndexHit} (hs : x.search find query k ef = .ok hits) {hit : IndexHit}
    (hmem : hit ∈ hits) : x.contains hit.id = true := by
  rw [UsearchIndex.search] at hs
  split at hs
  · cases hs
  · split at hs
    · cases hs
    · cases hs
      obtain ⟨p, -, hp⟩ := List.mem_filterMap.mp hmem
      obtain ⟨id, hids, rfl⟩ := Option.map_eq_some_iff.mp hp
      rw [UsearchIndex.contains, h.wf.labels_of_ids p.1 id hids]
      rfl

theorem tracked_run {space : Distance} {dimension : ℕ}
    (hr : Run IndexStep (withHnsw space dimension) events x) : Tracked events x := by
  refine hr.invariant (tracked_withHnsw space dimension) fun events l x x' h hs => ?_
  obtain ⟨ev, rfl, hk⟩ := hs.kept h.wf
  exact h.snoc hk

end Runs

/-- **Label bookkeeping**, along every run of an index. -/
theorem label_bookkeeping {space : Distance} {dimension : ℕ} {events : List IndexEvent}
    {x : UsearchIndex} (hr : Run IndexStep (withHnsw space dimension) events x) :
    Bookkeeping events x := by
  have h := tracked_run hr
  refine ⟨h.wf, h.distinct, h.given, h.contains, fun fault id e err x' hadd => ?_,
    fun find query k ef hits hs hit hmem => h.hits hs hmem, h.wf.load_saved⟩
  have hsame := tryAdd_unchanged h.wf hadd
  refine ⟨fun id' => ?_, hsame.inner⟩
  rw [UsearchIndex.contains, UsearchIndex.contains, hsame.labels]

/-- An add, one that the graph fails, a delete, the same id again, and a reload. -/
def bookkeepingEvents : List IndexEvent :=
  [.added "a" 0, .failed "b" (some 1), .deleted "a", .added "a" 2, .reloaded]

theorem label_bookkeeping_demo : ∃ x, Bookkeeping bookkeepingEvents x := by
  have h₁ : Run IndexStep (withHnsw .l2 0) _ _ :=
    .single (@IndexStep.added none _ _ "a" [] 0 rfl rfl)
  have h₂ := h₁.tail (@IndexStep.failed (some (.insert "full")) _ _ "b" [] _ rfl)
  have h₃ := h₂.tail (.deleted _ "a")
  have h₄ := h₃.tail (@IndexStep.added none _ _ "a" [] 2 rfl rfl)
  have h₅ := h₄.tail (@IndexStep.reloaded _ _ .l2 0 rfl)
  exact ⟨_, label_bookkeeping h₅⟩

end Rekha
