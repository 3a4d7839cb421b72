import Rekha.Engine.Opening

/-!
# Offsets and postings

The postings index records by offset, so what a filter means depends on three
derived maps staying in step with the records: id to offset, offset to id, and
offset to the metadata it is indexed under. `Offsets` says they do; every
operation keeps it, and so does the loop that re-derives the maps from a
snapshot.
-/

namespace Rekha

/-! ## Metadata that index alike -/

theorem fromValue_of_beq {a v : MetadataValue} (h : a.beq v = true) :
    ValueKey.fromValue a = ValueKey.fromValue v := by
  cases a <;> cases v <;>
    simp only [MetadataValue.beq, decide_eq_true_eq, Bool.false_eq_true] at h
  · rw [h]
  · rw [h]
  · rw [h]
  · rw [ValueKey.fromValue, ValueKey.fromValue, (Ieee.eq_iff.mp h).2]

theorem keyView_of_optBeq {m₁ m₂ : Option Metadata} (h : Metadata.optBeq m₁ m₂ = true) :
    keyView m₁ = keyView m₂ := by
  cases m₁ with
  | none =>
      cases m₂ with
      | none => rfl
      | some m₂ => simp [Metadata.optBeq] at h
  | some m₁ =>
      cases m₂ with
      | none => simp [Metadata.optBeq] at h
      | some m₂ =>
          simp only [Metadata.optBeq, Metadata.beq, Bool.and_eq_true, decide_eq_true_eq,
            List.all_eq_true] at h
          obtain ⟨hsize, hall⟩ := h
          have hentry : ∀ k v, m₁.lookup k = some v →
              ∃ v', m₂.lookup k = some v' ∧ v.beq v' = true := by
            intro k v hv
            have hk := hall ⟨k, v⟩ (FinMap.mem_entries_iff.mpr hv)
            simp only at hk
            cases hv' : m₂.lookup k with
            | none =>
                rw [hv'] at hk
                exact absurd hk (by simp)
            | some v' =>
                rw [hv'] at hk
                exact ⟨v', rfl, hk⟩
          have hsub : m₁.keys ⊆ m₂.keys := by
            intro k hk
            rw [← AList.mem_keys, ← AList.lookup_isSome] at hk ⊢
            obtain ⟨v, hv⟩ := Option.isSome_iff_exists.mp hk
            obtain ⟨v', hv', -⟩ := hentry k v hv
            rw [hv']
            rfl
          have hperm : m₁.keys.Perm m₂.keys := by
            refine (m₁.keys_nodup.subperm hsub).perm_of_length_le ?_
            simp only [AList.keys, List.keys, List.length_map]
            exact hsize.symm.le
          funext k
          simp only [keyView, Option.getD_some]
          cases hv : m₁.lookup k with
          | some v =>
              obtain ⟨v', hv', hbeq⟩ := hentry k v hv
              rw [hv', Option.map_some, Option.map_some, fromValue_of_beq hbeq]
          | none =>
              have hk : k ∉ m₂.keys := by
                rw [← hperm.mem_iff, ← AList.mem_keys]
                exact AList.lookup_eq_none.mp hv
              rw [AList.lookup_eq_none.mpr (by rwa [AList.mem_keys])]

theorem Represents.congr {p : Postings} {docs docs' : ℕ → Option (Option Metadata)}
    (h : Represents p docs) (hdocs : ∀ o, (docs o).map keyView = (docs' o).map keyView) :
    Represents p docs' := by
  have hex : ∀ o (P : (String → Option ValueKey) → Prop),
      (∃ md, docs o = some md ∧ P (keyView md)) ↔ ∃ md, docs' o = some md ∧ P (keyView md) := by
    intro o P
    have ho := hdocs o
    cases hd : docs o with
    | none =>
        rw [hd, Option.map_none, eq_comm, Option.map_eq_none_iff] at ho
        simp [ho]
    | some md =>
        rw [hd, Option.map_some, eq_comm, Option.map_eq_some_iff] at ho
        obtain ⟨md', hd', hk⟩ := ho
        simp [hd', hk]
  constructor
  · intro o
    rw [h.all, ← Option.isSome_map (f := keyView), hdocs, Option.isSome_map]
  · intro k v o
    rw [h.eq]
    exact hex o fun view => view k = some v
  · intro k n o
    rw [h.num]
    exact hex o fun view => view k = some (.num n)

namespace Collection

/-- The metadata indexed at an offset: that of the id the offset stands for. -/
def docs (c : Collection) (o : ℕ) : Option (Option Metadata) :=
  (c.idByOffset.lookup o).map fun id => (c.records.lookup id).bind Record.metadata

/-- **The offset invariant.** -/
structure Offsets (c : Collection) : Prop where
  forth : ∀ id o, c.offsets.lookup id = some o → c.idByOffset.lookup o = some id
  back : ∀ o id, c.idByOffset.lookup o = some id → c.offsets.lookup id = some o
  below : ∀ o id, c.idByOffset.lookup o = some id → o < c.nextOffset
  live : ∀ id o, c.offsets.lookup id = some o → (c.records.lookup id).isSome
  keyed : ∀ id r, c.records.lookup id = some r → r.id = id
  postings : Represents c.postings c.docs

/-- `o` is the offset of `id` in `c₁`, allocated if `id` had none in `c`. -/
structure Allocated (c c₁ : Collection) (id : Id) (o : ℕ) : Prop where
  offsets : ∀ id', c₁.offsets.lookup id' = if id' = id then some o else c.offsets.lookup id'
  ids : ∀ o', c₁.idByOffset.lookup o' = if o' = o then some id else c.idByOffset.lookup o'
  bound : o < c₁.nextOffset
  grows : c.nextOffset ≤ c₁.nextOffset
  old : c.idByOffset.lookup o = some id ∨
    (c.offsets.lookup id = none ∧ c.idByOffset.lookup o = none)

section Offsets

variable {c c₁ c' : Collection} {id : Id} {o : ℕ}

theorem Offsets.next_free (h : Offsets c) : c.idByOffset.lookup c.nextOffset = none := by
  cases hid : c.idByOffset.lookup c.nextOffset with
  | none => rfl
  | some id => exact absurd (h.below _ _ hid) (lt_irrefl _)

theorem Offsets.allocated_next (h : Offsets c) (hnone : c.offsets.lookup id = none)
    (hoff : c₁.offsets = c.offsets.insert id c.nextOffset)
    (hids : c₁.idByOffset = c.idByOffset.insert c.nextOffset id)
    (hnext : c₁.nextOffset = c.nextOffset + 1) : Allocated c c₁ id c.nextOffset where
  offsets := fun id' => by rw [hoff, FinMap.lookup_insert_ite]
  ids := fun o' => by rw [hids, FinMap.lookup_insert_ite]
  bound := by omega
  grows := by omega
  old := Or.inr ⟨hnone, h.next_free⟩

theorem Offsets.offsetFor (h : Offsets c) (id : Id) :
    Allocated c (c.offsetFor id).2 id (c.offsetFor id).1 := by
  rw [Collection.offsetFor]
  cases hoff : c.offsets.lookup id with
  | none => exact h.allocated_next hoff rfl rfl rfl
  | some o =>
      have hid := h.forth id o hoff
      refine ⟨fun id' => ?_, fun o' => ?_, h.below o id hid, le_refl _, Or.inl hid⟩
      · by_cases he : id' = id
        · subst he
          simp [hoff]
        · simp [he]
      · by_cases he : o' = o
        · subst he
          simp [hid]
        · simp [he]

theorem Offsets.docs_allocated (h : Offsets c) (ha : Allocated c c₁ id o) :
    c.docs o = none ∨
      ∃ r, c.records.lookup id = some r ∧ c.docs o = some r.metadata := by
  rcases ha.old with hid | ⟨-, hnone⟩
  · obtain ⟨r, hr⟩ := Option.isSome_iff_exists.mp (h.live id o (h.back o id hid))
    refine Or.inr ⟨r, hr, ?_⟩
    rw [docs, hid, Option.map_some, hr, Option.bind_some]
  · refine Or.inl ?_
    rw [docs, hnone, Option.map_none]

theorem Offsets.remove_old (h : Offsets c) (ha : Allocated c c₁ id o) :
    Represents (c.postings.remove o ((c.records.lookup id).bind Record.metadata))
      (Function.update c.docs o none) := by
  apply h.postings.remove
  intro md' hmd'
  rcases h.docs_allocated ha with hnone | ⟨r, hr, hdoc⟩
  · rw [hnone] at hmd'
    exact absurd hmd' (by simp)
  · rw [hdoc, Option.some.injEq] at hmd'
    rw [hr, Option.bind_some, hmd']

theorem Offsets.write (h : Offsets c) (ha : Allocated c c₁ id o) {r : Record}
    (hr : r.id = id) (hoff : c'.offsets = c₁.offsets) (hids : c'.idByOffset = c₁.idByOffset)
    (hnext : c'.nextOffset = c₁.nextOffset)
    (hrec : ∀ id', c'.records.lookup id' =
      if id' = id then some r else c.records.lookup id')
    (hpost : Represents c'.postings (Function.update c.docs o (some r.metadata))) :
    Offsets c' := by
  have hother : ∀ o' id', o' ≠ o → c.idByOffset.lookup o' = some id' → id' ≠ id := by
    rintro o' id' hne hid' rfl
    have hback := h.back o' id' hid'
    rcases ha.old with hid | ⟨hnone, -⟩
    · rw [h.back o id' hid, Option.some.injEq] at hback
      exact hne hback.symm
    · rw [hnone] at hback
      exact absurd hback (by simp)
  have hdocs : c'.docs = Function.update c.docs o (some r.metadata) := by
    funext o'
    rw [docs, hids, ha.ids]
    by_cases he : o' = o
    · rw [if_pos he, he, Function.update_self, Option.map_some, hrec, if_pos rfl,
        Option.bind_some]
    · rw [if_neg he, Function.update_of_ne he, docs]
      cases hid : c.idByOffset.lookup o' with
      | none => rfl
      | some id' => rw [Option.map_some, Option.map_some, hrec, if_neg (hother o' id' he hid)]
  constructor
  · intro id' o' hl
    rw [hoff, ha.offsets] at hl
    rw [hids, ha.ids]
    by_cases he : id' = id
    · rw [if_pos he, Option.some.injEq] at hl
      rw [if_pos hl.symm, he]
    · rw [if_neg he] at hl
      have hforth := h.forth id' o' hl
      rw [if_neg, hforth]
      rintro rfl
      rcases ha.old with hid | ⟨-, hnone⟩
      · rw [hid, Option.some.injEq] at hforth
        exact he hforth.symm
      · rw [hnone] at hforth
        exact absurd hforth (by simp)
  · intro o' id' hl
    rw [hids, ha.ids] at hl
    rw [hoff, ha.offsets]
    by_cases he : o' = o
    · rw [if_pos he, Option.some.injEq] at hl
      rw [if_pos hl.symm, he]
    · rw [if_neg he] at hl
      rw [if_neg (hother o' id' he hl), h.back o' id' hl]
  · intro o' id' hl
    rw [hids, ha.ids] at hl
    rw [hnext]
    by_cases he : o' = o
    · rw [he]
      exact ha.bound
    · rw [if_neg he] at hl
      exact (h.below o' id' hl).trans_le ha.grows
  · intro id' o' hl
    rw [hoff, ha.offsets] at hl
    rw [hrec]
    by_cases he : id' = id
    · rw [if_pos he]
      rfl
    · rw [if_neg he] at hl ⊢
      exact h.live id' o' hl
  · intro id' r' hl
    rw [hrec] at hl
    by_cases he : id' = id
    · rw [if_pos he, Option.some.injEq] at hl
      rw [← hl, he, hr]
    · rw [if_neg he] at hl
      exact h.keyed id' r' hl
  · rw [hdocs]
    exact hpost

theorem Offsets.applyPut (h : Offsets c) (id : Id) (e : Embedding) (md : Option Metadata)
    (doc : Option Document) (seq : ℕ) : Offsets (c.applyPut id e md doc seq) := by
  have ha := h.offsetFor id
  refine h.write ha (r := ⟨id, some e, md, doc, seq⟩) rfl rfl rfl rfl (fun id' => ?_) ?_
  · rw [applyPut_records, FinMap.lookup_insert_ite]
  · obtain ⟨-, hrecs, -, -, hpost⟩ := c.offsetFor_frame id
    have hinsert : ∀ p, Represents p (Function.update c.docs (c.offsetFor id).1 none) →
        Represents (p.insert (c.offsetFor id).1 md)
          (Function.update c.docs (c.offsetFor id).1 (some md)) := by
      intro p hp
      have := hp.insert (Function.update_self _ _ _) md
      rwa [Function.update_idem] at this
    simp only [Collection.applyPut, hrecs, hpost]
    refine hinsert _ ?_
    cases hold : c.records.lookup id with
    | some old =>
        have := h.remove_old ha
        rw [hold, Option.bind_some] at this
        exact this
    | none =>
        rcases h.docs_allocated ha with hnone | ⟨r, hr, -⟩
        · rw [Function.update_eq_self_iff.mpr hnone.symm]
          exact h.postings
        · rw [hold] at hr
          exact absurd hr (by simp)

theorem Offsets.applyUpdate (h : Offsets c) (id : Id) (md : Option Metadata)
    (doc : Option Document) (seq : ℕ) : Offsets (c.applyUpdate id md doc seq) := by
  have hkey : ((c.records.lookup id).getD ⟨id, none, none, none, seq⟩).id = id := by
    cases hr : c.records.lookup id with
    | none => rfl
    | some r => exact h.keyed id r hr
  have hmd : ((c.records.lookup id).getD ⟨id, none, none, none, seq⟩).metadata =
      (c.records.lookup id).bind Record.metadata := by
    cases c.records.lookup id <;> rfl
  have hrec := c.applyUpdate_records id md doc seq
  rw [Collection.applyUpdate] at hrec ⊢
  simp only [hmd] at hrec ⊢
  generalize hr : ({ (c.records.lookup id).getD ⟨id, none, none, none, seq⟩ with
    metadata := md, document := doc, seq := seq } : Record) = r at *
  have hrid : r.id = id := by rw [← hr]; exact hkey
  have hrmd : r.metadata = md := by rw [← hr]
  split
  · rename_i hsame
    have hview := keyView_of_optBeq hsame
    refine ⟨h.forth, h.back, h.below, fun id' o' hl => ?_, fun id' r' hl => ?_, ?_⟩
    · simp only [FinMap.lookup_insert_ite]
      split
      · rfl
      · exact h.live id' o' hl
    · simp only [FinMap.lookup_insert_ite] at hl
      split at hl
      · rename_i he
        rw [← Option.some.inj hl, he, hrid]
      · exact h.keyed id' r' hl
    · apply h.postings.congr
      intro o'
      simp only [docs, Option.map_map]
      congr 1
      funext id'
      simp only [Function.comp_apply, FinMap.lookup_insert_ite]
      split
      · rename_i he
        rw [he, Option.bind_some, hrmd, hview]
      · rfl
  · rename_i hchanged
    rw [if_neg hchanged] at hrec
    have ha : Allocated c (({ c with records := c.records.insert id r } : Collection).offsetFor
        id).2 id (({ c with records := c.records.insert id r } : Collection).offsetFor id).1 := by
      have := h.offsetFor id
      have heq : ∀ rs : FinMap Id Record,
          (({ c with records := rs } : Collection).offsetFor id).1 = (c.offsetFor id).1 ∧
          (({ c with records := rs } : Collection).offsetFor id).2.offsets =
            (c.offsetFor id).2.offsets ∧
          (({ c with records := rs } : Collection).offsetFor id).2.idByOffset =
            (c.offsetFor id).2.idByOffset ∧
          (({ c with records := rs } : Collection).offsetFor id).2.nextOffset =
            (c.offsetFor id).2.nextOffset := by
        intro rs
        rw [Collection.offsetFor, Collection.offsetFor]
        cases c.offsets.lookup id <;> exact ⟨rfl, rfl, rfl, rfl⟩
      obtain ⟨h₁, h₂, h₃, h₄⟩ := heq (c.records.insert id r)
      rw [h₁]
      exact ⟨h₂ ▸ this.offsets, h₃ ▸ this.ids, h₄ ▸ this.bound, h₄ ▸ this.grows, this.old⟩
    refine h.write ha hrid rfl rfl rfl (fun id' => ?_) ?_
    · rw [hrec, FinMap.lookup_insert_ite]
    · have hpost := (offsetFor_frame { c with records := c.records.insert id r } id).2.2.2.2
      rw [hpost, hrmd]
      have := (h.remove_old ha).insert (Function.update_self _ _ _) md
      rw [Function.update_idem] at this
      exact this

theorem Offsets.applyDelete (h : Offsets c) (id : Id) : Offsets (c.applyDelete id) := by
  have hrec := c.applyDelete_records id
  have hkeyed : ∀ id' r, (c.applyDelete id).records.lookup id' = some r → r.id = id' := by
    intro id' r hl
    rw [hrec, FinMap.lookup_erase_eq_some] at hl
    exact h.keyed id' r hl.2
  rw [Collection.applyDelete] at hkeyed ⊢
  cases hoff : c.offsets.lookup id with
  | none =>
      rw [hoff] at hkeyed
      have hne : ∀ o' id', c.idByOffset.lookup o' = some id' → id' ≠ id := by
        rintro o' id' hid' rfl
        rw [h.back o' id' hid'] at hoff
        exact absurd hoff (by simp)
      refine ⟨h.forth, h.back, h.below, fun id' o' hl => ?_, hkeyed, ?_⟩
      · simp only [FinMap.lookup_erase_ite]
        rw [if_neg]
        · exact h.live id' o' hl
        · rintro rfl
          rw [hoff] at hl
          exact absurd hl (by simp)
      · apply h.postings.congr
        intro o'
        simp only [docs, FinMap.lookup_erase_ite]
        cases hid : c.idByOffset.lookup o' with
        | none => rfl
        | some id' => simp [hne o' id' hid]
  | some o =>
      rw [hoff] at hkeyed
      have hid := h.forth id o hoff
      obtain ⟨r, hr⟩ := Option.isSome_iff_exists.mp (h.live id o hoff)
      have hother : ∀ o' id', o' ≠ o → c.idByOffset.lookup o' = some id' → id' ≠ id := by
        rintro o' id' hne hid' rfl
        rw [h.back o' id' hid', Option.some.injEq] at hoff
        exact hne hoff
      refine ⟨fun id' o' hl => FinMap.lookup_erase_of_inverse h.forth hid hl,
        fun o' id' hl => FinMap.lookup_erase_of_inverse h.back hoff hl,
        fun o' id' hl => h.below o' id' (FinMap.lookup_erase_eq_some.mp hl).2,
        fun id' o' hl => ?_, hkeyed, ?_⟩
      · obtain ⟨hne, hl⟩ := FinMap.lookup_erase_eq_some.mp hl
        simp only [FinMap.lookup_erase_ite]
        rw [if_neg hne]
        exact h.live id' o' hl
      · have hdoc : c.docs o = some r.metadata := by
          rw [docs, hid, Option.map_some, hr, Option.bind_some]
        have hpost := (h.postings.remove_self hdoc).removeAll o
        rw [Function.update_idem] at hpost
        simp only [hr]
        apply hpost.congr
        intro o'
        by_cases he : o' = o
        · simp [docs, he, FinMap.lookup_erase_ite]
        · rw [Function.update_of_ne he, docs, docs]
          simp only [FinMap.lookup_erase_ite, if_neg he]
          cases hid' : c.idByOffset.lookup o' with
          | none => rfl
          | some id' => simp [hother o' id' he hid']

theorem Offsets.applyRecord (h : Offsets c) (r : WalRecord) : Offsets (c.applyRecord r) := by
  rw [Collection.applyRecord]
  cases r.op with
  | add id e md doc => exact h.applyPut id e md doc r.seq
  | upsert id e md doc => exact h.applyPut id e md doc r.seq
  | update id md doc => exact h.applyUpdate id md doc r.seq
  | delete id => exact h.applyDelete id

theorem Offsets.replay : ∀ (rs : List WalRecord) {c : Collection}, Offsets c →
    Offsets (rs.foldl Collection.applyRecord c)
  | [], _, h => h
  | r :: rs, _, h => Offsets.replay rs (h.applyRecord r)

theorem Offsets.of_map (h : Offsets c) (hoff : c'.offsets = c.offsets)
    (hids : c'.idByOffset = c.idByOffset) (hnext : c'.nextOffset = c.nextOffset)
    (hpost : c'.postings = c.postings) {f : Record → Record}
    (hf : ∀ r, (f r).id = r.id ∧ (f r).metadata = r.metadata)
    (hrec : ∀ id, c'.records.lookup id = (c.records.lookup id).map f) : Offsets c' := by
  have hdocs : c'.docs = c.docs := by
    funext o
    rw [docs, docs, hids]
    congr 1
    funext id
    rw [hrec]
    cases c.records.lookup id with
    | none => rfl
    | some r => exact (hf r).2
  refine ⟨?_, ?_, ?_, ?_, ?_, ?_⟩
  · rw [hoff, hids]
    exact h.forth
  · rw [hoff, hids]
    exact h.back
  · rw [hids, hnext]
    exact h.below
  · intro id o hl
    rw [hrec, Option.isSome_map]
    exact h.live id o (hoff ▸ hl)
  · intro id r hl
    rw [hrec, Option.map_eq_some_iff] at hl
    obtain ⟨r', hr', rfl⟩ := hl
    rw [(hf r').1]
    exact h.keyed id r' hr'
  · rw [hpost, hdocs]
    exact h.postings

theorem Offsets.of_eq (h : Offsets c) (hoff : c'.offsets = c.offsets)
    (hids : c'.idByOffset = c.idByOffset) (hnext : c'.nextOffset = c.nextOffset)
    (hpost : c'.postings = c.postings) (hrec : c'.records = c.records) : Offsets c' :=
  h.of_map hoff hids hnext hpost (f := id) (fun _ => ⟨rfl, rfl⟩) fun id => by
    rw [hrec, Option.map_id, id_eq]

theorem Offsets.strip (h : Offsets c) (f : ℕ) (hoff : c'.offsets = c.offsets)
    (hids : c'.idByOffset = c.idByOffset) (hnext : c'.nextOffset = c.nextOffset)
    (hpost : c'.postings = c.postings) (hrec : c'.records = stripRecords f c.records) :
    Offsets c' := by
  refine h.of_map hoff hids hnext hpost (fun r => ?_) fun id => by
    rw [hrec]
    exact lookup_stripRecords f c.records id
  split <;> exact ⟨rfl, rfl⟩

/-! ## Re-deriving offsets from a snapshot -/

def Listed (c : Collection) : Prop :=
  ∀ id, (c.records.lookup id).isSome → (c.offsets.lookup id).isSome

theorem Offsets.restoreOffset (h : Offsets c) {e : Sigma fun _ : Id => Record}
    (hr : c.records.lookup e.1 = some e.2) (hnone : c.offsets.lookup e.1 = none) :
    Offsets (c.restoreOffset e) := by
  have halloc : Allocated c (c.restoreOffset e) e.1 c.nextOffset :=
    h.allocated_next hnone rfl rfl rfl
  refine h.write halloc (h.keyed e.1 e.2 hr) rfl rfl rfl (fun id' => ?_) ?_
  · by_cases he : id' = e.1
    · subst he
      rw [if_pos rfl]
      exact hr
    · rw [if_neg he]
      rfl
  · refine h.postings.insert ?_ _
    rw [docs, h.next_free, Option.map_none]

theorem Offsets.restoreOffsets : ∀ (l : List (Sigma fun _ : Id => Record)) {c : Collection},
    Offsets c → (∀ e ∈ l, c.records.lookup e.1 = some e.2) →
    (∀ e ∈ l, c.offsets.lookup e.1 = none) → (l.map Sigma.fst).Nodup →
    Offsets (l.foldl Collection.restoreOffset c) ∧
      ∀ id, (id ∈ l.map Sigma.fst ∨ (c.offsets.lookup id).isSome) →
        ((l.foldl Collection.restoreOffset c).offsets.lookup id).isSome
  | [], c, h, _, _, _ =>
      ⟨h, fun id hid => hid.elim (fun hm => absurd hm List.not_mem_nil) fun hs => hs⟩
  | e :: l, c, h, hrec, hoff, hnodup => by
      rw [List.map_cons, List.nodup_cons] at hnodup
      have hstep := h.restoreOffset (hrec e List.mem_cons_self) (hoff e List.mem_cons_self)
      have hlook : ∀ id, (c.restoreOffset e).offsets.lookup id =
          if id = e.1 then some c.nextOffset else c.offsets.lookup id :=
        fun id => FinMap.lookup_insert_ite _ _ _ _
      obtain ⟨hend, hlisted⟩ := Offsets.restoreOffsets l hstep
        (fun e' he' => hrec e' (List.mem_cons_of_mem _ he'))
        (fun e' he' => by
          rw [hlook, if_neg]
          · exact hoff e' (List.mem_cons_of_mem _ he')
          · intro heq
            exact hnodup.1 (heq ▸ List.mem_map_of_mem he'))
        hnodup.2
      refine ⟨hend, fun id hid => hlisted id ?_⟩
      rw [hlook]
      by_cases he : id = e.1
      · rw [if_pos he]
        exact Or.inr rfl
      · rw [if_neg he]
        rcases hid with hid | hid
        · rw [List.map_cons, List.mem_cons] at hid
          exact Or.inl (hid.resolve_left he)
        · exact Or.inr hid

theorem offsets_reoffset (config : CollectionConfig) (d : Disk) (order : HashOrder)
    {records : FinMap Id Record} (hkeyed : ∀ id r, records.lookup id = some r → r.id = id) :
    Offsets (reoffset config d order records) ∧ Listed (reoffset config d order records) := by
  have hperm := order.perm records
  have hstart : Offsets (unindexed config d records) := by
    refine ⟨?_, ?_, ?_, ?_, hkeyed, represents_new⟩
    · intro id o hl
      exact absurd hl (by simp [unindexed, new])
    · intro o id hl
      exact absurd hl (by simp [unindexed, new])
    · intro o id hl
      exact absurd hl (by simp [unindexed, new])
    · intro id o hl
      exact absurd hl (by simp [unindexed, new])
  obtain ⟨hoff, hlisted⟩ := Offsets.restoreOffsets (order.iter records) hstart
    (fun e he => FinMap.mem_entries_iff.mp (hperm.mem_iff.mp he))
    (fun e _ => by simp [unindexed, new])
    ((hperm.map Sigma.fst).nodup_iff.mpr records.keys_nodup)
  refine ⟨hoff, fun id hlive => hlisted id (Or.inl ?_)⟩
  rw [reoffset, (foldl_restoreOffset_frame _ _).2.1] at hlive
  obtain ⟨r, hr⟩ := Option.isSome_iff_exists.mp hlive
  exact List.mem_map_of_mem (hperm.mem_iff.mpr (FinMap.mem_entries_iff.mpr hr))

end Offsets

end Collection

end Rekha
