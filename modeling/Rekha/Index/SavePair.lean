import Rekha.Index.Labels

/-!
# A crash while the index is saved

`save` writes two files, each through a temporary one and a rename. A crash
between the renames leaves the new graph beside the old maps, and a load can
compare nothing but their sizes. The pair on disk is one of the two saves exactly
if the sizes differ, or no vector was exchanged in between (`save_pair_iff`).
-/

namespace Rekha

open Trace UsearchIndex

/-- A file on disk; a write that was cut off leaves it torn. -/
inductive OnDisk (α : Type) where
  | absent
  | torn
  | whole (content : α)

/-- What a reader gets. A torn file is refused like a missing one. -/
def OnDisk.content {α : Type} : OnDisk α → Option α
  | .whole a => some a
  | _ => none

structure IndexFiles where
  bin : OnDisk Graph := .absent
  binTmp : OnDisk Graph := .absent
  indexMeta : OnDisk IndexMeta := .absent
  metaTmp : OnDisk IndexMeta := .absent

/-- The file operations of a save, in order. Where a write is cut off, its file is
torn. -/
def UsearchIndex.saveSteps (x : UsearchIndex) : List (IndexFiles → IndexFiles) :=
  [fun d => { d with binTmp := .torn },
   fun d => { d with binTmp := .whole x.inner },
   fun d => { d with bin := d.binTmp, binTmp := .absent },
   fun d => { d with metaTmp := .torn },
   fun d => { d with metaTmp := .whole x.savedMeta },
   fun d => { d with indexMeta := d.metaTmp, metaTmp := .absent }]

/-- The files after a crash behind the first `n` operations of a save. -/
def UsearchIndex.crashedSave (x : UsearchIndex) (n : ℕ) (d : IndexFiles) : IndexFiles :=
  (x.saveSteps.take n).foldl (fun d step => step d) d

/-- `save`: all of them. -/
def UsearchIndex.save (x : UsearchIndex) (d : IndexFiles) : IndexFiles :=
  x.saveSteps.foldl (fun d step => step d) d

/-- `load` of the files. -/
def IndexFiles.load (d : IndexFiles) (space : Distance) (dimension : ℕ) :
    Except IndexError UsearchIndex :=
  UsearchIndex.load d.bin.content d.indexMeta.content space dimension

/-- The same ids, vectors, labels and graph. -/
structure SameIndex (y x : UsearchIndex) : Prop where
  vector : ∀ id, y.vector id = x.vector id
  labels : ∀ id, y.labels.lookup id = x.labels.lookup id
  inner : ∀ label, y.inner.lookup label = x.inner.lookup label

/-- **Atomic as a pair**: whenever the second save stops, what loads is one of the
two saved indexes. -/
def AtomicPair (x₁ x₂ : UsearchIndex) : Prop :=
  ∀ (d : IndexFiles) (n : ℕ) (space : Distance) (dimension : ℕ) (y : UsearchIndex),
    (x₂.crashedSave n (x₁.save d)).load space dimension = .ok y →
      SameIndex y x₁ ∨ SameIndex y x₂

def SameLabels (x₁ x₂ : UsearchIndex) : Prop :=
  ∀ label, (x₁.inner.lookup label).isSome = (x₂.inner.lookup label).isSome

section Later

variable {x x' x'' x₁ x₂ : UsearchIndex} {l events : List IndexEvent} {id : Id}

/-- A later state of an index: a label handed out before is gone, or still has its
id and its vector. -/
structure UsearchIndex.Later (x x' : UsearchIndex) : Prop where
  mono : x.nextLabel ≤ x'.nextLabel
  kept : ∀ label id, label < x.nextLabel → x'.ids.lookup label = some id →
    x.ids.lookup label = some id ∧ x'.inner.lookup label = x.inner.lookup label
  space : x'.space = x.space
  dimension : x'.dimension = x.dimension

theorem UsearchIndex.Later.refl (x : UsearchIndex) : Later x x :=
  ⟨le_rfl, fun _ _ _ h => ⟨h, rfl⟩, rfl, rfl⟩

theorem UsearchIndex.Later.trans (h : Later x x') (h' : Later x' x'') : Later x x'' where
  mono := h.mono.trans h'.mono
  kept label id hlt hids := by
    obtain ⟨hids', hinner'⟩ := h'.kept label id (lt_of_lt_of_le hlt h.mono) hids
    obtain ⟨hids₀, hinner₀⟩ := h.kept label id hlt hids'
    exact ⟨hids₀, hinner'.trans hinner₀⟩
  space := h'.space.trans h.space
  dimension := h'.dimension.trans h.dimension

theorem later_add {e : Embedding} (h : x.add id e = .ok () x') : Later x x' := by
  obtain ⟨-, -, -, rfl⟩ := add_ok h
  refine ⟨Nat.le_succ _, fun label id' hlt hids => ?_, rfl, rfl⟩
  simp only [FinMap.lookup_insert_ite, if_neg hlt.ne] at hids
  refine ⟨hids, ?_⟩
  simp only [FinMap.lookup_insert_ite, if_neg hlt.ne]

theorem UsearchIndex.Unchanged.later (h : Unchanged x x') : Later x x' := by
  refine ⟨?_, fun label id' _ hids => ?_, h.space, h.dimension⟩
  · rcases h.nextLabel with heq | heq <;> omega
  · rw [h.ids] at hids
    exact ⟨hids, by rw [h.inner]⟩

theorem later_delete (x : UsearchIndex) (id : Id) : Later x (x.delete id) := by
  obtain ⟨hdim, hspace⟩ := delete_dimension x id
  refine ⟨(delete_nextLabel x id).ge, fun label id' _ hids => ?_, hspace, hdim⟩
  rw [UsearchIndex.delete] at hids ⊢
  cases hl : x.labels.lookup id with
  | none =>
      rw [hl] at hids
      exact ⟨hids, rfl⟩
  | some label' =>
      simp only [hl, FinMap.lookup_erase_eq_some] at hids
      obtain ⟨hne, hids⟩ := hids
      exact ⟨hids, by simp only [FinMap.lookup_erase_ite, if_neg hne]⟩

theorem IndexStep.later (hx : x.Wf) (hs : IndexStep l x x') : Later x x' := by
  cases hs with
  | added h _ => exact later_add (tryAdd_ok h)
  | failed h => exact (tryAdd_unchanged hx h).later
  | deleted _ id => exact later_delete x id
  | searched _ => exact .refl _
  | reloaded h =>
      obtain rfl := load_saved_eq h
      exact .refl _

theorem later_of_run (hx : x₁.Wf) (hr : Run IndexStep x₁ events x₂) : x₂.Wf ∧ Later x₁ x₂ := by
  induction hr with
  | refl => exact ⟨hx, .refl _⟩
  | tail _ hs ih =>
      obtain ⟨hwf, hlater⟩ := ih
      obtain ⟨ev, -, hk⟩ := hs.kept hwf
      exact ⟨hk.wf, hlater.trans (hs.later hwf)⟩

theorem UsearchIndex.Later.inner_eq (h : Later x₁ x₂) (hx₁ : x₁.Wf) (hx₂ : x₂.Wf)
    (hsame : SameLabels x₁ x₂) (label : ℕ) :
    x₂.inner.lookup label = x₁.inner.lookup label := by
  have hdom := hsame label
  cases hv : x₂.inner.lookup label with
  | none =>
      rw [hv] at hdom
      exact (Option.isNone_iff_eq_none.mp (by simpa using hdom)).symm
  | some v =>
      have hsome : (x₂.ids.lookup label).isSome := by
        rw [← hx₂.graph, hv]
        rfl
      obtain ⟨id, hids⟩ := Option.isSome_iff_exists.mp hsome
      have hlt : label < x₁.nextLabel := by
        apply hx₁.below
        rw [← hx₁.graph, hdom, hv]
        rfl
      rw [← hv]
      exact (h.kept label id hlt hids).2

end Later

/-! ## What a crash leaves -/

section Crash

variable {x₁ x₂ y : UsearchIndex} {space : Distance} {d : ℕ}

theorem save_content (x : UsearchIndex) (files : IndexFiles) :
    (x.save files).bin = .whole x.inner ∧ (x.save files).indexMeta = .whole x.savedMeta :=
  ⟨rfl, rfl⟩

theorem crashedSave_cases (x : UsearchIndex) (n : ℕ) (files : IndexFiles) :
    ((x.crashedSave n files).bin = files.bin ∧
      (x.crashedSave n files).indexMeta = files.indexMeta) ∨
    ((x.crashedSave n files).bin = .whole x.inner ∧
      (x.crashedSave n files).indexMeta = files.indexMeta) ∨
    ((x.crashedSave n files).bin = .whole x.inner ∧
      (x.crashedSave n files).indexMeta = .whole x.savedMeta) := by
  rcases n with _ | _ | _ | _ | _ | _ | n
  · exact .inl ⟨rfl, rfl⟩
  · exact .inl ⟨rfl, rfl⟩
  · exact .inl ⟨rfl, rfl⟩
  · exact .inr (.inl ⟨rfl, rfl⟩)
  · exact .inr (.inl ⟨rfl, rfl⟩)
  · exact .inr (.inl ⟨rfl, rfl⟩)
  · have htake : x.saveSteps.take (n + 6) = x.saveSteps :=
      List.take_of_length_le (Nat.le_add_left 6 n)
    rw [crashedSave, htake]
    exact .inr (.inr (save_content x files))

/-- The graph of `x₂` under the maps of `x₁`. -/
def UsearchIndex.mixed (x₁ x₂ : UsearchIndex) : UsearchIndex := { x₁ with inner := x₂.inner }

theorem load_mixed_iff (hx₁ : x₁.Wf) :
    UsearchIndex.load (some x₂.inner) (some x₁.savedMeta) space d = .ok y ↔
      space = x₁.space ∧ d = x₁.dimension ∧ x₁.len = x₂.len ∧ y = x₁.mixed x₂ := by
  have hsize : x₁.inner.size = x₁.labels.size := by
    obtain ⟨_, _, hbin, hmeta, -, -, hsize, -⟩ := load_eq_ok_iff.mp hx₁.load_saved
    cases hbin
    cases hmeta
    exact hsize
  rw [load_eq_ok_iff, len, len, hsize]
  constructor
  · rintro ⟨inner, m, hbin, hmeta, hspace, hdim, hlen, rfl⟩
    cases hbin
    cases hmeta
    obtain rfl : x₁.space = space := Distance.name_injective hspace
    obtain rfl : x₁.dimension = d := hdim
    exact ⟨rfl, rfl, hlen.symm, rfl⟩
  · rintro ⟨rfl, rfl, hlen, rfl⟩
    exact ⟨x₂.inner, x₁.savedMeta, rfl, rfl, rfl, rfl, hlen.symm, rfl⟩

theorem SameIndex.refl (x : UsearchIndex) : SameIndex x x :=
  ⟨fun _ => rfl, fun _ => rfl, fun _ => rfl⟩

theorem UsearchIndex.Later.sameIndex_mixed (h : Later x₁ x₂) (hx₁ : x₁.Wf) (hx₂ : x₂.Wf)
    (hsame : SameLabels x₁ x₂) : SameIndex (x₁.mixed x₂) x₁ := by
  have hinner := h.inner_eq hx₁ hx₂ hsame
  refine ⟨fun id => ?_, fun _ => rfl, hinner⟩
  change (x₁.labels.lookup id).bind x₂.inner.lookup = (x₁.labels.lookup id).bind x₁.inner.lookup
  rw [funext hinner]

theorem mixed_ne_first (hx₁ : x₁.Wf) {label : ℕ} (hold : (x₁.inner.lookup label).isSome)
    (hgone : x₂.inner.lookup label = none) : ¬ SameIndex (x₁.mixed x₂) x₁ := by
  intro hs
  rw [hx₁.graph] at hold
  obtain ⟨id, hids⟩ := Option.isSome_iff_exists.mp hold
  have hlabel := hx₁.labels_of_ids label id hids
  have hmixed : (x₁.mixed x₂).vector id = none := by
    change (x₁.labels.lookup id).bind x₂.inner.lookup = none
    rw [hlabel, Option.bind_some, hgone]
  have hfirst : (x₁.vector id).isSome := by
    rw [hx₁.isSome_vector, hlabel]
    rfl
  rw [← hs.vector id, hmixed] at hfirst
  cases hfirst

/-- An id whose vector is new is not mapped to it: its old label, if it had one, was
not handed out again. -/
theorem UsearchIndex.Later.mixed_ne_second (h : Later x₁ x₂) (hx₁ : x₁.Wf) (hx₂ : x₂.Wf) {label : ℕ}
    (hnew : (x₂.inner.lookup label).isSome) (hnot : x₁.inner.lookup label = none) :
    ¬ SameIndex (x₁.mixed x₂) x₂ := by
  intro hs
  rw [hx₂.graph] at hnew
  obtain ⟨id, hids⟩ := Option.isSome_iff_exists.mp hnew
  have hlabel := hx₂.labels_of_ids label id hids
  have hsecond : (x₂.vector id).isSome := by
    rw [hx₂.isSome_vector, hlabel]
    rfl
  rw [← hs.vector id] at hsecond
  obtain ⟨v, hv⟩ := Option.isSome_iff_exists.mp hsecond
  obtain ⟨label', hlabel', hv'⟩ := Option.bind_eq_some_iff.mp hv
  have hids₁ := hx₁.ids_of_labels id label' hlabel'
  have hsome₂ : (x₂.ids.lookup label').isSome := by
    rw [← hx₂.graph]
    exact Option.isSome_of_eq_some hv'
  obtain ⟨id', hids'⟩ := Option.isSome_iff_exists.mp hsome₂
  have hlt : label' < x₁.nextLabel := hx₁.below label' (Option.isSome_of_eq_some hids₁)
  -- the graph holds the old label, so it still belongs to the same id
  obtain ⟨hkept, -⟩ := h.kept label' id' hlt hids'
  rw [hids₁, Option.some.injEq] at hkept
  subst hkept
  have heq := hx₂.labels_of_ids label' id hids'
  rw [hlabel, Option.some.injEq] at heq
  subst heq
  have hin := hx₁.graph label
  rw [hnot, hids₁] at hin
  cases hin

theorem exists_exchanged (hlen : x₁.len = x₂.len) (hne : ¬ SameLabels x₁ x₂) :
    (∃ label, (x₁.inner.lookup label).isSome ∧ x₂.inner.lookup label = none) ∧
      ∃ label, (x₂.inner.lookup label).isSome ∧ x₁.inner.lookup label = none := by
  constructor
  · by_contra hnot
    push Not at hnot
    refine hne (FinMap.isSome_eq_of_size_le (fun label hsome => ?_) hlen.ge)
    exact Option.isSome_iff_ne_none.mpr (hnot label hsome)
  · by_contra hnot
    push Not at hnot
    refine hne fun label => (FinMap.isSome_eq_of_size_le (fun label hsome => ?_) hlen.le label).symm
    exact Option.isSome_iff_ne_none.mpr (hnot label hsome)

end Crash

/-- **When the pair is atomic**: along every history of adds and deletes between two
saves, exactly if the graphs differ in size or hold the same labels. -/
theorem save_pair_iff {space : Distance} {dimension : ℕ} {before between : List IndexEvent}
    {x₁ x₂ : UsearchIndex} (hr₁ : Run IndexStep (withHnsw space dimension) before x₁)
    (hr₂ : Run IndexStep x₁ between x₂) :
    AtomicPair x₁ x₂ ↔ x₁.len ≠ x₂.len ∨ SameLabels x₁ x₂ := by
  have hx₁ := (tracked_run hr₁).wf
  obtain ⟨hx₂, hlater⟩ := later_of_run hx₁ hr₂
  constructor
  · intro hatomic
    by_contra hnot
    push Not at hnot
    obtain ⟨hlen, hne⟩ := hnot
    obtain ⟨⟨old, hold, hgone⟩, new, hnew, habsent⟩ := exists_exchanged hlen hne
    have hload : (x₂.crashedSave 3 (x₁.save {})).load x₁.space x₁.dimension =
        .ok (x₁.mixed x₂) :=
      (load_mixed_iff hx₁).mpr ⟨rfl, rfl, hlen, rfl⟩
    rcases hatomic {} 3 x₁.space x₁.dimension _ hload with h | h
    · exact mixed_ne_first hx₁ hold hgone h
    · exact hlater.mixed_ne_second hx₁ hx₂ hnew habsent h
  · intro hcond d n space' dimension' y hload
    obtain ⟨hbin, hmeta⟩ := save_content x₁ d
    rw [IndexFiles.load] at hload
    rcases crashedSave_cases x₂ n (x₁.save d) with ⟨hb, hm⟩ | ⟨hb, hm⟩ | ⟨hb, hm⟩
    · rw [hb, hm, hbin, hmeta] at hload
      obtain rfl := load_saved_eq hload
      exact .inl (.refl _)
    · rw [hb, hm, hmeta] at hload
      obtain ⟨-, -, hlen, rfl⟩ := (load_mixed_iff hx₁).mp hload
      rcases hcond with hne | hsame
      · exact absurd hlen hne
      · exact .inl (hlater.sameIndex_mixed hx₁ hx₂ hsame)
    · rw [hb, hm] at hload
      obtain rfl := load_saved_eq hload
      exact .inr (.refl _)

/-- An index of one vector under the given id and label. -/
def singleVector (id : Id) (label : ℕ) : UsearchIndex where
  inner := AList.insert label [] ∅
  space := .l2
  dimension := 0
  labels := AList.insert id label ∅
  ids := AList.insert label id ∅
  nextLabel := label + 1

theorem run_added : Run IndexStep (withHnsw .l2 0) [.added "a" 0] (singleVector "a" 0) :=
  .single (@IndexStep.added none _ _ "a" [] 0 rfl rfl)

theorem run_exchanged : Run IndexStep (singleVector "a" 0) [.deleted "a", .added "b" 1]
    (singleVector "b" 1) := by
  have hdel : Run IndexStep (singleVector "a" 0) _ _ := .single (.deleted _ "a")
  exact hdel.tail (@IndexStep.added none _ _ "b" [] 1 rfl rfl)

theorem save_pair_iff_demo : AtomicPair (singleVector "a" 0) (singleVector "b" 1) ↔
    (singleVector "a" 0).len ≠ (singleVector "b" 1).len ∨
      SameLabels (singleVector "a" 0) (singleVector "b" 1) :=
  save_pair_iff run_added run_exchanged

/-- The second save stops between its renames, and the load succeeds: it reports
`"a"` as indexed without a vector for it, and does not know `"b"`. -/
theorem crashed_save_mixes : ∃ before between x₁ x₂ y, Run IndexStep (withHnsw .l2 0) before x₁ ∧
    Run IndexStep x₁ between x₂ ∧
    (x₂.crashedSave 3 (x₁.save {})).load .l2 0 = .ok y ∧
    y.contains "a" = true ∧ y.vector "a" = none ∧ y.contains "b" = false ∧
    ¬ AtomicPair x₁ x₂ := by
  refine ⟨_, _, _, _, _, run_added, run_exchanged, rfl, rfl, rfl, rfl, fun hatomic => ?_⟩
  rcases hatomic {} 3 .l2 0 _ rfl with h | h
  · have hvector := h.vector "a"
    cases hvector
  · have hlabels := h.labels "b"
    cases hlabels

end Rekha
