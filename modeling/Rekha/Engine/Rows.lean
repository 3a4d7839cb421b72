import Rekha.Engine.Listed
import Rekha.Engine.Rejected

/-!
# The rows of a collection

What a client reads back of a collection, vectors aside: metadata and document
of every live id. An accepted call changes the rows by its operations one after
the other, a rejected one and a restart do not change them.
-/

namespace Rekha

open Collection Outcome Trace

structure Row where
  metadata : Option Metadata
  document : Option Document

abbrev Rows := Id → Option Row

/-- What an operation does to the rows. An update of an absent id does nothing. -/
def Rows.step (s : Rows) : Operation → Rows
  | .add id _ md doc | .upsert id _ md doc => Function.update s id (some ⟨md, doc⟩)
  | .update id md doc => Function.update s id ((s id).map fun _ => ⟨md, doc⟩)
  | .delete id => Function.update s id none

def Rows.Counts (s : Rows) (n : ℕ) : Prop :=
  ∃ ids : List Id, ids.Nodup ∧ (∀ id, id ∈ ids ↔ (s id).isSome) ∧ ids.length = n

def Content.row (x : Content) : Row := ⟨x.metadata, x.document⟩

namespace Collection

def rows (c : Collection) : Rows := fun id => (c.content id).map Content.row

theorem rows_eq (c : Collection) (id : Id) :
    c.rows id = (c.records.lookup id).map fun r => ⟨r.metadata, r.document⟩ := by
  rw [rows, content, contentOf, Option.map_map]
  rfl

theorem isSome_rows (c : Collection) (id : Id) :
    (c.rows id).isSome = (c.records.lookup id).isSome := by
  rw [rows_eq, Option.isSome_map]

theorem counts_rows (c : Collection) : c.rows.Counts c.count := by
  refine ⟨c.records.keys, c.records.nodupKeys, fun id => ?_, List.length_map ..⟩
  rw [isSome_rows]
  exact AList.lookup_isSome.symm

theorem map_row_step (s : Id → Option Content) (r : WalRecord) :
    (fun id => (Content.step s r id).map Content.row) =
      Rows.step (fun id => (s id).map Content.row) r.op := by
  funext id
  cases hop : r.op with
  | add i e md doc | upsert i e md doc =>
      simp only [Content.step, hop, Rows.step, Function.update_apply]
      split <;> rfl
  | update i md doc =>
      simp only [Content.step, hop, Rows.step, Function.update_apply]
      split
      · rw [Option.map_map, Option.map_map]
        rfl
      · rfl
  | delete i =>
      simp only [Content.step, hop, Rows.step, Function.update_apply]
      split <;> rfl

theorem map_row_foldl : ∀ (ops : List Operation) (n : ℕ) (s : Id → Option Content),
    (fun id => ((numbered n ops).foldl Content.step s id).map Content.row) =
      ops.foldl Rows.step fun id => (s id).map Content.row
  | [], _, _ => rfl
  | op :: ops, n, s => by
      rw [numbered, List.foldl_cons, List.foldl_cons, map_row_foldl ops]
      exact congrArg (ops.foldl Rows.step) (map_row_step s ⟨n + 1, op⟩)

theorem Logged.rows {h : List Operation} {c : Collection} (hl : Logged h c) :
    c.rows = h.foldl Rows.step fun _ => none := by
  have hfold : c.content = (numbered 0 h).foldl Content.step fun _ => none :=
    hl.content.trans hl.accepted.symm
  unfold Collection.rows
  rw [hfold]
  exact map_row_foldl h 0 fun _ => none

/-- Memory and files of a collection tell one history, under matching ids. -/
structure Sound (c : Collection) : Prop where
  logged : ∃ h, Logged h c
  derived : Derived c

theorem sound_fresh (config : CollectionConfig) : Sound (fresh config) :=
  ⟨⟨[], logged_fresh config⟩, derived_fresh config⟩

section Sound

variable {ops : List Operation} {c c' : Collection}

theorem Sound.step {p : Phase} (h : Sound c) (hs : Step p ops c c') :
    Sound c' ∧ c'.rows = ops.foldl Rows.step c.rows := by
  obtain ⟨⟨l, hl⟩, hd⟩ := h
  have hl' := hl.step hs
  refine ⟨⟨⟨_, hl'⟩, hd.step hl hs⟩, ?_⟩
  rw [hl'.rows, hl.rows, List.foldl_append]

theorem Sound.run {ok : Phase → Prop} (h : Sound c) (hrun : Run (StepIn ok) c ops c') :
    Sound c' ∧ c'.rows = ops.foldl Rows.step c.rows :=
  hrun.invariant (I := fun l c' => Sound c' ∧ c'.rows = l.foldl Rows.step c.rows) ⟨h, rfl⟩
    fun l ops c₁ c₂ ⟨h₁, hrows⟩ ⟨_, _, hs⟩ => by
      obtain ⟨h₂, hrows'⟩ := h₁.step hs
      refine ⟨h₂, ?_⟩
      rw [hrows', hrows, List.foldl_append]

theorem Sound.call {a : Call} (h : Sound c) (hrun : a.run c = .ok c') :
    Sound c' ∧ c'.rows = a.ops.foldl Rows.step c.rows := by
  have hsteps : Run (StepIn fun _ => True) c a.ops c' := Call.run_steps hrun fun _ _ => trivial
  exact h.run hsteps

theorem Sound.withCatalog (h : Sound c) (row : CatalogRow) : Sound { c with catalog := row } := by
  obtain ⟨⟨l, hl⟩, hd⟩ := h
  exact ⟨⟨l, hl.last, hl.tail, hl.pruned, hl.flushed, hl.buffered, hl.content, hl.accepted,
    hl.snapshot⟩, hd.of_eq rfl rfl rfl rfl rfl rfl⟩

/-- A collection opened from the files of another one, under whatever
configuration and row of the catalog. -/
theorem Sound.opened {config : CollectionConfig} {row : CatalogRow} {order : HashOrder}
    (h : Sound c) (hopen : openDisk config ⟨c.wal.file, c.dir, row⟩ order = .ok c') :
    Sound c' ∧ c'.rows = c.rows := by
  obtain ⟨⟨l, hl⟩, hd⟩ := h.withCatalog row
  unfold openDisk at hopen
  split at hopen
  · rename_i u c₁ hflush
    obtain rfl := Except.ok.inj hopen
    have hl' := (hl.restored config order).flushIfNeeded hflush
    have hd' := hd.restored hl config order
    have hsound : Sound (restored config ⟨c.wal.file, c.dir, row⟩ order) :=
      ⟨⟨l, hl.restored config order⟩, hd'⟩
    rcases flushIfNeeded_ok hflush with rfl | hflush
    · exact ⟨hsound, by rw [hl'.rows, ← hl.rows]; rfl⟩
    · refine ⟨(hsound.step (.flush hflush)).1, ?_⟩
      rw [hl'.rows, ← hl.rows]
      rfl
  · cases hopen

theorem Sound.inferred (h : Sound c) (es : List Embedding) :
    Sound (c.inferred es) ∧ (c.inferred es).rows = c.rows := by
  cases es with
  | nil => exact ⟨h, rfl⟩
  | cons e es =>
      by_cases hzero : c.config.dimension = 0
      · rw [Collection.inferred, if_pos hzero]
        exact h.step (.infer e.length hzero)
      · rw [Collection.inferred, if_neg hzero]
        exact ⟨h, rfl⟩

theorem Sound.reindexed (h : Sound c) (x : UsearchIndex) : Sound { c with index := x } := by
  obtain ⟨⟨l, hl⟩, hd⟩ := h
  exact ⟨⟨l, hl.last, hl.tail, hl.pruned, hl.flushed, hl.buffered, hl.content, hl.accepted,
    hl.snapshot⟩, hd.of_eq rfl rfl rfl rfl rfl rfl⟩

theorem Sound.drained (h : Sound c) : Sound { c with buffer := [] } := by
  obtain ⟨⟨l, hl⟩, hd⟩ := h
  exact ⟨⟨l, hl.last, hl.tail, hl.pruned, hl.flushed, fun _ hr => absurd hr List.not_mem_nil,
    hl.content, hl.accepted, hl.snapshot⟩, hd.of_eq rfl rfl rfl rfl rfl rfl⟩

theorem Sound.flush_failed {err : EngineError} (h : Sound c)
    (hrun : flushIfNeeded c = .error err c') : Sound c' ∧ c'.rows = c.rows := by
  unfold flushIfNeeded at hrun
  rw [bind_of_ok (get_ok.mpr ⟨rfl, rfl⟩)] at hrun
  split at hrun
  · have hkeeps : Keeps (fun c' => Sound c' ∧ c'.rows = c.rows) (fun _ => True)
        (flushRecords c.buffer 0) :=
      keeps_flushRecords (fun _ x _ hc => ⟨hc.1.reindexed x, hc.2⟩) c.buffer 0 fun _ _ => trivial
    unfold flushBuffer at hrun
    rw [bind_of_ok (get_ok.mpr ⟨rfl, rfl⟩), bind_of_ok (modify_run _ c)] at hrun
    rcases bind_error.mp hrun with hrun | ⟨_, _, _, hrun⟩
    · exact ((hkeeps { c with buffer := [] } ⟨h.drained, rfl⟩).2 err c' hrun).1
    · cases hrun
  · cases hrun

theorem Sound.putBatch_unindexed {persisted : Bool}
    {validate : Collection → Except EngineError Unit} {es : List Embedding} {e : IndexError}
    (h : Sound c) (hvalidation : ∀ c err, validate c = .error err → err.NotIndex)
    (hval : ∀ c, validate c = .ok () → c.Accepts ops)
    (hrun : putBatch persisted validate es ops c = .error (.index e) c') :
    Sound c' ∧ c'.rows = ops.foldl Rows.step c.rows ∧
      ∃ d c₁, inferDimension es c = .ok d c₁ ∧ validate c₁ = .ok () := by
  obtain ⟨d, c₁, c₂, c₃, hinfer, hvalid, hpersist, hwrite, hflush⟩ :=
    Rekha.putBatch_unindexed hvalidation hrun
  have hwritten : Run (StepIn fun _ => True) c ops c₃ :=
    run_written hinfer (hval c₁ hvalid) hpersist hwrite fun _ _ => trivial
  obtain ⟨hsound, hrows⟩ := h.run hwritten
  obtain ⟨hsound', hrows'⟩ := hsound.flush_failed hflush
  exact ⟨hsound', hrows'.trans hrows, d, c₁, hinfer, hvalid⟩

theorem Sound.putBatch_rejected {persisted : Bool}
    {validate : Collection → Except EngineError Unit} {es : List Embedding} {msg : String}
    (h : Sound c)
    (hrun : putBatch persisted validate es ops c = .error (.validation msg) c') :
    Sound c' ∧ c'.rows = c.rows := by
  obtain ⟨-, rfl⟩ := putBatch_rejected_iff.mp hrun
  exact h.inferred es

end Sound

end Collection

/-! ## What an accepted batch asked for -/

theorem checkNewIds_ok {records : FinMap Id Record} : ∀ {ids seen : List Id},
    checkNewIds records seen ids = .ok () →
      ids.Nodup ∧ ∀ id ∈ ids, records.lookup id = none ∧ id ∉ seen
  | [], _, _ => ⟨List.nodup_nil, fun _ hid => absurd hid List.not_mem_nil⟩
  | key :: ids, seen, h => by
      rw [checkNewIds] at h
      split at h
      · cases h
      · rename_i hnone
        split at h
        · cases h
        · rename_i hseen
          obtain ⟨hnodup, hnew⟩ := checkNewIds_ok h
          refine ⟨List.nodup_cons.mpr ⟨fun hkey => ?_, hnodup⟩, fun id hid => ?_⟩
          · exact (hnew key hkey).2 List.mem_cons_self
          · rcases List.mem_cons.mp hid with rfl | hid
            · exact ⟨Option.not_isSome_iff_eq_none.mp hnone, hseen⟩
            · exact ⟨(hnew id hid).1, fun hmem => (hnew id hid).2 (List.mem_cons_of_mem _ hmem)⟩

theorem records_inferDimension {es : List Embedding} {c c' : Collection} {o : Option ℕ}
    (h : inferDimension es c = .ok o c') : c'.records = c.records := by
  rcases inferDimension_ok h with ⟨-, rfl⟩ | ⟨e, rest, -, -, -, rfl⟩
  · rfl
  · rfl

theorem add_fresh {ids : List Id} {es : List Embedding}
    {ms : Option (List (Option Metadata))} {ds : Option (List (Option Document))}
    {c c₁ : Collection} {d : Option ℕ} (hinfer : inferDimension es c = .ok d c₁)
    (hvalid : c₁.validateAdd ids es ms ds = .ok ()) :
    ids.Nodup ∧ ∀ id ∈ ids, c.rows id = none := by
  obtain ⟨hnodup, hnew⟩ := checkNewIds_ok (validateAdd_ok hvalid).2
  refine ⟨hnodup, fun id hid => ?_⟩
  rw [rows_eq, ← records_inferDimension hinfer, (hnew id hid).1]
  rfl

theorem update_live {ids : List Id} {ms : Option (List (Option Metadata))}
    {ds : Option (List (Option Document))} {c c' : Collection} {u : Unit}
    (h : update ids ms ds c = .ok u c') : ∀ id ∈ ids, (c.rows id).isSome := by
  obtain ⟨hvalid, -⟩ := update_ok h
  intro id hid
  rw [isSome_rows]
  exact validateUpdate_ok hvalid id hid

end Rekha
