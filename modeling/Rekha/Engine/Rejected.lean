import Rekha.Engine.Methods

/-!
# Rejected batches

A batch that fails validation is not written, flushed or checkpointed. The
dimension of a collection is taken from the batch before it is validated,
though, and a rejection does not take it back.
-/

namespace Rekha

open Collection Outcome

def EngineError.NotValidation (e : EngineError) : Prop := ∀ msg, e ≠ .validation msg

/-! ## Where validation errors come from -/

theorem keeps_validated_notValidation (persisted : Bool) (inferred : Option ℕ)
    (ops : List Operation) :
    Keeps (fun _ => True) EngineError.NotValidation (do
      persistDimension persisted inferred
      writeOps ops
      flushIfNeeded
      autoCheckpoint) :=
  Keeps.bind (keeps_persistDimension persisted fun _ _ _ _ => trivial) fun _ =>
    Keeps.bind (fails_writeOps (fun _ _ => by simp) ops) fun _ =>
    Keeps.bind (fails_flushIfNeeded fun _ _ => by simp) fun _ =>
    fails_autoCheckpoint fun _ _ => by simp

/-! ## What a rejection leaves -/

/-- The collection after an unset dimension was inferred from a batch. -/
def Collection.inferred (c : Collection) : List Embedding → Collection
  | [] => c
  | e :: _ => if c.config.dimension = 0 then c.setDimension e.length else c

theorem inferDimension_run (es : List Embedding) (c : Collection) :
    ∃ o, inferDimension es c = .ok o (c.inferred es) := by
  cases es with
  | nil => exact ⟨none, rfl⟩
  | cons e es =>
      by_cases hd : c.config.dimension = 0
      · refine ⟨some e.length, ?_⟩
        show (if c.config.dimension = 0 then _ else _ : EngineM (Option ℕ)) c = _
        rw [if_pos hd, inferred, if_pos hd]
        rfl
      · refine ⟨none, ?_⟩
        show (if c.config.dimension = 0 then _ else _ : EngineM (Option ℕ)) c = _
        rw [if_neg hd, inferred, if_neg hd]
        rfl

/-- A put is rejected exactly when validation rejects it after the inference,
and the inference is all it has changed. -/
theorem putBatch_rejected_iff {persisted : Bool} {validate : Collection → Except EngineError Unit}
    {es : List Embedding} {ops : List Operation} {c c' : Collection} {msg : String} :
    putBatch persisted validate es ops c = .error (.validation msg) c' ↔
      validate (c.inferred es) = .error (.validation msg) ∧ c' = c.inferred es := by
  obtain ⟨o, hinfer⟩ := inferDimension_run es c
  unfold putBatch
  constructor
  · intro h
    rcases bind_error.mp h with h | ⟨o', c₁, ho, h⟩
    · rw [hinfer] at h
      exact absurd h (by simp)
    rw [hinfer] at ho
    simp only [EStateM.Result.ok.injEq] at ho
    obtain ⟨rfl, rfl⟩ := ho
    rcases bind_error.mp h with h | ⟨c₂, c₃, hget, h⟩
    · cases h
    obtain ⟨rfl, rfl⟩ := get_ok.mp hget
    rcases bind_error.mp h with h | ⟨u, c₄, -, h⟩
    · obtain ⟨hv, rfl⟩ := ofExcept_error.mp h
      exact ⟨hv, rfl⟩
    · exact absurd rfl ((keeps_validated_notValidation persisted o ops).raises _ _ _ h msg)
  · rintro ⟨hv, rfl⟩
    refine bind_error.mpr (Or.inr ⟨o, _, hinfer, ?_⟩)
    refine bind_error.mpr (Or.inr ⟨_, _, rfl, ?_⟩)
    exact bind_error.mpr (Or.inl (ofExcept_error.mpr ⟨hv, rfl⟩))

def EngineError.NotIndex (e : EngineError) : Prop := ∀ err, e ≠ .index err

theorem putBatch_unindexed {persisted : Bool} {validate : Collection → Except EngineError Unit}
    {es : List Embedding} {ops : List Operation} {c c' : Collection} {e : IndexError}
    (hvalidation : ∀ c err, validate c = .error err → err.NotIndex)
    (h : putBatch persisted validate es ops c = .error (.index e) c') :
    ∃ d c₁ c₂ c₃, inferDimension es c = .ok d c₁ ∧ validate c₁ = .ok () ∧
      persistDimension persisted d c₁ = .ok () c₂ ∧ writeOps ops c₂ = .ok () c₃ ∧
      flushIfNeeded c₃ = .error (.index e) c' := by
  obtain ⟨d, hinfer⟩ := inferDimension_run es c
  have hpersist : Raises EngineError.NotIndex (persistDimension persisted d) :=
    (keeps_persistDimension (I := fun _ => True) persisted fun _ _ _ _ => trivial).raises
  have hwrite : Raises EngineError.NotIndex (writeOps ops) :=
    (fails_writeOps (fun _ _ => by simp) ops).raises
  have hauto : Raises EngineError.NotIndex autoCheckpoint :=
    (fails_autoCheckpoint fun _ _ => by simp).raises
  unfold putBatch at h
  rw [bind_of_ok hinfer] at h
  rcases bind_error.mp h with h | ⟨c₁, _, hget, h⟩
  · cases h
  obtain ⟨rfl, rfl⟩ := get_ok.mp hget
  rcases bind_error.mp h with h | ⟨_, _, hchecked, h⟩
  · obtain ⟨hv, -⟩ := ofExcept_error.mp h
    exact absurd rfl (hvalidation _ _ hv e)
  obtain ⟨hvalid, rfl⟩ := ofExcept_ok.mp hchecked
  rcases bind_error.mp h with h | ⟨_, c₂, hpersisted, h⟩
  · exact absurd rfl (hpersist _ _ _ h e)
  rcases bind_error.mp h with h | ⟨_, c₃, hwritten, h⟩
  · exact absurd rfl (hwrite _ _ _ h e)
  rcases bind_error.mp h with h | ⟨_, _, _, h⟩
  · exact ⟨d, _, c₂, c₃, hinfer, hvalid, hpersisted, hwritten, h⟩
  · exact absurd rfl (hauto _ _ _ h e)

theorem update_rejected {ids : List Id} {ms : Option (List (Option Metadata))}
    {ds : Option (List (Option Document))} {c c' : Collection} {msg : String}
    (h : update ids ms ds c = .error (.validation msg) c') : c' = c := by
  have hrest : Raises EngineError.NotValidation (do
      writeOps (updateOps ids ms ds)
      autoCheckpoint) :=
    (fails_written (fun _ _ => by simp) (fun _ _ => by simp) _).raises
  unfold update at h
  rcases bind_error.mp h with h | ⟨c₁, c₂, hget, h⟩
  · cases h
  obtain ⟨rfl, rfl⟩ := get_ok.mp hget
  rcases bind_error.mp h with h | ⟨u, c₃, -, h⟩
  · exact (ofExcept_error.mp h).2.symm
  · exact absurd rfl (hrest _ _ _ h msg)

/-- The inference changes nothing when the dimension is set, or there is no
dimension to take. -/
theorem inferred_eq_self_iff (c : Collection) (es : List Embedding) :
    c.inferred es = c ↔ c.config.dimension ≠ 0 ∨ ∀ e, es.head? = some e → e = [] := by
  cases es with
  | nil => simp [inferred]
  | cons e es =>
      rw [inferred]
      by_cases hd : c.config.dimension = 0
      · rw [if_pos hd]
        constructor
        · intro h
          have hlen : e.length = 0 := by
            have := congrArg (fun c => c.config.dimension) h
            exact this.trans hd
          refine Or.inr ?_
          intro a ha
          obtain rfl := Option.some.inj ha
          exact List.length_eq_zero_iff.mp hlen
        · rintro (hne | hall)
          · exact absurd hd hne
          · rw [hall e rfl, List.length_nil, ← hd]
            rfl
      · rw [if_neg hd]
        exact iff_of_true rfl (Or.inl hd)

/-- **A rejected batch changes nothing, unless it set the dimension.** -/
theorem rejected_unchanged_iff (c c' : Collection) (persisted : Bool) (ids : List Id)
    (es : List Embedding) (ms : Option (List (Option Metadata)))
    (ds : Option (List (Option Document))) (msg : String) :
    (add persisted ids es ms ds c = .error (.validation msg) c' →
      (c' = c ↔ c.config.dimension ≠ 0 ∨ ∀ e, es.head? = some e → e = [])) ∧
    (upsert persisted ids es ms ds c = .error (.validation msg) c' →
      (c' = c ↔ c.config.dimension ≠ 0 ∨ ∀ e, es.head? = some e → e = [])) ∧
    (update ids ms ds c = .error (.validation msg) c' → c' = c) := by
  refine ⟨?_, ?_, update_rejected⟩
  · intro h
    obtain ⟨-, rfl⟩ := putBatch_rejected_iff.mp h
    exact inferred_eq_self_iff c es
  · intro h
    obtain ⟨-, rfl⟩ := putBatch_rejected_iff.mp h
    exact inferred_eq_self_iff c es

/-- A collection whose dimension is left to the first batch. -/
def undimensioned : CollectionConfig := { demoConfig with dimension := 0 }

theorem rejected_unchanged_iff_demo :
    ∃ c', add true ["a", "b"] [zero] none none (Collection.fresh undimensioned) =
        .error (.validation "add: 2 ids but 1 embeddings") c' ∧
      (c' = Collection.fresh undimensioned ↔ (Collection.fresh undimensioned).config.dimension ≠ 0 ∨
        ∀ e, [zero].head? = some e → e = []) :=
  ⟨_, rfl, (rejected_unchanged_iff _ _ true ["a", "b"] [zero] none none _).1 rfl⟩

/-- A batch of one id too many is rejected, and afterwards a batch of
two-dimensional vectors is rejected too that was acceptable before. -/
theorem rejected_sets_dimension :
    ∃ c', add true ["a", "b"] [zero] none none (Collection.fresh undimensioned) =
        .error (.validation "add: 2 ids but 1 embeddings") c' ∧
      c'.config.dimension = 1 ∧
      (Call.accepted (add true ["a"] [zero ++ one] none none)
        (Collection.fresh undimensioned)).toOption.isSome = true ∧
      (Call.accepted (add true ["a"] [zero ++ one] none none) c').toOption.isSome = false :=
  ⟨_, rfl, by decide +kernel⟩

end Rekha
