import Rekha.Engine.TwoTiers

/-!
# A flush that fails

A flush takes the buffer out before it hands the records to the index one by
one, and returns at the first call that fails. The record it failed at and those
after it are then in neither tier. `failed_flush_loses` says so for every state,
every batch and every position; only the watermark is right afterwards.
-/

namespace Rekha

open Outcome

/-! ## Vectors of the dimension -/

namespace UsearchIndex

/-- Every stored vector has the dimension of the index. -/
def Sized (x : UsearchIndex) : Prop := ∀ id v, x.vector id = some v → v.length = x.dimension

theorem Sized.delete {x : UsearchIndex} (hs : x.Sized) (hx : x.Wf) (id : Id) :
    (x.delete id).Sized := by
  intro id' v hv
  rw [hx.vector_delete] at hv
  split at hv
  · cases hv
  · rw [(delete_dimension x id).1]
    exact hs id' v hv

theorem Sized.add {x x' : UsearchIndex} {id : Id} {e : Embedding} {u : Unit} (hs : x.Sized)
    (hx : x.Wf) (h : x.add id e = .ok u x') : x'.Sized ∧ x'.dimension = x.dimension := by
  obtain ⟨hlen, _, _, hx'⟩ := add_ok h
  have hdim : x'.dimension = x.dimension := by rw [hx']
  refine ⟨fun id' v hv => ?_, hdim⟩
  rw [hx.vector_add h] at hv
  rw [hdim]
  split at hv
  · obtain rfl := Option.some.inj hv
    exact hlen
  · exact hs id' v hv

end UsearchIndex

theorem UsearchIndex.Sized.reindexed {x x' : UsearchIndex} {r : Record} {e : Embedding}
    (hs : x.Sized) (hx : x.Wf) (h : Collection.reindexed x r e x') :
    x'.Sized ∧ x'.dimension = x.dimension := by
  rw [Collection.reindexed] at h
  split at h
  · obtain ⟨hs', hdim⟩ := (hs.delete hx r.id).add (hx.delete r.id) h
    exact ⟨hs', hdim.trans (x.delete_dimension r.id).1⟩
  · exact hs.add hx h

namespace Collection

def onIndex (f : UsearchIndex → EStateM.Result IndexError UsearchIndex Unit) : EngineM Unit :=
  fun c =>
    match f c.index with
    | .ok _ x => .ok () { c with index := x }
    | .error e x => .error (.index e) { c with index := x }

/-- `flushRecord`, with calls of the index that may fail. -/
def tryFlushRecord (fault : Option IndexFault) (r : Record) (maxSeq : ℕ) : EngineM ℕ :=
  match r.embedding with
  | none => pure maxSeq
  | some embedding => do
      let c ← MonadState.get
      if c.index.contains r.id then onIndex fun x => x.tryDelete fault r.id
      onIndex fun x => x.tryAdd fault r.id embedding
      pure (max maxSeq r.seq)

/-- The loop of the flush, from position `n` of the batch. -/
def tryFlushRecords (faults : ℕ → Option IndexFault) : ℕ → List Record → ℕ → EngineM ℕ
  | _, [], maxSeq => pure maxSeq
  | n, r :: batch, maxSeq => do
      let maxSeq ← tryFlushRecord (faults n) r maxSeq
      tryFlushRecords faults (n + 1) batch maxSeq

/-- `flushBuffer`, with calls of the index that may fail. -/
def tryFlushBuffer (faults : ℕ → Option IndexFault) : EngineM Unit := do
  let c ← MonadState.get
  modify fun c => { c with buffer := [] }
  let maxSeq ← tryFlushRecords faults 0 c.buffer 0
  modify fun c => { c with flushedSeq := max c.flushedSeq maxSeq }

section Faultless

variable {fault : Option IndexFault} {faults : ℕ → Option IndexFault} {r : Record}
  {m m' n : ℕ} {c c' : Collection} {err : EngineError}

theorem onIndex_ok {f : UsearchIndex → EStateM.Result IndexError UsearchIndex Unit} {u : Unit} :
    onIndex f c = .ok u c' ↔ ∃ x, f c.index = .ok () x ∧ c' = { c with index := x } := by
  rw [onIndex]
  cases f c.index with
  | ok v x =>
      constructor
      · intro h
        cases h
        exact ⟨x, rfl, rfl⟩
      · rintro ⟨x', hx, rfl⟩
        cases hx
        rfl
  | error e x => simp

theorem onIndex_error {f : UsearchIndex → EStateM.Result IndexError UsearchIndex Unit} :
    onIndex f c = .error err c' ↔
      ∃ e x, f c.index = .error e x ∧ err = .index e ∧ c' = { c with index := x } := by
  rw [onIndex]
  cases f c.index with
  | ok v x => simp
  | error e x =>
      constructor
      · intro h
        cases h
        exact ⟨e, x, rfl, rfl, rfl⟩
      · rintro ⟨e', x', hx, rfl, rfl⟩
        cases hx
        rfl

theorem tryFlushRecord_none (r : Record) (m : ℕ) : tryFlushRecord none r m = flushRecord r m := by
  have hadd : ∀ e, onIndex (fun x => x.tryAdd none r.id e) = indexAdd r.id e := by
    intro e
    funext c
    cases hadd : c.index.add r.id e with
    | ok u x =>
        rw [onIndex_ok.mpr ⟨x, (UsearchIndex.tryAdd_none _ _ _).trans hadd, rfl⟩, indexAdd, hadd]
    | error err x =>
        have htry := (UsearchIndex.tryAdd_none c.index r.id e).trans hadd
        rw [onIndex_error.mpr ⟨err, x, htry, rfl, rfl⟩, indexAdd, hadd]
  rw [tryFlushRecord, flushRecord]
  cases r.embedding with
  | none => rfl
  | some e =>
      dsimp only
      rw [hadd]
      funext c
      rw [bind_of_ok (rfl : (MonadState.get : EngineM Collection) c = .ok c c)]
      by_cases hc : c.index.contains r.id
      · have hdelete : onIndex (fun x => x.tryDelete none r.id) c =
            .ok () { c with index := c.index.delete r.id } := rfl
        rw [if_pos hc, bind_of_ok hdelete, bind_of_ok (modify_run _ c), if_pos hc]
      · rw [if_neg hc, bind_of_ok (modify_run _ c), if_neg hc]

theorem tryFlushRecords_none : ∀ (batch : List Record) (n m : ℕ),
    tryFlushRecords (fun _ => none) n batch m = flushRecords batch m
  | [], _, _ => rfl
  | r :: batch, n, m => by
      rw [tryFlushRecords, flushRecords, tryFlushRecord_none]
      exact congrArg _ (funext fun m' => tryFlushRecords_none batch (n + 1) m')

theorem tryFlushBuffer_none : tryFlushBuffer (fun _ => none) = flushBuffer := by
  rw [tryFlushBuffer, flushBuffer]
  simp only [tryFlushRecords_none]

theorem tryFlushRecord_ok (h : tryFlushRecord fault r m c = .ok m' c') :
    flushRecord r m c = .ok m' c' := by
  rw [tryFlushRecord] at h
  cases he : r.embedding with
  | none =>
      rw [he] at h
      rw [flushRecord, he]
      exact h
  | some e =>
      rw [he] at h
      dsimp only at h
      rw [bind_of_ok (rfl : (MonadState.get : EngineM Collection) c = .ok c c)] at h
      have hadded : ∀ c₁, (onIndex (fun x => x.tryAdd fault r.id e) >>= fun _ =>
          pure (max m r.seq) : EngineM ℕ) c₁ = .ok m' c' →
          ∃ x, c₁.index.add r.id e = .ok () x ∧ m' = max m r.seq ∧ c' = { c₁ with index := x } := by
        intro c₁ h
        obtain ⟨_, c₂, hadd, h⟩ := bind_ok.mp h
        obtain ⟨x, hx, rfl⟩ := onIndex_ok.mp hadd
        obtain ⟨rfl, rfl⟩ := pure_ok.mp h
        exact ⟨x, UsearchIndex.tryAdd_ok hx, rfl, rfl⟩
      by_cases hc : c.index.contains r.id
      · rw [if_pos hc] at h
        obtain ⟨_, c₁, hdelete, h⟩ := bind_ok.mp h
        obtain ⟨x₁, hx₁, rfl⟩ := onIndex_ok.mp hdelete
        obtain ⟨x, hx, rfl, rfl⟩ := hadded _ h
        obtain rfl : x₁ = c.index.delete r.id := by
          unfold UsearchIndex.tryDelete at hx₁
          split at hx₁
          · cases hx₁
          · cases hx₁
            rfl
        refine flushRecord_of_reindexed he ?_
        rw [reindexed, if_pos hc]
        exact hx
      · rw [if_neg hc] at h
        obtain ⟨x, hx, rfl, rfl⟩ := hadded _ h
        refine flushRecord_of_reindexed he ?_
        rw [reindexed, if_neg hc]
        exact hx

/-- Where a record fails, its id is unknown afterwards, unless its removal was
refused: then the index is as before. -/
theorem tryFlushRecord_error (h : tryFlushRecord fault r m c = .error err c') :
    ∃ e x, r.embedding = some e ∧ c' = { c with index := x } ∧
      (x.labels.lookup r.id = none ∨ x = c.index) := by
  rw [tryFlushRecord] at h
  cases he : r.embedding with
  | none =>
      rw [he] at h
      cases h
  | some e =>
      rw [he] at h
      dsimp only at h
      rw [bind_of_ok (rfl : (MonadState.get : EngineM Collection) c = .ok c c)] at h
      have hadded : ∀ c₁, c₁.index.labels.lookup r.id = none →
          (onIndex (fun x => x.tryAdd fault r.id e) >>= fun _ =>
            pure (max m r.seq) : EngineM ℕ) c₁ = .error err c' →
          ∃ x, c' = { c₁ with index := x } ∧ x.labels.lookup r.id = none := by
        intro c₁ hnew h
        rcases bind_error.mp h with h | ⟨_, _, _, h⟩
        · obtain ⟨e, x, hx, _, rfl⟩ := onIndex_error.mp h
          exact ⟨x, rfl, UsearchIndex.tryAdd_error hnew hx⟩
        · cases h
      by_cases hc : c.index.contains r.id
      · rw [if_pos hc] at h
        rcases bind_error.mp h with h | ⟨_, c₁, hdelete, h⟩
        · obtain ⟨_, x, hx, _, rfl⟩ := onIndex_error.mp h
          refine ⟨e, x, rfl, rfl, Or.inr ?_⟩
          unfold UsearchIndex.tryDelete at hx
          split at hx
          · cases hx
            rfl
          · cases hx
        · obtain ⟨x₁, hx₁, rfl⟩ := onIndex_ok.mp hdelete
          unfold UsearchIndex.tryDelete at hx₁
          split at hx₁
          · cases hx₁
          · cases hx₁
            have hnew : (c.index.delete r.id).labels.lookup r.id = none := by
              rw [UsearchIndex.labels_delete, if_pos rfl]
            obtain ⟨x, rfl, hx⟩ := hadded _ hnew h
            exact ⟨e, x, rfl, rfl, Or.inl hx⟩
      · rw [if_neg hc] at h
        have hnew : c.index.labels.lookup r.id = none := by
          rw [UsearchIndex.contains, Option.not_isSome_iff_eq_none] at hc
          exact hc
        obtain ⟨x, rfl, hx⟩ := hadded c hnew h
        exact ⟨e, x, rfl, rfl, Or.inl hx⟩

theorem tryFlushRecords_error : ∀ {batch : List Record} {n m : ℕ} {c : Collection},
    c.index.Wf → c.index.Sized → tryFlushRecords faults n batch m c = .error err c' →
    ∃ r ∈ batch, ∃ e x, r.embedding = some e ∧ c' = { c with index := x } ∧
      (x.labels.lookup r.id = none ∨ (x.Sized ∧ x.dimension = c.index.dimension))
  | [], _, _, _, _, _, h => by cases h
  | r :: batch, n, m, c, hx, hs, h => by
      rw [tryFlushRecords] at h
      rcases bind_error.mp h with hfail | ⟨m₁, c₁, hrecord, hmore⟩
      · obtain ⟨e, x, he, rfl, hindex⟩ := tryFlushRecord_error hfail
        refine ⟨r, List.mem_cons_self, e, x, he, rfl, ?_⟩
        rcases hindex with hlabel | rfl
        · exact Or.inl hlabel
        · exact Or.inr ⟨hs, rfl⟩
      · rcases flushRecord_ok (tryFlushRecord_ok hrecord) with
          ⟨_, _, rfl⟩ | ⟨e₁, x₁, _, hre, _, rfl⟩
        · obtain ⟨r', hr', hrest⟩ := tryFlushRecords_error hx hs hmore
          exact ⟨r', List.mem_cons_of_mem r hr', hrest⟩
        · obtain ⟨hs₁, hdim⟩ := UsearchIndex.Sized.reindexed hs hx hre
          obtain ⟨r', hr', e, x, he, hc', hindex⟩ :=
            tryFlushRecords_error (c := { c with index := x₁ }) (reindexed_wf hre hx).1 hs₁ hmore
          refine ⟨r', List.mem_cons_of_mem r hr', e, x, he, hc', ?_⟩
          rcases hindex with hlabel | ⟨hs', hdim'⟩
          · exact Or.inl hlabel
          · exact Or.inr ⟨hs', hdim'.trans hdim⟩

end Faultless

/-! ## What a failed flush leaves -/

/-- The vector of a live record: the one in memory, else the one a segment holds. -/
def liveVector (c : Collection) (id : Id) : Option Embedding :=
  (c.records.lookup id).bind fun r => r.embedding.or (c.loadVector id)

/-- The buffer and the index together hold every live vector: a buffered record the
vector of its id, the index that of every other id. -/
structure HoldsVectors (c : Collection) : Prop where
  buffered : ∀ b ∈ c.buffer, b.embedding.isSome ∧ b.embedding = c.liveVector b.id
  indexed : ∀ id, ¬ c.IsBuffered id → c.index.vector id = c.liveVector id

/-- Nothing is lost between the state a flush started from and the one it left. -/
structure NoLoss (c c' : Collection) : Prop where
  found : ∀ id e, c'.liveVector id = some e →
    (∃ b ∈ c'.buffer, b.id = id ∧ b.embedding = some e) ∨ c'.index.vector id = some e
  watermark : ∀ b ∈ c.buffer, c'.index.vector b.id ≠ b.embedding → c'.flushedSeq ≤ b.seq
  resumes : ∀ c₁ c₂, flushBuffer c' = .ok () c₁ → flushBuffer c = .ok () c₂ →
    c₁.buffer = c₂.buffer ∧ (∀ id, c₁.index.vector id = c₂.index.vector id) ∧
      c₁.flushedSeq = c₂.flushedSeq

section FailedFlush

variable {faults : ℕ → Option IndexFault} {c c' : Collection} {err : EngineError}

/-- The failure leaves an empty buffer, and the records and the watermark as they
were. -/
theorem tryFlushBuffer_error (hx : c.index.Wf) (hs : c.index.Sized)
    (h : tryFlushBuffer faults c = .error err c') :
    ∃ r ∈ c.buffer, ∃ e x, r.embedding = some e ∧ c' = { c with buffer := [], index := x } ∧
      (x.labels.lookup r.id = none ∨ (x.Sized ∧ x.dimension = c.index.dimension)) := by
  rw [tryFlushBuffer, bind_of_ok (rfl : (MonadState.get : EngineM Collection) c = .ok c c),
    bind_of_ok (modify_run _ c)] at h
  rcases bind_error.mp h with hfail | ⟨m, c₁, _, hmodify⟩
  · exact tryFlushRecords_error (c := { c with buffer := [] }) hx hs hfail
  · cases hmodify

theorem le_maxSeq : ∀ (batch : List Record) (m : ℕ), m ≤ maxSeq m batch
  | [], m => Nat.le_refl m
  | r :: batch, m => by
      refine Nat.le_trans ?_ (le_maxSeq batch _)
      split
      · exact Nat.le_max_left m r.seq
      · exact Nat.le_refl m

theorem seq_le_maxSeq {r : Record} (hsome : r.embedding.isSome) :
    ∀ {batch : List Record} {m : ℕ}, r ∈ batch → r.seq ≤ maxSeq m batch
  | r' :: batch, m, hr => by
      rcases List.mem_cons.mp hr with rfl | hmem
      · rw [maxSeq, if_pos hsome]
        exact Nat.le_trans (Nat.le_max_right m r.seq) (le_maxSeq batch _)
      · rw [maxSeq]
        exact seq_le_maxSeq hsome hmem

theorem failed_flush_watermark (ho : Ordered c) (hx : c.index.Wf) (hs : c.index.Sized)
    (h : tryFlushBuffer faults c = .error err c') : ∀ b ∈ c.buffer, c'.flushedSeq ≤ b.seq := by
  obtain ⟨_, _, _, _, _, rfl, _⟩ := tryFlushBuffer_error hx hs h
  exact fun b hb => (ho.above b hb).le

/-- **A failed flush loses vectors**, at whatever position and by whatever call it
fails: the record it failed at is in neither tier, or a later flush leaves the
watermark behind. -/
theorem failed_flush_loses (faults : ℕ → Option IndexFault) (c c' : Collection)
    (err : EngineError) (hv : HoldsVectors c) (ho : Ordered c) (hx : c.index.Wf)
    (hs : c.index.Sized) (h : tryFlushBuffer faults c = .error err c') : ¬ NoLoss c c' := by
  intro hloss
  obtain ⟨r, hr, e, x, he, rfl, hindex⟩ := tryFlushBuffer_error hx hs h
  have hfound : ∀ b ∈ c.buffer, ∀ e, b.embedding = some e → x.vector b.id = some e := by
    intro b hb e he
    have hlive : c.liveVector b.id = some e := (hv.buffered b hb).2.symm.trans he
    rcases hloss.found b.id e hlive with ⟨b', hb', _⟩ | hvector
    · cases hb'
    · exact hvector
  rcases hindex with hlabel | ⟨hsized, hdim⟩
  · have hvector := hfound r hr e he
    rw [UsearchIndex.vector, hlabel] at hvector
    cases hvector
  · obtain ⟨c₂, hc₂⟩ := flushBuffer_succeeds hx fun b hb e he =>
      (hsized b.id e (hfound b hb e he)).trans hdim
    have hempty := (flushBuffer_succeeds_iff (c := { c with buffer := [], index := x })).mpr
      ⟨x, Reindexed.nil x⟩
    obtain ⟨c₁, hc₁⟩ := hempty
    obtain ⟨_, _, hflushed⟩ := hloss.resumes c₁ c₂ hc₁ hc₂
    obtain ⟨_, _, rfl⟩ := flushBuffer_ok hc₁
    obtain ⟨_, _, rfl⟩ := flushBuffer_ok hc₂
    have habove := ho.above r hr
    have hle : r.seq ≤ maxSeq 0 c.buffer := seq_le_maxSeq (by rw [he]; rfl) hr
    have hmax : max c.flushedSeq 0 = max c.flushedSeq (maxSeq 0 c.buffer) := hflushed
    omega

end FailedFlush

theorem Synced.holdsVectors {c : Collection} (hs : Synced c) (hb : Buffered c) :
    HoldsVectors c := by
  have hunmapped : ∀ id, c.loadVector id = none := by
    intro id
    unfold Collection.loadVector
    rw [hs.unmapped.2]
    rfl
  refine ⟨?_, ?_⟩
  · intro b hmem
    obtain ⟨r, hr, hemb, hsome, _⟩ := hb.live b hmem
    refine ⟨hsome, ?_⟩
    rw [liveVector, hr, Option.bind_some, hunmapped, Option.or_none, hemb]
  · intro id hnot
    rw [hs.index id hnot, memVector, liveVector]
    cases c.records.lookup id with
    | none => rfl
    | some r =>
        rw [Option.bind_some, Option.bind_some, hunmapped, Option.or_none]

end Collection

open Collection

/-- The graph refuses the first vector of the batch. -/
def demoFaults (n : ℕ) : Option IndexFault :=
  if n = 0 then some (.insert "insert failed") else none

theorem failing_flush : ∃ h c c' err, Reachable Call.isUncheckpointed demoConfig h c ∧
    c.dir.checkpointJson = none ∧ c.index.labels.size = 0 ∧
    tryFlushBuffer demoFaults c = .error err c' ∧
    c'.liveVector "a" = some zero ∧ c'.buffer = [] ∧ c'.index.vector "a" = none := by
  let failed (r : EStateM.Result EngineError Collection Unit) : Bool :=
    r.casesOn (fun _ _ => false) fun _ c' => decide (c'.liveVector "a" = some zero) &&
      (c'.buffer.isEmpty && decide (c'.index.vector "a" = none))
  have hrun : (runAll [.add true ["a", "b"] [zero, one] none none]
      (fresh demoConfig)).toOption.any (fun c => c.dir.checkpointJson.isNone &&
        (decide (c.index.labels.size = 0) && failed (tryFlushBuffer demoFaults c))) = true := by
    decide +kernel
  obtain ⟨c, hc, hP⟩ := exists_runAll hrun
  simp only [Bool.and_eq_true, Option.isNone_iff_eq_none, decide_eq_true_eq] at hP
  obtain ⟨hnone, hlabels, hfailed⟩ := hP
  have hr : Reachable Call.isUncheckpointed demoConfig _ c :=
    Reachable.fresh.runAll (by simp [Call.isUncheckpointed]) hc
  cases hflush : tryFlushBuffer demoFaults c with
  | ok u c' =>
      rw [hflush] at hfailed
      cases hfailed
  | error err c' =>
      rw [hflush] at hfailed
      simp only [failed, Bool.and_eq_true, List.isEmpty_iff, decide_eq_true_eq] at hfailed
      exact ⟨_, c, c', err, hr, hnone, hlabels, hflush, hfailed⟩

theorem holdsVectors_of_reachable {config : CollectionConfig} {h : List Operation}
    {c : Collection} (hd : config.dimension ≠ 0)
    (hr : Reachable Call.isUncheckpointed config h c) (hnone : c.dir.checkpointJson = none) :
    HoldsVectors c ∧ Ordered c ∧ c.index.Wf := by
  obtain ⟨_, hf, hb, ho, hs⟩ := hr.uncheckpointed hd
  exact ⟨(hs hnone).holdsVectors hb, ho, hf.wf⟩

/-- The write was acknowledged, and after the flush its vector is in neither tier. -/
theorem vector_lost : ∃ h c c' err, Reachable Call.isUncheckpointed demoConfig h c ∧
    HoldsVectors c ∧ tryFlushBuffer demoFaults c = .error err c' ∧
    c'.liveVector "a" = some zero ∧ c'.buffer = [] ∧ c'.index.vector "a" = none ∧
    ¬ NoLoss c c' := by
  obtain ⟨h, c, c', err, hr, hnone, _, hflush, hlive, hbuffer, hvector⟩ := failing_flush
  refine ⟨h, c, c', err, hr, (holdsVectors_of_reachable (by decide) hr hnone).1, hflush, hlive,
    hbuffer, hvector, fun hloss => ?_⟩
  rcases hloss.found "a" zero hlive with ⟨b, hb, _⟩ | hfound
  · rw [hbuffer] at hb
    cases hb
  · rw [hvector] at hfound
    cases hfound

theorem failed_flush_loses_demo : ∃ c c' err,
    tryFlushBuffer demoFaults c = .error err c' ∧ ¬ NoLoss c c' := by
  obtain ⟨h, c, c', err, hr, hnone, hlabels, hflush, _⟩ := failing_flush
  obtain ⟨hv, ho, hx⟩ := holdsVectors_of_reachable (by decide) hr hnone
  have hs : c.index.Sized := by
    intro id v hvector
    rw [UsearchIndex.vector, FinMap.lookup_eq_none_of_size_zero hlabels id] at hvector
    cases hvector
  exact ⟨c, c', err, hflush, failed_flush_loses demoFaults c c' err hv ho hx hs hflush⟩

end Rekha
