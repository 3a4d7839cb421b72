import Rekha.Engine.Rejected
import Rekha.Engine.Opening

/-!
# An inferred dimension does not reach the index

A collection created without a dimension takes it from its first put. The
configuration and the catalog learn it; the index was built before and keeps
dimension zero until the collection is reopened. So the buffer fills with vectors
the index refuses, and the first flush fails.
-/

namespace Rekha

open Collection Outcome

/-! ## What validation reports -/

/-- A check whose failures are validation errors. -/
def Validates (x : Except EngineError Unit) : Prop :=
  ∀ e, x = .error e → ∃ msg, e = .validation msg

namespace Validates

theorem ok : Validates (.ok ()) := by
  intro e h
  cases h

theorem error (msg : String) : Validates (.error (.validation msg)) := by
  intro e h
  cases h
  exact ⟨msg, rfl⟩

theorem bind {x : Except EngineError Unit} {f : Unit → Except EngineError Unit}
    (hx : Validates x) (hf : Validates (f ())) : Validates (x >>= f) := by
  cases x with
  | ok u => exact hf
  | error e =>
      intro e' h
      cases h
      exact hx e rfl

theorem checkSliceLengths {α : Type} (op : String) (ids : List Id) (opt : Option (List α))
    (what : String) : Validates (Collection.checkSliceLengths op ids opt what) := by
  unfold Collection.checkSliceLengths
  cases opt with
  | none => exact ok
  | some slice =>
      dsimp only
      split
      · exact error _
      · exact ok

theorem checkDimensions (op : String) (es : List Embedding) (d : ℕ) :
    Validates (Collection.checkDimensions op es d) := by
  unfold Collection.checkDimensions
  split
  · exact ok
  · split
    · exact error _
    · exact ok

theorem checkNewIds (records : FinMap Id Record) (seen : List Id) (ids : List Id) :
    Validates (Collection.checkNewIds records seen ids) := by
  induction ids generalizing seen with
  | nil => exact ok
  | cons id ids ih =>
      unfold Collection.checkNewIds
      split
      · exact error _
      · split
        · exact error _
        · exact ih _

theorem checkKnownIds (records : FinMap Id Record) (ids : List Id) :
    Validates (Collection.checkKnownIds records ids) := by
  induction ids with
  | nil => exact ok
  | cons id ids ih =>
      unfold Collection.checkKnownIds
      split
      · exact ih
      · exact error _

theorem checkCounts (op : String) (c : Collection) (ids : List Id) (es : List Embedding)
    (ms : Option (List (Option Metadata))) (ds : Option (List (Option Document))) :
    Validates (Collection.checkCounts op c ids es ms ds) := by
  have hrest : Validates (do
      Collection.checkSliceLengths op ids ms "metadatas"
      Collection.checkSliceLengths op ids ds "documents"
      Collection.checkDimensions op es c.config.dimension) :=
    bind (checkSliceLengths _ _ _ _) (bind (checkSliceLengths _ _ _ _) (checkDimensions _ _ _))
  unfold Collection.checkCounts
  split
  · exact bind (error _) hrest
  · exact hrest

end Validates

/-! ## Sessions -/

namespace Call

/-- The call as a method of the open collection. -/
def exec : Call → EngineM Unit
  | .add p ids es ms ds => Rekha.add p ids es ms ds
  | .upsert p ids es ms ds => Rekha.upsert p ids es ms ds
  | .update ids ms ds => Rekha.update ids ms ds
  | .delete ids => Rekha.delete ids
  | .flush => flushBuffer
  | .checkpoint => Collection.checkpoint
  | .optimize => do
      let _ ← Collection.optimize
      pure ()
  | .restart _ => pure ()

def embeddings : Call → List Embedding
  | .add _ _ es _ _ | .upsert _ _ es _ _ => es
  | _ => []

end Call

def EngineError.NotMismatch (e : EngineError) : Prop :=
  ∀ index got, e ≠ .index (.dimensionMismatch index got)

/-- The index has the dimension of the collection, once there is one. -/
def Collection.Agrees (c : Collection) : Prop :=
  c.config.dimension ≠ 0 → c.index.dimension = c.config.dimension

/-- Along a session, which goes on after a failed call, the index has the
collection's dimension and no call fails for a mismatch. -/
def DimensionReaches : List Call → Collection → Prop
  | [], c => c.Agrees
  | a :: calls, c => c.Agrees ∧
      match a.exec c with
      | .ok _ c' => DimensionReaches calls c'
      | .error e c' => e.NotMismatch ∧ DimensionReaches calls c'

theorem DimensionReaches.agrees {calls : List Call} {c : Collection}
    (h : DimensionReaches calls c) : c.Agrees := by
  cases calls with
  | nil => exact h
  | cons a calls => exact h.1

/-! ## The index keeps dimension zero -/

/-- The index has dimension zero, and the buffer holds vectors of the dimension
of the collection only: none if that is unset. -/
structure Unindexed (dim : ℕ) (c : Collection) : Prop where
  config : c.config.dimension = dim
  index : c.index.dimension = 0
  buffer : ∀ b ∈ c.buffer, ∃ e, b.embedding = some e ∧ e.length = dim ∧ dim ≠ 0

def MismatchOf (dim : ℕ) (e : EngineError) : Prop := dim = 0 → e.NotMismatch

def FitsDimension (dim : ℕ) (ops : List Operation) : Prop :=
  ∀ op ∈ ops, ∀ e, op.vector = some e → e.length = dim ∧ dim ≠ 0

section Unindexed

variable {dim : ℕ} {c c' : Collection}

theorem unindexed_fresh {config : CollectionConfig} (hd : config.dimension = 0) :
    Unindexed 0 (Collection.fresh config) where
  config := hd
  index := hd
  buffer := fun _ hb => absurd hb List.not_mem_nil

theorem Unindexed.applyRecord (h : Unindexed dim c) (r : WalRecord)
    (hr : ∀ e, r.op.vector = some e → e.length = dim ∧ dim ≠ 0) :
    Unindexed dim (c.applyRecord r) := by
  have hconfig := congrArg Settled.config (c.applyOperation_settled r.op r.seq)
  simp only [settled] at hconfig
  unfold Collection.applyRecord
  refine ⟨(congrArg CollectionConfig.dimension hconfig).trans h.config, ?_, ?_⟩
  · rw [applyOperation_index]
    cases r.op with
    | delete id => exact (c.index.delete_dimension id).1.trans h.index
    | _ => exact h.index
  · intro b hb
    rw [applyOperation_buffer] at hb
    rcases mem_bufferAfter hb with ⟨hold, -⟩ | ⟨-, -, hemb, hsome⟩
    · exact h.buffer b hold
    · obtain ⟨e, he⟩ := Option.isSome_iff_exists.mp hsome
      exact ⟨e, hemb.trans he, hr e he⟩

theorem Unindexed.replay (rs : List WalRecord) (h : Unindexed dim c)
    (hrs : ∀ r ∈ rs, ∀ e, r.op.vector = some e → e.length = dim ∧ dim ≠ 0) :
    Unindexed dim (rs.foldl Collection.applyRecord c) :=
  List.foldlRecOn rs _ h fun _ hc r hr => hc.applyRecord r (hrs r hr)

theorem Unindexed.of_eq (h : Unindexed dim c) (hconfig : c'.config = c.config)
    (hindex : c'.index = c.index) (hbuffer : c'.buffer = c.buffer) : Unindexed dim c' := by
  refine ⟨?_, ?_, ?_⟩
  · rw [hconfig]
    exact h.config
  · rw [hindex]
    exact h.index
  · rw [hbuffer]
    exact h.buffer

/-! ## No method changes that -/

theorem Unindexed.keeps_writeOps {ops : List Operation} (hops : FitsDimension dim ops) :
    Keeps (Unindexed dim) (MismatchOf dim) (writeOps ops) := by
  refine Collection.keeps_writeOps (keeps_appendOps (fun _ _ _ _ => by simp) ?_) ?_
  · exact fun _ _ c w r h _ => h.of_eq rfl rfl rfl
  · intro c w _ _ h
    exact h.replay _ fun r hr => hops r.op (op_mem_of_mem_numbered hr)

theorem Unindexed.keeps_flushBuffer :
    Keeps (Unindexed dim) (MismatchOf dim) flushBuffer := by
  refine Collection.keeps_flushBuffer ?_ ?_ ?_ ?_
  · exact fun c x hx h => ⟨h.config, hx.trans h.index, h.buffer⟩
  · exact fun c h => ⟨h.config, h.index, fun b hb => absurd hb List.not_mem_nil⟩
  · exact fun c m h => h.of_eq rfl rfl rfl
  · intro c h hne e hzero
    obtain ⟨b, hb⟩ := List.exists_mem_of_ne_nil c.buffer hne
    obtain ⟨-, -, -, hd⟩ := h.buffer b hb
    exact absurd hzero hd

theorem Unindexed.keeps_autoCheckpoint :
    Keeps (Unindexed dim) (MismatchOf dim) autoCheckpoint :=
  Collection.keeps_autoCheckpoint (keeps_checkpoint
    (fun _ _ hconfig hindex hbuffer h => h.of_eq hconfig hindex hbuffer) fun _ _ _ => by simp)

/-! ## Calls -/

theorem putBatch_ends {persisted : Bool} {validate : Collection → Except EngineError Unit}
    {es : List Embedding} {ops : List Operation} (h : Unindexed dim (c.inferred es))
    (hval : ∀ c e, validate c = .error e → e.NotMismatch)
    (hops : ∀ c, validate c = .ok () → FitsDimension dim ops) :
    (∀ u c', putBatch persisted validate es ops c = .ok u c' → Unindexed dim c') ∧
      ∀ e c', putBatch persisted validate es ops c = .error e c' →
        Unindexed dim c' ∧ MismatchOf dim e := by
  have hrest : ∀ o, Keeps (Unindexed dim) (MismatchOf dim) (do
      let c ← get
      Outcome.ofExcept (validate c)
      persistDimension persisted o
      writeOps ops
      flushIfNeeded
      autoCheckpoint) := by
    intro o
    apply Keeps.get_bind
    intro c _
    refine Keeps.ofExcept_bind (fun e he _ => hval c e he) ?_
    intro u hok
    exact Keeps.bind (keeps_persistDimension persisted fun _ _ _ h => h.of_eq rfl rfl rfl) fun _ =>
      Keeps.bind (Unindexed.keeps_writeOps (hops c hok)) fun _ =>
      Keeps.bind (keeps_flushIfNeeded Unindexed.keeps_flushBuffer) fun _ =>
      Unindexed.keeps_autoCheckpoint
  obtain ⟨o, hinfer⟩ := inferDimension_run es c
  unfold putBatch
  refine ⟨?_, ?_⟩
  · intro u c' hok
    obtain ⟨o', c₁, ho, hok⟩ := bind_ok.mp hok
    rw [hinfer] at ho
    cases ho
    exact (hrest o _ h).1 u c' hok
  · intro e c' herr
    rcases bind_error.mp herr with herr | ⟨o', c₁, ho, herr⟩
    · rw [hinfer] at herr
      cases herr
    · rw [hinfer] at ho
      cases ho
      exact (hrest o _ h).2 e c' herr

theorem Unindexed.inferred {d : ℕ} {es : List Embedding} (h : Unindexed dim c) (hd : d ≠ 0)
    (hdim : dim = 0 ∨ dim = d) (hes : ∀ e ∈ es, e.length = d) :
    Unindexed (if es = [] then dim else d) (c.inferred es) := by
  cases es with
  | nil => exact h
  | cons e es =>
      rw [if_neg (List.cons_ne_nil e es), Collection.inferred, h.config]
      rcases hdim with rfl | rfl
      · rw [if_pos rfl, hes e List.mem_cons_self]
        exact ⟨rfl, h.index, fun b hb => absurd rfl (h.buffer b hb).choose_spec.2.2⟩
      · rw [if_neg hd]
        exact h

theorem fitsDimension_putOps
    {mk : Id → Embedding → Option Metadata → Option Document → Operation}
    (hvec : ∀ id e md doc, (mk id e md doc).vector = some e) {ids : List Id}
    {es : List Embedding} {ms : Option (List (Option Metadata))}
    {ds : Option (List (Option Document))} (hlen : ids.length = es.length) {d : ℕ} (hd : d ≠ 0)
    (hes : ∀ e ∈ es, e.length = d) :
    FitsDimension (if es = [] then dim else d) (putOps mk ids es ms ds) := by
  intro op hop e he
  obtain ⟨id, -, e', he', md, doc, rfl⟩ := mem_putOps hlen hop
  rw [hvec] at he
  obtain rfl := Option.some.inj he
  rw [if_neg (List.ne_nil_of_mem he')]
  exact ⟨hes e' he', hd⟩

theorem fitsDimension_of_no_vectors {ops : List Operation} (h : ∀ op ∈ ops, op.vector = none) :
    FitsDimension dim ops := by
  intro op hop e he
  rw [h op hop] at he
  cases he

theorem Validates.notMismatch {x : Except EngineError Unit} {e : EngineError} (hx : Validates x)
    (he : x = .error e) : e.NotMismatch := by
  obtain ⟨msg, rfl⟩ := hx e he
  intro index got
  simp

/-- A call of a session takes the dimension of its vectors, and fails for a
mismatch only if there is one. -/
theorem exec_ends {d : ℕ} {a : Call} (ha : a.isWriteOrFlush) (hd : d ≠ 0)
    (hdim : dim = 0 ∨ dim = d) (hes : ∀ e ∈ a.embeddings, e.length = d) (h : Unindexed dim c) :
    (∀ u c', a.exec c = .ok u c' → Unindexed (if a.embeddings = [] then dim else d) c') ∧
      ∀ e c', a.exec c = .error e c' → Unindexed (if a.embeddings = [] then dim else d) c' ∧
        MismatchOf (if a.embeddings = [] then dim else d) e := by
  cases a with
  | add p ids es ms ds =>
      refine putBatch_ends (h.inferred hd hdim hes) ?_ ?_
      · intro c e he
        refine Validates.notMismatch (Validates.bind ?_ ?_) he
        · exact Validates.checkCounts _ _ _ _ _ _
        · exact Validates.checkNewIds _ _ _
      · intro c hok
        exact fitsDimension_putOps (fun _ _ _ _ => rfl) (checkCounts_ok (validateAdd_ok hok).1).1
          hd hes
  | upsert p ids es ms ds =>
      refine putBatch_ends (h.inferred hd hdim hes) ?_ ?_
      · intro c e he
        exact (Validates.checkCounts _ _ _ _ _ _).notMismatch he
      · intro c hok
        exact fitsDimension_putOps (fun _ _ _ _ => rfl) (checkCounts_ok hok).1 hd hes
  | update ids ms ds =>
      have hops : FitsDimension dim (updateOps ids ms ds) := by
        apply fitsDimension_of_no_vectors
        intro op hop
        obtain ⟨id, -, md, doc, rfl⟩ := mem_updateOps hop
        rfl
      have hkeeps : Keeps (Unindexed dim) (MismatchOf dim) (update ids ms ds) := by
        apply Keeps.get_bind
        intro c _
        refine Keeps.ofExcept_bind ?_ fun _ _ =>
          Keeps.bind (Unindexed.keeps_writeOps hops) fun _ => Unindexed.keeps_autoCheckpoint
        intro e he _
        exact ((Validates.checkSliceLengths _ _ _ _).bind
          ((Validates.checkSliceLengths _ _ _ _).bind (Validates.checkKnownIds _ _))).notMismatch he
      exact hkeeps c h
  | delete ids =>
      have hops : FitsDimension dim (ids.map .delete) := by
        apply fitsDimension_of_no_vectors
        intro op hop
        obtain ⟨id, -, rfl⟩ := List.mem_map.mp hop
        rfl
      have hkeeps : Keeps (Unindexed dim) (MismatchOf dim) (delete ids) :=
        Keeps.bind (Unindexed.keeps_writeOps hops) fun _ => Unindexed.keeps_autoCheckpoint
      exact hkeeps c h
  | flush => exact Unindexed.keeps_flushBuffer c h
  | checkpoint | optimize | restart => exact ha.elim

theorem Unindexed.not_agrees (h : Unindexed dim c) (hd : dim ≠ 0) : ¬ c.Agrees := by
  intro hagree
  have heq := hagree (by rw [h.config]; exact hd)
  rw [h.index, h.config] at heq
  exact hd heq.symm

theorem dimensionReaches_iff {d : ℕ} (hd : d ≠ 0) {calls : List Call}
    (hcalls : ∀ a ∈ calls, a.isWriteOrFlush)
    (hes : ∀ a ∈ calls, ∀ e ∈ a.embeddings, e.length = d) (h : Unindexed 0 c) :
    DimensionReaches calls c ↔ ∀ a ∈ calls, a.embeddings = [] := by
  have hagrees : c.Agrees := fun hne => absurd h.config hne
  induction calls generalizing c with
  | nil => exact iff_of_true hagrees (fun a ha => absurd ha List.not_mem_nil)
  | cons a calls ih =>
      have ih := @ih
      simp only [List.forall_mem_cons] at hcalls hes ⊢
      obtain ⟨hok, herr⟩ := exec_ends hcalls.1 hd (Or.inl rfl) hes.1 h
      unfold DimensionReaches
      by_cases hnone : a.embeddings = []
      · rw [if_pos hnone] at hok herr
        cases hrun : a.exec c with
        | ok u c' =>
            have hc' := hok u c' hrun
            have hnext := ih hcalls.2 hes.2 hc' fun hne => absurd hc'.config hne
            exact ⟨fun hr => ⟨hnone, hnext.mp hr.2⟩, fun hall => ⟨hagrees, hnext.mpr hall.2⟩⟩
        | error e c' =>
            obtain ⟨hc', hmis⟩ := herr e c' hrun
            have hnext := ih hcalls.2 hes.2 hc' fun hne => absurd hc'.config hne
            exact ⟨fun hr => ⟨hnone, hnext.mp hr.2.2⟩,
              fun hall => ⟨hagrees, hmis rfl, hnext.mpr hall.2⟩⟩
      · rw [if_neg hnone] at hok herr
        refine iff_of_false ?_ fun hall => hnone hall.1
        rintro ⟨-, hr⟩
        cases hrun : a.exec c with
        | ok u c' =>
            rw [hrun] at hr
            exact (hok u c' hrun).not_agrees hd hr.agrees
        | error e c' =>
            rw [hrun] at hr
            exact (herr e c' hrun).1.not_agrees hd hr.2.agrees

theorem buffer_ne_nil_of_flush_error {e : EngineError} (herr : flushBuffer c = .error e c') :
    c.buffer ≠ [] := by
  intro hnil
  unfold flushBuffer at herr
  rcases bind_error.mp herr with herr | ⟨c₁, c₂, hget, herr⟩
  · cases herr
  obtain ⟨rfl, rfl⟩ := get_ok.mp hget
  rw [hnil] at herr
  cases herr

/-- A flush fails for the mismatch exactly when something is buffered: at the
first record. -/
theorem Unindexed.flush_fails_iff (h : Unindexed dim c) :
    (∃ c', flushBuffer c = .error (.index (.dimensionMismatch 0 dim)) c') ↔ c.buffer ≠ [] := by
  refine ⟨?_, ?_⟩
  · rintro ⟨c', herr⟩
    exact buffer_ne_nil_of_flush_error herr
  · intro hne
    obtain ⟨r, batch, hbuf⟩ := List.exists_cons_of_ne_nil hne
    obtain ⟨e, he, hlen, hd⟩ := h.buffer r (hbuf ▸ List.mem_cons_self)
    have hadd : ∀ x : UsearchIndex, x.dimension = 0 →
        x.add r.id e = .error (.dimensionMismatch 0 dim) x := by
      intro x hx
      unfold UsearchIndex.add
      rw [hx, hlen, if_pos hd]
    have hindex : ∀ c₁ : Collection, c₁.index.dimension = 0 →
        indexAdd r.id e c₁ = .error (.index (.dimensionMismatch 0 dim)) c₁ := by
      intro c₁ hc₁
      unfold indexAdd
      rw [hadd _ hc₁]
    have hrecord : ∃ c', flushRecord r 0 { c with buffer := [] } =
        .error (.index (.dimensionMismatch 0 dim)) c' := by
      unfold flushRecord
      rw [he]
      by_cases hin : c.index.contains r.id = true
      · refine ⟨{ c with buffer := [], index := c.index.delete r.id }, ?_⟩
        refine bind_error.mpr (Or.inr ⟨(), _, modify_ok.mpr (if_pos hin).symm, ?_⟩)
        exact bind_error.mpr (Or.inl (hindex _
          ((c.index.delete_dimension r.id).1.trans h.index)))
      · refine ⟨{ c with buffer := [] }, ?_⟩
        refine bind_error.mpr (Or.inr ⟨(), _, modify_ok.mpr (if_neg hin).symm, ?_⟩)
        exact bind_error.mpr (Or.inl (hindex _ h.index))
    obtain ⟨c', hrecord⟩ := hrecord
    refine ⟨c', bind_error.mpr (Or.inr ⟨c, c, rfl, bind_error.mpr (Or.inr ⟨(), _, rfl, ?_⟩)⟩)⟩
    rw [hbuf]
    exact bind_error.mpr (Or.inl (bind_error.mpr (Or.inl hrecord)))

end Unindexed

def session : List Call → Collection → Collection
  | [], c => c
  | a :: calls, c =>
      match a.exec c with
      | .ok _ c' => session calls c'
      | .error _ c' => session calls c'

theorem unindexed_session {d : ℕ} (hd : d ≠ 0) {calls : List Call}
    (hcalls : ∀ a ∈ calls, a.isWriteOrFlush)
    (hes : ∀ a ∈ calls, ∀ e ∈ a.embeddings, e.length = d) {dim : ℕ} {c : Collection}
    (hdim : dim = 0 ∨ dim = d) (h : Unindexed dim c) :
    ∃ dim, (dim = 0 ∨ dim = d) ∧ Unindexed dim (session calls c) := by
  induction calls generalizing c dim with
  | nil => exact ⟨dim, hdim, h⟩
  | cons a calls ih =>
      simp only [List.forall_mem_cons] at hcalls hes
      obtain ⟨hok, herr⟩ := exec_ends hcalls.1 hd hdim hes.1 h
      have hdim' : (if a.embeddings = [] then dim else d) = 0 ∨
          (if a.embeddings = [] then dim else d) = d := by
        split
        · exact hdim
        · exact Or.inr rfl
      unfold session
      cases hrun : a.exec c with
      | ok u c' => exact ih hcalls.2 hes.2 hdim' (hok u c' hrun)
      | error e c' => exact ih hcalls.2 hes.2 hdim' (herr e c' hrun).1

theorem session_flush_fails_iff {config : CollectionConfig} {d : ℕ}
    (hzero : config.dimension = 0) (hd : d ≠ 0) {calls : List Call}
    (hcalls : ∀ a ∈ calls, a.isWriteOrFlush)
    (hes : ∀ a ∈ calls, ∀ e ∈ a.embeddings, e.length = d) :
    (∃ dim c', flushBuffer (session calls (Collection.fresh config)) =
        .error (.index (.dimensionMismatch 0 dim)) c') ↔
      (session calls (Collection.fresh config)).buffer ≠ [] := by
  obtain ⟨dim, -, h⟩ := unindexed_session hd hcalls hes (Or.inl rfl) (unindexed_fresh hzero)
  refine ⟨?_, fun hne => ⟨dim, h.flush_fails_iff.mpr hne⟩⟩
  rintro ⟨dim', c', herr⟩
  exact buffer_ne_nil_of_flush_error herr

/-- **An inferred dimension reaches the index in no session**: the index has the
dimension of the collection, and no call fails for a mismatch, exactly as long as
no put carried a vector. -/
theorem inferred_dimension_reaches_iff {config : CollectionConfig} {d : ℕ}
    (hzero : config.dimension = 0) (hd : d ≠ 0) {calls : List Call}
    (hcalls : ∀ a ∈ calls, a.isWriteOrFlush)
    (hes : ∀ a ∈ calls, ∀ e ∈ a.embeddings, e.length = d) :
    DimensionReaches calls (Collection.fresh config) ↔ ∀ a ∈ calls, a.embeddings = [] :=
  dimensionReaches_iff hd hcalls hes (unindexed_fresh hzero)

theorem inferred_dimension_reaches_iff_demo :
    DimensionReaches [.add true ["a"] [zero] none none, .flush] (Collection.fresh undimensioned) ↔
      ∀ a ∈ [Call.add true ["a"] [zero] none none, .flush], a.embeddings = [] :=
  inferred_dimension_reaches_iff rfl (Nat.succ_ne_zero 0) (by simp [Call.isWriteOrFlush])
    (by simp [Call.embeddings, zero])

/-- One vector is added; the flush then fails, and has emptied the buffer. -/
theorem inferred_dimension_lost :
    ∃ c c', add true ["a"] [zero] none none (Collection.fresh undimensioned) = .ok () c ∧
      c.config.dimension = 1 ∧ c.index.dimension = 0 ∧
      flushBuffer c = .error (.index (.dimensionMismatch 0 1)) c' ∧ c'.buffer = [] :=
  ⟨_, _, rfl, rfl, rfl, rfl, rfl⟩

end Rekha
