import Rekha.Engine.Spec

/-!
# One walk through the methods

What a method keeps, and how it can fail, follows from what its single updates
keep. Each method is walked through here once, for any invariant `I` of the
collection and any set `E` of errors; the developments below say only what the
updates do to theirs.
-/

namespace Rekha

namespace Collection

open Outcome

section Methods

variable {I : Collection → Prop} {E : EngineError → Prop}

/-! ## Writes -/

theorem keeps_appendOps (hE : ∀ e, E (.wal e)) : ∀ {ops : List Operation},
    (∀ op ∈ ops, ∀ c w r, I c → c.wal.append op = .ok (w, r) → I { c with wal := w }) →
    Keeps I E (appendOps ops)
  | [], _ => Keeps.pure []
  | op :: ops, hI => by
      obtain ⟨hop, hops⟩ := List.forall_mem_cons.mp hI
      intro c hc
      have hone : Triple (fun c' => c' = c) (appendOps (op :: ops)) I
          (fun e c' => I c' ∧ E e) := by
        unfold appendOps
        apply Triple.get_bind
        intro c' hc'
        rw [show c' = c from hc']
        cases happ : c.wal.append op with
        | error e => exact Triple.throw fun c' hc' => hc' ▸ ⟨hc, hE e⟩
        | ok p =>
            obtain ⟨w, r⟩ := p
            refine Triple.bind (Triple.modify fun c' hc' => ?_) fun _ =>
              Keeps.bind (keeps_appendOps hE hops) fun rs => Keeps.pure _
            rw [show c' = c from hc']
            exact hop c w r hc happ
      exact hone c rfl

theorem keeps_writeOps {ops : List Operation} (happ : Keeps I E (appendOps ops))
    (happly : ∀ (c : Collection) (w : Wal), w.lastSeq = c.wal.lastSeq + ops.length →
      (∀ op ∈ ops, op.recordLen ≤ 2 ^ 32 - 1) → I { c with wal := w } →
      I ((numbered c.wal.lastSeq ops).foldl applyRecord { c with wal := w })) :
    Keeps I E (writeOps ops) := by
  intro c hc
  unfold writeOps
  refine ⟨?_, ?_⟩
  · intro u c' hok
    obtain ⟨appended, c₁, hlog, hok⟩ := bind_ok.mp hok
    have hlogged := (happ c hc).1 _ _ hlog
    have hfits := recordLen_of_appendOps hlog
    obtain ⟨rfl, w, rfl, -, hlast⟩ := appendOps_ok hlog
    rw [modify_ok.mp hok]
    exact happly c w hlast hfits hlogged
  · intro e c' herr
    rcases bind_error.mp herr with herr | ⟨appended, c₁, -, herr⟩
    · exact (happ c hc).2 e c' herr
    · cases herr

/-! ## The index -/

theorem add_dimension (x : UsearchIndex) (id : Id) (e : Embedding) :
    (∀ u x', x.add id e = .ok u x' → x'.dimension = x.dimension) ∧
      ∀ err x', x.add id e = .error err x' → x'.dimension = x.dimension := by
  unfold UsearchIndex.add
  refine ⟨?_, ?_⟩
  · intro u x' h
    split at h
    · cases h
    · split at h
      · cases h
      · dsimp only at h
        split at h
        · cases h
        · cases h
          rfl
  · intro err x' h
    split at h
    · cases h
      rfl
    · split at h
      · cases h
        rfl
      · dsimp only at h
        split at h
        · cases h
          rfl
        · cases h

theorem keeps_indexAdd (hI : ∀ c x, x.dimension = c.index.dimension → I c →
    I { c with index := x }) (hE : ∀ e, E (.index e)) (id : Id) (e : Embedding) :
    Keeps I E (indexAdd id e) := by
  intro c hc
  unfold indexAdd
  cases hx : c.index.add id e with
  | ok u x =>
      refine ⟨?_, ?_⟩
      · intro a c' h
        cases h
        exact hI c x ((add_dimension c.index id e).1 u x hx) hc
      · intro e' c' h
        cases h
  | error err x =>
      refine ⟨?_, ?_⟩
      · intro a c' h
        cases h
      · intro e' c' h
        cases h
        exact ⟨hI c x ((add_dimension c.index id e).2 err x hx) hc, hE err⟩

theorem keeps_flushRecords (hI : ∀ c x, x.dimension = c.index.dimension → I c →
    I { c with index := x }) : ∀ (batch : List Record) (m : ℕ),
    (batch ≠ [] → ∀ e, E (.index e)) → Keeps I E (flushRecords batch m)
  | [], m, _ => Keeps.pure m
  | r :: batch, m, hE => by
      have hE := hE (List.cons_ne_nil r batch)
      unfold flushRecords
      refine Keeps.bind ?_ fun m => keeps_flushRecords hI batch m fun _ => hE
      unfold flushRecord
      cases r.embedding with
      | none => exact Keeps.pure m
      | some e =>
          refine Keeps.bind (Keeps.modify ?_) fun _ =>
            Keeps.bind (keeps_indexAdd hI hE r.id e) fun _ => Keeps.pure _
          intro c hc
          split
          · exact hI c _ (c.index.delete_dimension r.id).1 hc
          · exact hc

theorem keeps_flushBuffer (hI : ∀ c x, x.dimension = c.index.dimension → I c →
    I { c with index := x }) (hclear : ∀ c, I c → I { c with buffer := [] })
    (hflushed : ∀ c m, I c → I { c with flushedSeq := max c.flushedSeq m })
    (hE : ∀ c, I c → c.buffer ≠ [] → ∀ e, E (.index e)) : Keeps I E flushBuffer := by
  apply Keeps.get_bind
  intro c hc
  exact Keeps.bind (Keeps.modify hclear) fun _ =>
    Keeps.bind (keeps_flushRecords hI c.buffer 0 (hE c hc)) fun m =>
      Keeps.modify fun c' => hflushed c' m

theorem keeps_flushIfNeeded (hflush : Keeps I E flushBuffer) : Keeps I E flushIfNeeded := by
  apply Keeps.get_bind
  intro c _
  split
  · exact hflush
  · exact Keeps.pure ()

theorem keeps_indexAddAll (hI : ∀ c x, I c → I { c with index := x })
    (hE : ∀ e, E (.index e)) : ∀ vectors : List (Id × Embedding),
    Keeps I E (indexAddAll vectors)
  | [] => Keeps.pure ()
  | (id, e) :: rest =>
      Keeps.bind (keeps_indexAdd (fun c x _ => hI c x) hE id e) fun _ =>
        keeps_indexAddAll hI hE rest

theorem keeps_rebuildIndex (hI : ∀ c x, I c → I { c with index := x })
    (hE : ∀ e, E (.index e)) : Keeps I E rebuildIndex :=
  Keeps.bind (Keeps.modify fun c hc => hI c _ hc) fun _ =>
    Keeps.get_bind fun _ _ => keeps_indexAddAll hI hE _

/-! ## Checkpoints -/

theorem keeps_checkpoint (hI : ∀ c c' : Collection, c'.config = c.config →
    c'.index = c.index → c'.buffer = c.buffer → I c → I c')
    (hE : E (.panicked "dimension mismatch")) : Keeps I E Collection.checkpoint := by
  have hmodify : ∀ {f : Collection → Collection}, (∀ c, (f c).config = c.config) →
      (∀ c, (f c).index = c.index) → (∀ c, (f c).buffer = c.buffer) →
      Keeps I E (modifyThe Collection f) := fun hconfig hindex hbuffer =>
    Keeps.modify fun c hc => hI c _ (hconfig c) (hindex c) (hbuffer c) hc
  have hdurably : ∀ s, Keeps I E (durably s) := fun s =>
    hmodify (fun _ => rfl) (fun _ => rfl) fun _ => rfl
  have hindex : Keeps I E saveIndex := by
    apply Keeps.get_bind
    intro c _
    split
    · exact Keeps.bind (hdurably _) fun _ => hdurably _
    · exact Keeps.bind (hdurably _) fun _ => hdurably _
  have hsegment : Keeps I E writeSegment := by
    apply Keeps.get_bind
    intro c _
    split
    · exact Keeps.bind (hdurably _) fun _ => Keeps.bind (hdurably _) fun _ =>
        hmodify (fun _ => rfl) (fun _ => rfl) fun _ => rfl
    · split
      · exact Keeps.throw hE
      · exact Keeps.bind (hdurably _) fun _ => Keeps.bind (hdurably _) fun _ =>
          hmodify (fun _ => rfl) (fun _ => rfl) fun _ => rfl
  apply Keeps.get_bind
  intro c _
  split
  · exact Keeps.pure ()
  · exact Keeps.bind (hdurably _) fun _ => Keeps.bind hindex fun _ =>
      Keeps.bind (hdurably _) fun _ => Keeps.bind hsegment fun _ =>
      Keeps.bind (hmodify (fun _ => rfl) (fun _ => rfl) fun _ => rfl) fun _ =>
      Keeps.bind (hdurably _) fun _ =>
      Keeps.bind (hmodify (fun _ => rfl) (fun _ => rfl) fun _ => rfl) fun _ =>
      Keeps.bind (hmodify (fun _ => rfl) (fun _ => rfl) fun _ => rfl) fun _ =>
      hmodify (fun _ => rfl) (fun _ => rfl) fun _ => rfl

theorem keeps_autoCheckpoint (hcheckpoint : Keeps I E Collection.checkpoint) :
    Keeps I E autoCheckpoint := by
  apply Keeps.get_bind
  intro c _
  split
  · exact Keeps.pure ()
  · split
    · exact hcheckpoint
    · exact Keeps.pure ()

/-! ## The dimension -/

theorem keeps_persistDimension (persisted : Bool) {inferred : Option ℕ}
    (hI : ∀ d, inferred = some d → ∀ c, I c →
      I { c with catalog := { c.catalog with dimension := d } }) :
    Keeps I E (persistDimension persisted inferred) := by
  unfold persistDimension
  cases inferred with
  | none => exact Keeps.pure ()
  | some d =>
      cases persisted with
      | true => exact Keeps.modify (hI d rfl)
      | false => exact Keeps.pure ()

end Methods

/-! ## Errors -/

section Errors

variable {E : EngineError → Prop}

theorem fails_writeOps (hwal : ∀ e, E (.wal e)) (ops : List Operation) :
    Keeps (fun _ => True) E (writeOps ops) :=
  keeps_writeOps (keeps_appendOps hwal fun _ _ _ _ _ _ _ => trivial) fun _ _ _ _ _ => trivial

theorem fails_flushIfNeeded (hindex : ∀ e, E (.index e)) :
    Keeps (fun _ => True) E flushIfNeeded :=
  keeps_flushIfNeeded (keeps_flushBuffer (fun _ _ _ _ => trivial) (fun _ _ => trivial)
    (fun _ _ _ => trivial) fun _ _ _ => hindex)

theorem fails_autoCheckpoint (hpanicked : ∀ msg, E (.panicked msg)) :
    Keeps (fun _ => True) E autoCheckpoint :=
  keeps_autoCheckpoint (keeps_checkpoint (fun _ _ _ _ _ _ => trivial) (hpanicked _))

theorem fails_written (hwal : ∀ e, E (.wal e)) (hpanicked : ∀ msg, E (.panicked msg))
    (ops : List Operation) : Keeps (fun _ => True) E (do writeOps ops; autoCheckpoint) :=
  Keeps.bind (fails_writeOps hwal ops) fun _ => fails_autoCheckpoint hpanicked

end Errors

end Collection

end Rekha
