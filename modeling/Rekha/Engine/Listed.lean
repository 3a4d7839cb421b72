import Rekha.Engine.History
import Rekha.Engine.Offsets

/-!
# Every live record has an offset

A put allocates an offset and an update keeps the one there is, but an update
of an absent id may create a record without one. No accepted batch does that;
the replay of a restart does, when the snapshot is younger than the log tail and
an id was updated and then deleted in between. Such a record is always settled
before the replay ends, so every live record of a reachable state is visible to
the postings (`Reachable.derived`).
-/

namespace Rekha

open Trace LastWrite

namespace Collection

/-! ## Updates of absent ids -/

/-- A live record without an offset is put or deleted again in `rest`. -/
def Covered (rest : List WalRecord) (c : Collection) : Prop :=
  ∀ id, (c.records.lookup id).isSome → (c.offsets.lookup id).isSome ∨
    ∃ r ∈ rest, r.op.id = id ∧ ¬ r.op.isUpdate

/-- An update of an absent id is followed by a put or a delete of it. -/
def Settling : List WalRecord → Collection → Prop
  | [], _ => True
  | r :: rest, c =>
      (r.op.isUpdate → (c.records.lookup r.op.id).isSome ∨
        ∃ r' ∈ rest, r'.op.id = r.op.id ∧ ¬ r'.op.isUpdate) ∧
      Settling rest (c.applyRecord r)

theorem lookup_offsetFor (c : Collection) (id id' : Id) :
    (c.offsetFor id).2.offsets.lookup id' =
      if id' = id then some (c.offsetFor id).1 else c.offsets.lookup id' := by
  rw [offsetFor]
  cases hoff : c.offsets.lookup id with
  | none => exact FinMap.lookup_insert_ite _ _ _ _
  | some o =>
      by_cases he : id' = id
      · subst he
        simp [hoff]
      · simp [he]

section Listed

variable {c c' : Collection} {r : WalRecord} {rest : List WalRecord}

theorem lookup_offsets_of_ne {op : Operation} (seq : ℕ) {id : Id} (hid : id ≠ op.id) :
    (c.applyOperation op seq).offsets.lookup id = c.offsets.lookup id := by
  cases op with
  | add key e md doc => exact (c.lookup_offsetFor key id).trans (if_neg hid)
  | upsert key e md doc => exact (c.lookup_offsetFor key id).trans (if_neg hid)
  | update key md doc =>
      simp only [applyOperation, applyUpdate]
      split
      · rfl
      · exact (lookup_offsetFor _ key id).trans (if_neg hid)
  | delete key =>
      simp only [applyOperation, applyDelete]
      cases c.offsets.lookup key with
      | none => rfl
      | some o => exact (FinMap.lookup_erase_ite _ _ _).trans (if_neg hid)

/-- A put gives its id an offset, an update keeps the one it has, a delete leaves
no record to need one. -/
theorem listed_self {op : Operation} {seq : ℕ}
    (hlive : ((c.applyOperation op seq).records.lookup op.id).isSome)
    (hold : op.isUpdate → (c.offsets.lookup op.id).isSome) :
    ((c.applyOperation op seq).offsets.lookup op.id).isSome := by
  cases op with
  | add key e md doc =>
      show ((c.offsetFor key).2.offsets.lookup key).isSome
      rw [lookup_offsetFor, if_pos rfl]
      rfl
  | upsert key e md doc =>
      show ((c.offsetFor key).2.offsets.lookup key).isSome
      rw [lookup_offsetFor, if_pos rfl]
      rfl
  | update key md doc =>
      simp only [applyOperation, applyUpdate]
      split
      · exact hold trivial
      · show ((Collection.offsetFor _ key).2.offsets.lookup key).isSome
        rw [lookup_offsetFor, if_pos rfl]
        rfl
  | delete key =>
      rw [lookup_applyOperation, if_pos rfl] at hlive
      exact absurd hlive (by simp [Operation.recordAfter])

theorem Covered.step (h : Covered (r :: rest) c)
    (hs : r.op.isUpdate → (c.records.lookup r.op.id).isSome ∨
      ∃ r' ∈ rest, r'.op.id = r.op.id ∧ ¬ r'.op.isUpdate) :
    Covered rest (c.applyRecord r) := by
  intro id hlive
  by_cases hid : id = r.op.id
  · subst hid
    by_cases hu : r.op.isUpdate
    · rcases hs hu with hold | hlater
      · rcases h r.op.id hold with hoff | ⟨r', hr', hid', hput⟩
        · exact Or.inl (listed_self hlive fun _ => hoff)
        · rcases List.mem_cons.mp hr' with rfl | hr'
          · exact absurd hu hput
          · exact Or.inr ⟨r', hr', hid', hput⟩
      · exact Or.inr hlater
    · exact Or.inl (listed_self hlive fun hupd => absurd hupd hu)
  · rw [applyRecord, lookup_applyOperation, if_neg hid] at hlive
    rw [applyRecord, lookup_offsets_of_ne _ hid]
    rcases h id hlive with hoff | ⟨r', hr', hid', hput⟩
    · exact Or.inl hoff
    · rcases List.mem_cons.mp hr' with rfl | hr'
      · exact absurd hid'.symm hid
      · exact Or.inr ⟨r', hr', hid', hput⟩

theorem Covered.replay : ∀ {rs : List WalRecord} {c : Collection}, Covered rs c →
    Settling rs c → Listed (rs.foldl applyRecord c)
  | [], _, h, _ => fun id hlive => (h id hlive).resolve_right fun ⟨_, hr, _⟩ =>
      absurd hr List.not_mem_nil
  | _ :: _, _, h, hs => (h.step hs.1).replay hs.2

theorem Listed.covered (h : Listed c) (rest : List WalRecord) : Covered rest c :=
  fun id hlive => Or.inl (h id hlive)

theorem settling_of_puts : ∀ {rs : List WalRecord} {c : Collection},
    (∀ r ∈ rs, ¬ r.op.isUpdate) → Settling rs c
  | [], _, _ => trivial
  | r :: _, _, h => ⟨fun hu => absurd hu (h r List.mem_cons_self),
      settling_of_puts fun r' hr' => h r' (List.mem_cons_of_mem _ hr')⟩

theorem settling_of_updates : ∀ {rs : List WalRecord} {c : Collection},
    (∀ r ∈ rs, r.op.isUpdate ∧ (c.records.lookup r.op.id).isSome) → Settling rs c
  | [], _, _ => trivial
  | r :: rs, c, h => by
      have hr := h r List.mem_cons_self
      refine ⟨fun _ => Or.inl hr.2, settling_of_updates fun r' hr' => ?_⟩
      obtain ⟨hu, hlive⟩ := h r' (List.mem_cons_of_mem _ hr')
      refine ⟨hu, ?_⟩
      have hsome := @isSome_overwrite_update c.content r r'.op.id hr.1
        (by rwa [Collection.content, contentOf, Option.isSome_map])
      rwa [← content_applyRecord, Collection.content, contentOf, Option.isSome_map] at hsome

theorem Accepts.settling {ops : List Operation} (h : c.Accepts ops) (n : ℕ) (w : Wal) :
    Settling (numbered n ops) { c with wal := w } := by
  rcases h.live with hput | hupd
  · exact settling_of_puts fun r hr => hput r.op (op_mem_of_mem_numbered hr)
  · exact settling_of_updates fun r hr => hupd r.op (op_mem_of_mem_numbered hr)

theorem settling_of_split : ∀ {rs : List WalRecord} {c : Collection},
    (∀ l₁ r l₂, rs = l₁ ++ r :: l₂ → r.op.isUpdate →
      ((l₁.foldl applyRecord c).records.lookup r.op.id).isSome ∨
        ∃ r' ∈ l₂, r'.op.id = r.op.id ∧ ¬ r'.op.isUpdate) → Settling rs c
  | [], _, _ => trivial
  | r :: rs, c, h => by
      refine ⟨h [] r rs rfl, settling_of_split fun l₁ r' l₂ hrs => ?_⟩
      exact h (r :: l₁) r' l₂ (by rw [hrs, List.cons_append])

/-! ## Liveness along a replay -/

/-- What a log record does to the liveness of an id it finds accepted. -/
def liveWrite (r : WalRecord) (id : Id) : Option Bool :=
  if id = r.op.id then
    match r.op with
    | .add .. | .upsert .. => some true
    | .update .. => none
    | .delete _ => some false
  else none

theorem isSome_foldContent (h : List Operation) (id : Id) :
    (foldContent h id).isSome =
      (lastWrite (fun r => liveWrite r id) (numbered 0 h)).getD false := by
  refine foldl_register (φ := fun (s : Id → Option Content) id => (s id).isSome)
    (fun s r => ?_) id (numbered 0 h) fun _ => none
  funext id
  simp only [Content.step, overwrite, liveWrite]
  cases hop : r.op with
  | add key e md doc => by_cases he : id = key <;> simp [Operation.id, he]
  | upsert key e md doc => by_cases he : id = key <;> simp [Operation.id, he]
  | delete key => by_cases he : id = key <;> simp [Operation.id, he]
  | update key md doc => by_cases he : id = key <;> simp [Operation.id, he]

theorem liveWrite_eq_none_iff {id : Id} :
    liveWrite r id = none ↔ (r.op.id = id → r.op.isUpdate) := by
  rw [liveWrite]
  by_cases he : id = r.op.id
  · rw [if_pos he]
    cases hop : r.op <;> simp [Operation.isUpdate, he, hop]
  · rw [if_neg he]
    exact ⟨fun _ h => absurd h.symm he, fun _ => rfl⟩

theorem lastWrite_content_of_updates {id : Id} {l : List WalRecord}
    (h : lastWrite (fun r => liveWrite r id) l = none) :
    lastWrite (fun r => contentWrite r id) l = none ∨
      ∃ x, lastWrite (fun r => contentWrite r id) l = some (some x) := by
  cases hw : lastWrite (fun r => contentWrite r id) l with
  | none => exact Or.inl rfl
  | some v =>
      obtain ⟨r, hr, hv⟩ := exists_of_lastWrite hw
      have hlive := lastWrite_eq_none_iff.mp h r hr
      simp only [contentWrite] at hv
      simp only [liveWrite] at hlive
      split at hv
      · rename_i he
        rw [if_pos he] at hlive
        cases hop : r.op with
        | update key md doc =>
            rw [hop] at hv
            exact Or.inr ⟨_, by rw [← hv]⟩
        | _ =>
            rw [hop] at hlive
            exact absurd hlive (by simp)
      · exact absurd hv (by simp)

theorem lastWrite_content_of_live {id : Id} : ∀ {l : List WalRecord},
    lastWrite (fun r => liveWrite r id) l = some true →
      ∃ x, lastWrite (fun r => contentWrite r id) l = some (some x)
  | [], h => absurd h (by simp)
  | r :: l, h => by
      rw [lastWrite_cons, Option.or_eq_some_iff] at h
      rw [lastWrite_cons]
      rcases h with h | ⟨hnone, hr⟩
      · obtain ⟨x, hx⟩ := lastWrite_content_of_live h
        exact ⟨x, by rw [hx, Option.some_or]⟩
      · rcases lastWrite_content_of_updates hnone with hw | ⟨x, hx⟩
        · simp only [liveWrite] at hr
          split at hr
          · rename_i he
            rw [hw, Option.none_or, contentWrite, if_pos he]
            cases hop : r.op with
            | add key e md doc => exact ⟨_, rfl⟩
            | upsert key e md doc => exact ⟨_, rfl⟩
            | update key md doc =>
                rw [hop] at hr
                exact absurd hr (by simp)
            | delete key =>
                rw [hop] at hr
                exact absurd hr (by simp)
          · exact absurd hr (by simp)
        · exact ⟨x, by rw [hx, Option.some_or]⟩

theorem isSome_registers_of_update {h : List Operation} {l₁ l₂ : List WalRecord}
    (hall : numbered 0 h = l₁ ++ r :: l₂)
    (hquiet : lastWrite (fun x => liveWrite x r.op.id) (r :: l₂) = none) :
    (registers h r.op.id).isSome := by
  have hwrite : (lastWrite (fun x => contentWrite x r.op.id) (r :: l₂)).isSome := by
    rw [lastWrite_cons]
    have hr : (contentWrite r r.op.id).isSome := by
      rw [contentWrite, if_pos rfl]
      cases r.op <;> rfl
    cases lastWrite (fun x => contentWrite x r.op.id) l₂ with
    | none => exact hr
    | some v => rfl
  rw [registers, foldl_overwrite, hall, lastWrite_append]
  rcases lastWrite_content_of_updates hquiet with hnone | ⟨x, hx⟩
  · rw [hnone] at hwrite
    exact absurd hwrite (by simp)
  · rw [hx]
    rfl

theorem live_in_front {h : List Operation} {id : Id} {l₁ l₂ : List WalRecord}
    (hall : numbered 0 h = l₁ ++ l₂) (hquiet : lastWrite (fun x => liveWrite x id) l₂ = none)
    (hend : (foldContent h id).isSome) : lastWrite (fun x => liveWrite x id) l₁ = some true := by
  rw [isSome_foldContent, hall, lastWrite_append, hquiet, Option.none_or] at hend
  cases hlw : lastWrite (fun x => liveWrite x id) l₁ with
  | none =>
      rw [hlw] at hend
      exact absurd hend (by simp)
  | some v =>
      rw [hlw] at hend
      exact congrArg some hend

theorem isSome_registers_of_live {h : List Operation} {id : Id}
    (hlive : lastWrite (fun x => liveWrite x id) (numbered 0 h) = some true) :
    (registers h id).isSome := by
  obtain ⟨x, hx⟩ := lastWrite_content_of_live hlive
  rw [registers, foldl_overwrite, hx]
  rfl

/-- **The replay of a restart settles.** An update in the tail finds its id live,
or the id was deleted later in the tail, before the snapshot. -/
theorem Resumes.settling {h : List Operation} {p : ℕ} {b : Collection}
    (hacc : foldContent h = registers h) (hp : p ≤ h.length) (hb : Resumes h p b) :
    Settling (numbered p (h.drop p)) b := by
  obtain ⟨s, hps, hs, hcontent⟩ := hb.content
  apply settling_of_split
  intro B r D hsplit hupd
  by_cases hlater : ∃ r' ∈ D, r'.op.id = r.op.id ∧ ¬ r'.op.isUpdate
  · exact Or.inr hlater
  · left
    let live := fun x => liveWrite x r.op.id
    have hall : numbered 0 h = (numbered 0 (h.take p) ++ B) ++ r :: D := by
      have := numbered_split h 0 hp
      rwa [Nat.zero_add, hsplit, ← List.append_assoc] at this
    have htake : ∃ T₁ T₂, B ++ r :: D = T₁ ++ T₂ ∧
        numbered 0 (h.take s) = numbered 0 (h.take p) ++ T₁ := by
      have h₁ := numbered_split (h.take s) 0 (k := p) (by rw [List.length_take]; omega)
      have h₂ := numbered_split (h.drop p) p (k := s - p) (by rw [List.length_drop]; omega)
      rw [List.take_take, Nat.min_eq_left hps, Nat.zero_add] at h₁
      rw [← List.drop_take, hsplit] at h₂
      exact ⟨_, _, h₂, h₁⟩
    have hquiet : lastWrite live (r :: D) = none := by
      refine lastWrite_eq_none_iff.mpr fun r' hr' => liveWrite_eq_none_iff.mpr fun hid => ?_
      rcases List.mem_cons.mp hr' with rfl | hr'
      · exact hupd
      · by_contra hput
        exact hlater ⟨r', hr', hid, hput⟩
    have hbefore : lastWrite live (numbered 0 (h.take p) ++ B) = some true :=
      live_in_front hall hquiet (hacc ▸ isSome_registers_of_update hall hquiet)
    have hgoal : ((B.foldl applyRecord b).content r.op.id).isSome := by
      rw [content_foldl, foldl_overwrite, hcontent]
      rw [lastWrite_append, Option.or_eq_some_iff] at hbefore
      rcases hbefore with hB | ⟨hB, hA⟩
      · obtain ⟨x, hx⟩ := lastWrite_content_of_live hB
        rw [hx]
        rfl
      · rcases lastWrite_content_of_updates hB with hnone | ⟨x, hx⟩
        · obtain ⟨T₁, T₂, hT, hS⟩ := htake
          have hT₁ : lastWrite live T₁ = none := by
            have hboth : lastWrite live (B ++ r :: D) = none := by
              rw [lastWrite_append, hquiet, Option.none_or]
              exact hB
            rw [hT, lastWrite_append, Option.or_eq_none_iff] at hboth
            exact hboth.2
          have hlive : lastWrite live (numbered 0 (h.take s)) = some true := by
            rw [hS, lastWrite_append, hT₁, Option.none_or]
            exact hA
          rw [hnone, Option.getD_none]
          exact isSome_registers_of_live hlive
        · rw [hx]
          rfl
    rwa [Collection.content, contentOf, Option.isSome_map] at hgoal

/-! ## Along every run -/

/-- **Offsets, postings and records stay in step**, in memory and on disk. -/
structure Derived (c : Collection) : Prop where
  offsets : Offsets c
  listed : Listed c
  saved : ∀ records, c.dir.recordsBin = some records →
    ∀ id r, records.lookup id = some r → r.id = id

theorem derived_fresh (config : CollectionConfig) : Derived (fresh config) where
  offsets := by
    refine ⟨?_, ?_, ?_, ?_, ?_, represents_new⟩
    · intro id o hl
      exact absurd hl (by simp [fresh, new])
    · intro o id hl
      exact absurd hl (by simp [fresh, new])
    · intro o id hl
      exact absurd hl (by simp [fresh, new])
    · intro id o hl
      exact absurd hl (by simp [fresh, new])
    · intro id r hl
      exact absurd hl (by simp [fresh, new])
  listed := fun id hl => absurd hl (by simp [fresh, new])
  saved := fun records hrec => absurd hrec (by simp [fresh, new, freshDisk])

theorem Derived.of_eq (h : Derived c) (hoff : c'.offsets = c.offsets)
    (hids : c'.idByOffset = c.idByOffset) (hnext : c'.nextOffset = c.nextOffset)
    (hpost : c'.postings = c.postings) (hrec : c'.records = c.records)
    (hdir : c'.dir = c.dir) : Derived c' where
  offsets := h.offsets.of_eq hoff hids hnext hpost hrec
  listed := fun id hl => by
    rw [hoff]
    exact h.listed id (hrec ▸ hl)
  saved := by
    rw [hdir]
    exact h.saved

theorem Derived.applied {ops : List Operation} (h : Derived c) (hacc : c.Accepts ops) (n : ℕ)
    (w : Wal) : Derived ((numbered n ops).foldl applyRecord { c with wal := w }) := by
  have hlogged : Derived { c with wal := w } := h.of_eq rfl rfl rfl rfl rfl rfl
  refine ⟨Offsets.replay _ hlogged.offsets,
    (hlogged.listed.covered _).replay (hacc.settling n w), ?_⟩
  have hdir := congrArg Settled.dir
    (foldl_applyRecord_settled (numbered n ops) { c with wal := w })
  simp only [settled] at hdir
  rw [hdir]
  exact h.saved

theorem Derived.commit {ops : List Operation} (h : Derived c) (hacc : c.Accepts ops)
    (hw : writeOps ops c = .ok () c') : Derived c' := by
  obtain ⟨w, -, -, rfl⟩ := writeOps_ok hw
  exact h.applied hacc _ w

theorem Derived.flush (h : Derived c) (hf : flushBuffer c = .ok () c') : Derived c' := by
  obtain ⟨x, -, rfl⟩ := flushBuffer_ok hf
  exact h.of_eq rfl rfl rfl rfl rfl rfl

theorem Derived.checkpoint (h : Derived c) (hc : Collection.checkpoint c = .ok () c') :
    Derived c' := by
  rcases checkpoint_ok hc with ⟨-, rfl⟩ | ⟨-, files, -, rfl⟩
  · exact h
  · refine ⟨h.offsets.strip c.flushedSeq rfl rfl rfl rfl rfl, fun id hl => ?_, ?_⟩
    · refine h.listed id ?_
      have hstrip := lookup_stripRecords c.flushedSeq c.records id
      show (c.records.lookup id).isSome
      change ((stripRecords c.flushedSeq c.records).lookup id).isSome at hl
      rwa [hstrip, Option.isSome_map] at hl
    · intro records hrec
      obtain rfl := Option.some.inj hrec
      exact h.offsets.keyed

theorem Derived.restored {h : List Operation} (hd : Derived c) (hl : Logged h c)
    (config : CollectionConfig) (order : HashOrder) :
    Derived (restored config c.disk order) := by
  have hp : c.lastCheckpointSeq ≤ h.length := hl.pruned.trans hl.flushed
  have hresume := hl.resumes config order
  have hbase : Derived (based config c.disk order) := by
    cases hsnap : snapshotFiles c.disk.dir with
    | none =>
        rw [based_none hsnap]
        exact ⟨(derived_fresh config).offsets.of_eq rfl rfl rfl rfl rfl,
          fun id hlive => absurd hlive (by simp [new]), hd.saved⟩
    | some s =>
        obtain ⟨m, records⟩ := s
        obtain ⟨-, hrec, -⟩ := snapshotFiles_eq_some.mp hsnap
        have hb := @based_some config c.disk order _ _ hsnap
        obtain ⟨hoff, hlisted⟩ := offsets_reoffset config c.disk order (hd.saved records hrec)
        have hrecs : (reoffset config c.disk order records).records = records :=
          (foldl_restoreOffset_frame _ _).2.1
        have hlook : ∀ id, ((based config c.disk order).records.lookup id).isSome =
            ((reoffset config c.disk order records).records.lookup id).isSome := by
          intro id
          rw [hb.records, hrecs]
          split
          · rfl
          · rw [lookup_stripRecords, Option.isSome_map]
        refine ⟨?_, fun id hlive => ?_, ?_⟩
        · cases hseg : c.disk.dir.segmentBin.toList.isEmpty with
          | true =>
              refine hoff.of_eq hb.offsets hb.idByOffset hb.nextOffset hb.postings ?_
              rw [hb.records, hseg, hrecs, if_pos rfl]
          | false =>
              refine hoff.strip m.flushedSeq hb.offsets hb.idByOffset hb.nextOffset
                hb.postings ?_
              rw [hb.records, hseg, hrecs]
              rfl
        · rw [hb.offsets]
          exact hlisted id (hlook id ▸ hlive)
        · rw [hb.dir]
          exact hd.saved
  rw [restored_eq, replayAfter_eq, hresume.flushedSeq, hresume.tail,
    filter_numbered (le_refl _) hp]
  refine ⟨Offsets.replay _ hbase.offsets,
    (hbase.listed.covered _).replay (hresume.settling hl.accepted hp), ?_⟩
  have hdir := congrArg Settled.dir (foldl_applyRecord_settled
    (numbered c.lastCheckpointSeq (h.drop c.lastCheckpointSeq)) (based config c.disk order))
  simp only [settled] at hdir
  rw [hdir]
  exact hbase.saved

theorem Derived.step {p : Phase} {h ops : List Operation} (hd : Derived c) (hl : Logged h c)
    (hs : Step p ops c c') : Derived c' := by
  cases hs with
  | infer dim hzero => exact hd.of_eq rfl rfl rfl rfl rfl rfl
  | persist => exact hd.of_eq rfl rfl rfl rfl rfl rfl
  | commit hacc hw => exact hd.commit hacc hw
  | flush hf => exact hd.flush hf
  | checkpoint hc => exact hd.checkpoint hc
  | rebuild hr =>
      obtain ⟨x, -, rfl⟩ := rebuildIndex_ok hr
      exact hd.of_eq rfl rfl rfl rfl rfl rfl
  | restart order ho =>
      have hr := hd.restored hl { c.config with dimension := c.disk.catalog.dimension } order
      rcases flushIfNeeded_ok (reopen_ok ho) with rfl | hf
      · exact hr
      · exact hr.flush hf

end Listed

end Collection

open Collection

theorem Reachable.derived {allowed : Call → Prop} {config : CollectionConfig}
    {h : List Operation} {c : Collection} (hr : Reachable allowed config h c) : Derived c := by
  have hboth := (hr.steps fun _ _ _ _ => trivial).invariant
    (I := fun h c => Logged h c ∧ Derived c) ⟨logged_fresh config, derived_fresh config⟩
    fun _ _ _ _ hi ⟨_, _, hs⟩ => ⟨hi.1.step hs, hi.2.step hi.1 hs⟩
  exact hboth.2

end Rekha
