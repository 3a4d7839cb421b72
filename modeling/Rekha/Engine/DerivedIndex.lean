import Rekha.Engine.Listed

/-!
# Offsets and postings are the derived index of the records

What `Derived` says of the offset maps and the posting tables, read as one
statement about the live records, together with the two facts it leaves out: the
tables store nothing empty, and an offset that was handed out and released is
not handed out again before the collection is reopened.
-/

namespace Rekha

open Trace

/-! ## Nothing empty is stored -/

namespace Postings

/-- Neither table stores an empty bitmap or an empty per-key map. -/
structure Pruned (p : Postings) : Prop where
  eq : p.eq.Pruned
  num : p.num.Pruned

theorem pruned_new : Pruned new := ⟨Inverted.pruned_empty, Inverted.pruned_empty⟩

variable {p : Postings}

theorem Pruned.insertKey (h : p.Pruned) (offset : ℕ) (key : String) (value : MetadataValue) :
    (p.insertKey offset key value).Pruned := by
  unfold Postings.insertKey
  refine ⟨h.eq.add _ _ _, ?_⟩
  cases value.asF64 with
  | none => exact h.num
  | some n => exact h.num.add _ _ _

theorem Pruned.removeKey (h : p.Pruned) (offset : ℕ) (key : String) (value : MetadataValue) :
    (p.removeKey offset key value).Pruned := by
  unfold Postings.removeKey
  refine ⟨h.eq.remove _ _ _, ?_⟩
  cases value.asF64 with
  | none => exact h.num
  | some n => exact h.num.remove _ _ _

theorem Pruned.foldl {α : Type} {f : Postings → α → Postings}
    (hf : ∀ p a, Pruned p → Pruned (f p a)) (l : List α) (h : p.Pruned) :
    (l.foldl f p).Pruned := by
  induction l generalizing p with
  | nil => exact h
  | cons a l ih => exact ih (hf p a h)

theorem Pruned.insert (h : p.Pruned) (offset : ℕ) (md : Option Metadata) :
    (p.insert offset md).Pruned := by
  unfold Postings.insert
  cases md with
  | none => exact ⟨h.eq, h.num⟩
  | some md => exact Pruned.foldl (fun p e hp => hp.insertKey offset e.1 e.2) _ ⟨h.eq, h.num⟩

theorem Pruned.remove (h : p.Pruned) (offset : ℕ) (md : Option Metadata) :
    (p.remove offset md).Pruned := by
  unfold Postings.remove
  cases md with
  | none => exact ⟨h.eq, h.num⟩
  | some md => exact Pruned.foldl (fun p e hp => hp.removeKey offset e.1 e.2) _ ⟨h.eq, h.num⟩

theorem pruned_removeAll (p : Postings) (offset : ℕ) : (p.removeAll offset).Pruned :=
  ⟨Inverted.pruned_removeAll _ _, Inverted.pruned_removeAll _ _⟩

end Postings

namespace Collection

variable {c c' : Collection} {h ops : List Operation}

theorem pruned_applyRecord (hp : c.postings.Pruned) (r : WalRecord) :
    (c.applyRecord r).postings.Pruned := by
  have hput : ∀ id e md doc, (c.applyPut id e md doc r.seq).postings.Pruned := by
    intro id e md doc
    obtain ⟨-, hrecs, -, -, hpost⟩ := c.offsetFor_frame id
    simp only [applyPut, hrecs, hpost]
    refine Postings.Pruned.insert ?_ _ _
    cases c.records.lookup id with
    | none => exact hp
    | some old => exact hp.remove _ _
  unfold applyRecord
  cases r.op with
  | add id e md doc => exact hput id e md doc
  | upsert id e md doc => exact hput id e md doc
  | update id md doc =>
      simp only [applyOperation, applyUpdate]
      split
      · exact hp
      · dsimp only
        rw [(offsetFor_frame _ id).2.2.2.2]
        exact (hp.remove _ _).insert _ _
  | delete id =>
      simp only [applyOperation, applyDelete]
      cases c.offsets.lookup id with
      | none => exact hp
      | some o => exact Postings.pruned_removeAll _ _

theorem pruned_replay (rs : List WalRecord) (hp : c.postings.Pruned) :
    (rs.foldl applyRecord c).postings.Pruned :=
  List.foldlRecOn (motive := fun c : Collection => c.postings.Pruned) rs _ hp fun _ hc r _ =>
    pruned_applyRecord hc r

theorem pruned_restoreOffsets (l : List (Sigma fun _ : Id => Record)) (hp : c.postings.Pruned) :
    (l.foldl restoreOffset c).postings.Pruned :=
  List.foldlRecOn (motive := fun c : Collection => c.postings.Pruned) l _ hp fun _ hc _ _ =>
    hc.insert _ _

theorem pruned_restored (config : CollectionConfig) (d : Disk) (order : HashOrder) :
    (restored config d order).postings.Pruned := by
  rw [restored_eq, replayAfter_eq]
  apply pruned_replay
  cases hsnap : snapshotFiles d.dir with
  | none =>
      rw [based_none hsnap]
      exact Postings.pruned_new
  | some s =>
      obtain ⟨m, records⟩ := s
      rw [(based_some hsnap).postings]
      exact pruned_restoreOffsets _ Postings.pruned_new

theorem pruned_step {p : Phase} (hp : c.postings.Pruned) (hs : Step p ops c c') :
    c'.postings.Pruned := by
  cases hs with
  | infer | persist => exact hp
  | commit _ hw =>
      obtain ⟨w, -, -, -, rfl⟩ := writeOps_ok hw
      exact pruned_replay _ hp
  | flush hf =>
      obtain ⟨x, -, rfl⟩ := flushBuffer_ok hf
      exact hp
  | checkpoint hc =>
      rcases checkpoint_ok hc with ⟨-, rfl⟩ | ⟨-, files, -, rfl⟩
      · exact hp
      · exact hp
  | rebuild hr =>
      obtain ⟨x, -, rfl⟩ := rebuildIndex_ok hr
      exact hp
  | restart order ho =>
      have hr := pruned_restored { c.config with dimension := c.disk.catalog.dimension } c.disk
        order
      rcases flushIfNeeded_ok (reopen_ok ho) with rfl | hf
      · exact hr
      · obtain ⟨x, -, hc'⟩ := flushBuffer_ok hf
        rw [hc']
        exact hr

/-! ## Offsets within a session -/

/-- `c'` is later in the session of `c`: an offset handed out before is still
that of its id, or is free and stays so. -/
structure Later (c c' : Collection) : Prop where
  grows : c.nextOffset ≤ c'.nextOffset
  kept : ∀ o, o < c.nextOffset →
    c'.idByOffset.lookup o = c.idByOffset.lookup o ∨ c'.idByOffset.lookup o = none

theorem Later.of_eq (hnext : c'.nextOffset = c.nextOffset)
    (hids : c'.idByOffset = c.idByOffset) : Later c c' := by
  refine ⟨hnext.ge, ?_⟩
  intro o _
  rw [hids]
  exact Or.inl rfl

theorem Later.trans {c'' : Collection} (h₁ : Later c c') (h₂ : Later c' c'') : Later c c'' := by
  refine ⟨h₁.grows.trans h₂.grows, ?_⟩
  intro o ho
  rcases h₂.kept o (ho.trans_le h₁.grows) with h | h
  · rw [h]
    exact h₁.kept o ho
  · exact Or.inr h

theorem later_offsetFor (c : Collection) (id : Id) : Later c (c.offsetFor id).2 := by
  unfold offsetFor
  cases c.offsets.lookup id with
  | some o => exact Later.of_eq rfl rfl
  | none =>
      refine ⟨Nat.le_succ _, ?_⟩
      intro o ho
      exact Or.inl ((FinMap.lookup_insert_ite _ _ _ _).trans (if_neg ho.ne))

theorem later_applyRecord (c : Collection) (r : WalRecord) : Later c (c.applyRecord r) := by
  unfold applyRecord
  cases r.op with
  | add id e md doc => exact (later_offsetFor c id).trans (.of_eq rfl rfl)
  | upsert id e md doc => exact (later_offsetFor c id).trans (.of_eq rfl rfl)
  | update id md doc =>
      simp only [applyOperation, applyUpdate]
      split
      · exact .of_eq rfl rfl
      · have halloc : ∀ records, Later c (offsetFor { c with records := records } id).2 := by
          intro records
          have h := later_offsetFor { c with records := records } id
          exact ⟨h.grows, h.kept⟩
        exact ⟨(halloc _).grows, (halloc _).kept⟩
  | delete id =>
      simp only [applyOperation, applyDelete]
      cases c.offsets.lookup id with
      | none => exact .of_eq rfl rfl
      | some o =>
          refine ⟨Nat.le_refl _, ?_⟩
          intro o' _
          dsimp only
          rw [FinMap.lookup_erase_ite]
          split
          · exact Or.inr rfl
          · exact Or.inl rfl

theorem later_replay (rs : List WalRecord) (c : Collection) :
    Later c (rs.foldl applyRecord c) := by
  induction rs generalizing c with
  | nil => exact .of_eq rfl rfl
  | cons r rs ih => exact (later_applyRecord c r).trans (ih _)

theorem later_step {p : Phase} (hp : p ≠ .restart) (hs : Step p ops c c') : Later c c' := by
  cases hs with
  | infer | persist => exact .of_eq rfl rfl
  | commit _ hw =>
      obtain ⟨w, -, -, -, rfl⟩ := writeOps_ok hw
      have h := later_replay (numbered c.wal.lastSeq ops) { c with wal := w }
      exact ⟨h.grows, h.kept⟩
  | flush hf =>
      obtain ⟨x, -, rfl⟩ := flushBuffer_ok hf
      exact .of_eq rfl rfl
  | checkpoint hc =>
      rcases checkpoint_ok hc with ⟨-, rfl⟩ | ⟨-, files, -, rfl⟩
      · exact .of_eq rfl rfl
      · exact .of_eq rfl rfl
  | rebuild hr =>
      obtain ⟨x, -, rfl⟩ := rebuildIndex_ok hr
      exact .of_eq rfl rfl
  | restart => exact absurd rfl hp

/-! ## The derived index -/

/-- The value of `key` in the record at offset `o`. -/
def storedValue (c : Collection) (o : ℕ) (key : String) : Option MetadataValue :=
  (c.idByOffset.lookup o).bind fun id =>
    (c.records.lookup id).bind fun r => r.metadata.bind fun md => md.lookup key

/-- **The index derived from the records**: one offset per live record, and the
postings of exactly the metadata at these offsets. -/
structure DerivedIndex (c : Collection) : Prop where
  inverse : ∀ id o, c.offsets.lookup id = some o ↔ c.idByOffset.lookup o = some id
  live : ∀ id, (c.offsets.lookup id).isSome ↔ (c.records.lookup id).isSome
  below : ∀ o, (c.idByOffset.lookup o).isSome → o < c.nextOffset
  all : ∀ o, o ∈ c.postings.all ↔ (c.idByOffset.lookup o).isSome
  eq : ∀ key v o, o ∈ c.postings.eq.cell key v ↔
    ∃ value, c.storedValue o key = some value ∧ ValueKey.fromValue value = v
  num : ∀ key n o, o ∈ c.postings.num.cell key n ↔
    ∃ value, c.storedValue o key = some value ∧ ∃ x, value.asF64 = some x ∧ x.totalKey = n
  pruned : c.postings.Pruned

theorem exists_docs_iff (c : Collection) (o : ℕ) (key : String) (v : ValueKey) :
    (∃ md, c.docs o = some md ∧ keyView md key = some v) ↔
      ∃ value, c.storedValue o key = some value ∧ ValueKey.fromValue value = v := by
  unfold docs storedValue keyView
  cases c.idByOffset.lookup o with
  | none => simp
  | some id =>
      simp only [Option.map_some, Option.bind_some]
      cases c.records.lookup id with
      | none => simp
      | some r =>
          simp only [Option.bind_some]
          cases r.metadata with
          | none => simp
          | some md => simp

theorem Derived.index (hd : Derived c) (hp : c.postings.Pruned) : DerivedIndex c where
  inverse := fun id o => ⟨hd.offsets.forth id o, hd.offsets.back o id⟩
  live := by
    intro id
    refine ⟨?_, hd.listed id⟩
    intro hsome
    obtain ⟨o, ho⟩ := Option.isSome_iff_exists.mp hsome
    exact hd.offsets.live id o ho
  below := by
    intro o hsome
    obtain ⟨id, hid⟩ := Option.isSome_iff_exists.mp hsome
    exact hd.offsets.below o id hid
  all := by
    intro o
    rw [hd.offsets.postings.all, docs, Option.isSome_map]
  eq := by
    intro key v o
    rw [hd.offsets.postings.eq, exists_docs_iff]
  num := by
    intro key n o
    rw [hd.offsets.postings.num, exists_docs_iff]
    simp only [asF64_eq_some_iff]
  pruned := hp

theorem Accepts.take (hacc : c.Accepts ops) (k : ℕ) : c.Accepts (ops.take k) := by
  refine ⟨?_, ?_⟩
  · intro op hop
    exact hacc.fits op (List.mem_of_mem_take hop)
  · rcases hacc.live with hall | hall
    · exact Or.inl fun op hop => hall op (List.mem_of_mem_take hop)
    · exact Or.inr fun op hop => hall op (List.mem_of_mem_take hop)

end Collection

open Collection

section DerivedIndex

variable {allowed : Call → Prop} {config : CollectionConfig} {h : List Operation}
  {c c' : Collection}

theorem Reachable.pruned (hr : Reachable allowed config h c) : c.postings.Pruned :=
  (hr.steps fun _ _ _ _ => trivial).invariant (I := fun _ c => c.postings.Pruned)
    Postings.pruned_new fun _ _ _ _ hp ⟨_, _, hs⟩ => pruned_step hp hs

theorem later_run {a : Call} (ha : ∀ order, a ≠ .restart order) (hrun : a.run c = .ok c') :
    Later c c' := by
  have hok : ∀ p ∈ a.phases, p ≠ .restart := by
    cases a with
    | restart order => exact absurd rfl (ha order)
    | _ => simp [Call.phases]
  refine (Call.run_steps hrun hok).invariant (I := fun _ c' => Later c c') (Later.of_eq rfl rfl) ?_
  rintro _ _ _ _ hl ⟨p, hp, hs⟩
  exact hl.trans (later_step hp hs)

theorem later_runAll {calls : List Call} (hall : ∀ a ∈ calls, ∀ order, a ≠ .restart order)
    (hrun : runAll calls c = .ok c') : Later c c' := by
  induction calls generalizing c with
  | nil =>
      obtain rfl := Except.ok.inj hrun
      exact .of_eq rfl rfl
  | cons a calls ih =>
      unfold runAll at hrun
      cases ha : a.run c with
      | error e =>
          rw [ha] at hrun
          exact absurd hrun (by simp)
      | ok c₁ =>
          rw [ha] at hrun
          exact (later_run (hall a List.mem_cons_self) ha).trans
            (ih (fun b hb => hall b (List.mem_cons_of_mem a hb)) hrun)

/-- **Offsets and postings are exactly the derived index of the records** in
every reachable state and between the operations of a batch, and a released
offset stays free until the collection is reopened. -/
theorem derived_index (hr : Reachable allowed config h c) :
    DerivedIndex c ∧
    (∀ ops w k, c.Accepts ops → DerivedIndex
      (((numbered c.wal.lastSeq ops).take k).foldl applyRecord { c with wal := w })) ∧
    ∀ calls c', (∀ a ∈ calls, ∀ order, a ≠ .restart order) → runAll calls c = .ok c' →
      Later c c' := by
  have hd := hr.derived
  refine ⟨hd.index hr.pruned, ?_, fun calls c' => later_runAll⟩
  intro ops w k hacc
  rw [numbered_take]
  exact (hd.applied (hacc.take k) _ w).index (pruned_replay _ hr.pruned)

/-- A run with a checkpoint, a delete and a reopen. -/
theorem derived_index_demo :
    ∃ h c, Reachable (fun _ => True) demoConfig h c ∧ DerivedIndex c := by
  have hrun : (runAll [.add true ["a", "b"] [zero, one] none none, .flush, .checkpoint,
      .delete ["a"], .upsert true ["c"] [two] none none,
      .restart ⟨fun m => m.entries, fun _ => List.Perm.refl _⟩]
      (fresh demoConfig)).toOption.any (fun c => decide (c.nextOffset = 3)) = true := by
    decide +kernel
  obtain ⟨c, hc, -⟩ := exists_runAll hrun
  have hr : Reachable (fun _ => True) demoConfig _ c :=
    Reachable.fresh.runAll (fun _ _ => trivial) hc
  exact ⟨_, c, hr, (derived_index hr).1⟩

end DerivedIndex

end Rekha
