import Rekha.Lib.Processes
import Rekha.Server.Names

/-!
# Concurrent `get_or_create` requests

A creation is cut at its catalog transactions and its update of the map. Run on
its own it is the handler (`run_alone`). Run together, two requests can both find
the name missing, and the second to create it then fails; `getOrCreate_safe` says
that along every schedule that keeps a request from finding the name missing
while another is about to create it, all of them return the one collection.
-/

namespace Rekha.Server

open RedbCatalog Outcome Server.Engine Processes Processes.Config

/-- Where a request stands between two steps. -/
inductive Phase where
  | start
  | looking
  | reading (idStr : String)
  | creating
  | opening (record : CollectionRecord)
  | done (res : Except EngineError (ℕ × ChromaCollectionResponse))

/-- Requests to one tenant and database, with the id each draws and the files it
opens. -/
structure Requests (ι : Type) where
  text : UuidText
  tenant : String
  database : String
  req : ι → ChromaCreateCollectionRequest
  drawn : ι → Uuid
  opening : ι → Opening

namespace Requests

variable {ι : Type}

def config (R : Requests ι) (i : ι) : CollectionConfig :=
  chromaConfig (R.drawn i) R.tenant R.database (R.req i)

/-- The steps of `create_collection_chroma` on the shared engine. Looking a name
up takes two read transactions. -/
def next (R : Requests ι) (i : ι) : Phase → Engine → Option (Phase × Engine)
  | .start, e =>
      match validateCreate (R.req i) with
      | .error err => some (.done (.error err), e)
      | .ok () => some (if (R.req i).getOrCreate then .looking else .creating, e)
  | .looking, e =>
      match e.catalog.collectionByName.lookup (R.config i).nameKey with
      | none => some (.creating, e)
      | some idStr => some (.reading idStr, e)
  | .reading idStr, e =>
      match R.text.parseStr idStr with
      | .error msg => some (.done (.error (.catalog (.serialization msg))), e)
      | .ok id =>
          match e.catalog.getCollectionRecord id with
          | some record => some (.done (.ok (200, chromaResponse record)), e)
          | none => some (.creating, e)
  | .creating, e =>
      match RedbCatalog.createCollection none (R.config i) e.catalog with
      | .ok record c => some (.opening record, { e with catalog := c })
      | .error err c => some (.done (.error (.catalog err)), { e with catalog := c })
  | .opening record, e =>
      match openCollection (R.opening i) record with
      | .error err => some (.done (.error err), e)
      | .ok coll => some (.done (.ok (201, chromaResponse record)),
          { e with collections := e.collections.insert (R.drawn i) coll })
  | .done _, _ => none

/-- All requests before their first step. -/
def starting (e : Engine) : Config ι Engine Phase := ⟨e, fun _ => .start⟩

/-- Requests that get or create one valid name, on a sound catalog, without I/O
failures and with fresh ids. -/
structure ForName (R : Requests ι) (name : String) (e : Engine) : Prop where
  keyed : e.catalog.Keyed
  names : e.catalog.NamesAgree
  named : ∀ i, (R.req i).name = name
  getOrCreate : ∀ i, (R.req i).getOrCreate = true
  valid : validateName name = .ok ()
  opens : ∀ i, ∃ coll, openCollection (R.opening i) ⟨R.config i, 0, 0⟩ = .ok coll
  drawn_inj : Function.Injective R.drawn
  unused : ∀ i, e.catalog.collections.lookup (R.drawn i).toString = none

/-- The dimension is in bounds, and a name is found missing only while no other
request is about to create it. -/
def Orderly [DecidableEq ι] (R : Requests ι) (i : ι) (c : Config ι Engine Phase) : Prop :=
  match c.locals i with
  | .start => (R.req i).dimension.getD 0 ≤ maxDimension
  | .looking => (c.shared.catalog.collectionByName.lookup (R.config i).nameKey).isSome ∨
      ∀ j, j ≠ i → c.locals j ≠ .creating
  | _ => True

end Requests

/-! ## The invariant -/

namespace Phase

/-- The id a request goes by from now on. -/
def shown : Phase → Option String
  | .reading idStr => some idStr
  | .opening record => some record.config.id.toString
  | .done (.ok (_, res)) => some res.id
  | _ => none

/-- The request may still create a collection. -/
def MayCreate : Phase → Prop
  | .start | .looking | .creating => True
  | _ => False

/-- How many steps a request has left at most. -/
def rank : Phase → ℕ
  | .start => 5
  | .looking => 4
  | .reading _ => 3
  | .creating => 2
  | .opening _ => 1
  | .done _ => 0

theorem done_of_rank {l : Phase} (h : l.rank = 0) : ∃ res, l = .done res := by
  cases l with
  | done res => exact ⟨res, rfl⟩
  | start | looking | reading | creating | opening => simp [rank] at h

end Phase

namespace Requests

section Safety

variable {ι : Type} [DecidableEq ι] {R : Requests ι} {name : String} {e₀ : Engine}
  {c : Config ι Engine Phase} {i : ι}

omit [DecidableEq ι] in
theorem ForName.nameKey (h : R.ForName name e₀) (i : ι) :
    (R.config i).nameKey = (R.tenant, R.database, name) := by
  rw [← h.named i]
  rfl

omit [DecidableEq ι] in
theorem ForName.name_ne (h : R.ForName name e₀) (i : ι) : (R.config i).name ≠ "" := by
  show (R.req i).name ≠ ""
  rw [h.named]
  rintro rfl
  cases h.valid

/-- One request at most is about to create the name, and then it is missing;
what the others go by is what the index has under it. -/
structure Invariant (R : Requests ι) (name : String) (c : Config ι Engine Phase) : Prop where
  keyed : c.shared.catalog.Keyed
  names : c.shared.catalog.NamesAgree
  unused : ∀ i, (c.locals i).MayCreate →
    c.shared.catalog.collections.lookup (R.drawn i).toString = none
  one : ∀ i j, c.locals i = .creating → c.locals j = .creating → i = j
  missing : ∀ i, c.locals i = .creating →
    c.shared.catalog.collectionByName.lookup (R.tenant, R.database, name) = none
  shown : ∀ i s, (c.locals i).shown = some s →
    c.shared.catalog.collectionByName.lookup (R.tenant, R.database, name) = some s
  made : ∀ i record, c.locals i = .opening record → record = ⟨R.config i, 0, 0⟩
  succeeds : ∀ i err, c.locals i ≠ .done (.error err)

omit [DecidableEq ι] in
theorem invariant_starting (h : R.ForName name e₀) : R.Invariant name (starting e₀) where
  keyed := h.keyed
  names := h.names
  unused i _ := h.unused i
  one i j hi := by cases hi
  missing i hi := by cases hi
  shown i s hi := by cases hi
  made i record hi := by cases hi
  succeeds i err hi := by cases hi

theorem Invariant.move (h : R.Invariant name c) {l : Phase} {e : Engine}
    (he : e.catalog = c.shared.catalog) (hmay : l.MayCreate → (c.locals i).MayCreate)
    (hcreating : l = .creating →
      c.shared.catalog.collectionByName.lookup (R.tenant, R.database, name) = none ∧
        ∀ j, j ≠ i → c.locals j ≠ .creating)
    (hshown : ∀ s, l.shown = some s →
      c.shared.catalog.collectionByName.lookup (R.tenant, R.database, name) = some s)
    (hopening : ∀ record, l ≠ .opening record) (hok : ∀ err, l ≠ .done (.error err)) :
    R.Invariant name ⟨e, Function.update c.locals i l⟩ := by
  have hone : ∀ j k, Function.update c.locals i l j = .creating →
      Function.update c.locals i l k = .creating → j = k := by
    intro j k hj hk
    rw [Function.update_apply] at hj hk
    split at hj
    · rename_i hji
      split at hk
      · rename_i hki
        rw [hji, hki]
      · rename_i hki
        exact absurd hk ((hcreating hj).2 k hki)
    · rename_i hji
      split at hk
      · exact absurd hj ((hcreating hk).2 j hji)
      · exact h.one j k hj hk
  refine ⟨he ▸ h.keyed, he ▸ h.names, ?_, hone, ?_, ?_, ?_, ?_⟩
  · rw [he]
    exact (Function.forall_update_iff c.locals fun j l => l.MayCreate →
      c.shared.catalog.collections.lookup (R.drawn j).toString = none).mpr
        ⟨fun hl => h.unused i (hmay hl), fun j _ => h.unused j⟩
  · rw [he]
    exact (Function.forall_update_iff c.locals fun _ l => l = .creating →
      c.shared.catalog.collectionByName.lookup (R.tenant, R.database, name) = none).mpr
        ⟨fun hl => (hcreating hl).1, fun j _ => h.missing j⟩
  · rw [he]
    exact (Function.forall_update_iff c.locals fun _ l => ∀ s, l.shown = some s →
      c.shared.catalog.collectionByName.lookup (R.tenant, R.database, name) = some s).mpr
        ⟨hshown, fun j _ => h.shown j⟩
  · exact (Function.forall_update_iff c.locals fun j l => ∀ record, l = .opening record →
      record = ⟨R.config j, 0, 0⟩).mpr
        ⟨fun record hl => absurd hl (hopening record), fun j _ => h.made j⟩
  · exact (Function.forall_update_iff c.locals fun _ l => ∀ err, l ≠ .done (.error err)).mpr
      ⟨hok, fun j _ => h.succeeds j⟩

theorem Invariant.create (h : R.Invariant name c) (hfor : R.ForName name e₀)
    (hi : c.locals i = .creating) :
    R.Invariant name ⟨{ c.shared with catalog := c.shared.catalog.withCollection (R.config i) },
      Function.update c.locals i (.opening ⟨R.config i, 0, 0⟩)⟩ := by
  have hkey := hfor.nameKey i
  have hfree := h.missing i hi
  rw [← hkey] at hfree
  have hunused : c.shared.catalog.collections.lookup (R.config i).id.toString = none :=
    h.unused i (by rw [hi]; trivial)
  have hothers : ∀ j, j ≠ i → c.locals j ≠ .creating := fun j hj hcreating =>
    hj (h.one j i hcreating hi)
  have hnone : ∀ j s, (c.locals j).shown ≠ some s := by
    intro j s hs
    have hlookup := h.shown j s hs
    rw [h.missing i hi] at hlookup
    cases hlookup
  have hlookup : (c.shared.catalog.withCollection (R.config i)).collectionByName.lookup
      (R.tenant, R.database, name) = some (R.config i).id.toString := by
    rw [← hkey]
    exact AList.lookup_insert _
  refine ⟨h.keyed.effect (.create _ (hfor.name_ne i) hfree),
    NamesAgree.withCollection h.names hunused hfree, ?_, ?_, ?_, ?_, ?_, ?_⟩
  · exact (Function.forall_update_iff c.locals fun j l => l.MayCreate →
      (c.shared.catalog.withCollection (R.config i)).collections.lookup
        (R.drawn j).toString = none).mpr
        ⟨False.elim, fun j hj hmay => by
          have hne : R.drawn j ≠ (R.config i).id := fun heq => hj (hfor.drawn_inj heq)
          rw [lookup_withCollection, if_neg hne]
          exact h.unused j hmay⟩
  · intro j k hj _
    have hnot : ∀ j, Function.update c.locals i (.opening ⟨R.config i, 0, 0⟩) j ≠ .creating :=
      (Function.forall_update_iff c.locals fun _ l => l ≠ .creating).mpr
        ⟨Phase.noConfusion, hothers⟩
    exact absurd hj (hnot j)
  · exact (Function.forall_update_iff c.locals fun _ l => l = .creating → _).mpr
      ⟨fun hl => (by cases hl), fun j hj hl => absurd hl (hothers j hj)⟩
  · exact (Function.forall_update_iff c.locals fun _ l => ∀ s, l.shown = some s → _ = some s).mpr
      ⟨fun s hs => hlookup.trans hs, fun j _ s hs => absurd hs (hnone j s)⟩
  · exact (Function.forall_update_iff c.locals fun j l => ∀ record, l = .opening record →
      record = ⟨R.config j, 0, 0⟩).mpr
        ⟨fun record hl => (Phase.opening.inj hl).symm, fun j _ => h.made j⟩
  · exact (Function.forall_update_iff c.locals fun _ l => ∀ err, l ≠ .done (.error err)).mpr
      ⟨fun err hl => (by cases hl), fun j _ => h.succeeds j⟩

theorem Invariant.step (hfor : R.ForName name e₀) (h : R.Invariant name c)
    (horderly : R.Orderly i c) : R.Invariant name (c.step R.next i) := by
  have hkey := hfor.nameKey i
  rw [Orderly] at horderly
  cases hl : c.locals i with
  | start =>
      rw [hl] at horderly
      have hvalid : validateCreate (R.req i) = .ok () := by
        show (validateName (R.req i).name >>= fun _ => rejectIf _ _) = _
        rw [hfor.named, hfor.valid]
        exact if_neg (Nat.not_lt.mpr horderly)
      have hnext : R.next i (c.locals i) c.shared = some (.looking, c.shared) := by
        rw [hl, next, hvalid, hfor.getOrCreate]
        rfl
      rw [step_some hnext]
      exact h.move rfl (fun _ => by rw [hl]; trivial) Phase.noConfusion (fun _ hs => by cases hs)
        (fun _ => Phase.noConfusion) fun _ => Phase.noConfusion
  | looking =>
      rw [hl] at horderly
      cases hlookup : c.shared.catalog.collectionByName.lookup (R.config i).nameKey with
      | none =>
          rw [hlookup] at horderly
          have hothers : ∀ j, j ≠ i → c.locals j ≠ .creating := by
            rcases horderly with hsome | hothers
            · cases hsome
            · exact hothers
          have hnext : R.next i (c.locals i) c.shared = some (.creating, c.shared) := by
            rw [hl, next, hlookup]
          rw [step_some hnext]
          exact h.move rfl (fun _ => by rw [hl]; trivial)
            (fun _ => ⟨hkey ▸ hlookup, hothers⟩) (fun _ hs => by cases hs)
            (fun _ => Phase.noConfusion) fun _ => Phase.noConfusion
      | some idStr =>
          have hnext : R.next i (c.locals i) c.shared = some (.reading idStr, c.shared) := by
            rw [hl, next, hlookup]
          rw [step_some hnext]
          exact h.move rfl False.elim Phase.noConfusion
            (fun s hs => (hkey ▸ hlookup).trans hs)
            (fun _ => Phase.noConfusion) fun _ => Phase.noConfusion
  | reading idStr =>
      have hlookup := h.shown i idStr (by rw [hl]; rfl)
      obtain ⟨record, hrecord, _⟩ := (h.names _ _).mp hlookup
      have hid := h.keyed idStr record hrecord
      have hnext : R.next i (c.locals i) c.shared =
          some (.done (.ok (200, chromaResponse record)), c.shared) := by
        rw [hl, next, ← hid, R.text.parseStr_toString]
        dsimp only
        rw [getCollectionRecord, hid, hrecord]
      rw [step_some hnext]
      refine h.move rfl False.elim Phase.noConfusion (fun s hs => ?_)
        (fun _ => Phase.noConfusion) fun _ hdone => by cases hdone
      rw [hlookup, ← hid]
      exact hs
  | creating =>
      have hunused := h.unused i (by rw [hl]; trivial)
      have hinv := h.create hfor hl
      have hcreate : RedbCatalog.createCollection none (R.config i) c.shared.catalog =
          .ok ⟨R.config i, 0, 0⟩ (c.shared.catalog.withCollection (R.config i)) :=
        createCollection_accepted ⟨hfor.name_ne i, rfl, hkey ▸ h.missing i hl⟩
      have hnext : R.next i (c.locals i) c.shared = some (.opening ⟨R.config i, 0, 0⟩,
          { c.shared with catalog := c.shared.catalog.withCollection (R.config i) }) := by
        rw [hl, next, hcreate]
      rw [step_some hnext]
      exact hinv
  | opening record =>
      have hlookup := h.shown i record.config.id.toString (by rw [hl]; rfl)
      obtain rfl := h.made i record hl
      obtain ⟨coll, hopen⟩ := hfor.opens i
      have hnext : R.next i (c.locals i) c.shared =
          some (.done (.ok (201, chromaResponse ⟨R.config i, 0, 0⟩)),
            { c.shared with collections := c.shared.collections.insert (R.drawn i) coll }) := by
        rw [hl, next, hopen]
      rw [step_some hnext]
      exact h.move rfl False.elim Phase.noConfusion (fun s hs => hlookup.trans hs)
        (fun _ => Phase.noConfusion) fun _ hdone => by cases hdone
  | done res =>
      rw [step_none (by rw [hl, next])]
      exact h

/-! ## Safety -/

/-- Every finished request succeeded, all with the id of the one collection that
has the name. -/
structure Safe (R : Requests ι) (name : String) (c : Config ι Engine Phase) : Prop where
  succeeds : ∀ i res, c.locals i = .done res → ∃ status out, res = .ok (status, out)
  agree : ∀ i j si sj outi outj, c.locals i = .done (.ok (si, outi)) →
    c.locals j = .done (.ok (sj, outj)) → outi.id = outj.id
  one : ∀ i status out, c.locals i = .done (.ok (status, out)) →
    ∃ record, c.shared.catalog.collections.lookup out.id = some record ∧
      record.config.nameKey = (R.tenant, R.database, name) ∧
      ∀ s other, c.shared.catalog.collections.lookup s = some other →
        other.config.nameKey = (R.tenant, R.database, name) → s = out.id

omit [DecidableEq ι] in
theorem Invariant.safe (h : R.Invariant name c) : R.Safe name c := by
  have hname : ∀ i status out, c.locals i = .done (.ok (status, out)) →
      c.shared.catalog.collectionByName.lookup (R.tenant, R.database, name) = some out.id := by
    intro i status out hi
    exact h.shown i out.id (by rw [hi]; rfl)
  refine ⟨?_, ?_, ?_⟩
  · intro i res hi
    cases res with
    | ok out => exact ⟨out.1, out.2, rfl⟩
    | error err => exact absurd hi (h.succeeds i err)
  · intro i j si sj outi outj hi hj
    have heq := (hname i si outi hi).symm.trans (hname j sj outj hj)
    exact Option.some.inj heq
  · intro i status out hi
    have hlookup := hname i status out hi
    obtain ⟨record, hrecord, hkey⟩ := (h.names _ _).mp hlookup
    refine ⟨record, hrecord, hkey, fun s other hs hother => ?_⟩
    have hs' := h.names.lookup_name hs
    rw [hother, hlookup] at hs'
    exact (Option.some.inj hs').symm

omit [DecidableEq ι] in
theorem rank_falls (R : Requests ι) (i : ι) {l l' : Phase} {e e' : Engine}
    (h : R.next i l e = some (l', e')) : l'.rank < l.rank := by
  cases l with
  | start =>
      rw [next] at h
      split at h
      · cases h
        simp [Phase.rank]
      · split at h
        · cases h
          simp [Phase.rank]
        · cases h
          simp [Phase.rank]
  | looking =>
      rw [next] at h
      split at h
      · cases h
        simp [Phase.rank]
      · cases h
        simp [Phase.rank]
  | reading idStr =>
      rw [next] at h
      split at h
      · cases h
        simp [Phase.rank]
      · split at h
        · cases h
          simp [Phase.rank]
        · cases h
          simp [Phase.rank]
  | creating =>
      rw [next] at h
      split at h
      · cases h
        simp [Phase.rank]
      · cases h
        simp [Phase.rank]
  | opening record =>
      rw [next] at h
      split at h
      · cases h
        simp [Phase.rank]
      · cases h
        simp [Phase.rank]
  | done res => cases h

omit [DecidableEq ι] in
theorem rank_of_none (R : Requests ι) (i : ι) {l : Phase} {e : Engine}
    (h : R.next i l e = none) : l.rank = 0 := by
  cases l with
  | done res => rfl
  | start | looking | reading | creating | opening =>
      rw [next] at h
      repeat' split at h
      all_goals cases h

/-- Along a schedule that keeps a request from finding the name missing while
another is about to create it, every finished request succeeded with the one
collection of the name; five turns finish a request. -/
theorem getOrCreate_safe (R : Requests ι) (name : String) (e₀ : Engine) (sched : List ι)
    (hfor : R.ForName name e₀) (horderly : Along R.next R.Orderly sched (starting e₀)) :
    let c := (starting e₀).run R.next sched
    R.Safe name c ∧
      ∀ i, 5 ≤ sched.count i → ∃ status out, c.locals i = .done (.ok (status, out)) := by
  intro c
  have hinv : R.Invariant name c :=
    Along.invariant (fun i c h hturn => h.step hfor hturn) (invariant_starting hfor) horderly
  have hsafe := hinv.safe
  refine ⟨hsafe, fun i hcount => ?_⟩
  have hrank : (c.locals i).rank ≤ 5 - sched.count i :=
    (rank_run (P := fun _ => True) (fun _ _ _ _ _ h => ⟨trivial, R.rank_falls i h⟩)
      (fun _ _ _ => R.rank_of_none i) sched (starting e₀) trivial).2
  obtain ⟨res, hdone⟩ := Phase.done_of_rank (l := c.locals i) (by omega)
  obtain ⟨status, out, rfl⟩ := hsafe.succeeds i res hdone
  exact ⟨status, out, hdone⟩

end Safety

/-- Two requests for one name, on an engine without collections. -/
def demoRequests (order : HashOrder) : Requests Bool where
  text := hexText
  tenant := "default_tenant"
  database := "default_database"
  req _ := { demoRequest "demo" with getOrCreate := true }
  drawn b := if b then ⟨1⟩ else ⟨2⟩
  opening _ := .files WalFile.empty {} order

theorem forName_demo (order : HashOrder) : (demoRequests order).ForName "demo" {} where
  keyed := keyed_empty
  names := UniqueIndex.agrees_empty
  named _ := rfl
  getOrCreate _ := rfl
  valid := rfl
  opens _ := ⟨_, rfl⟩
  drawn_inj := (by decide : Function.Injective fun b : Bool => if b then (⟨1⟩ : Uuid) else ⟨2⟩)
  unused _ := rfl

/-- Both requests look the name up before either creates it. -/
theorem second_create_fails :
    let R := demoRequests ⟨fun m => m.entries, fun _ => List.Perm.refl _⟩
    R.ForName "demo" {} ∧
      ((starting {}).run R.next [false, false, true, true, false, false, true]).locals true =
        .done (.error (.catalog .alreadyExists)) :=
  ⟨forName_demo _, rfl⟩

theorem getOrCreate_safe_demo :
    let R := demoRequests ⟨fun m => m.entries, fun _ => List.Perm.refl _⟩
    let sched := [false, true, false, false, true, false, true, false, true, true]
    let c := (starting {}).run R.next sched
    R.Safe "demo" c ∧
      ∀ i, 5 ≤ sched.count i → ∃ status out, c.locals i = .done (.ok (status, out)) := by
  have hdimension : 1 ≤ maxDimension := by decide
  apply getOrCreate_safe (demoRequests _) "demo" {} _ (forName_demo _)
  refine ⟨hdimension, hdimension, ?_, trivial, Or.inl rfl, trivial, trivial, trivial, trivial,
    trivial, trivial⟩
  refine Or.inr fun j hj => ?_
  cases j with
  | false => exact absurd rfl hj
  | true => exact Phase.noConfusion

/-! ## One request on its own -/

section Alone

variable (R : Requests ι) (i : ι) (e : Engine)

theorem turns_done (n : ℕ) (res : Except EngineError (ℕ × ChromaCollectionResponse)) :
    (turn (R.next i))^[n] (.done res, e) = (.done res, e) :=
  iterate_turn_none n rfl

theorem turns_creating (n : ℕ) :
    let made : ServerM (ℕ × ChromaCollectionResponse) := do
      let record ← Engine.createCollection none (R.opening i) (R.config i)
      pure (201, chromaResponse record)
    (turn (R.next i))^[n + 2] (.creating, e) =
      (.done (result (made e)), Outcome.final (made e)) := by
  intro made
  cases hcreate : RedbCatalog.createCollection none (R.config i) e.catalog with
  | error err c =>
      have hmade : made e = .error (.catalog err) { e with catalog := c } :=
        bind_error.mpr (Or.inl (createCollection_of_error hcreate))
      rw [hmade, iterate_turn_some (n + 1) (by rw [next, hcreate])]
      exact turns_done R i _ (n + 1) _
  | ok record c =>
      rw [iterate_turn_some (n + 1) (by rw [next, hcreate])]
      cases hopen : openCollection (R.opening i) record with
      | error err =>
          have hmade : made e = .error err { e with catalog := c } :=
            bind_error.mpr (Or.inl (createCollection_of_fails hcreate hopen))
          rw [hmade, iterate_turn_some n (by rw [next, hopen])]
          exact turns_done R i _ n _
      | ok coll =>
          have hmade : made e = .ok (201, chromaResponse record)
              ⟨c, e.collections.insert (R.drawn i) coll⟩ :=
            bind_ok.mpr ⟨record, _, createCollection_of_opened hcreate hopen, rfl⟩
          rw [hmade, iterate_turn_some n (by rw [next, hopen])]
          exact turns_done R i _ n _

theorem turns_looking :
    let found : ServerM (ℕ × ChromaCollectionResponse) := do
      let found ← Outcome.ofExcept (e.getCollection R.text R.tenant R.database (R.req i).name)
      match found with
      | some record => pure (200, chromaResponse record)
      | none => do
          let record ← Engine.createCollection none (R.opening i) (R.config i)
          pure (201, chromaResponse record)
    (turn (R.next i))^[4] (.looking, e) = (.done (result (found e)), Outcome.final (found e)) := by
  have hkey : (R.config i).nameKey = (R.tenant, R.database, (R.req i).name) := rfl
  generalize hres : e.getCollection R.text R.tenant R.database (R.req i).name = res
  unfold Engine.getCollection RedbCatalog.getCollection at hres
  cases hlookup : e.catalog.collectionByName.lookup (R.tenant, R.database, (R.req i).name) with
  | none =>
      simp only [hlookup] at hres
      rw [iterate_turn_some 3 (by rw [next, hkey, hlookup]), ← hres]
      exact turns_creating R i e 1
  | some idStr =>
      rw [iterate_turn_some 3 (by rw [next, hkey, hlookup])]
      cases hparse : R.text.parseStr idStr with
      | error msg =>
          simp only [hlookup, hparse] at hres
          rw [iterate_turn_some 2 (by rw [next, hparse]), ← hres]
          exact turns_done R i e 2 _
      | ok id =>
          simp only [hlookup, hparse] at hres
          cases hrecord : e.catalog.getCollectionRecord id with
          | none =>
              have hnext : R.next i (.reading idStr) e = some (.creating, e) := by
                rw [next, hparse]
                simp only [hrecord]
              rw [hrecord] at hres
              rw [iterate_turn_some 2 hnext, ← hres]
              exact turns_creating R i e 0
          | some record =>
              have hnext : R.next i (.reading idStr) e =
                  some (.done (.ok (200, chromaResponse record)), e) := by
                rw [next, hparse]
                simp only [hrecord]
              rw [hrecord] at hres
              rw [iterate_turn_some 2 hnext, ← hres]
              exact turns_done R i e 2 _

end Alone

theorem run_alone [DecidableEq ι] (R : Requests ι) (i : ι) (e : Engine) :
    let handled := createCollectionChroma R.text none (R.opening i) (R.drawn i) R.tenant
      R.database (R.req i) e
    let c := (starting e).run R.next (List.replicate 5 i)
    c.locals i = .done (result handled) ∧ c.shared = Outcome.final handled := by
  intro handled c
  have hturns : (turn (R.next i))^[5] (.start, e) =
      (.done (result handled), Outcome.final handled) := by
    show _ = (Phase.done (result (createCollectionChroma _ _ _ _ _ _ _ e)),
      Outcome.final (createCollectionChroma _ _ _ _ _ _ _ e))
    unfold createCollectionChroma
    cases hv : validateCreate (R.req i) with
    | error err =>
        rw [iterate_turn_some 4 (by rw [next, hv])]
        exact turns_done R i e 4 _
    | ok u =>
        cases hg : (R.req i).getOrCreate with
        | false =>
            have hnext : R.next i .start e = some (.creating, e) := by
              rw [next, hv, hg]
              rfl
            rw [iterate_turn_some 4 hnext]
            exact turns_creating R i e 2
        | true =>
            have hnext : R.next i .start e = some (.looking, e) := by
              rw [next, hv, hg]
              rfl
            rw [iterate_turn_some 4 hnext]
            exact turns_looking R i e
  have hc : c = _ := run_replicate 5 (starting e)
  rw [hc]
  show Function.update (fun _ => Phase.start) i ((turn (R.next i))^[5] (.start, e)).1 i = _ ∧ _
  rw [Function.update_self]
  exact ⟨congrArg Prod.fst hturns, congrArg Prod.snd hturns⟩

end Requests

end Rekha.Server
