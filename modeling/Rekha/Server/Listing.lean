import Rekha.Server.Clients

/-!
# Listing while collections are created and deleted

A listing reads the catalog once and then looks each id up in the map, while a
creation and a deletion change the two in separate steps: a lookup can miss a
collection that is not in the map yet, or no longer. `listing_succeeds` says that
along every schedule that keeps this from happening a listing returns what the
catalog held when it read it, each collection once.
-/

namespace Rekha.Server.Native

open RedbCatalog Server.Engine Processes Processes.Config

def Call.drawn : Call → Option Uuid
  | .create _ id _ => some id
  | _ => none

namespace Clients

/-- A collection is looked up only when no creation has still to put it into the
map, and taken out of the map only when no listing has still to look it up. -/
def Undisturbed {ι : Type} (i : ι) (c : Config ι Engine Stage) : Prop :=
  match c.locals i with
  | .counting (record :: _) _ => ∀ j files pending, c.locals j = .opening files pending →
      pending.config.id ≠ record.config.id
  | .removing _ _ id => ∀ j records out, c.locals j = .counting records out →
      ∀ record ∈ records, record.config.id ≠ id
  | _ => True

/-- Requests to an engine that has every listed collection open, without I/O
failures and with fresh ids. -/
structure Fresh {ι : Type} (S : Clients ι) (e : Engine) : Prop where
  keyed : e.catalog.Keyed
  held : ∀ id, e.catalog.Lists id → id ∈ e.collections
  opens : ∀ i files id req, S.call i = .create files id req →
    ∃ coll, openCollection files ⟨createConfig id S.tenant S.database req, 0, 0⟩ = .ok coll
  unused : ∀ i id, (S.call i).drawn = some id → e.catalog.collections.lookup id.toString = none
  drawn_inj : ∀ i j id, (S.call i).drawn = some id → (S.call j).drawn = some id → i = j

end Clients

/-! ## Counting -/

theorem counted_ok {e : Engine} {record : CollectionRecord} {res : CollectionResponse} :
    counted e record = .ok res ↔ ∃ coll, e.collections.lookup record.config.id = some coll ∧
      res = collectionResponse record coll.count := by
  rw [counted, Engine.count, Engine.collection]
  cases e.collections.lookup record.config.id with
  | none =>
      simp only [reduceCtorEq, false_and, exists_false, iff_false]
      intro hcounted
      cases hcounted
  | some coll =>
      show Except.ok (collectionResponse record coll.count) = .ok res ↔ _
      simp only [Except.ok.injEq, Option.some.injEq, exists_eq_left', eq_comm]

theorem counted_of_mem {e : Engine} {record : CollectionRecord}
    (h : record.config.id ∈ e.collections) : ∃ res, counted e record = .ok res := by
  obtain ⟨coll, hcoll, _⟩ := collection_of_mem h
  exact ⟨_, counted_ok.mpr ⟨coll, hcoll, rfl⟩⟩

/-! ## What the listing holds -/

namespace Stage

/-- The ids a listing has returned or still goes through. -/
def listing : Stage → Option (List Uuid)
  | .counting records out =>
      some (out.map (fun res => res.id) ++ records.map fun record => record.config.id)
  | .done (.ok (.listed out)) => some (out.map fun res => res.id)
  | _ => none

end Stage

namespace Clients

variable {ι : Type} {S : Clients ι} {i : ι} {l l' : Stage} {e e' : Engine}

theorem listing_step (h : S.next i l e = some (l', e')) {ids : List Uuid}
    (hids : l'.listing = some ids) :
    l.listing = some ids ∨ (l = .start ∧
      ids = (e.listCollections S.tenant S.database).map fun record => record.config.id) := by
  cases l with
  | start =>
      refine Or.inr ⟨rfl, ?_⟩
      rw [next] at h
      repeat' split at h
      all_goals
        obtain ⟨rfl, rfl⟩ := Prod.mk.inj (Option.some.inj h)
        try cases hids
      rfl
  | opening files record =>
      rw [next] at h
      split at h
      all_goals
        obtain ⟨rfl, rfl⟩ := Prod.mk.inj (Option.some.inj h)
        cases hids
  | reading record =>
      rw [next] at h
      obtain ⟨rfl, rfl⟩ := Prod.mk.inj (Option.some.inj h)
      cases hcount : counted e record with
      | ok res =>
          rw [hcount] at hids
          cases hids
      | error err =>
          rw [hcount] at hids
          cases hids
  | removing walFile checkpointDir id =>
      obtain ⟨rfl, rfl⟩ := Prod.mk.inj (Option.some.inj h)
      cases hremove : result (removeFiles walFile checkpointDir _) with
      | ok u =>
          rw [hremove] at hids
          cases hids
      | error err =>
          rw [hremove] at hids
          cases hids
  | counting records out =>
      refine Or.inl ?_
      cases records with
      | nil =>
          obtain ⟨rfl, rfl⟩ := Prod.mk.inj (Option.some.inj h)
          rw [← hids, Stage.listing, List.map_nil, List.append_nil]
          rfl
      | cons record records =>
          rw [next] at h
          cases hcount : counted e record with
          | error err =>
              rw [hcount] at h
              obtain ⟨rfl, rfl⟩ := Prod.mk.inj (Option.some.inj h)
              cases hids
          | ok res =>
              rw [hcount] at h
              obtain ⟨rfl, rfl⟩ := Prod.mk.inj (Option.some.inj h)
              obtain ⟨coll, _, rfl⟩ := counted_ok.mp hcount
              rw [← hids]
              simp [Stage.listing, collectionResponse]
  | done res => cases h

/-! ## The invariant -/

/-- The map holds the collection, or a creation is about to put it there. -/
def Held (c : Config ι Engine Stage) (id : Uuid) : Prop :=
  id ∈ c.shared.collections ∨
    ∃ j files record, c.locals j = .opening files record ∧ record.config.id = id

end Clients

def Stage.Listing : Stage → Prop
  | .start | .counting _ _ | .done (.ok (.listed _)) => True
  | _ => False

namespace Clients

variable {ι : Type} {S : Clients ι} {c : Config ι Engine Stage} {i : ι} {l : Stage}
  {e : Engine}

/-- Every collection in the catalog, and every one a listing has still to look
up, is held; one on its way out of the map is no longer in the catalog, and an id
that a creation has drawn is not used yet. -/
structure Invariant (S : Clients ι) (c : Config ι Engine Stage) : Prop where
  keyed : c.shared.catalog.Keyed
  unused : ∀ i id, (S.call i).drawn = some id → c.locals i = .start →
    c.shared.catalog.collections.lookup id.toString = none
  distinct : ∀ i id, (S.call i).drawn = some id → c.locals i = .start →
    ∀ j walFile checkpointDir, c.locals j ≠ .removing walFile checkpointDir id
  removed : ∀ i walFile checkpointDir id, c.locals i = .removing walFile checkpointDir id →
    c.shared.catalog.collections.lookup id.toString = none
  held : ∀ id, c.shared.catalog.collections.lookup id.toString ≠ none → Held c id
  counting : ∀ i records out, c.locals i = .counting records out →
    ∀ record ∈ records, Held c record.config.id
  opens : ∀ i files record, c.locals i = .opening files record →
    ∃ coll, openCollection files record = .ok coll
  listing : ∀ i, S.call i = .list → (c.locals i).Listing

theorem invariant_starting {e₀ : Engine} (h : S.Fresh e₀) : S.Invariant (starting e₀) where
  keyed := h.keyed
  unused i id hi _ := h.unused i id hi
  distinct i id _ _ j walFile checkpointDir := Stage.noConfusion
  removed i walFile checkpointDir id hi := by cases hi
  held id hid := by
    refine Or.inl (h.held id (h.keyed.lists_iff.mpr ?_))
    exact Option.isSome_iff_ne_none.mpr hid
  counting i records out hi := by cases hi
  opens i files record hi := by cases hi
  listing i _ := trivial

variable [DecidableEq ι]

/-- What is held stays held when the map keeps it and the request was not about
to put it there. -/
theorem Held.update {id : Uuid} (h : Held c id)
    (hmap : id ∈ c.shared.collections → id ∈ e.collections)
    (hi : ∀ files record, c.locals i = .opening files record → record.config.id = id →
      id ∈ e.collections) :
    Held ⟨e, Function.update c.locals i l⟩ id := by
  rcases h with hmem | ⟨j, files, record, hj, hid⟩
  · exact Or.inl (hmap hmem)
  · by_cases hji : j = i
    · subst hji
      exact Or.inl (hi files record hj hid)
    · refine Or.inr ⟨j, files, record, ?_, hid⟩
      show Function.update c.locals i l j = _
      rw [Function.update_of_ne hji, hj]

/-- What a step has to show for the invariant. -/
structure Allowed (S : Clients ι) (c : Config ι Engine Stage) (i : ι) (l : Stage) (e : Engine) :
    Prop where
  keyed : e.catalog.Keyed
  started : l ≠ .start
  created : ∀ id, c.shared.catalog.collections.lookup id.toString = none →
    e.catalog.collections.lookup id.toString ≠ none →
      (S.call i).drawn = some id ∧ c.locals i = .start ∧ ∃ files record,
        l = .opening files record ∧ record.config.id = id
  removed : ∀ walFile checkpointDir id, l = .removing walFile checkpointDir id →
    c.shared.catalog.collections.lookup id.toString ≠ none ∧
      e.catalog.collections.lookup id.toString = none
  held : ∀ id, Held c id → Held ⟨e, Function.update c.locals i l⟩ id ∨
    (e.catalog.collections.lookup id.toString = none ∧
      ∀ j records out, c.locals j = .counting records out →
        ∀ record ∈ records, record.config.id ≠ id)
  counting : ∀ records out, l = .counting records out →
    ∀ record ∈ records, Held ⟨e, Function.update c.locals i l⟩ record.config.id
  opens : ∀ files record, l = .opening files record →
    ∃ coll, openCollection files record = .ok coll
  listing : S.call i = .list → l.Listing

theorem Invariant.update (h : S.Invariant c)
    (hinj : ∀ i j id, (S.call i).drawn = some id → (S.call j).drawn = some id → i = j)
    (ha : S.Allowed c i l e) : S.Invariant ⟨e, Function.update c.locals i l⟩ where
  keyed := ha.keyed
  unused j id hdrawn := by
    refine (Function.forall_update_iff c.locals fun j l => (S.call j).drawn = some id →
      l = .start → e.catalog.collections.lookup id.toString = none).mpr
        ⟨fun _ hl => absurd hl ha.started, fun j hj hdrawn hstart => ?_⟩ j hdrawn
    by_contra hlookup
    have hcreated := ha.created id (h.unused j id hdrawn hstart) hlookup
    exact hj (hinj j i id hdrawn hcreated.1)
  distinct j id hdrawn hstart k walFile checkpointDir := by
    have hupdate : Function.update c.locals i l j = .start := hstart
    have hj : c.locals j = .start := by
      by_cases hji : j = i
      · subst hji
        rw [Function.update_self] at hupdate
        exact absurd hupdate ha.started
      · rw [Function.update_of_ne hji] at hupdate
        exact hupdate
    refine (Function.forall_update_iff c.locals fun _ l =>
      l ≠ .removing walFile checkpointDir id).mpr ⟨fun hl => ?_, fun k _ => ?_⟩ k
    · exact (ha.removed _ _ _ hl).1 (h.unused j id hdrawn hj)
    · exact h.distinct j id hdrawn hj k walFile checkpointDir
  removed j walFile checkpointDir id := by
    refine (Function.forall_update_iff c.locals fun _ l =>
      l = .removing walFile checkpointDir id →
        e.catalog.collections.lookup id.toString = none).mpr
        ⟨fun hl => (ha.removed _ _ _ hl).2, fun j _ hj => ?_⟩ j
    by_contra hlookup
    obtain ⟨hdrawn, hstart, _⟩ := ha.created id (h.removed j _ _ _ hj) hlookup
    exact h.distinct i id hdrawn hstart j walFile checkpointDir hj
  held id hid := by
    by_cases hlookup : c.shared.catalog.collections.lookup id.toString = none
    · obtain ⟨_, _, files, record, hl, hrecord⟩ := ha.created id hlookup hid
      refine Or.inr ⟨i, files, record, ?_, hrecord⟩
      show Function.update c.locals i l i = _
      rw [Function.update_self, hl]
    · rcases ha.held id (h.held id hlookup) with hheld | ⟨hnone, _⟩
      · exact hheld
      · exact absurd hnone hid
  counting j records out := by
    refine (Function.forall_update_iff c.locals fun _ l => l = .counting records out →
      ∀ record ∈ records, Held _ record.config.id).mpr
        ⟨ha.counting records out, fun j _ hj record hmem => ?_⟩ j
    rcases ha.held _ (h.counting j records out hj record hmem) with hheld | ⟨_, hnone⟩
    · exact hheld
    · exact absurd rfl (hnone j records out hj record hmem)
  opens j files record :=
    (Function.forall_update_iff c.locals fun _ l => l = .opening files record →
      ∃ coll, openCollection files record = .ok coll).mpr
        ⟨ha.opens files record, fun j _ => h.opens j files record⟩ j
  listing j hlist :=
    (Function.forall_update_iff c.locals fun j l => S.call j = .list → l.Listing).mpr
      ⟨ha.listing, fun j _ => h.listing j⟩ j hlist

theorem allowed_quiet (h : S.Invariant c)
    (hl : ∀ files record, c.locals i ≠ .opening files record) (hstarted : l ≠ .start)
    (hopening : ∀ files record, l ≠ .opening files record)
    (hremoving : ∀ walFile checkpointDir id, l ≠ .removing walFile checkpointDir id)
    (hcounting : ∀ records out, l = .counting records out →
      ∀ record ∈ records, Held c record.config.id)
    (hlisting : S.call i = .list → l.Listing) : S.Allowed c i l c.shared where
  keyed := h.keyed
  started := hstarted
  created _ hnone hsome := absurd hnone hsome
  removed _ _ _ hl' := absurd hl' (hremoving _ _ _)
  held _ hheld := Or.inl (hheld.update (fun hmem => hmem) fun files record hi =>
    absurd hi (hl files record))
  counting records out hl' record hmem :=
    (hcounting records out hl' record hmem).update (fun hmem => hmem) fun files record hi =>
      absurd hi (hl files record)
  opens files record hl' := absurd hl' (hopening files record)
  listing := hlisting

theorem allowed_failed (h : S.Invariant c)
    (hl : ∀ files record, c.locals i ≠ .opening files record) (hcall : S.call i ≠ .list)
    (res : Except EngineError Reply) :
    S.Allowed c i (.done res) c.shared :=
  allowed_quiet h hl Stage.noConfusion (fun _ _ => Stage.noConfusion)
    (fun _ _ _ => Stage.noConfusion) (fun _ _ => Stage.noConfusion) fun hlist => absurd hlist hcall

theorem allowed_create (h : S.Invariant c) {files : Opening} {id : Uuid}
    {req : CreateCollectionRequest} (hcall : S.call i = .create files id req)
    (hl : c.locals i = .start)
    (hacc : c.shared.catalog.Accepts none (createConfig id S.tenant S.database req))
    (hopen : ∃ coll, openCollection files ⟨createConfig id S.tenant S.database req, 0, 0⟩ =
      .ok coll) :
    S.Allowed c i (.opening files ⟨createConfig id S.tenant S.database req, 0, 0⟩)
      { c.shared with
        catalog := c.shared.catalog.withCollection (createConfig id S.tenant S.database req) } where
  keyed := h.keyed.effect (.create _ hacc.1 hacc.2.2)
  started := Stage.noConfusion
  created id' hnone hsome := by
    rw [lookup_withCollection] at hsome
    split at hsome
    · rename_i hid
      obtain rfl : id' = id := hid
      refine ⟨?_, hl, files, _, rfl, rfl⟩
      rw [hcall]
      rfl
    · exact absurd hnone hsome
  removed _ _ _ := Stage.noConfusion
  held _ hheld := Or.inl (hheld.update (fun hmem => hmem) fun _ _ hi => by
    rw [hl] at hi
    cases hi)
  counting _ _ := Stage.noConfusion
  opens _ _ hl' := by
    obtain ⟨rfl, rfl⟩ := Stage.opening.inj hl'
    exact hopen
  listing hlist := by
    rw [hcall] at hlist
    cases hlist

theorem allowed_delete (h : S.Invariant c) {walFile checkpointDir : Removal} {id : Uuid}
    (hcall : S.call i = .delete walFile checkpointDir id) (hl : c.locals i = .start)
    {record : CollectionRecord}
    (hrecord : c.shared.catalog.collections.lookup id.toString = some record) :
    S.Allowed c i (.removing walFile checkpointDir id)
      { c.shared with catalog := c.shared.catalog.withoutCollection id record } where
  keyed := h.keyed.effect (.delete id record hrecord)
  started := Stage.noConfusion
  created id' hnone hsome := by
    rw [lookup_withoutCollection] at hsome
    split at hsome
    · exact absurd rfl hsome
    · exact absurd hnone hsome
  removed _ _ id' hl' := by
    obtain ⟨_, _, rfl⟩ := Stage.removing.inj hl'
    rw [hrecord, lookup_withoutCollection, if_pos rfl]
    exact ⟨Option.some_ne_none record, rfl⟩
  held _ hheld := Or.inl (hheld.update (fun hmem => hmem) fun _ _ hi => by
    rw [hl] at hi
    cases hi)
  counting _ _ := Stage.noConfusion
  opens _ _ := Stage.noConfusion
  listing hlist := by
    rw [hcall] at hlist
    cases hlist

theorem allowed_insert (h : S.Invariant c) {files : Opening} {record : CollectionRecord}
    (hl : c.locals i = .opening files record) (coll : Collection) :
    S.Allowed c i (.reading record)
      { c.shared with collections := c.shared.collections.insert record.config.id coll } where
  keyed := h.keyed
  started := Stage.noConfusion
  created _ hnone hsome := absurd hnone hsome
  removed _ _ _ := Stage.noConfusion
  held id hheld := by
    refine Or.inl (hheld.update (fun hmem => ?_) fun files' record' hi hid => ?_)
    · exact (AList.mem_insert _).mpr (Or.inr hmem)
    · rw [hl] at hi
      obtain ⟨_, rfl⟩ := Stage.opening.inj hi
      exact (AList.mem_insert _).mpr (Or.inl hid.symm)
  counting _ _ := Stage.noConfusion
  opens _ _ := Stage.noConfusion
  listing hlist := by
    have hlisting := h.listing i hlist
    rw [hl] at hlisting
    exact hlisting.elim

/-- A deletion takes its collection out of the map, which no listing has still to
look up. -/
theorem allowed_erase (h : S.Invariant c) {walFile checkpointDir : Removal} {id : Uuid}
    (hl : c.locals i = .removing walFile checkpointDir id)
    (hcounting : ∀ j records out, c.locals j = .counting records out →
      ∀ record ∈ records, record.config.id ≠ id) (res : Except EngineError Reply) :
    S.Allowed c i (.done res)
      { c.shared with collections := c.shared.collections.erase id } where
  keyed := h.keyed
  started := Stage.noConfusion
  created _ hnone hsome := absurd hnone hsome
  removed _ _ _ := Stage.noConfusion
  held id' hheld := by
    by_cases hid : id' = id
    · subst hid
      exact Or.inr ⟨h.removed i _ _ _ hl, hcounting⟩
    · refine Or.inl (hheld.update (fun hmem => ?_) fun _ _ hi => ?_)
      · exact AList.mem_erase.mpr ⟨hid, hmem⟩
      · rw [hl] at hi
        cases hi
  counting _ _ := Stage.noConfusion
  opens _ _ := Stage.noConfusion
  listing hlist := by
    have hlisting := h.listing i hlist
    rw [hl] at hlisting
    exact hlisting.elim

theorem Invariant.next_allowed {e₀ : Engine} (hfresh : S.Fresh e₀) (h : S.Invariant c)
    (hnext : S.next i (c.locals i) c.shared = some (l, e)) (ha : S.Allowed c i l e) :
    S.Invariant (c.step S.next i) := by
  rw [step_some hnext]
  exact h.update hfresh.drawn_inj ha

/-- The first turn of a request: validation and its catalog transaction, or the
listing of the catalog. -/
theorem Invariant.step_start {e₀ : Engine} (hfresh : S.Fresh e₀) (h : S.Invariant c)
    (hl : c.locals i = .start) : S.Invariant (c.step S.next i) := by
  have hquiet : ∀ files record, c.locals i ≠ .opening files record := by
    rw [hl]
    exact fun _ _ => Stage.noConfusion
  cases hcall : S.call i with
  | create files id req =>
      have hne : S.call i ≠ .list := by
        rw [hcall]
        exact Call.noConfusion
      cases hvalid : validateCreate req with
      | error err =>
          refine h.next_allowed hfresh ?_ (allowed_failed h hquiet hne (.error err))
          rw [hl, next, hcall]
          simp only [hvalid]
      | ok u =>
          by_cases hacc : c.shared.catalog.Accepts none
              (createConfig id S.tenant S.database req)
          · have hopen := hfresh.opens i files id req hcall
            refine h.next_allowed hfresh ?_ (allowed_create h hcall hl hacc hopen)
            rw [hl, next, hcall]
            simp only [hvalid, createCollection_accepted hacc]
          · obtain ⟨err, herr⟩ := createCollection_rejected hacc
            refine h.next_allowed hfresh ?_ (allowed_failed h hquiet hne (.error (.catalog err)))
            rw [hl, next, hcall]
            simp only [hvalid, herr]
  | delete walFile checkpointDir id =>
      cases hdelete : RedbCatalog.deleteCollection none id c.shared.catalog with
      | error err catalog =>
          have hne : S.call i ≠ .list := by
            rw [hcall]
            exact Call.noConfusion
          refine h.next_allowed hfresh ?_ (allowed_failed h hquiet hne (.error (.catalog err)))
          rw [hl, next, hcall]
          simp only [hdelete, writeTxn_error hdelete]
      | ok u catalog =>
          obtain ⟨_, record, hrecord, rfl⟩ := deleteCollection_ok.mp hdelete
          refine h.next_allowed hfresh ?_ (allowed_delete h hcall hl hrecord)
          rw [hl, next, hcall]
          simp only [hdelete]
  | list =>
      have hnext : S.next i (c.locals i) c.shared =
          some (.counting (c.shared.listCollections S.tenant S.database) [], c.shared) := by
        rw [hl, next, hcall]
      refine h.next_allowed hfresh hnext (allowed_quiet h hquiet Stage.noConfusion
        (fun _ _ => Stage.noConfusion) (fun _ _ _ => Stage.noConfusion) ?_ fun _ => trivial)
      intro records out hcounting record hmem
      obtain ⟨rfl, _⟩ := Stage.counting.inj hcounting
      obtain ⟨s, hs⟩ := mem_listCollectionsAll.mp (List.mem_of_mem_filter hmem)
      obtain rfl := h.keyed s record hs
      exact h.held _ (by rw [hs]; exact Option.some_ne_none record)

/-- A listing looks up the next collection, which no creation is about to put into
the map. -/
theorem Invariant.step_counting {e₀ : Engine} (hfresh : S.Fresh e₀) (h : S.Invariant c)
    {records : List CollectionRecord} {out : List CollectionResponse}
    (hl : c.locals i = .counting records out) (hundisturbed : Undisturbed i c) :
    S.Invariant (c.step S.next i) := by
  have hquiet : ∀ files record, c.locals i ≠ .opening files record := by
    rw [hl]
    exact fun _ _ => Stage.noConfusion
  have hheld := h.counting i records out hl
  cases records with
  | nil =>
      have hnext : S.next i (c.locals i) c.shared =
          some (.done (.ok (.listed out)), c.shared) := by
        rw [hl, next]
      exact h.next_allowed hfresh hnext (allowed_quiet h hquiet Stage.noConfusion
        (fun _ _ => Stage.noConfusion) (fun _ _ _ => Stage.noConfusion)
        (fun _ _ => Stage.noConfusion) fun _ => trivial)
  | cons record records =>
      rw [Undisturbed, hl] at hundisturbed
      have hmem : record.config.id ∈ c.shared.collections := by
        rcases hheld record List.mem_cons_self with hmem | ⟨j, files, pending, hj, hid⟩
        · exact hmem
        · exact absurd hid (hundisturbed j files pending hj)
      obtain ⟨res, hres⟩ := counted_of_mem hmem
      have hnext : S.next i (c.locals i) c.shared =
          some (.counting records (out ++ [res]), c.shared) := by
        rw [hl, next, hres]
      refine h.next_allowed hfresh hnext (allowed_quiet h hquiet Stage.noConfusion
        (fun _ _ => Stage.noConfusion) (fun _ _ _ => Stage.noConfusion) ?_ fun _ => trivial)
      intro records' out' hcounting record' hmem'
      obtain ⟨rfl, _⟩ := Stage.counting.inj hcounting
      exact hheld record' (List.mem_cons_of_mem record hmem')

theorem Invariant.step {e₀ : Engine} (hfresh : S.Fresh e₀) (h : S.Invariant c)
    (hundisturbed : Undisturbed i c) : S.Invariant (c.step S.next i) := by
  cases hl : c.locals i with
  | start => exact h.step_start hfresh hl
  | opening files record =>
      obtain ⟨coll, hopen⟩ := h.opens i files record hl
      exact h.next_allowed hfresh (by rw [hl, next, hopen]) (allowed_insert h hl coll)
  | reading record =>
      refine h.next_allowed hfresh (by rw [hl, next]) (allowed_failed h ?_ ?_ _)
      · rw [hl]
        exact fun _ _ => Stage.noConfusion
      · intro hlist
        have hlisting := h.listing i hlist
        rw [hl] at hlisting
        exact hlisting.elim
  | removing walFile checkpointDir id =>
      rw [Undisturbed, hl] at hundisturbed
      exact h.next_allowed hfresh (by rw [hl, next]) (allowed_erase h hl hundisturbed _)
  | counting records out => exact h.step_counting hfresh hl hundisturbed
  | done res =>
      rw [step_none (by rw [hl, next])]
      exact h

/-! ## What a listing returns -/

/-- The catalog has the collection in the server's scope. -/
def Shows (S : Clients ι) (e : Engine) (id : Uuid) : Prop :=
  ∃ record, e.catalog.collections.lookup id.toString = some record ∧
    record.config.tenant = S.tenant ∧ record.config.database = S.database

omit [DecidableEq ι] in
theorem mem_listing (S : Clients ι) (h : e.catalog.Keyed) (id : Uuid) :
    id ∈ (e.listCollections S.tenant S.database).map (fun record => record.config.id) ↔
      S.Shows e id := by
  simp only [Engine.listCollections, RedbCatalog.listCollections, List.mem_map, List.mem_filter,
    mem_listCollectionsAll, Bool.and_eq_true, decide_eq_true_eq]
  constructor
  · rintro ⟨record, ⟨⟨s, hs⟩, hscope⟩, rfl⟩
    obtain rfl := h s record hs
    exact ⟨record, hs, hscope⟩
  · rintro ⟨record, hs, hscope⟩
    exact ⟨record, ⟨⟨_, hs⟩, hscope⟩, hexText.toString_inj.mp (h _ record hs)⟩

theorem nodup_listing (h : e.catalog.Keyed) (tenant database : String) :
    ((e.listCollections tenant database).map fun record => record.config.id).Nodup := by
  have hkeys :
      (e.catalog.listCollectionsAll.map fun record => record.config.id.toString).Nodup := by
    have hperm := List.mergeSort_perm e.catalog.collections.entries
      fun a b => decide (a.1 ≤ b.1)
    rw [RedbCatalog.listCollectionsAll, List.map_map]
    refine (hperm.map _).nodup_iff.mpr ?_
    have hfst : e.catalog.collections.entries.map
        ((fun record => record.config.id.toString) ∘ Sigma.snd) =
          e.catalog.collections.entries.map Sigma.fst :=
      List.map_congr_left fun p hp => h p.1 p.2 (FinMap.mem_entries_iff.mp hp)
    rw [hfst]
    exact e.catalog.collections.nodupKeys
  have hids : (e.catalog.listCollectionsAll.map fun record => record.config.id).Nodup := by
    refine List.Nodup.of_map Uuid.toString ?_
    rw [List.map_map]
    exact hkeys
  exact hids.sublist (List.filter_sublist.map _)

/-- A listing under way was started by a turn, and goes through what the catalog
listed then. -/
theorem listed_at (S : Clients ι) (e₀ : Engine) (sched : List ι) (i : ι) (ids : List Uuid)
    (h : (((starting e₀).run S.next sched).locals i).listing = some ids) :
    ∃ pre, pre ++ [i] <+: sched ∧ ((starting e₀).run S.next pre).locals i = .start ∧
      ids = (((starting e₀).run S.next pre).shared.listCollections S.tenant S.database).map
        fun record => record.config.id := by
  induction sched using List.reverseRecOn with
  | nil => cases h
  | append_singleton sched j ih =>
      have hold : (((starting e₀).run S.next sched).locals i).listing = some ids →
          ∃ pre, pre ++ [i] <+: sched ++ [j] ∧ _ := fun hids => by
        obtain ⟨pre, hpre, hat⟩ := ih hids
        exact ⟨pre, hpre.trans (List.prefix_append sched [j]), hat⟩
      rw [run_snoc] at h
      by_cases hij : i = j
      · subst hij
        cases hnext : S.next i (((starting e₀).run S.next sched).locals i)
            ((starting e₀).run S.next sched).shared with
        | none =>
            rw [step_none hnext] at h
            exact hold h
        | some p =>
            rw [locals_step_self hnext] at h
            rcases listing_step hnext h with hids | hstart
            · exact hold hids
            · exact ⟨sched, List.prefix_rfl, hstart⟩
      · rw [locals_step_of_ne hij] at h
        exact hold h

/-! ## Progress -/

end Clients

namespace Stage

/-- A listing past its first step, or any request that is through. -/
def Counts : Stage → Prop
  | .counting _ _ | .done _ => True
  | _ => False

/-- How many steps such a request has left. -/
def left : Stage → ℕ
  | .counting records _ => records.length + 1
  | _ => 0

end Stage

namespace Clients

variable {ι : Type} [DecidableEq ι] {S : Clients ι} {c : Config ι Engine Stage} {i : ι}

omit [DecidableEq ι] in
theorem left_falls {l l' : Stage} {e e' : Engine} (hl : l.Counts)
    (h : S.next i l e = some (l', e')) : l'.Counts ∧ l'.left < l.left := by
  cases l with
  | counting records out =>
      cases records with
      | nil =>
          obtain ⟨rfl, rfl⟩ := Prod.mk.inj (Option.some.inj h)
          exact ⟨trivial, Nat.zero_lt_one⟩
      | cons record records =>
          rw [next] at h
          split at h
          · obtain ⟨rfl, rfl⟩ := Prod.mk.inj (Option.some.inj h)
            exact ⟨trivial, Nat.succ_pos _⟩
          · obtain ⟨rfl, rfl⟩ := Prod.mk.inj (Option.some.inj h)
            exact ⟨trivial, Nat.lt_succ_self _⟩
  | done res => cases h
  | start | opening | reading | removing => exact hl.elim

omit [DecidableEq ι] in
theorem left_of_none {l : Stage} {e : Engine} (hl : l.Counts) (h : S.next i l e = none) :
    l.left = 0 := by
  cases l with
  | done res => rfl
  | counting records out =>
      cases records with
      | nil => cases h
      | cons record records =>
          rw [next] at h
          split at h
          · cases h
          · cases h
  | start | opening | reading | removing => exact hl.elim

/-- After its first turn a listing needs one turn for each collection and one
more. -/
theorem listing_finishes (hlist : S.call i = .list) (hl : c.locals i = .start) {suf : List ι}
    (hcount : (c.shared.listCollections S.tenant S.database).length + 1 ≤ suf.count i) :
    ∃ res, (c.run S.next (i :: suf)).locals i = .done res := by
  have hnext : S.next i (c.locals i) c.shared =
      some (.counting (c.shared.listCollections S.tenant S.database) [], c.shared) := by
    rw [hl, next, hlist]
  have hlocals := locals_step_self hnext
  obtain ⟨hcounts, hleft⟩ : Stage.Counts _ ∧ Stage.left _ ≤ _ :=
    rank_run (fun _ _ _ _ hl h => left_falls (S := S) hl h) (fun _ _ hl h => left_of_none hl h)
      suf (c.step S.next i) (by rw [hlocals]; trivial)
  rw [hlocals, Stage.left] at hleft
  rw [run_cons]
  cases hend : ((c.step S.next i).run S.next suf).locals i with
  | done res => exact ⟨res, rfl⟩
  | counting records out =>
      rw [hend, Stage.left] at hleft
      omega
  | start | opening | reading | removing =>
      rw [hend] at hcounts
      exact hcounts.elim

/-! ## The result -/

/-- The listing returned each collection the catalog had at its first step once. -/
def Complete (S : Clients ι) (e₀ : Engine) (sched : List ι) (i : ι)
    (out : List CollectionResponse) : Prop :=
  ∃ pre, pre ++ [i] <+: sched ∧ ((starting e₀).run S.next pre).locals i = .start ∧
    (out.map fun res => res.id).Nodup ∧
    ∀ id, id ∈ out.map (fun res => res.id) ↔ S.Shows ((starting e₀).run S.next pre).shared id

/-- Along a schedule in which no collection is looked up before it is put into the
map or after it is taken out, every listing returns what the catalog held at its
first step. -/
theorem listing_succeeds (S : Clients ι) (e₀ : Engine) (sched : List ι) (hfresh : S.Fresh e₀)
    (hundisturbed : Along S.next Undisturbed sched (starting e₀)) (i : ι)
    (hlist : S.call i = .list) :
    (∀ res, ((starting e₀).run S.next sched).locals i = .done res →
      ∃ out, res = .ok (.listed out) ∧ S.Complete e₀ sched i out) ∧
    ∀ pre suf, sched = pre ++ i :: suf → ((starting e₀).run S.next pre).locals i = .start →
      (((starting e₀).run S.next pre).shared.listCollections S.tenant S.database).length + 1 ≤
        suf.count i →
      ∃ res, ((starting e₀).run S.next sched).locals i = .done res := by
  have hinv : ∀ pre, pre <+: sched → S.Invariant ((starting e₀).run S.next pre) := by
    rintro pre ⟨suf, rfl⟩
    exact Along.invariant (fun i c h hturn => h.step hfresh hturn) (invariant_starting hfresh)
      hundisturbed.of_append
  refine ⟨fun res hdone => ?_, ?_⟩
  · have hlisting := (hinv sched List.prefix_rfl).listing i hlist
    rw [hdone] at hlisting
    obtain ⟨out, rfl⟩ : ∃ out, res = .ok (.listed out) := by
      rcases res with err | ⟨res⟩ | _ | out
      · exact hlisting.elim
      · exact hlisting.elim
      · exact hlisting.elim
      · exact ⟨out, rfl⟩
    obtain ⟨pre, hpre, hat, hids⟩ := listed_at S e₀ sched i (out.map fun res => res.id)
      (by rw [hdone]; rfl)
    have hkeyed := (hinv pre ((List.prefix_append pre [i]).trans hpre)).keyed
    refine ⟨out, rfl, pre, hpre, hat, ?_, fun id => ?_⟩
    · rw [hids]
      exact nodup_listing hkeyed _ _
    · rw [hids]
      exact S.mem_listing hkeyed id
  · rintro pre suf rfl hl hcount
    rw [run_append]
    exact listing_finishes hlist hl hcount

/-- One client creates a collection while another lists, on an engine without
collections. -/
def demoClients (order : HashOrder) : Clients Bool where
  tenant := "default_tenant"
  database := "default_database"
  call b := if b then .list else
    .create (.files WalFile.empty {} order) ⟨1⟩ ⟨"demo", 1, .l2⟩

def demoRecord : CollectionRecord :=
  ⟨createConfig ⟨1⟩ "default_tenant" "default_database" ⟨"demo", 1, .l2⟩, 0, 0⟩

theorem listCollections_demo (collections : FinMap Uuid Collection) :
    Engine.listCollections ⟨RedbCatalog.withCollection {} demoRecord.config, collections⟩
      "default_tenant" "default_database" = [demoRecord] := by
  have hentries : (RedbCatalog.withCollection {} demoRecord.config).collections.entries =
      [⟨demoRecord.config.id.toString, demoRecord⟩] := rfl
  rw [Engine.listCollections, RedbCatalog.listCollections, RedbCatalog.listCollectionsAll,
    hentries, List.mergeSort_singleton]
  rfl

theorem run_demo (order : HashOrder) : (starting {}).run (demoClients order).next [false, true] =
    ⟨⟨RedbCatalog.withCollection {} demoRecord.config, ∅⟩, fun b => if b
      then .counting [demoRecord] []
      else .opening (.files WalFile.empty {} order) demoRecord⟩ := by
  have hcreate : (starting {}).step (demoClients order).next false =
      ⟨⟨RedbCatalog.withCollection {} demoRecord.config, ∅⟩, _⟩ := step_some rfl
  have hlist : (demoClients order).next true .start
      ⟨RedbCatalog.withCollection {} demoRecord.config, ∅⟩ = some (.counting [demoRecord] [], _) :=
    congrArg (fun records => some (Stage.counting records [], _)) (listCollections_demo ∅)
  rw [run_cons, run_cons, hcreate, step_some hlist]
  refine congrArg (Config.mk _) (funext fun b => ?_)
  cases b with
  | false => rfl
  | true => rfl

theorem fresh_demo (order : HashOrder) : (demoClients order).Fresh {} where
  keyed := keyed_empty
  held id hid := by
    obtain ⟨record, hmem, _⟩ := hid
    obtain ⟨s, hs⟩ := mem_listCollectionsAll.mp hmem
    cases hs
  opens i files id req hcall := by
    cases i with
    | false =>
        obtain ⟨rfl, rfl, rfl⟩ := Call.create.inj hcall
        exact ⟨_, rfl⟩
    | true => cases hcall
  unused _ _ _ := rfl
  drawn_inj i j id hi hj := by
    cases i with
    | true => cases hi
    | false =>
        cases j with
        | true => cases hj
        | false => rfl

/-- The listing looks the collection up before its creation has put it into the
map. -/
theorem listing_fails :
    let S := demoClients ⟨fun m => m.entries, fun _ => List.Perm.refl _⟩
    S.Fresh {} ∧ S.call true = .list ∧ ((starting {}).run S.next [false, true, true]).locals true =
      .done (.error (.collectionNotFound (Uuid.toString ⟨1⟩))) := by
  intro S
  refine ⟨fresh_demo _, rfl, ?_⟩
  show (((starting {}).run S.next [false, true]).step S.next true).locals true = _
  rw [run_demo]
  rfl

theorem listing_succeeds_demo :
    let S := demoClients ⟨fun m => m.entries, fun _ => List.Perm.refl _⟩
    let sched := [false, true, false, true, true, false]
    (∀ res, ((starting {}).run S.next sched).locals true = .done res →
      ∃ out, res = .ok (.listed out) ∧ S.Complete {} sched true out) ∧
    ∀ pre suf, sched = pre ++ true :: suf → ((starting {}).run S.next pre).locals true = .start →
      (((starting {}).run S.next pre).shared.listCollections "default_tenant"
        "default_database").length + 1 ≤ suf.count true →
      ∃ res, ((starting {}).run S.next sched).locals true = .done res := by
  intro S
  refine listing_succeeds S {} _ (fresh_demo _) ?_ true rfl
  refine ⟨trivial, trivial, ?_⟩
  show Along _ _ _ ((starting {}).run S.next [false, true])
  rw [run_demo]
  refine ⟨trivial, ?_, trivial, trivial, trivial⟩
  intro j files pending hj
  cases j with
  | false => cases hj
  | true => cases hj

end Clients

end Rekha.Server.Native
