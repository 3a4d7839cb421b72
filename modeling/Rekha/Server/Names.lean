import Rekha.Server.Isolation

/-!
# Reaching a collection by its name

A created collection stays under its name until it is deleted, whatever other
collections come and go. The record routes look a name up only if it does not
read as an id, so one that does leads to the collection with that id, or
nowhere: `reached_by_name_iff`.
-/

namespace Rekha.Server

open RedbCatalog Outcome Server.Engine

/-! ## A collection under its name -/

/-- The collection stands in both tables of a sound catalog. -/
structure Named (id : Uuid) (key : String × String × String) (e : Engine) : Prop where
  keyed : e.catalog.Keyed
  names : e.catalog.NamesAgree
  record : ∃ record, e.catalog.collections.lookup id.toString = some record ∧
    record.config.nameKey = key

/-- The call neither deletes the collection nor draws an id that is in use. -/
def Spares (id : Uuid) (a : LifecycleCall) (e : Engine) : Prop :=
  match a with
  | .create _ _ config => e.catalog.collections.lookup config.id.toString = none
  | .delete _ _ _ deleted => deleted ≠ id

theorem Named.withCollection {id : Uuid} {key : String × String × String} {e : Engine}
    (h : Named id key e) {config : CollectionConfig} {fault : Option String}
    (hacc : e.catalog.Accepts fault config)
    (hunused : e.catalog.collections.lookup config.id.toString = none)
    (collections : FinMap Uuid Collection) :
    Named id key ⟨e.catalog.withCollection config, collections⟩ := by
  refine ⟨h.keyed.effect (.create config hacc.1 hacc.2.2),
    NamesAgree.withCollection h.names hunused hacc.2.2, ?_⟩
  obtain ⟨record, hrecord, hkey⟩ := h.record
  have hne : id ≠ config.id := by
    rintro rfl
    rw [hunused] at hrecord
    cases hrecord
  refine ⟨record, ?_, hkey⟩
  rw [lookup_withCollection, if_neg hne, hrecord]

theorem Named.after {id : Uuid} {key : String × String × String} {e : Engine}
    (h : Named id key e) {a : LifecycleCall} (ha : Spares id a e) : Named id key (a.after e) := by
  cases a with
  | create fault opening config =>
      rcases LifecycleCall.after_create fault opening config e with
        ⟨_, heq⟩ | ⟨hacc, _, heq⟩ | ⟨hacc, _, _, heq⟩
      · rw [heq]
        exact h
      · rw [heq]
        exact h.withCollection hacc ha _
      · rw [heq]
        exact h.withCollection hacc ha _
  | delete fault walFile checkpointDir deleted =>
      rcases LifecycleCall.after_delete fault walFile checkpointDir deleted e with
        heq | ⟨gone, hgone, heq⟩
      · rw [heq]
        exact h
      · rw [heq]
        obtain ⟨record, hrecord, hkey⟩ := h.record
        refine ⟨h.keyed.effect (.delete deleted gone hgone), h.names.erase hgone, record, ?_, hkey⟩
        rw [lookup_withoutCollection, if_neg (Ne.symm ha), hrecord]

theorem Named.afterAll {id : Uuid} {key : String × String × String} {e : Engine}
    (h : Named id key e) {calls : List LifecycleCall}
    (hspares : ∀ pre a, pre ++ [a] <+: calls → Spares id a (e.afterAll pre)) :
    Named id key (e.afterAll calls) := by
  induction calls using List.reverseRecOn with
  | nil => exact h
  | append_singleton calls a ih =>
      rw [Engine.afterAll_snoc]
      apply Named.after
      · exact ih fun pre a hpre => hspares pre a (hpre.trans (List.prefix_append _ _))
      · exact hspares calls a (List.prefix_refl _)

/-! ## Creation -/

theorem createCollectionChroma_ok {text : UuidText} {fault : Option String} {opening : Opening}
    {drawn : Uuid} {tenant database : String} {req : ChromaCreateCollectionRequest}
    {e e' : Engine} {status : ℕ} {res : ChromaCollectionResponse}
    (h : createCollectionChroma text fault opening drawn tenant database req e =
      .ok (status, res) e') :
    (∃ record, e.getCollection text tenant database req.name = .ok (some record) ∧
      status = 200 ∧ res = chromaResponse record ∧ e' = e) ∨
    (e.catalog.Accepts fault (chromaConfig drawn tenant database req) ∧ status = 201 ∧
      res = chromaResponse ⟨chromaConfig drawn tenant database req, 0, 0⟩ ∧
      ∃ coll, e' = ⟨e.catalog.withCollection (chromaConfig drawn tenant database req),
        e.collections.insert drawn coll⟩) := by
  obtain ⟨_, e₁, hvalid, h⟩ := bind_ok.mp h
  obtain ⟨_, rfl⟩ := ofExcept_ok.mp hvalid
  obtain ⟨_, e₁, hget, h⟩ := bind_ok.mp h
  obtain ⟨rfl, rfl⟩ := get_ok.mp hget
  obtain ⟨found, e₁, hfound, h⟩ := bind_ok.mp h
  have hmade : ∀ e₁, (do
      let record ← Engine.createCollection fault opening (chromaConfig drawn tenant database req)
      pure (201, chromaResponse record) : ServerM (ℕ × ChromaCollectionResponse)) e₁ =
        .ok (status, res) e' →
      e₁.catalog.Accepts fault (chromaConfig drawn tenant database req) ∧ status = 201 ∧
        res = chromaResponse ⟨chromaConfig drawn tenant database req, 0, 0⟩ ∧
        ∃ coll, e' = ⟨e₁.catalog.withCollection (chromaConfig drawn tenant database req),
          e₁.collections.insert drawn coll⟩ := by
    intro e₁ h
    obtain ⟨record, e₂, hcreate, h⟩ := bind_ok.mp h
    obtain ⟨hacc, rfl, coll, _, rfl⟩ := Engine.createCollection_ok.mp hcreate
    obtain ⟨hpair, rfl⟩ := pure_ok.mp h
    obtain ⟨rfl, rfl⟩ := Prod.mk.inj hpair
    exact ⟨hacc, rfl, rfl, coll, rfl⟩
  obtain ⟨hlookup, rfl⟩ := ofExcept_ok.mp hfound
  cases found with
  | none => exact Or.inr (hmade _ h)
  | some record =>
      obtain ⟨hpair, rfl⟩ := pure_ok.mp h
      obtain ⟨rfl, rfl⟩ := Prod.mk.inj hpair
      split at hlookup
      · exact Or.inl ⟨record, hlookup, rfl, rfl, rfl⟩
      · cases hlookup

theorem record_of_getCollection {text : UuidText} {tenant database name : String} {e : Engine}
    {record : CollectionRecord} (hkeyed : e.catalog.Keyed) (hnames : e.catalog.NamesAgree)
    (h : e.getCollection text tenant database name = .ok (some record)) :
    e.catalog.collections.lookup record.config.id.toString = some record ∧
      record.config.nameKey = (tenant, database, name) := by
  cases hs : e.catalog.collectionByName.lookup (tenant, database, name) with
  | none =>
      rw [Engine.getCollection, getCollection_of_none text hs] at h
      cases h
  | some s =>
      obtain ⟨found, hfound, hname⟩ := (hnames _ _).mp hs
      rw [Engine.getCollection, getCollection_of_lookup text hkeyed hs hfound] at h
      obtain rfl := Option.some.inj (Except.ok.inj h)
      rw [hkeyed s found hfound]
      exact ⟨hfound, hname⟩

/-- A creation that succeeds returns the collection under the name, an old one or
the one it made. -/
theorem createCollectionChroma_named {text : UuidText} {fault : Option String}
    {opening : Opening} {drawn id : Uuid} {tenant database : String}
    {req : ChromaCreateCollectionRequest} {e e' : Engine} {status : ℕ}
    {res : ChromaCollectionResponse} (hkeyed : e.catalog.Keyed) (hnames : e.catalog.NamesAgree)
    (hdrawn : e.catalog.collections.lookup drawn.toString = none)
    (h : createCollectionChroma text fault opening drawn tenant database req e =
      .ok (status, res) e') (hid : res.id = id.toString) :
    Named id (tenant, database, req.name) e' := by
  rcases createCollectionChroma_ok h with
    ⟨record, hfound, _, rfl, rfl⟩ | ⟨hacc, _, rfl, coll, rfl⟩
  · obtain rfl := hexText.toString_inj.mp hid
    obtain ⟨hrecord, hname⟩ := record_of_getCollection hkeyed hnames hfound
    exact ⟨hkeyed, hnames, record, hrecord, hname⟩
  · obtain rfl := hexText.toString_inj.mp hid
    refine ⟨hkeyed.effect (.create _ hacc.1 hacc.2.2),
      NamesAgree.withCollection hnames hdrawn hacc.2.2, _, AList.lookup_insert _, rfl⟩

/-! ## Resolution -/

/-- The routes addressed by the name act on the collection shown under it. -/
structure Reached (text : UuidText) (id : Uuid) (tenant database name : String) (e : Engine) :
    Prop where
  resolves : resolveCollection text e tenant database name = .ok id
  shown : ∃ res, getCollectionChroma text e tenant database name = .ok res ∧
    res.id = id.toString

theorem Named.reached_iff {text : UuidText} {id : Uuid} {tenant database name : String}
    {e : Engine} (h : Named id (tenant, database, name) e) :
    Reached text id tenant database name e ↔ ∀ u, text.parseStr name = .ok u → u = id := by
  obtain ⟨record, hrecord, hkey⟩ := h.record
  have hid : record.config.id = id := record_of_id h.keyed hrecord
  have hs := h.names.lookup_name hrecord
  rw [hkey] at hs
  have hget := getCollection_of_lookup text h.keyed hs hrecord
  have hshown : ∃ res, getCollectionChroma text e tenant database name = .ok res ∧
      res.id = id.toString := by
    refine ⟨chromaResponse record, ?_, congrArg Uuid.toString hid⟩
    simp only [getCollectionChroma, namedCollection, Engine.getCollection, hget]
    rfl
  constructor
  · intro hreached u hparse
    have hresolves := hreached.resolves
    cases hu : e.getCollectionById u with
    | none =>
        rw [resolve_missing_id hparse hu] at hresolves
        cases hresolves
    | some found =>
        rw [resolve_id hparse hu, record_of_id h.keyed hu] at hresolves
        exact Except.ok.inj hresolves
  · intro hparses
    refine ⟨?_, hshown⟩
    cases hparse : text.parseStr name with
    | ok u =>
        obtain rfl := hparses u hparse
        rw [resolve_id hparse hrecord, hid]
    | error msg =>
        rcases resolve_name tenant database hparse h.keyed h.names with
          ⟨hnone, _⟩ | ⟨found, hfound, hname, hr⟩
        · rw [hs] at hnone
          cases hnone
        · have hlookup := h.names.lookup_name hfound
          rw [hname, hs] at hlookup
          rw [hr, hexText.toString_inj.mp (Option.some.inj hlookup)]

/-- From a creation that succeeds to the deletion of the collection, its name
leads to it exactly when the name does not read as another id. -/
theorem reached_by_name_iff (text : UuidText) (fault : Option String) (opening : Opening)
    (drawn id : Uuid) (tenant database : String) (req : ChromaCreateCollectionRequest)
    (e e' : Engine) (status : ℕ) (res : ChromaCollectionResponse) (calls : List LifecycleCall)
    (hkeyed : e.catalog.Keyed) (hbijective : Bijective text e.catalog)
    (hdrawn : e.catalog.collections.lookup drawn.toString = none)
    (hcreate : createCollectionChroma text fault opening drawn tenant database req e =
      .ok (status, res) e') (hid : res.id = id.toString)
    (hspares : ∀ pre a, pre ++ [a] <+: calls → Spares id a (e'.afterAll pre)) :
    Reached text id tenant database req.name (e'.afterAll calls) ↔
      ∀ u, text.parseStr req.name = .ok u → u = id := by
  have hnames := (bijective_iff_namesAgree text hkeyed).mp hbijective
  have hnamed := createCollectionChroma_named hkeyed hnames hdrawn hcreate hid
  exact (hnamed.afterAll hspares).reached_iff

/-! ## A name that reads as an id -/

theorem createCollectionChroma_made (text : UuidText) {fault : Option String} {opening : Opening}
    {drawn : Uuid} {tenant database : String} {req : ChromaCreateCollectionRequest} {e : Engine}
    {coll : Collection} (hvalid : validateCreate req = .ok ()) (hnew : req.getOrCreate = false)
    (hacc : e.catalog.Accepts fault (chromaConfig drawn tenant database req))
    (hopen : openCollection opening ⟨chromaConfig drawn tenant database req, 0, 0⟩ = .ok coll) :
    createCollectionChroma text fault opening drawn tenant database req e =
      .ok (201, chromaResponse ⟨chromaConfig drawn tenant database req, 0, 0⟩)
        ⟨e.catalog.withCollection (chromaConfig drawn tenant database req),
          e.collections.insert drawn coll⟩ := by
  have hmade := Engine.createCollection_ok.mpr ⟨hacc, rfl, coll, hopen, rfl⟩
  refine bind_ok.mpr ⟨(), e, ofExcept_ok.mpr ⟨hvalid, rfl⟩, ?_⟩
  refine bind_ok.mpr ⟨e, e, rfl, bind_ok.mpr ⟨none, e, ofExcept_ok.mpr ⟨?_, rfl⟩, ?_⟩⟩
  · rw [hnew]
    rfl
  · exact bind_ok.mpr ⟨_, _, hmade, rfl⟩

/-- A creation under a name, on an engine without collections. -/
def demoRequest (name : String) : ChromaCreateCollectionRequest := ⟨name, none, some 1, false⟩

/-- 32 hexadecimal digits are a valid name that reads as an id. -/
theorem hex_name_not_reached :
    let order : HashOrder := ⟨fun m => m.entries, fun _ => List.Perm.refl _⟩
    let name := "0123456789abcdef0123456789abcdef"
    ∃ res e', createCollectionChroma hexText none (.files WalFile.empty {} order) ⟨1⟩
        "default_tenant" "default_database" (demoRequest name) {} = .ok (201, res) e' ∧
      res.id = Uuid.toString ⟨1⟩ ∧
      resolveCollection hexText e' "default_tenant" "default_database" name =
        .error (.collectionNotFound name) := by
  intro order name
  have hacc : RedbCatalog.Accepts {} none
      (chromaConfig ⟨1⟩ "default_tenant" "default_database" (demoRequest name)) :=
    ⟨by decide, rfl, by rfl⟩
  have hparse : hexText.parseStr name = .ok ⟨0x0123456789abcdef0123456789abcdef#128⟩ := by
    decide +kernel
  refine ⟨_, _, createCollectionChroma_made hexText (by rfl) rfl hacc rfl, rfl, ?_⟩
  apply resolve_missing_id hparse
  exact (lookup_withCollection {} _ _).trans (if_neg (by decide))

theorem reached_demo :
    let order : HashOrder := ⟨fun m => m.entries, fun _ => List.Perm.refl _⟩
    ∃ res e', createCollectionChroma hexText none (.files WalFile.empty {} order) ⟨1⟩
        "default_tenant" "default_database" (demoRequest "demo") {} = .ok (201, res) e' ∧
      Reached hexText ⟨1⟩ "default_tenant" "default_database" "demo"
        (e'.afterAll [.delete none .removed (.failed "busy") ⟨2⟩]) := by
  intro order
  have hacc : RedbCatalog.Accepts {} none
      (chromaConfig ⟨1⟩ "default_tenant" "default_database" (demoRequest "demo")) :=
    ⟨by decide, rfl, by rfl⟩
  have hempty : Bijective hexText {} :=
    (bijective_iff_namesAgree hexText keyed_empty).mpr UniqueIndex.agrees_empty
  have hcreate := createCollectionChroma_made hexText (e := {}) (by rfl) rfl hacc
    (rfl : openCollection (.files WalFile.empty {} order) _ = .ok _)
  refine ⟨_, _, hcreate, (reached_by_name_iff hexText none _ ⟨1⟩ ⟨1⟩ _ _ _ {} _ _ _ _
    keyed_empty hempty (by rfl) hcreate rfl ?_).mpr ?_⟩
  · intro pre a hpre
    have hmem := hpre.subset (List.mem_append_right pre (List.mem_singleton_self a))
    obtain rfl := List.mem_singleton.mp hmem
    exact (by decide : (⟨2⟩ : Uuid) ≠ ⟨1⟩)
  · intro u hparse
    have hname : hexText.parseStr "demo" = .error "invalid character" := by decide +kernel
    rw [show (demoRequest "demo").name = "demo" from rfl, hname] at hparse
    cases hparse

end Rekha.Server
