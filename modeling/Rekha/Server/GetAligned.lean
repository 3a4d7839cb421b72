import Rekha.Server.Isolation
import Rekha.Server.Native

/-!
# The columns of a get response

A get response is up to four parallel arrays, each made by a pass of its own over
the looked-up records. The passes for ids and embeddings skip what is missing,
those for metadatas and documents leave a `null`. So the columns are aligned
exactly when nothing is missing (`get_aligned_iff`).
-/

namespace Rekha.Server

open Outcome

/-- All present columns have one length, and each position is about one live
record: the one whose id is there. -/
structure Aligned (find : Id → Option Record) (res : ChromaGetResponse) : Prop where
  metadatas : res.metadatas.length = res.ids.length
  documents : res.documents.length = res.ids.length
  embeddings : ∀ es, res.embeddings = some es → es.length = res.ids.length
  describes : ∀ (i : ℕ) (id : Id), res.ids[i]? = some id → ∃ key r, find key = some r ∧
    r.id = id ∧ res.metadatas[i]? = some r.metadata ∧ res.documents[i]? = some r.document ∧
      ∀ es, res.embeddings = some es → ∃ e, r.embedding = some e ∧ es[i]? = some e

/-- Every requested id is live, and has an embedding if those are asked for. -/
structure NothingMissing (find : Id → Option Record) (ids : List Id) (include_ : List String) :
    Prop where
  live : ∀ id ∈ ids, (find id).isSome
  embeddings : "embeddings" ∈ include_ → ∀ id ∈ ids, ((find id).bind Record.embedding).isSome

/-! ## Skipping passes -/

section Columns

variable {α β : Type} {f : α → Option β} {l : List α}

theorem length_filterMap_eq_iff : (l.filterMap f).length = l.length ↔ ∀ a ∈ l, (f a).isSome := by
  rw [List.length_filterMap_eq_countP, List.countP_eq_length]

theorem getElem?_filterMap (h : ∀ a ∈ l, (f a).isSome) (i : ℕ) :
    (l.filterMap f)[i]? = (l[i]?).bind f := by
  induction l generalizing i with
  | nil => rfl
  | cons a l ih =>
      obtain ⟨ha, hl⟩ := List.forall_mem_cons.mp h
      obtain ⟨b, hb⟩ := Option.isSome_iff_exists.mp ha
      rw [List.filterMap_cons_some hb]
      cases i with
      | zero => exact hb.symm
      | succ i => exact ih hl i

end Columns

section Response

variable {find : Id → Option Record} {ids : List Id} {include_ : List String}

theorem embeddings_eq_some {records : List (Option Record)} {es : List Embedding} :
    (chromaGetResponse include_ records).embeddings = some es ↔
      "embeddings" ∈ include_ ∧ records.filterMap (fun r => r.bind Record.embedding) = es := by
  unfold chromaGetResponse
  rw [Option.ite_none_right_eq_some, Option.some.injEq]

theorem NothingMissing.row (h : NothingMissing find ids include_) {i : ℕ} {id : Id}
    (hid : (chromaGetResponse include_ (ids.map find)).ids[i]? = some id) :
    ∃ key r, ids[i]? = some key ∧ find key = some r ∧ r.id = id := by
  have hsome : ∀ r ∈ ids.map find, (r.map Record.id).isSome := by
    rw [List.forall_mem_map]
    intro key hkey
    rw [Option.isSome_map]
    exact h.live key hkey
  have hbind : (((ids.map find)[i]?).bind fun r => r.map Record.id) = some id := by
    rw [← getElem?_filterMap hsome]
    exact hid
  obtain ⟨o, ho, hid⟩ := Option.bind_eq_some_iff.mp hbind
  obtain ⟨r, rfl, rfl⟩ := Option.map_eq_some_iff.mp hid
  rw [List.getElem?_map, Option.map_eq_some_iff] at ho
  obtain ⟨key, hkey, hr⟩ := ho
  exact ⟨key, r, hkey, hr, rfl⟩

/-- **The columns of some lookups are aligned exactly when nothing is missing.** -/
theorem aligned_response_iff :
    Aligned find (chromaGetResponse include_ (ids.map find)) ↔
      NothingMissing find ids include_ := by
  have hlive : (chromaGetResponse include_ (ids.map find)).ids.length = (ids.map find).length ↔
      ∀ id ∈ ids, (find id).isSome := by
    unfold chromaGetResponse
    rw [length_filterMap_eq_iff, List.forall_mem_map]
    simp only [Option.isSome_map]
  have hembedded : ((ids.map find).filterMap fun r => r.bind Record.embedding).length =
      (ids.map find).length ↔ ∀ id ∈ ids, ((find id).bind Record.embedding).isSome := by
    rw [length_filterMap_eq_iff, List.forall_mem_map]
  have hcolumn : (chromaGetResponse include_ (ids.map find)).metadatas.length =
      (ids.map find).length := List.length_map _
  constructor
  · intro hal
    have hall := hal.metadatas.symm.trans hcolumn
    refine ⟨hlive.mp hall, fun hin => hembedded.mp ?_⟩
    rw [hal.embeddings _ (embeddings_eq_some.mpr ⟨hin, rfl⟩), hall]
  · intro h
    have hall := hlive.mpr h.live
    refine ⟨hcolumn.trans hall.symm, (List.length_map _).trans hall.symm, ?_, ?_⟩
    · intro es hes
      obtain ⟨hin, rfl⟩ := embeddings_eq_some.mp hes
      rw [hall]
      exact hembedded.mpr (h.embeddings hin)
    · intro i id hid
      obtain ⟨key, r, hkey, hr, rfl⟩ := h.row hid
      have hrow : (ids.map find)[i]? = some (some r) := by
        rw [List.getElem?_map, hkey, ← hr]
        rfl
      refine ⟨key, r, hr, rfl, ?_, ?_, ?_⟩
      · show ((ids.map find).map _)[i]? = _
        rw [List.getElem?_map, hrow]
        rfl
      · show ((ids.map find).map _)[i]? = _
        rw [List.getElem?_map, hrow]
        rfl
      · intro es hes
        obtain ⟨hin, rfl⟩ := embeddings_eq_some.mp hes
        have hvector := h.embeddings hin key (List.mem_of_getElem? hkey)
        rw [hr, Option.bind_some] at hvector
        obtain ⟨e, he⟩ := Option.isSome_iff_exists.mp hvector
        refine ⟨e, he, ?_⟩
        rw [getElem?_filterMap, hrow]
        · exact he
        · rw [List.forall_mem_map]
          exact h.embeddings hin

end Response

/-! ## The two routes -/

/-- The record an engine holds under an id of a collection. -/
def Engine.find (e : Engine) (id : Uuid) (key : Id) : Option Record :=
  (e.collections.lookup id).bind fun c => c.get key

theorem Engine.get_ok {e : Engine} {id : Uuid} {ids : List Id} {records : List (Option Record)}
    (h : e.get id ids = .ok records) : records = ids.map (e.find id) := by
  unfold Engine.get Engine.collection at h
  unfold Engine.find
  cases hc : e.collections.lookup id with
  | none =>
      rw [hc] at h
      cases h
  | some c =>
      rw [hc] at h
      exact (Except.ok.inj h).symm

theorem Native.getRecords_ok {id : Uuid} {req : Native.GetRequest} {e e' : Engine}
    {res : Native.GetResponse} (h : Native.getRecords id req e = .ok res e') :
    res = chromaGetResponse req.include_ ((req.ids.getD []).map (e.find id)) := by
  obtain ⟨_, _, hget, h⟩ := bind_ok.mp h
  obtain ⟨rfl, rfl⟩ := get_ok.mp hget
  obtain ⟨records, _, hrecords, h⟩ := bind_ok.mp h
  obtain ⟨hrecords, -⟩ := ofExcept_ok.mp hrecords
  obtain ⟨rfl, -⟩ := pure_ok.mp h
  congr 1
  split at hrecords
  · rename_i hempty
    obtain rfl := Except.ok.inj hrecords
    rw [List.isEmpty_iff.mp hempty]
    rfl
  · exact Engine.get_ok hrecords

theorem getRecordsChroma_ok {text : UuidText} {tenant database name : String}
    {req : ChromaGetRequest} {e e' : Engine} {res : ChromaGetResponse}
    (h : getRecordsChroma text tenant database name req e = .ok res e') :
    ∃ id, resolveCollection text e tenant database name = .ok id ∧
      res = chromaGetResponse req.include_ ((req.ids.getD []).map (e.find id)) := by
  cases hid : resolveCollection text e tenant database name with
  | error err =>
      rw [getRecordsChroma, recordRoute_unresolved rfl hid] at h
      cases h
  | ok id =>
      rw [getRecordsChroma, recordRoute_resolved rfl hid] at h
      obtain ⟨_, _, hget, h⟩ := bind_ok.mp h
      obtain ⟨rfl, rfl⟩ := get_ok.mp hget
      obtain ⟨records, _, hrecords, h⟩ := bind_ok.mp h
      obtain ⟨hrecords, -⟩ := ofExcept_ok.mp hrecords
      obtain ⟨rfl, -⟩ := pure_ok.mp h
      exact ⟨id, rfl, by rw [Engine.get_ok hrecords]⟩

/-- **Get responses are aligned exactly when nothing is missing**: every requested
id is live, and has an embedding if those are asked for. -/
theorem get_aligned_iff (text : UuidText) (e : Engine) :
    (∀ id req res e', Native.getRecords id req e = .ok res e' →
      (Aligned (e.find id) res ↔
        NothingMissing (e.find id) (req.ids.getD []) req.include_)) ∧
    ∀ tenant database name req res e',
      getRecordsChroma text tenant database name req e = .ok res e' →
      ∃ id, resolveCollection text e tenant database name = .ok id ∧
        (Aligned (e.find id) res ↔
          NothingMissing (e.find id) (req.ids.getD []) req.include_) := by
  constructor
  · intro id req res e' h
    rw [Native.getRecords_ok h]
    exact aligned_response_iff
  · intro tenant database name req res e' h
    obtain ⟨id, hid, rfl⟩ := getRecordsChroma_ok h
    exact ⟨id, hid, aligned_response_iff⟩

/-! ## A document under the wrong position -/

def engineWith (c : Collection) : Engine :=
  ⟨RedbCatalog.withCollection {} demoConfig,
    AList.insert demoConfig.id c (∅ : FinMap Uuid Collection)⟩

theorem getRecords_engineWith (c : Collection) {ids : List Id} (hids : ids ≠ [])
    (include_ : List String) :
    Native.getRecords demoConfig.id ⟨some ids, include_⟩ (engineWith c) =
      .ok (chromaGetResponse include_ (ids.map c.get)) (engineWith c) := by
  have hlookup : (engineWith c).collections.lookup demoConfig.id = some c :=
    AList.lookup_insert _
  have hget : (engineWith c).get demoConfig.id ids = .ok (ids.map c.get) := by
    unfold Engine.get Engine.collection
    rw [hlookup]
    rfl
  unfold Native.getRecords
  rw [bind_of_ok (get_ok.mpr ⟨rfl, rfl⟩)]
  rw [bind_of_ok (ofExcept_ok.mpr ⟨?_, rfl⟩)]
  · rfl
  · rw [← hget]
    exact if_neg (by simpa using hids)

theorem find_engineWith (c : Collection) (key : Id) :
    (engineWith c).find demoConfig.id key = c.get key := by
  have hlookup : (engineWith c).collections.lookup demoConfig.id = some c :=
    AList.lookup_insert _
  rw [Engine.find, hlookup, Option.bind_some]

/-- Two live records, with their embeddings, then one of them with an unknown id. -/
theorem get_aligned_iff_demo : ∃ c, Aligned ((engineWith c).find demoConfig.id)
      (chromaGetResponse ["embeddings"] (["b", "a"].map c.get)) ∧
    ¬ Aligned ((engineWith c).find demoConfig.id)
      (chromaGetResponse [] (["a", "nope"].map c.get)) := by
  obtain ⟨c, -, hP⟩ : ∃ c, runAll [.add true ["a", "b"] [zero, one] none
        (some [some "x", none]), .update ["b"] none (some [some "y"])]
      (Collection.fresh demoConfig) = .ok c ∧
      decide ((∀ id ∈ ["b", "a"], ((c.get id).bind Record.embedding).isSome) ∧
        (c.get "nope").isNone) = true := exists_runAll (by decide +kernel)
  obtain ⟨hvectors, hnope⟩ := of_decide_eq_true hP
  refine ⟨c, ?_, ?_⟩
  · refine ((get_aligned_iff hexText (engineWith c)).1 demoConfig.id
      ⟨some ["b", "a"], ["embeddings"]⟩ _ _ (getRecords_engineWith c (by decide) _)).mpr ⟨?_, ?_⟩
    · intro id hid
      rw [find_engineWith]
      obtain ⟨v, hv⟩ := Option.isSome_iff_exists.mp (hvectors id hid)
      obtain ⟨r, hr, -⟩ := Option.bind_eq_some_iff.mp hv
      exact Option.isSome_iff_exists.mpr ⟨r, hr⟩
    · intro _ id hid
      rw [find_engineWith]
      exact hvectors id hid
  · intro haligned
    have hmissing := ((get_aligned_iff hexText (engineWith c)).1 demoConfig.id
      ⟨some ["a", "nope"], []⟩ _ _ (getRecords_engineWith c (by decide) _)).mp haligned
    have hlive := hmissing.live "nope" (by decide)
    rw [find_engineWith, Option.isNone_iff_eq_none.mp hnope] at hlive
    cases hlive

/-- **An unknown id shifts the columns**: the document of `a` is at position 1, and
`a` is at position 0 of the ids. -/
theorem columns_shifted : ∃ h c res, Reachable (fun _ => True) demoConfig h c ∧
    Native.getRecords demoConfig.id ⟨some ["nope", "a"], []⟩ (engineWith c) =
      .ok res (engineWith c) ∧
    res.ids = ["a"] ∧ res.documents = [none, some "text"] ∧
      ¬ Aligned ((engineWith c).find demoConfig.id) res := by
  obtain ⟨c, hrun, hP⟩ : ∃ c, runAll [.add true ["a"] [one] none (some [some "text"])]
      (Collection.fresh demoConfig) = .ok c ∧
      decide ((chromaGetResponse [] (["nope", "a"].map c.get)).ids = ["a"] ∧
        (chromaGetResponse [] (["nope", "a"].map c.get)).documents = [none, some "text"]) = true :=
    exists_runAll (by decide +kernel)
  obtain ⟨hids, hdocuments⟩ := of_decide_eq_true hP
  refine ⟨_, c, _, Reachable.fresh.runAll (fun _ _ => trivial) hrun,
    getRecords_engineWith c (by decide) [], hids, hdocuments, fun hal => ?_⟩
  have hlen := hal.documents
  rw [hids, hdocuments] at hlen
  exact absurd hlen (by decide)

end Rekha.Server
