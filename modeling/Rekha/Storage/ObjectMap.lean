import Rekha.Storage.LocalStorage

/-!
# The object store as a map

The calls of a run, also those that fail with an I/O error and leave directories or a
temp file behind, are answered as a map from keys to bytes would, as long as no temp
file takes the place of an object, no call names a temp file that is left behind, and
no listing covers an object named like one (`answered_as_map_iff`).
-/

namespace Rekha.LocalStorage

open Trace

/-! ## The tree holds the map -/

/-- A tree that holds a map: every object is a file, and every file without a temp
name an object. -/
structure Serves (m : Objects) (t : Tree) : Prop where
  rooted : t.Rooted
  names : ∀ path, (t.lookup path).isSome → ∀ s ∈ path, ValidSegment s
  stored : ∀ path b, ValidPath path → m (keyOf path) = some b → t.fileAt path = some b
  files : ∀ path, ValidPath path → isTemp (fileName path) = false → m (keyOf path) = t.fileAt path
  keys : ∀ key, (m key).isSome → ∃ path, sanitizeKey key = .ok path

section Serves

variable {m : Objects} {t t' : Tree} {path dir tmp : List String} {key : String}
  {bytes : List UInt8}

theorem serves_empty : Serves (fun _ => none) FileTree.empty := by
  refine ⟨FileTree.rooted_empty, fun path h s hs => ?_, fun path b _ h => ?_,
    fun path hpath _ => ?_, fun key h => ?_⟩
  · rw [FileTree.empty, FinMap.lookup_insert_ite] at h
    split at h
    · rename_i hnil
      subst hnil
      cases hs
    · cases h
  · cases h
  · have hnone : (FileTree.empty : Tree).lookup path = none := by
      rw [FileTree.empty, FinMap.lookup_insert_ite, if_neg hpath.ne_nil]
      rfl
    rw [FileTree.fileAt, hnone]
  · cases h

theorem names_insert (h : ∀ q, (t.lookup q).isSome → ∀ s ∈ q, ValidSegment s)
    (hpath : ValidPath path) {node : FileNode (List UInt8)} :
    ∀ q, ((t.insert path node).lookup q).isSome → ∀ s ∈ q, ValidSegment s := by
  intro q hsome s hmem
  rw [FinMap.lookup_insert_ite] at hsome
  split at hsome
  · rename_i heq
    subst heq
    exact hpath.valid s hmem
  · exact h q hsome s hmem

theorem names_erase (h : ∀ q, (t.lookup q).isSome → ∀ s ∈ q, ValidSegment s) (path : List String) :
    ∀ q, ((t.erase path).lookup q).isSome → ∀ s ∈ q, ValidSegment s := by
  intro q hsome s hmem
  obtain ⟨node, hnode⟩ := Option.isSome_iff_exists.mp hsome
  exact h q (Option.isSome_of_eq_some (FinMap.lookup_erase_eq_some.mp hnode).2) s hmem

theorem Serves.validPath (hs : Serves m t) (h : t.isFile path = true) : ValidPath path := by
  obtain ⟨b, hb⟩ := Option.isSome_iff_exists.mp h
  have hlookup := FileTree.fileAt_eq_some.mp hb
  refine ⟨?_, hs.names path (Option.isSome_of_eq_some hlookup)⟩
  rintro rfl
  rw [hs.rooted.root] at hlookup
  cases hlookup

theorem Serves.extended (hs : Serves m t) (hroot : t'.Rooted)
    (hext : FileTree.Extended dir t t') (hdir : ∀ s ∈ dir, ValidSegment s) : Serves m t' := by
  refine ⟨hroot, fun path h s hmem => ?_, fun path b hpath h => ?_, fun path hpath htemp => ?_,
    hs.keys⟩
  · cases hold : t.lookup path with
    | some node => exact hs.names path (Option.isSome_of_eq_some hold) s hmem
    | none =>
        rcases hext.new path hold with hnone | ⟨-, hle⟩
        · rw [hnone] at h
          cases h
        · exact hdir s (hle.mem hmem)
  · rw [hext.fileAt]
    exact hs.stored path b hpath h
  · rw [hext.fileAt]
    exact hs.files path hpath htemp

theorem Serves.writeTmp (hs : Serves m t) (htmp : ValidPath tmp)
    (htemp : isTemp (fileName tmp) = true) (hfree : m (keyOf tmp) = none)
    (h : t.writeFile tmp bytes = .ok t') : Serves m t' ∧ t'.fileAt tmp = some bytes := by
  obtain ⟨hparent, hnodir, rfl⟩ := FileTree.writeFile_ok h
  have hsplit : tmp.dropLast ++ [tmp.getLast htmp.ne_nil] = tmp :=
    List.dropLast_append_getLast htmp.ne_nil
  have hroot : FileTree.Rooted (t.insert tmp (.file bytes)) := by
    rw [← hsplit] at hnodir ⊢
    exact hs.rooted.insert _ (by simpa using hparent) hnodir
  refine ⟨⟨hroot, names_insert hs.names htmp, fun path b hpath hb => ?_,
    fun path hpath hnot => ?_, hs.keys⟩, ?_⟩
  · rw [FileTree.fileAt_insert_file, if_neg, hs.stored path b hpath hb]
    rintro rfl
    rw [hfree] at hb
    cases hb
  · rw [FileTree.fileAt_insert_file, if_neg, hs.files path hpath hnot]
    rintro rfl
    rw [htemp] at hnot
    cases hnot
  · rw [FileTree.fileAt_insert_file, if_pos rfl]

theorem Serves.rename (hs : Serves m t) (hpath : ValidPath path) (hne : path ≠ tmp)
    (htemp : isTemp (fileName tmp) = true) (hfree : m (keyOf tmp) = none)
    (hbytes : t.fileAt tmp = some bytes) (h : t.rename tmp path = .ok t') :
    Serves (Function.update m (keyOf path) (some bytes)) t' := by
  obtain ⟨b, hb, hparent, hnodir, rfl⟩ := FileTree.rename_ok h
  rw [hbytes, Option.some.injEq] at hb
  subst hb
  have htmpfile := FileTree.fileAt_eq_some.mp hbytes
  have herased : FileTree.Rooted (t.erase tmp) := hs.rooted.erase (by rw [htmpfile]; simp)
  have hsplit : path.dropLast ++ [path.getLast hpath.ne_nil] = path :=
    List.dropLast_append_getLast hpath.ne_nil
  have hroot : FileTree.Rooted ((t.erase tmp).insert path (.file bytes)) := by
    have hparent' : (t.erase tmp).lookup path.dropLast = some .dir := by
      rw [FinMap.lookup_erase_ite, if_neg, hparent]
      intro heq
      rw [heq, htmpfile] at hparent
      cases hparent
    have hnodir' : (t.erase tmp).lookup path ≠ some .dir := by
      rwa [FinMap.lookup_erase_ite, if_neg hne]
    rw [← hsplit] at hnodir' ⊢
    exact herased.insert _ (by simpa using hparent') hnodir'
  have hother : ∀ q, ValidPath q → q ≠ path →
      Function.update m (keyOf path) (some bytes) (keyOf q) = m (keyOf q) := by
    intro q hq heq
    exact Function.update_of_ne (fun hk => heq (hq.keyOf_inj hpath hk)) _ _
  refine ⟨hroot, names_insert (names_erase hs.names tmp) hpath, fun q b hq hb => ?_,
    fun q hq hqnot => ?_, fun key hkey => ?_⟩
  · rw [FileTree.fileAt_insert_file, FileTree.fileAt_erase]
    by_cases heq : q = path
    · subst heq
      rw [Function.update_self] at hb
      rw [if_pos rfl, hb]
    · rw [hother q hq heq] at hb
      rw [if_neg heq, if_neg, hs.stored q b hq hb]
      rintro rfl
      rw [hfree] at hb
      cases hb
  · rw [FileTree.fileAt_insert_file, FileTree.fileAt_erase]
    by_cases heq : q = path
    · subst heq
      rw [if_pos rfl, Function.update_self]
    · rw [if_neg heq, if_neg, hother q hq heq, hs.files q hq hqnot]
      rintro rfl
      rw [htemp] at hqnot
      cases hqnot
  · by_cases heq : key = keyOf path
    · subst heq
      exact ⟨path, hpath.sanitized⟩
    · rw [Function.update_of_ne heq] at hkey
      exact hs.keys key hkey

theorem Serves.erase (hs : Serves m t) (hpath : ValidPath path) (h : t.isFile path = true) :
    Serves (Function.update m (keyOf path) none) (t.erase path) := by
  obtain ⟨b, hb⟩ := Option.isSome_iff_exists.mp h
  have hfile := FileTree.fileAt_eq_some.mp hb
  have hother : ∀ q, ValidPath q → q ≠ path →
      Function.update m (keyOf path) none (keyOf q) = m (keyOf q) := by
    intro q hq heq
    exact Function.update_of_ne (fun hk => heq (hq.keyOf_inj hpath hk)) _ _
  refine ⟨hs.rooted.erase (by rw [hfile]; simp), names_erase hs.names path,
    fun q b hq hb => ?_, fun q hq hqnot => ?_, fun key hkey => ?_⟩
  · rw [FileTree.fileAt_erase]
    by_cases heq : q = path
    · subst heq
      rw [Function.update_self] at hb
      cases hb
    · rw [hother q hq heq] at hb
      rw [if_neg heq, hs.stored q b hq hb]
  · rw [FileTree.fileAt_erase]
    by_cases heq : q = path
    · subst heq
      rw [if_pos rfl, Function.update_self]
    · rw [if_neg heq, hother q hq heq, hs.files q hq hqnot]
  · by_cases heq : key = keyOf path
    · subst heq
      rw [Function.update_self] at hkey
      cases hkey
    · rw [Function.update_of_ne heq] at hkey
      exact hs.keys key hkey

theorem Serves.eq_none (hs : Serves m t) (hkey : sanitizeKey key = .ok path)
    (h : t.fileAt path = none) : m key = none := by
  obtain ⟨hpath, rfl⟩ := sanitizeKey_eq_ok_iff.mp hkey
  cases hm : m (keyOf path) with
  | none => rfl
  | some b =>
      rw [hs.stored path b hpath hm] at h
      cases h

theorem Serves.eq_some_iff (hs : Serves m t) (hkey : sanitizeKey key = .ok path)
    (h : t.fileAt path = some bytes) : m key = some bytes ↔ ¬ Leftover t m path := by
  obtain ⟨hpath, rfl⟩ := sanitizeKey_eq_ok_iff.mp hkey
  have hfile : t.isFile path = true := Option.isSome_of_eq_some h
  cases hm : m (keyOf path) with
  | none =>
      refine iff_of_false (fun hsome => ?_) (not_not.mpr ⟨?_, hfile, hm⟩)
      · cases hsome
      · by_contra hnot
        rw [hs.files path hpath (Bool.not_eq_true _ ▸ hnot), h] at hm
        cases hm
  | some b =>
      rw [hs.stored path b hpath hm] at h
      refine iff_of_true h fun hleft => ?_
      rw [hleft.2.2] at hm
      cases hm

theorem not_leftover (h : t.fileAt path = none) : ¬ Leftover t m path := by
  rintro ⟨-, hfile, -⟩
  rw [FileTree.isFile, h] at hfile
  cases hfile

end Serves

/-! ## Writing -/

/-- An I/O error, behind which the tree still holds the map. -/
def Failed (m : Objects) (e : StorageError) (t : Tree) : Prop := (∃ e', e = .io e') ∧ Serves m t

section Put

variable {m : Objects} {path dir tmp : List String} {key : String} {bytes : List UInt8}

theorem onTree_triple {op : Tree → Except FileError Tree} {P Q : Tree → Prop}
    {R : StorageError → Tree → Prop} (hop : ∀ t t', P t → op t = .ok t' → Q t')
    (hfail : ∀ t e, P t → R (.io e) t) : Outcome.Triple P (onTree op) Q R := by
  intro t ht
  unfold onTree
  cases hres : op t with
  | ok t' =>
      refine ⟨fun a s' h => ?_, fun e s' h => ?_⟩
      · cases h
        exact hop t t' ht hres
      · cases h
  | error err =>
      refine ⟨fun a s' h => ?_, fun e s' h => ?_⟩
      · cases h
      · cases h
        exact hfail t err ht

theorem failingDirs_triple (made : ℕ) (hdir : ∀ s ∈ dir, ValidSegment s) :
    Outcome.Triple (Serves m) (failingDirs made dir) (fun _ => False) (Failed m) := by
  intro t hs
  unfold failingDirs
  by_cases hblocked : t.blocked dir (min made (dir.length + 1)) = true
  · rw [if_pos hblocked]
    refine ⟨fun a s' h => ?_, fun e s' h => ?_⟩
    · cases h
    · cases h
      exact ⟨⟨_, rfl⟩, hs⟩
  · rw [if_neg hblocked]
    obtain ⟨hroot, hext, -⟩ := hs.rooted.makeDirs dir _ (Nat.min_le_right made _)
      (Bool.not_eq_true _ ▸ hblocked)
    refine ⟨fun a s' h => ?_, fun e s' h => ?_⟩
    · cases h
    · obtain ⟨rfl, rfl⟩ := EStateM.Result.error.inj h
      exact ⟨⟨_, rfl⟩, hs.extended hroot hext hdir⟩

theorem createDirs_triple (fault : Option PutFault) (hdir : ∀ s ∈ dir, ValidSegment s) :
    Outcome.Triple (Serves m) (createDirs fault dir)
      (fun t => Serves m t ∧ ∀ made, fault ≠ some (.dirs made)) (Failed m) := by
  unfold createDirs
  split
  · rename_i made
    intro t hs
    obtain ⟨hok, herror⟩ := failingDirs_triple made hdir t hs
    exact ⟨fun a s' h => (hok a s' h).elim, herror⟩
  · rename_i hmade
    refine onTree_triple (fun t t' hs h => ?_) fun t e hs => ⟨⟨e, rfl⟩, hs⟩
    obtain ⟨hroot, hext, -⟩ := hs.rooted.createDirAll h
    exact ⟨hs.extended hroot hext hdir, fun made => hmade made⟩

theorem writeTmp_triple (fault : Option PutFault) (htmp : ValidPath tmp)
    (htemp : isTemp (fileName tmp) = true)
    (hfree : reachesTemp fault = true → m (keyOf tmp) = none)
    (hdirs : ∀ made, fault ≠ some (.dirs made)) :
    Outcome.Triple (Serves m) (writeTmp fault tmp bytes)
      (fun t => (Serves m t ∧ t.fileAt tmp = some bytes) ∧ m (keyOf tmp) = none) (Failed m) := by
  have hwrite : reachesTemp fault = true → ∀ content, Outcome.Triple (Serves m)
      (onTree fun t => t.writeFile tmp content)
      (fun t => (Serves m t ∧ t.fileAt tmp = some content) ∧ m (keyOf tmp) = none)
      (Failed m) := by
    intro hreach content
    refine onTree_triple (fun t t' hs h => ?_) fun t e hs => ⟨⟨e, rfl⟩, hs⟩
    exact ⟨hs.writeTmp htmp htemp (hfree hreach) h, hfree hreach⟩
  unfold writeTmp
  split
  · exact Outcome.Triple.throw fun t hs => ⟨⟨_, rfl⟩, hs⟩
  · rename_i written
    refine (hwrite rfl written).bind fun _ => ?_
    exact Outcome.Triple.throw fun t hs => ⟨⟨_, rfl⟩, hs.1.1⟩
  · rename_i hcreate hwritten
    refine hwrite ?_ bytes
    unfold reachesTemp
    split
    · exact absurd rfl (hdirs _)
    · exact absurd rfl hcreate
    · rfl

theorem renameTmp_triple (fault : Option PutFault) (hpath : ValidPath path) (hne : path ≠ tmp)
    (htemp : isTemp (fileName tmp) = true) (hfree : m (keyOf tmp) = none) :
    Outcome.Triple (fun t => Serves m t ∧ t.fileAt tmp = some bytes) (renameTmp fault tmp path)
      (Serves (Function.update m (keyOf path) (some bytes))) (Failed m) := by
  unfold renameTmp
  split
  · exact Outcome.Triple.throw fun t hs => ⟨⟨_, rfl⟩, hs.1⟩
  · refine onTree_triple (fun t t' hs h => ?_) fun t e hs => ⟨⟨e, rfl⟩, hs.1⟩
    exact hs.1.rename hpath hne htemp hfree hs.2 h

theorem put_triple (fault : Option PutFault) (pid nonce : ℕ) (bytes : List UInt8)
    (hkey : sanitizeKey key = .ok path)
    (hfree : reachesTemp fault = true → m (keyOf (tmpPath pid nonce path)) = none) :
    Outcome.Triple (Serves m) (put fault pid nonce key bytes)
      (Serves (Function.update m key (some bytes))) (Failed m) := by
  obtain ⟨hpath, rfl⟩ := sanitizeKey_eq_ok_iff.mp hkey
  have htemp := isTemp_tmpPath pid nonce path
  have hdir : ∀ s ∈ path.dropLast, ValidSegment s :=
    fun s hs => hpath.valid s (List.mem_of_mem_dropLast hs)
  unfold put
  refine Outcome.Triple.ofExcept_bind (fun e he => ?_) fun path' hok => ?_
  · rw [hkey] at he
    cases he
  · rw [hkey] at hok
    cases hok
    refine (createDirs_triple fault hdir).bind fun _ => .of_and fun hdirs => ?_
    refine (writeTmp_triple fault (hpath.tmpPath pid nonce) htemp hfree hdirs).bind fun _ =>
      .of_and fun hnone => ?_
    exact renameTmp_triple fault hpath (ne_tmpPath pid nonce path) htemp hnone

end Put

/-! ## Listing -/

section List

variable {m : Objects} {t : Tree} {path dir : List String} {key under : String} {n : ℕ}

theorem listedKey_eq (h : ∀ s ∈ path, ValidSegment s) : listedKey path = keyOf path := by
  have hchars : ∀ c ∈ (keyOf path).toList, (if c = '\\' then '/' else c) = c := by
    intro c hc
    rw [if_neg]
    rintro rfl
    rw [keyOf, String.toList_ofList] at hc
    obtain hc | ⟨l, hl, hc⟩ := mem_of_mem_intercalate hc
    · exact absurd hc (by decide)
    · obtain ⟨s, hs, rfl⟩ := List.mem_map.mp hl
      exact (h s hs).noBackslash hc
  rw [listedKey, List.map_congr_left hchars, List.map_id', String.ofList_toList]

theorem walk_eq (h : t.lookup dir = some .dir) : walk t n dir =
    .ok (((t.filesBelow n dir).filter fun p => !isTemp (fileName p)).map listedKey) := by
  induction n generalizing dir with
  | zero => rfl
  | succ n ih =>
      have hread : t.readDir dir = .ok (t.children dir) := by
        rw [FileTree.readDir, h]
      have hentry : ∀ p ∈ t.children dir, entryKeys p (walk t n p) (t.lookup p) =
          .ok (((FileTree.entryFiles p (t.filesBelow n p) (t.lookup p)).filter
            fun q => !isTemp (fileName q)).map listedKey) := by
        intro p _
        cases hp : t.lookup p with
        | none => rfl
        | some node =>
            cases node with
            | dir => exact ih hp
            | file b =>
                rw [entryKeys, FileTree.entryFiles]
                cases htemp : isTemp (fileName p) <;> simp [htemp]
      have hmap := Outcome.mapM_ok.mpr (List.forall₂_map_right_iff.mpr
        (List.forall₂_same.mpr hentry))
      rw [walk, hread]
      dsimp only
      rw [hmap, FileTree.filesBelow, List.filter_flatMap, List.map_flatMap, List.flatMap]
      rfl

theorem trimmed_of_listDir (h : listDir under = .ok dir) :
    (trimmed under = "" ∧ dir = []) ∨
      (trimmed under ≠ "" ∧ ValidPath dir ∧ trimmed under = keyOf dir) := by
  unfold listDir at h
  split at h
  · rename_i hempty
    cases h
    exact .inl ⟨hempty, rfl⟩
  · rename_i hne
    exact .inr ⟨hne, sanitizeKey_eq_ok_iff.mp h⟩

theorem tempNamed_keyOf (h : ValidPath path) :
    TempNamed (keyOf path) ↔ isTemp (fileName path) = true := by
  constructor
  · rintro ⟨q, hq, htemp⟩
    rw [h.sanitized] at hq
    obtain rfl := Except.ok.inj hq
    exact htemp
  · exact fun htemp => ⟨path, h.sanitized, htemp⟩

theorem Serves.exists_below (hs : Serves m t) (hdir : listDir under = .ok dir)
    (hsome : (m key).isSome) (hunder : Under under key) :
    ∃ r, ValidPath (dir ++ r) ∧ key = keyOf (dir ++ r) ∧ t.isFile (dir ++ r) = true := by
  obtain ⟨path, hkey⟩ := hs.keys key hsome
  obtain ⟨hpath, rfl⟩ := sanitizeKey_eq_ok_iff.mp hkey
  obtain ⟨b, hb⟩ := Option.isSome_iff_exists.mp hsome
  have hfile : t.isFile path = true := Option.isSome_of_eq_some (hs.stored path b hpath hb)
  obtain ⟨r, rfl⟩ : ∃ r, path = dir ++ r := by
    rcases trimmed_of_listDir hdir with ⟨-, rfl⟩ | ⟨hne, hvalid, htrim⟩
    · exact ⟨path, rfl⟩
    · rw [Under, htrim] at hunder
      rcases hunder with hempty | heq | hrest
      · exact absurd (htrim.trans hempty) hne
      · exact ⟨[], by rw [hpath.keyOf_inj hvalid heq, List.append_nil]⟩
      · obtain ⟨r, -, hr⟩ := (keyOf_append_slash_iff hvalid hpath).mp hrest
        exact ⟨r, hr⟩
  exact ⟨r, hpath, rfl, hfile⟩

theorem Serves.under_iff (hs : Serves m t) (hdir : listDir under = .ok dir)
    (hnofile : t.isFile dir = false) :
    ((m key).isSome ∧ Under under key ∧ ¬ TempNamed key) ↔
      ∃ r, r ≠ [] ∧ t.isFile (dir ++ r) = true ∧ isTemp (fileName (dir ++ r)) = false ∧
        key = keyOf (dir ++ r) := by
  constructor
  · rintro ⟨hsome, hunder, hplain⟩
    obtain ⟨r, hpath, rfl, hfile⟩ := hs.exists_below hdir hsome hunder
    rw [tempNamed_keyOf hpath, Bool.not_eq_true] at hplain
    refine ⟨r, ?_, hfile, hplain, rfl⟩
    rintro rfl
    rw [List.append_nil, hnofile] at hfile
    cases hfile
  · rintro ⟨r, hr, hfile, hplain, rfl⟩
    have hpath := hs.validPath hfile
    refine ⟨?_, ?_, ?_⟩
    · rw [hs.files _ hpath hplain]
      exact hfile
    · rcases trimmed_of_listDir hdir with ⟨hempty, -⟩ | ⟨-, hvalid, htrim⟩
      · exact .inl hempty
      · rw [Under, htrim]
        exact .inr (.inr ((keyOf_append_slash_iff hvalid hpath).mpr ⟨r, hr, rfl⟩))
    · rw [tempNamed_keyOf hpath, Bool.not_eq_true]
      exact hplain

theorem Serves.mem_found (hs : Serves m t) (hdir : listDir under = .ok dir)
    (hnofile : t.isFile dir = false) :
    key ∈ ((t.filesBelow (t.depth + 1) dir).filter fun p => !isTemp (fileName p)).map listedKey ↔
      (m key).isSome ∧ Under under key ∧ ¬ TempNamed key := by
  rw [hs.under_iff hdir hnofile, List.mem_map]
  constructor
  · rintro ⟨path, hmem, rfl⟩
    rw [List.mem_filter, hs.rooted.mem_filesBelow] at hmem
    obtain ⟨⟨r, hr, -, rfl, hfile⟩, hnot⟩ := hmem
    refine ⟨r, hr, hfile, by simpa using hnot, ?_⟩
    exact listedKey_eq (hs.validPath hfile).valid
  · rintro ⟨r, hr, hfile, hnot, rfl⟩
    refine ⟨dir ++ r, ?_, listedKey_eq (hs.validPath hfile).valid⟩
    rw [List.mem_filter, hs.rooted.mem_filesBelow]
    have hlen : r.length ≤ t.depth + 1 := by
      obtain ⟨b, hb⟩ := Option.isSome_iff_exists.mp hfile
      have hdepth := FileTree.length_le_depth
        (Option.isSome_of_eq_some (FileTree.fileAt_eq_some.mp hb))
      rw [List.length_append] at hdepth
      omega
    exact ⟨⟨r, hr, hlen, rfl, hfile⟩, by simpa using hnot⟩

theorem Serves.nodup_found (hs : Serves m t) :
    (((t.filesBelow n dir).filter fun p => !isTemp (fileName p)).map listedKey).Nodup := by
  refine List.Nodup.map_on ?_ (hs.rooted.nodup_filesBelow.filter _)
  intro p hp q hq heq
  obtain ⟨_, -, -, -, hpfile⟩ := hs.rooted.mem_filesBelow.mp (List.mem_of_mem_filter hp)
  obtain ⟨_, -, -, -, hqfile⟩ := hs.rooted.mem_filesBelow.mp (List.mem_of_mem_filter hq)
  have hpvalid := hs.validPath hpfile
  have hqvalid := hs.validPath hqfile
  rw [listedKey_eq hpvalid.valid, listedKey_eq hqvalid.valid] at heq
  exact hpvalid.keyOf_inj hqvalid heq

theorem pairwise_lt_mergeSort {keys : List String} (h : keys.Nodup) :
    (keys.mergeSort fun a b => decide (a ≤ b)).Pairwise fun a b => a < b := by
  have hle := @List.pairwise_mergeSort _ (fun a b : String => decide (a ≤ b))
    (fun a b c hab hbc => by
      rw [decide_eq_true_eq] at hab hbc ⊢
      exact hab.trans hbc)
    (fun a b => by
      rw [Bool.or_eq_true, decide_eq_true_eq, decide_eq_true_eq]
      exact le_total a b) keys
  have hnodup : (keys.mergeSort fun a b => decide (a ≤ b)).Nodup :=
    (List.mergeSort_perm keys _).nodup_iff.mpr h
  refine List.Pairwise.imp₂ (fun a b hab hne => ?_) hle hnodup
  rw [decide_eq_true_eq] at hab
  exact lt_of_le_of_ne hab hne

theorem Serves.eq_trimmed (hs : Serves m t) (hdir : listDir under = .ok dir)
    (hfile : t.isFile dir = true) (hsome : (m key).isSome) (hunder : Under under key) :
    key = trimmed under := by
  have htrim : trimmed under = keyOf dir := by
    rcases trimmed_of_listDir hdir with ⟨-, rfl⟩ | ⟨-, -, htrim⟩
    · exact absurd rfl (hs.validPath hfile).ne_nil
    · exact htrim
  obtain ⟨r, -, rfl, hbelow⟩ := hs.exists_below hdir hsome hunder
  by_cases hr : r = []
  · rw [hr, List.append_nil, htrim]
  · rw [FileTree.isFile, FileTree.fileAt, hs.rooted.dir_of_isFile hr hbelow] at hfile
    cases hfile

/-- What a listing that fails with no I/O error returns: the prefix, if it is a file,
or else the objects under it without a temp name. -/
def Listed (m : Objects) (t : Tree) (under : String) (dir : List String) (key : String) : Prop :=
  if t.isFile dir = true then key = trimmed under
  else (m key).isSome ∧ Under under key ∧ ¬ TempNamed key

theorem Serves.list (hs : Serves m t) (hdir : listDir under = .ok dir) :
    (t.lookup dir = none ∧ ∃ e, LocalStorage.list t under = .error (.io e)) ∨
      ∃ keys, LocalStorage.list t under = .ok keys ∧ (keys.Pairwise fun a b => a < b) ∧
        ∀ key, key ∈ keys ↔ Listed m t under dir key := by
  unfold Listed
  rw [LocalStorage.list, hdir]
  dsimp only
  cases hfile : t.isFile dir with
  | true =>
      refine .inr ⟨_, if_pos rfl, List.pairwise_singleton _ _, fun key => ?_⟩
      rw [if_pos rfl, List.mem_singleton]
  | false =>
      simp only [if_neg Bool.false_ne_true]
      cases hlookup : t.lookup dir with
      | some node =>
          cases node with
          | file b =>
              rw [FileTree.isFile, FileTree.fileAt_eq_some.mpr hlookup] at hfile
              cases hfile
          | dir =>
              rw [walk_eq hlookup]
              refine .inr ⟨_, rfl, pairwise_lt_mergeSort hs.nodup_found, fun key => ?_⟩
              rw [List.mem_mergeSort]
              exact hs.mem_found hdir hfile
      | none =>
          have hread : t.readDir dir = .error (t.missing dir) := by
            rw [FileTree.readDir, hlookup]
          rw [walk, hread]
          cases hmissing : t.missing dir with
          | notFound =>
              refine .inr ⟨[], congrArg Except.ok List.mergeSort_nil, .nil, fun key => ?_⟩
              rw [hs.under_iff hdir hfile]
              constructor
              · intro h
                cases h
              · rintro ⟨r, hr, hbelow, -⟩
                rw [hs.rooted.dir_of_isFile hr hbelow] at hlookup
                cases hlookup
          | notADirectory => exact .inl ⟨rfl, _, rfl⟩
          | isADirectory => exact .inl ⟨rfl, _, rfl⟩
          | other => exact .inl ⟨rfl, _, rfl⟩

theorem Serves.listed_iff (hs : Serves m t) (hdir : listDir under = .ok dir) :
    (∀ key, Listed m t under dir key ↔ (m key).isSome ∧ Under under key) ↔
      Avoids (.list under) t m := by
  have havoids : Avoids (.list under) t m ↔ ¬ Leftover t m dir ∧
      ∀ key, (m key).isSome → Under under key → TempNamed key → key = trimmed under := by
    refine ⟨fun h => h dir hdir, fun h dir' hdir' => ?_⟩
    obtain rfl := Except.ok.inj (hdir.symm.trans hdir')
    exact h
  rw [havoids]
  unfold Listed
  cases hfile : t.isFile dir with
  | true =>
      simp only [if_true]
      have hvalid := hs.validPath hfile
      obtain ⟨hkey, htrim⟩ : sanitizeKey (trimmed under) = .ok dir ∧ trimmed under = keyOf dir := by
        rcases trimmed_of_listDir hdir with ⟨-, rfl⟩ | ⟨-, -, htrim⟩
        · exact absurd rfl hvalid.ne_nil
        · exact ⟨htrim ▸ hvalid.sanitized, htrim⟩
      obtain ⟨b, hb⟩ := Option.isSome_iff_exists.mp hfile
      constructor
      · intro h
        refine ⟨fun hleft => ?_, fun key hsome hunder _ => (h key).mpr ⟨hsome, hunder⟩⟩
        have hsome := ((h (trimmed under)).mp rfl).1
        rw [htrim, hleft.2.2] at hsome
        cases hsome
      · rintro ⟨hleft, -⟩ key
        constructor
        · rintro rfl
          exact ⟨Option.isSome_of_eq_some ((hs.eq_some_iff hkey hb).mpr hleft), .inr (.inl rfl)⟩
        · rintro ⟨hsome, hunder⟩
          exact hs.eq_trimmed hdir hfile hsome hunder
  | false =>
      simp only [if_neg Bool.false_ne_true]
      have hnone : t.fileAt dir = none := by
        rwa [FileTree.isFile, Option.isSome_eq_false_iff, Option.isNone_iff_eq_none] at hfile
      constructor
      · intro h
        exact ⟨not_leftover hnone, fun key hsome hunder hnamed =>
          absurd hnamed ((h key).mpr ⟨hsome, hunder⟩).2.2⟩
      · rintro ⟨-, htemp⟩ key
        refine ⟨fun h => ⟨h.1, h.2.1⟩, ?_⟩
        rintro ⟨hsome, hunder⟩
        refine ⟨hsome, hunder, fun hnamed => ?_⟩
        obtain rfl := htemp key hsome hunder hnamed
        obtain ⟨path, hkey, -⟩ := hnamed
        obtain rfl : path = dir := by
          rcases trimmed_of_listDir hdir with ⟨hempty, -⟩ | ⟨-, hvalid, htrim⟩
          · rw [hempty, sanitizeKey, if_pos (.inl rfl)] at hkey
            cases hkey
          · rw [htrim, hvalid.sanitized] at hkey
            exact (Except.ok.inj hkey).symm
        rw [hs.eq_none hkey hnone] at hsome
        cases hsome

theorem Serves.avoids_list_of_none (hs : Serves m t) (hdir : listDir under = .ok dir)
    (hnone : t.lookup dir = none) : Avoids (.list under) t m := by
  intro dir' hdir'
  obtain rfl := Except.ok.inj (hdir.symm.trans hdir')
  refine ⟨not_leftover (by rw [FileTree.fileAt, hnone]), fun key hsome hunder _ => ?_⟩
  obtain ⟨r, -, rfl, hbelow⟩ := hs.exists_below hdir hsome hunder
  by_cases hr : r = []
  · rw [hr, List.append_nil, FileTree.isFile, FileTree.fileAt, hnone] at hbelow
    cases hbelow
  · rw [hs.rooted.dir_of_isFile hr hbelow] at hnone
    cases hnone

end List

/-! ## One call -/

section Call

variable {m : Objects} {t t' : Tree} {call : StoreCall} {reply : StoreReply} {e : StorageError}
  {key under : String} {path dir : List String}

theorem rejected_eq_none (h : rejected key = none) : ∃ path, sanitizeKey key = .ok path := by
  unfold rejected at h
  cases hkey : sanitizeKey key with
  | ok path => exact ⟨path, rfl⟩
  | error e =>
      rw [hkey] at h
      cases h

theorem rejected_eq_some {key' : String} (h : rejected key' = some key) :
    key' = key ∧ sanitizeKey key' = .error (.invalidKey key) := by
  unfold rejected at h
  cases hkey : sanitizeKey key' with
  | ok path =>
      rw [hkey] at h
      cases h
  | error e =>
      rw [hkey] at h
      cases h
      rw [sanitizeKey_error hkey]
      exact ⟨rfl, rfl⟩

theorem reading_error {query : Tree → Except StorageError StoreReply}
    (hexec : call.exec = reading query) (h : query t = .error e) : call.exec t = .error e t := by
  rw [hexec, reading, h]

theorem exec_rejected (h : call.rejects = some key) (t : Tree) :
    call.exec t = .error (.invalidKey key) t := by
  cases call with
  | put fault pid nonce key' bytes =>
      obtain ⟨rfl, herr⟩ := rejected_eq_some h
      refine Outcome.bind_of_error (Outcome.bind_of_error ?_)
      rw [herr]
      rfl
  | get key' =>
      obtain ⟨rfl, herr⟩ := rejected_eq_some h
      refine reading_error rfl ?_
      rw [LocalStorage.get, herr]
      rfl
  | delete key' =>
      obtain ⟨rfl, herr⟩ := rejected_eq_some h
      apply Outcome.bind_of_error
      rw [LocalStorage.delete, herr]
  | «exists» key' =>
      obtain ⟨rfl, herr⟩ := rejected_eq_some h
      refine reading_error rfl ?_
      rw [LocalStorage.«exists», herr]
      rfl
  | list under =>
      rw [StoreCall.rejects] at h
      split at h
      · cases h
      · rename_i hne
        obtain ⟨rfl, herr⟩ := rejected_eq_some h
        refine reading_error rfl ?_
        rw [LocalStorage.list, listDir, if_neg hne, herr]
        rfl

theorem avoids_rejected (h : call.rejects = some key) (t : Tree) (m : Objects) :
    Avoids call t m := by
  cases call with
  | put fault pid nonce key' bytes => trivial
  | get key' | delete key' | «exists» key' =>
      intro path hkey
      rw [(rejected_eq_some h).2] at hkey
      cases hkey
  | list under =>
      intro dir hdir
      rw [StoreCall.rejects] at h
      split at h
      · cases h
      · rename_i hne
        rw [listDir, if_neg hne, (rejected_eq_some h).2] at hdir
        cases hdir

/-- What a step does: the tree holds what the map becomes, and the answer is that of
the map exactly if the call avoids the temp files. -/
structure Stepped (m : Objects) (call : StoreCall) (t : Tree)
    (reply : Except StorageError StoreReply) (t' : Tree) : Prop where
  serves : Serves (record m (call, reply)) t'
  answers : ((∀ e, reply ≠ .error (.io e)) → call.rejects = none → Answers m call reply) ↔
    Avoids call t m

/-- What a call does, whether it fails or not. -/
def Steps (m : Objects) (call : StoreCall) (t : Tree) : Prop :=
  (∀ reply t', call.exec t = .ok reply t' → Stepped m call t (.ok reply) t') ∧
    ∀ e t', call.exec t = .error e t' → Stepped m call t (.error e) t'

theorem answers_of_io {e : FileError} (h : Avoids call t m) :
    ((∀ e', (.error (.io e) : Except StorageError StoreReply) ≠ .error (.io e')) →
      call.rejects = none → Answers m call (.error (.io e))) ↔ Avoids call t m :=
  iff_of_true (fun hio _ => absurd rfl (hio e)) h

theorem answers_of_answered {reply : Except StorageError StoreReply}
    (hio : ∀ e, reply ≠ .error (.io e)) (hrej : call.rejects = none)
    (h : Answers m call reply ↔ Avoids call t m) :
    ((∀ e, reply ≠ .error (.io e)) → call.rejects = none → Answers m call reply) ↔
      Avoids call t m :=
  ⟨fun hanswers => h.mp (hanswers hio hrej), fun havoids _ _ => h.mpr havoids⟩

theorem put_steps {fault : Option PutFault} {pid nonce : ℕ} {bytes : List UInt8}
    (hs : Serves m t) (hkey : sanitizeKey key = .ok path)
    (hspares : Spares (.put fault pid nonce key bytes) t m) :
    Steps m (.put fault pid nonce key bytes) t := by
  have hput := put_triple (m := m) fault pid nonce bytes hkey (hspares path hkey) t hs
  constructor
  · intro reply t' h
    obtain ⟨_, t₁, hok, h⟩ := Outcome.bind_ok.mp h
    obtain ⟨rfl, rfl⟩ := Outcome.pure_ok.mp h
    exact ⟨hput.1 _ _ hok, iff_of_true (fun _ _ => rfl) trivial⟩
  · intro e t' h
    rcases Outcome.bind_error.mp h with h | ⟨_, t₁, -, h⟩
    · obtain ⟨⟨e', rfl⟩, hserves⟩ := hput.2 _ _ h
      exact ⟨hserves, answers_of_io trivial⟩
    · cases h

theorem reading_steps {query : Tree → Except StorageError StoreReply} (hs : Serves m t)
    (hexec : call.exec = reading query) (hrecord : ∀ reply, record m (call, reply) = m)
    (hrej : call.rejects = none)
    (hquery : (Avoids call t m ∧ ∃ e, query t = .error (.io e)) ∨
      ∃ reply, query t = .ok reply ∧ (Answers m call (.ok reply) ↔ Avoids call t m)) :
    Steps m call t := by
  rw [Steps, hexec]
  unfold reading
  rcases hquery with ⟨havoids, e', hq⟩ | ⟨reply', hq, hanswers⟩
  · rw [hq]
    refine ⟨fun reply t' h => ?_, fun e t' h => ?_⟩
    · cases h
    · cases h
      exact ⟨by rwa [hrecord], answers_of_io havoids⟩
  · rw [hq]
    refine ⟨fun reply t' h => ?_, fun e t' h => ?_⟩
    · cases h
      exact ⟨by rwa [hrecord], answers_of_answered (fun e h => by cases h) hrej hanswers⟩
    · cases h

theorem avoids_get (hkey : sanitizeKey key = .ok path) :
    Avoids (.get key) t m ↔ ¬ Leftover t m path := by
  refine ⟨fun h => h path hkey, fun h path' hkey' => ?_⟩
  obtain rfl := Except.ok.inj (hkey.symm.trans hkey')
  exact h

theorem get_steps (hs : Serves m t) (hkey : sanitizeKey key = .ok path)
    (hrej : (StoreCall.get key).rejects = none) : Steps m (.get key) t := by
  refine reading_steps hs rfl (fun _ => rfl) hrej ?_
  rw [LocalStorage.get, hkey, avoids_get hkey]
  dsimp only
  cases hread : t.read path with
  | ok bytes =>
      refine .inr ⟨_, rfl, ?_⟩
      rw [Answers, ← hs.eq_some_iff hkey (FileTree.read_ok hread)]
      simp [eq_comm]
  | error e =>
      have hnone := FileTree.read_error hread
      have hanswers : Answers m (.get key) (.ok (.bytes none)) := by
        rw [Answers, hs.eq_none hkey hnone]
      cases e with
      | notFound => exact .inr ⟨_, rfl, iff_of_true hanswers (not_leftover hnone)⟩
      | notADirectory => exact .inl ⟨not_leftover hnone, _, rfl⟩
      | isADirectory => exact .inl ⟨not_leftover hnone, _, rfl⟩
      | other => exact .inl ⟨not_leftover hnone, _, rfl⟩

theorem exists_steps (hs : Serves m t) (hkey : sanitizeKey key = .ok path)
    (hrej : (StoreCall.exists key).rejects = none) : Steps m (.exists key) t := by
  refine reading_steps hs rfl (fun _ => rfl) hrej ?_
  rw [LocalStorage.«exists», hkey]
  refine .inr ⟨_, rfl, ?_⟩
  have havoids : Avoids (.exists key) t m ↔ ¬ Leftover t m path := avoids_get hkey
  rw [havoids, Answers, FileTree.isFile]
  cases hfile : t.fileAt path with
  | none =>
      rw [hs.eq_none hkey hfile]
      exact iff_of_true rfl (not_leftover hfile)
  | some b =>
      rw [← hs.eq_some_iff hkey hfile]
      cases hm : m key with
      | none => simp
      | some b' =>
          obtain ⟨hpath, rfl⟩ := sanitizeKey_eq_ok_iff.mp hkey
          rw [hs.stored path b' hpath hm] at hfile
          exact iff_of_true rfl hfile

theorem delete_steps (hs : Serves m t) (hkey : sanitizeKey key = .ok path)
    (hrej : (StoreCall.delete key).rejects = none) : Steps m (.delete key) t := by
  have havoids : Avoids (.delete key) t m ↔ ¬ Leftover t m path := avoids_get hkey
  constructor
  · intro reply t' h
    obtain ⟨_, t₁, hok, h⟩ := Outcome.bind_ok.mp h
    obtain ⟨rfl, rfl⟩ := Outcome.pure_ok.mp h
    rw [LocalStorage.delete, hkey] at hok
    dsimp only at hok
    split at hok
    · rename_i hremove
      cases hok
      obtain ⟨hfile, rfl⟩ := FileTree.removeFile_ok hremove
      obtain ⟨b, hb⟩ := Option.isSome_iff_exists.mp hfile
      obtain ⟨hpath, rfl⟩ := sanitizeKey_eq_ok_iff.mp hkey
      refine ⟨hs.erase hpath hfile, answers_of_answered (fun e h => by cases h) hrej ?_⟩
      rw [havoids, ← hs.eq_some_iff hkey hb, Answers]
      constructor
      · rintro (⟨hsome, -⟩ | ⟨-, hreply⟩)
        · obtain ⟨b', hm⟩ := Option.isSome_iff_exists.mp hsome
          have hb' := hs.stored path b' hpath hm
          rw [hb] at hb'
          rw [hm, hb']
        · cases hreply
      · intro hm
        exact .inl ⟨Option.isSome_of_eq_some hm, rfl⟩
    · cases hok
    · cases hok
  · intro e t' h
    rcases Outcome.bind_error.mp h with h | ⟨_, t₁, -, h⟩
    · rw [LocalStorage.delete, hkey] at h
      dsimp only at h
      split at h
      · cases h
      · rename_i hremove
        cases h
        have hnone := FileTree.removeFile_error hremove
        refine ⟨hs, iff_of_true (fun _ _ => .inr ⟨hs.eq_none hkey hnone, rfl⟩) ?_⟩
        exact havoids.mpr (not_leftover hnone)
      · rename_i hremove
        cases h
        exact ⟨hs, answers_of_io (havoids.mpr (not_leftover (FileTree.removeFile_error hremove)))⟩
    · cases h

theorem list_steps (hs : Serves m t) (hdir : listDir under = .ok dir)
    (hrej : (StoreCall.list under).rejects = none) : Steps m (.list under) t := by
  refine reading_steps hs rfl (fun _ => rfl) hrej ?_
  rcases hs.list hdir with ⟨hlookup, e, hlist⟩ | ⟨keys, hlist, hsorted, hmem⟩
  · exact .inl ⟨hs.avoids_list_of_none hdir hlookup, e, by rw [hlist]; rfl⟩
  · refine .inr ⟨.keys keys, by rw [hlist]; rfl, ?_⟩
    rw [← hs.listed_iff hdir, Answers]
    constructor
    · rintro ⟨keys', hkeys, -, hmem'⟩ key
      obtain rfl : keys = keys' := by simpa using hkeys
      rw [← hmem, hmem']
    · intro h
      exact ⟨keys, rfl, hsorted, fun key => (hmem key).trans (h key)⟩

theorem rejected_steps (hs : Serves m t) (h : call.rejects = some key) : Steps m call t := by
  rw [Steps, exec_rejected h t]
  refine ⟨fun reply t' hres => ?_, fun e t' hres => ?_⟩
  · cases hres
  · cases hres
    refine ⟨?_, iff_of_true (fun _ hnone => ?_) (avoids_rejected h t m)⟩
    · cases call <;> exact hs
    · rw [h] at hnone
      cases hnone

theorem exec_steps (hs : Serves m t) (hspares : Spares call t m) : Steps m call t := by
  cases hrej : call.rejects with
  | some key => exact rejected_steps hs hrej
  | none =>
      cases call with
      | put fault pid nonce key bytes =>
          obtain ⟨path, hkey⟩ := rejected_eq_none hrej
          exact put_steps hs hkey hspares
      | get key =>
          obtain ⟨path, hkey⟩ := rejected_eq_none hrej
          exact get_steps hs hkey hrej
      | delete key =>
          obtain ⟨path, hkey⟩ := rejected_eq_none hrej
          exact delete_steps hs hkey hrej
      | «exists» key =>
          obtain ⟨path, hkey⟩ := rejected_eq_none hrej
          exact exists_steps hs hkey hrej
      | list under =>
          have hrej' := hrej
          rw [StoreCall.rejects] at hrej'
          split at hrej'
          · rename_i hempty
            exact list_steps hs (if_pos hempty) hrej
          · rename_i hne
            obtain ⟨path, hkey⟩ := rejected_eq_none hrej'
            exact list_steps hs ((if_neg hne).trans hkey) hrej

end Call

/-! ## Runs -/

section Runs

variable {s s' : Ledger} {events l : List StoreEvent} {ev : StoreEvent}

theorem objects_snoc (events : List StoreEvent) (ev : StoreEvent) :
    objects (events ++ [ev]) = record (objects events) ev := by
  rw [objects, List.foldl_append]
  rfl

theorem answeredAsMap_nil : AnsweredAsMap [] := by
  refine ⟨fun before call reply after heq => ?_, fun call key h t => exec_rejected h t⟩
  exact absurd heq (by simp)

theorem answeredAsMap_snoc : AnsweredAsMap (events ++ [ev]) ↔ AnsweredAsMap events ∧
    ((∀ e, ev.2 ≠ .error (.io e)) → ev.1.rejects = none →
      Answers (objects events) ev.1 ev.2) := by
  constructor
  · intro h
    refine ⟨⟨fun before call reply after heq hio hrej => ?_, h.rejected⟩, ?_⟩
    · exact h.answered before call reply (after ++ [ev]) (by simp [heq]) hio hrej
    · exact h.answered events ev.1 ev.2 [] rfl
  · rintro ⟨h, hlast⟩
    refine ⟨fun before call reply after heq hio hrej => ?_, h.rejected⟩
    rcases List.eq_nil_or_concat after with rfl | ⟨after, last, rfl⟩
    · obtain ⟨rfl, hev⟩ := List.append_inj' heq rfl
      obtain rfl := List.singleton_inj.mp hev
      exact hlast hio hrej
    · rw [List.concat_eq_append, ← List.cons_append, ← List.append_assoc] at heq
      obtain ⟨rfl, -⟩ := List.append_inj' heq rfl
      exact h.answered before call reply after rfl hio hrej

/-- A step in which temp files spare the objects keeps what the files serve, is
answered well exactly if its call avoids the temp files, and is then a step of both. -/
theorem StoreStep.stepped (hs : Serves s.objects s.tree) (h : StoreStep Spares l s s') :
    ∃ ev, l = [ev] ∧ s'.objects = record s.objects ev ∧ Serves s'.objects s'.tree ∧
      (((∀ e, ev.2 ≠ .error (.io e)) → ev.1.rejects = none → Answers s.objects ev.1 ev.2) ↔
        StoreStep Apart l s s') := by
  cases h with
  | ok hC hexec =>
      obtain ⟨hserves, hanswers⟩ := (exec_steps hs hC).1 _ _ hexec
      refine ⟨_, rfl, rfl, hserves, hanswers.trans ⟨fun h => .ok ⟨hC, h⟩ hexec, fun h => ?_⟩⟩
      cases h with
      | ok hC' => exact hC'.2
  | error hC hexec =>
      obtain ⟨hserves, hanswers⟩ := (exec_steps hs hC).2 _ _ hexec
      refine ⟨_, rfl, rfl, hserves, hanswers.trans ⟨fun h => .error ⟨hC, h⟩ hexec, fun h => ?_⟩⟩
      cases h with
      | error hC' => exact hC'.2

theorem StoreStep.spares (h : StoreStep Apart l s s') : StoreStep Spares l s s' := by
  cases h with
  | ok hC hexec => exact .ok hC.1 hexec
  | error hC hexec => exact .error hC.1 hexec

theorem serves_run (hr : Run (StoreStep Spares) .start events s) :
    s.objects = objects events ∧ Serves s.objects s.tree := by
  refine hr.invariant (I := fun events s => s.objects = objects events ∧ Serves s.objects s.tree)
    ⟨rfl, serves_empty⟩ fun events l s s' ⟨hobjects, hs⟩ hstep => ?_
  obtain ⟨ev, rfl, hrecord, hserves, -⟩ := hstep.stepped hs
  rw [objects_snoc, ← hobjects]
  exact ⟨hrecord, hserves⟩

theorem spares_run (hr : Run (StoreStep Apart) .start events s) :
    Run (StoreStep Spares) .start events s := by
  induction hr with
  | refl => exact .refl
  | tail _ hstep ih => exact ih.tail hstep.spares

theorem answered_run (hr : Run (StoreStep Apart) .start events s) : AnsweredAsMap events := by
  induction hr with
  | refl => exact answeredAsMap_nil
  | tail hr hstep ih =>
      obtain ⟨hobjects, hs⟩ := serves_run (spares_run hr)
      obtain ⟨ev, rfl, -, -, hanswers⟩ := hstep.spares.stepped hs
      rw [hobjects] at hanswers
      exact answeredAsMap_snoc.mpr ⟨ih, hanswers.mpr hstep⟩

theorem apart_run (hr : Run (StoreStep Spares) .start events s) (h : AnsweredAsMap events) :
    Run (StoreStep Apart) .start events s := by
  induction hr with
  | refl => exact .refl
  | tail hr hstep ih =>
      obtain ⟨hobjects, hs⟩ := serves_run hr
      obtain ⟨ev, rfl, -, -, hanswers⟩ := hstep.stepped hs
      rw [hobjects] at hanswers
      obtain ⟨hbefore, hlast⟩ := answeredAsMap_snoc.mp h
      exact (ih hbefore).tail (hanswers.mp hlast)

end Runs

/-- **The local object store refines a map** along every run in which temp files and
objects keep apart in every call, and, where no temp file takes an object's place,
along no other. -/
theorem answered_as_map_iff {events : List StoreEvent} {s : Ledger} :
    (Run (StoreStep Apart) .start events s → AnsweredAsMap events) ∧
      (Run (StoreStep Spares) .start events s → AnsweredAsMap events →
        Run (StoreStep Apart) .start events s) :=
  ⟨answered_run, apart_run⟩

/-- A put, one of the same key that fails on its rename and leaves its temp file, and
an object that is named like a temp file, read and deleted. -/
def keepingApart : List StoreEvent :=
  [(.put none 7 0 "a" [1], .ok .done), (.put (some .rename) 7 1 "a" [2], .error (.io .other)),
    (.put none 7 2 "b.tmp-x" [3], .ok .done), (.get "a", .ok (.bytes (some [1]))),
    (.get "b.tmp-x", .ok (.bytes (some [3]))), (.delete "b.tmp-x", .ok .done),
    (.exists "b.tmp-x", .ok (.found false))]

/-- Both directions on it: the run keeps temp files and objects apart. -/
theorem answered_as_map_iff_demo : AnsweredAsMap keepingApart ∧
    ∃ s, Run (StoreStep Apart) .start keepingApart s := by
  have hpath : ∀ {key : String} (path : List String) {path' : List String},
      sanitizeKey key = .ok path → sanitizeKey key = .ok path' → path = path' :=
    fun _ _ h h' => Except.ok.inj (h.symm.trans h')
  have hget : ∀ {key : String} (path : List String) {t : Tree} {m : Objects},
      sanitizeKey key = .ok path → ¬ Leftover t m path →
      ∀ path', sanitizeKey key = .ok path' → ¬ Leftover t m path' := by
    intro key path t m hkey hleft path' hkey'
    rwa [← hpath path hkey hkey']
  have h₁ : Run (StoreStep Apart) .start _ _ :=
    .single (@StoreStep.ok _ (.put none 7 0 "a" [1]) _ _ _ .done
      ⟨fun _ _ _ => rfl, trivial⟩ rfl)
  have h₂ := h₁.tail (@StoreStep.error _ (.put (some .rename) 7 1 "a" [2]) _ _ _ _
    ⟨fun path h _ => by rw [← hpath ["a"] rfl h]; rfl, trivial⟩ rfl)
  have h₃ := h₂.tail (@StoreStep.ok _ (.put none 7 2 "b.tmp-x" [3]) _ _ _ .done
    ⟨fun path h _ => by rw [← hpath ["b.tmp-x"] rfl h]; rfl, trivial⟩ rfl)
  have h₄ := h₃.tail (@StoreStep.ok _ (.get "a") _ _ _ (.bytes (some [1]))
    ⟨trivial, hget ["a"] rfl fun h => absurd h.1 (by decide)⟩ rfl)
  have h₅ := h₄.tail (@StoreStep.ok _ (.get "b.tmp-x") _ _ _ (.bytes (some [3]))
    ⟨trivial, hget ["b.tmp-x"] rfl fun h => absurd h.2.2 (by decide)⟩ rfl)
  have h₆ := h₅.tail (@StoreStep.ok _ (.delete "b.tmp-x") _ _ _ .done
    ⟨trivial, hget ["b.tmp-x"] rfl fun h => absurd h.2.2 (by decide)⟩ rfl)
  have h₇ := h₆.tail (@StoreStep.ok _ (.exists "b.tmp-x") _ _ _ (.found false)
    ⟨trivial, hget ["b.tmp-x"] rfl fun h => absurd h.2.1 (by decide)⟩ rfl)
  have hanswered := answered_as_map_iff.1 h₇
  exact ⟨hanswered, _, answered_as_map_iff.2 (spares_run h₇) hanswered⟩

/-- A put of a key that looks like a temp file's, and a listing. -/
def tempNameEvents : List StoreEvent :=
  [(.put none 7 0 "a.tmp-x" [1], .ok .done), (.list "", .ok (.keys []))]

theorem exec_list_nil {t : Tree} (hfile : t.isFile [] = false)
    (hwalk : walk t (t.depth + 1) [] = .ok []) :
    (StoreCall.list "").exec t = .ok (.keys []) t := by
  have hdir : listDir "" = .ok [] := rfl
  have hlist : LocalStorage.list t "" = .ok [] := by
    rw [LocalStorage.list, hdir]
    dsimp only
    rw [hfile, if_neg Bool.false_ne_true, hwalk]
    exact congrArg Except.ok List.mergeSort_nil
  rw [StoreCall.exec, reading, hlist]
  rfl

/-- The listing skips the object. -/
theorem temp_name_not_listed :
    (∃ s, Run (StoreStep fun _ _ _ => True) .start tempNameEvents s) ∧
      ¬ AnsweredAsMap tempNameEvents := by
  constructor
  · have h₁ : Run (StoreStep fun _ _ _ => True) .start _ _ :=
      .single (@StoreStep.ok _ (.put none 7 0 "a.tmp-x" [1]) _ _ _ .done trivial rfl)
    exact ⟨_, h₁.tail (.ok trivial (exec_list_nil rfl rfl))⟩
  · intro h
    obtain ⟨keys, hkeys, -, hmem⟩ := h.answered [_] (.list "") (.ok (.keys [])) [] rfl
      (by simp) rfl
    obtain rfl : [] = keys := by
      simpa using hkeys
    have hlisted := (hmem "a.tmp-x").mpr ⟨rfl, .inl rfl⟩
    cases hlisted

end Rekha.LocalStorage
