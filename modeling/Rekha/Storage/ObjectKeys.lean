import Mathlib.Data.List.DropRight
import Mathlib.Data.List.Infix
import Mathlib.Data.String.Basic
import Rekha.Lib.FileTree

/-!
# Object keys

An object key is a forward-slash path. `sanitizeKey` takes it apart into the
segments of a path below the root and rejects what could leave it; the accepted
keys are exactly the valid paths (`sanitizeKey_eq_ok_iff`). Paths are POSIX paths.
-/

namespace Rekha.LocalStorage

/-- Errors returned by an object store. -/
inductive StorageError where
  | io (e : FileError)
  | invalidKey (key : String)
  | notFound (key : String)
deriving DecidableEq

/-- `key.split('/')`. -/
def segments (key : String) : List String := (key.toList.splitOn '/').map String.ofList

def keyOf (path : List String) : String :=
  String.ofList (['/'].intercalate (path.map String.toList))

def allowedSegment (segment : String) : Bool :=
  !decide (segment = "" ∨ segment = "." ∨ segment = "..") &&
    !(segment.toList.contains '\\' || segment.toList.contains '\x00')

/-- Map an object key to a path below the root. A split has at least one part. -/
def sanitizeKey (key : String) : Except StorageError (List String) :=
  if key = "" ∨ key.toList.head? = some '/' then .error (.invalidKey key)
  else if (segments key).all allowedSegment then .ok (segments key)
  else .error (.invalidKey key)

def tmpSuffix : String := ".tmp-"

/-- `name.contains(TMP_SUFFIX)`. -/
def isTemp (name : String) : Bool := decide (tmpSuffix.toList <:+: name.toList)

def fileName (path : List String) : String := path.getLastD "object"

/-- The temp file a `put` writes first, in the directory of the object. -/
def tmpPath (pid nonce : ℕ) (path : List String) : List String :=
  path.dropLast ++ [fileName path ++ tmpSuffix ++ pid.repr ++ "-" ++ nonce.repr]

/-! ## Valid paths -/

structure ValidSegment (segment : String) : Prop where
  allowed : allowedSegment segment = true
  noSlash : '/' ∉ segment.toList

structure ValidPath (path : List String) : Prop where
  ne_nil : path ≠ []
  valid : ∀ s ∈ path, ValidSegment s

variable {key : String} {path dir : List String} {segment : String}

theorem ValidSegment.ne_empty (h : ValidSegment segment) : segment ≠ "" := by
  rintro rfl
  exact absurd h.allowed (by decide)

theorem ValidSegment.noBackslash (h : ValidSegment segment) : '\\' ∉ segment.toList := by
  have hallowed := h.allowed
  simp only [allowedSegment, Bool.and_eq_true, Bool.not_eq_true', Bool.or_eq_false_iff,
    List.contains_eq_mem, decide_eq_false_iff_not] at hallowed
  exact hallowed.2.1

theorem not_mem_of_mem_splitOn {α : Type} [DecidableEq α] {a : α} {l : List α} :
    ∀ {w : List α}, l ∈ w.splitOn a → a ∉ l
  | [], h => by
      rw [List.splitOn_nil, List.mem_singleton] at h
      subst h
      exact List.not_mem_nil
  | b :: w, h => by
      rw [List.splitOn_cons_eq_if_modifyHead] at h
      split at h
      · rcases List.mem_cons.mp h with rfl | h
        · exact List.not_mem_nil
        · exact not_mem_of_mem_splitOn h
      · rename_i hne
        obtain ⟨first, rest, hsplit⟩ := List.exists_cons_of_ne_nil (List.splitOn_ne_nil a w)
        rw [hsplit, List.modifyHead_cons] at h
        have hall : ∀ m ∈ first :: rest, a ∉ m := by
          intro m hm
          rw [← hsplit] at hm
          exact not_mem_of_mem_splitOn hm
        rcases List.mem_cons.mp h with rfl | h
        · intro hmem
          rcases List.mem_cons.mp hmem with rfl | hmem
          · exact hne (beq_self_eq_true _)
          · exact hall first List.mem_cons_self hmem
        · exact hall l (List.mem_cons_of_mem _ h)

theorem mem_of_mem_intercalate {α : Type} {c : α} {sep : List α} : ∀ {ls : List (List α)},
    c ∈ sep.intercalate ls → c ∈ sep ∨ ∃ l ∈ ls, c ∈ l
  | [], h => by
      rw [List.intercalate_nil] at h
      cases h
  | [l], h => by
      rw [List.intercalate_singleton] at h
      exact .inr ⟨l, List.mem_cons_self, h⟩
  | l :: l' :: ls, h => by
      rw [List.intercalate_cons_cons, List.mem_append, List.mem_append] at h
      rcases h with (h | h) | h
      · exact .inr ⟨l, List.mem_cons_self, h⟩
      · exact .inl h
      · rcases mem_of_mem_intercalate h with hsep | ⟨k, hk, hc⟩
        · exact .inl hsep
        · exact .inr ⟨k, List.mem_cons_of_mem l hk, hc⟩

theorem map_toList_segments (key : String) :
    (segments key).map String.toList = key.toList.splitOn '/' := by
  simp [segments, Function.comp_def]

theorem keyOf_segments (key : String) : keyOf (segments key) = key := by
  rw [keyOf, map_toList_segments, List.intercalate_splitOn, String.ofList_toList]

theorem ValidPath.splitOn_keyOf (h : ValidPath path) :
    (keyOf path).toList.splitOn '/' = path.map String.toList := by
  rw [keyOf, String.toList_ofList]
  refine List.splitOn_intercalate '/' ?_ (by simpa using h.ne_nil)
  rintro l hl hmem
  obtain ⟨s, hs, rfl⟩ := List.mem_map.mp hl
  exact (h.valid s hs).noSlash hmem

theorem ValidPath.segments_keyOf (h : ValidPath path) : segments (keyOf path) = path := by
  rw [segments, h.splitOn_keyOf]
  simp [Function.comp_def]

theorem sanitizeKey_eq_ok_iff : sanitizeKey key = .ok path ↔ ValidPath path ∧ key = keyOf path := by
  constructor
  · intro h
    unfold sanitizeKey at h
    split at h
    · cases h
    · split at h
      · rename_i hall
        cases h
        refine ⟨⟨?_, fun s hs => ⟨List.all_eq_true.mp hall s hs, ?_⟩⟩, (keyOf_segments key).symm⟩
        · simp [segments]
        · obtain ⟨l, hl, rfl⟩ := List.mem_map.mp hs
          rw [String.toList_ofList]
          exact not_mem_of_mem_splitOn hl
      · cases h
  · rintro ⟨hpath, rfl⟩
    obtain ⟨first, rest, rfl⟩ := List.exists_cons_of_ne_nil hpath.ne_nil
    have hfirst := hpath.valid first List.mem_cons_self
    obtain ⟨c, cs, hchars⟩ : ∃ c cs, first.toList = c :: cs := by
      apply List.exists_cons_of_ne_nil
      intro hnil
      exact hfirst.ne_empty (String.toList_eq_nil_iff.mp hnil)
    have hc : c ≠ '/' := by
      rintro rfl
      exact hfirst.noSlash (by rw [hchars]; exact List.mem_cons_self)
    obtain ⟨tail, htail⟩ : ∃ tail, (keyOf (first :: rest)).toList = c :: tail := by
      rw [keyOf, String.toList_ofList, List.map_cons, hchars]
      cases rest.map String.toList with
      | nil => exact ⟨cs, by simp⟩
      | cons l ls => exact ⟨cs ++ '/' :: ['/'].intercalate (l :: ls), by simp⟩
    have hne : ¬ (keyOf (first :: rest) = "" ∨
        (keyOf (first :: rest)).toList.head? = some '/') := by
      rintro (hempty | hhead)
      · rw [hempty] at htail
        cases htail
      · rw [htail] at hhead
        exact hc (Option.some.inj hhead)
    have hall : (first :: rest).all allowedSegment = true :=
      List.all_eq_true.mpr fun s hs => (hpath.valid s hs).allowed
    rw [sanitizeKey, if_neg hne, hpath.segments_keyOf, if_pos hall]

theorem ValidPath.sanitized (h : ValidPath path) : sanitizeKey (keyOf path) = .ok path :=
  sanitizeKey_eq_ok_iff.mpr ⟨h, rfl⟩

theorem ValidPath.keyOf_inj (h : ValidPath path) (h' : ValidPath dir)
    (heq : keyOf path = keyOf dir) : path = dir := by
  rw [← h.segments_keyOf, heq, h'.segments_keyOf]

theorem sanitizeKey_error {e : StorageError} (h : sanitizeKey key = .error e) :
    e = .invalidKey key := by
  unfold sanitizeKey at h
  split at h
  · cases h
    rfl
  · split at h
    · cases h
    · cases h
      rfl

theorem keyOf_append_slash_iff (hd : ValidPath dir) (hp : ValidPath path) :
    (∃ rest, keyOf path = keyOf dir ++ "/" ++ rest) ↔ ∃ r, r ≠ [] ∧ path = dir ++ r := by
  constructor
  · rintro ⟨rest, heq⟩
    have hsplit := hp.segments_keyOf
    have hchars : (keyOf path).toList = (keyOf dir).toList ++ '/' :: rest.toList := by
      rw [heq]
      simp
    rw [segments, hchars, List.splitOn_append_cons_self, List.map_append] at hsplit
    have hdir : ((keyOf dir).toList.splitOn '/').map String.ofList = dir := hd.segments_keyOf
    rw [hdir] at hsplit
    exact ⟨_, by simp, hsplit.symm⟩
  · rintro ⟨r, hne, rfl⟩
    have hr : ValidPath r := ⟨hne, fun s hs => hp.valid s (List.mem_append_right _ hs)⟩
    have hsegments : segments (keyOf dir ++ "/" ++ keyOf r) = dir ++ r := by
      have hchars : (keyOf dir ++ "/" ++ keyOf r).toList =
          (keyOf dir).toList ++ '/' :: (keyOf r).toList := by
        simp
      rw [segments, hchars, List.splitOn_append_cons_self, List.map_append]
      exact congrArg₂ (· ++ ·) hd.segments_keyOf hr.segments_keyOf
    refine ⟨keyOf r, ?_⟩
    rw [← hsegments, keyOf_segments]

/-! ## Temp files -/

theorem isTemp_tmpPath (pid nonce : ℕ) (path : List String) :
    isTemp (fileName (tmpPath pid nonce path)) = true := by
  rw [isTemp, decide_eq_true_eq, fileName, tmpPath, List.getLastD_concat]
  refine ⟨(fileName path).toList, (pid.repr ++ "-" ++ nonce.repr).toList, ?_⟩
  simp

theorem not_mem_repr {c : Char} (hc : c.isDigit = false) (n : ℕ) : c ∉ n.repr.toList := by
  intro hmem
  rw [Nat.toList_repr] at hmem
  rw [Nat.isDigit_of_mem_toDigits (by decide) (by decide) hmem] at hc
  cases hc

/-- A character that is no digit and not in the suffix is in a temp name where it is
in the name. -/
theorem not_mem_tmpName {c : Char} (hc : c.isDigit = false) (hsuffix : c ∉ tmpSuffix.toList)
    (hdash : c ≠ '-') {name : String} (hname : c ∉ name.toList) (pid nonce : ℕ) :
    c ∉ (name ++ tmpSuffix ++ pid.repr ++ "-" ++ nonce.repr).toList := by
  simp only [String.toList_append, List.mem_append, not_or]
  exact ⟨⟨⟨⟨hname, hsuffix⟩, not_mem_repr hc pid⟩, by simpa using hdash⟩, not_mem_repr hc nonce⟩

theorem ValidSegment.tmpName (h : ValidSegment segment) (pid nonce : ℕ) :
    ValidSegment (segment ++ tmpSuffix ++ pid.repr ++ "-" ++ nonce.repr) := by
  have hallowed := h.allowed
  simp only [allowedSegment, Bool.and_eq_true, Bool.not_eq_true', Bool.or_eq_false_iff,
    List.contains_eq_mem, decide_eq_false_iff_not] at hallowed
  obtain ⟨-, hback, hnul⟩ := hallowed
  refine ⟨?_, not_mem_tmpName (by decide) (by decide) (by decide) h.noSlash pid nonce⟩
  simp only [allowedSegment, Bool.and_eq_true, Bool.not_eq_true', Bool.or_eq_false_iff,
    List.contains_eq_mem, decide_eq_false_iff_not]
  refine ⟨?_, not_mem_tmpName (by decide) (by decide) (by decide) hback pid nonce,
    not_mem_tmpName (by decide) (by decide) (by decide) hnul pid nonce⟩
  have hlen : 5 ≤ (segment ++ tmpSuffix ++ pid.repr ++ "-" ++ nonce.repr).length := by
    simp only [String.length_append]
    have hsuffix : tmpSuffix.length = 5 := rfl
    omega
  rintro (heq | heq | heq)
  · rw [heq] at hlen
    exact absurd hlen (by decide)
  · rw [heq] at hlen
    exact absurd hlen (by decide)
  · rw [heq] at hlen
    exact absurd hlen (by decide)

theorem ne_tmpPath (pid nonce : ℕ) (path : List String) : path ≠ tmpPath pid nonce path := by
  intro heq
  have hlen := congrArg String.length (congrArg fileName heq)
  rw [fileName, fileName, tmpPath, List.getLastD_concat] at hlen
  simp only [String.length_append] at hlen
  have hsuffix : tmpSuffix.length = 5 := rfl
  rw [fileName] at hlen
  omega

theorem ValidPath.tmpPath (h : ValidPath path) (pid nonce : ℕ) :
    ValidPath (tmpPath pid nonce path) := by
  refine ⟨by simp [LocalStorage.tmpPath], fun s hs => ?_⟩
  rcases List.mem_append.mp hs with hs | hs
  · exact h.valid s (List.mem_of_mem_dropLast hs)
  · obtain rfl := List.mem_singleton.mp hs
    have hlast : fileName path = path.getLast h.ne_nil := by
      rw [fileName, List.getLastD_eq_getLast?, List.getLast?_eq_some_getLast h.ne_nil]
      rfl
    rw [hlast]
    exact (h.valid _ (List.getLast_mem h.ne_nil)).tmpName pid nonce

end Rekha.LocalStorage
