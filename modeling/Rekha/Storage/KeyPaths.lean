import Rekha.Lib.Outcome
import Rekha.Lib.UnixPath
import Rekha.Storage.ObjectKeys

/-!
# The paths of object keys

A sanitized key is a relative path whose components are the key's segments. Joined
to the root it leads strictly below the root, whatever the root is, and no two
accepted keys share a path (`keys_stay_below_root`).
-/

namespace Rekha.LocalStorage

open Outcome UnixPath

abbrev PathBuf := List Char

def unix : Alphabet Char := ⟨'/', '.'⟩

/-- `sanitize_key` with its parts collected into a path. -/
def sanitizeKeyPath (key : String) : Except StorageError PathBuf := do
  let parts ← sanitizeKey key
  pure (collect unix (parts.map String.toList))

def fullPath (root : PathBuf) (key : String) : Except StorageError PathBuf := do
  pure (push unix root (← sanitizeKeyPath key))

variable {key key' : String} {path : List String} {p : PathBuf}

theorem ValidSegment.isName {segment : String} (h : ValidSegment segment) :
    IsName unix segment.toList := by
  have hallowed := h.allowed
  simp only [allowedSegment, Bool.and_eq_true, Bool.not_eq_true', decide_eq_false_iff_not,
    not_or] at hallowed
  obtain ⟨⟨hempty, hdot, hdots⟩, -⟩ := hallowed
  have hne : ∀ {text : String}, segment ≠ text → segment.toList ≠ text.toList := by
    intro text hne heq
    exact hne (String.toList_inj.mp heq)
  exact ⟨hne hempty, hne hdot, hne hdots, h.noSlash⟩

theorem ValidPath.isName (h : ValidPath path) :
    ∀ part ∈ path.map String.toList, IsName unix part := by
  rintro part hpart
  obtain ⟨segment, hsegment, rfl⟩ := List.mem_map.mp hpart
  exact (h.valid segment hsegment).isName

theorem ValidPath.parts_ne_nil (h : ValidPath path) : path.map String.toList ≠ [] :=
  fun hnil => h.ne_nil (List.map_eq_nil_iff.mp hnil)

theorem sanitizeKeyPath_ok : sanitizeKeyPath key = .ok p ↔
    ValidPath (segments key) ∧ p = collect unix ((segments key).map String.toList) := by
  rw [sanitizeKeyPath, except_bind_ok]
  constructor
  · rintro ⟨path, hpath, hp⟩
    obtain ⟨hvalid, rfl⟩ := sanitizeKey_eq_ok_iff.mp hpath
    obtain rfl := Except.ok.inj hp
    rw [hvalid.segments_keyOf]
    exact ⟨hvalid, rfl⟩
  · rintro ⟨hvalid, rfl⟩
    exact ⟨_, sanitizeKey_eq_ok_iff.mpr ⟨hvalid, (keyOf_segments key).symm⟩, rfl⟩

theorem validPath_segments : ValidPath (segments key) ↔ key ≠ "" ∧ ∀ s ∈ segments key,
    s ≠ "" ∧ s ≠ "." ∧ s ≠ ".." ∧ '\\' ∉ s.toList ∧ '\x00' ∉ s.toList := by
  have hallowed : ∀ s, allowedSegment s = true ↔
      s ≠ "" ∧ s ≠ "." ∧ s ≠ ".." ∧ '\\' ∉ s.toList ∧ '\x00' ∉ s.toList := by
    intro s
    simp [allowedSegment, and_assoc]
  constructor
  · intro h
    refine ⟨?_, fun s hs => (hallowed s).mp (h.valid s hs).allowed⟩
    rintro rfl
    exact absurd (h.valid "" (by decide)).allowed (by decide)
  · rintro ⟨-, h⟩
    refine ⟨by simp [segments], fun s hs => ⟨(hallowed s).mpr (h s hs), ?_⟩⟩
    obtain ⟨l, hl, rfl⟩ := List.mem_map.mp hs
    rw [String.toList_ofList]
    exact not_mem_of_mem_splitOn hl

theorem components_sanitized (h : sanitizeKeyPath key = .ok p) :
    components unix p = ((segments key).map String.toList).map .normal := by
  obtain ⟨hvalid, rfl⟩ := sanitizeKeyPath_ok.mp h
  exact components_collect hvalid.parts_ne_nil hvalid.isName

theorem resolve_fullPath {root full : PathBuf} (h : fullPath root key = .ok full) :
    resolve unix full = { resolve unix root with
      names := (resolve unix root).names ++ (segments key).map String.toList } := by
  obtain ⟨p, hp, hfull⟩ := except_bind_ok.mp h
  obtain rfl := Except.ok.inj hfull
  obtain ⟨hvalid, rfl⟩ := sanitizeKeyPath_ok.mp hp
  exact resolve_join_names root hvalid.parts_ne_nil hvalid.isName

theorem parts_inj (h : (segments key).map String.toList = (segments key').map String.toList) :
    key = key' := by
  rw [← keyOf_segments key, ← keyOf_segments key', keyOf, keyOf, h]

/-- **A key names a place strictly below the root, and its own place there.** -/
theorem keys_stay_below_root (root : PathBuf) (key key' : String) :
    ((∃ p, sanitizeKeyPath key = .ok p) ↔ key ≠ "" ∧ ∀ s ∈ segments key,
      s ≠ "" ∧ s ≠ "." ∧ s ≠ ".." ∧ '\\' ∉ s.toList ∧ '\x00' ∉ s.toList) ∧
    (∀ p, sanitizeKeyPath key = .ok p →
      components unix p = ((segments key).map String.toList).map .normal ∧
      ∃ full, fullPath root key = .ok full ∧ (resolve unix root).Below (resolve unix full)) ∧
    (∀ p p', sanitizeKeyPath key = .ok p → sanitizeKeyPath key' = .ok p' → key ≠ key' →
      components unix p ≠ components unix p' ∧
      ∀ full full', fullPath root key = .ok full → fullPath root key' = .ok full' →
        resolve unix full ≠ resolve unix full') := by
  refine ⟨?_, ?_, ?_⟩
  · rw [← validPath_segments]
    constructor
    · rintro ⟨p, hp⟩
      exact (sanitizeKeyPath_ok.mp hp).1
    · intro hvalid
      exact ⟨_, sanitizeKeyPath_ok.mpr ⟨hvalid, rfl⟩⟩
  · intro p hp
    have hfull : fullPath root key = .ok (push unix root p) := by
      rw [fullPath, hp]
      rfl
    refine ⟨components_sanitized hp, _, hfull, _, ?_, resolve_fullPath hfull⟩
    exact (sanitizeKeyPath_ok.mp hp).1.parts_ne_nil
  · intro p p' hp hp' hne
    refine ⟨fun heq => hne (parts_inj ?_), fun full full' hfull hfull' heq => hne (parts_inj ?_)⟩
    · rw [components_sanitized hp, components_sanitized hp'] at heq
      exact List.map_injective_iff.mpr (fun _ _ h => Component.normal.inj h) heq
    · rw [resolve_fullPath hfull, resolve_fullPath hfull'] at heq
      exact List.append_cancel_left (congrArg Place.names heq)

/-- Two keys below a root that leads up and down itself. -/
theorem keys_stay_below_root_demo :
    (resolve unix "/srv/../data/".toList).Below (resolve unix "/srv/../data/a/b".toList) ∧
      resolve unix "/srv/../data/a/b".toList ≠ resolve unix "/srv/../data/a/c".toList := by
  have hb : sanitizeKeyPath "a/b" = .ok "a/b".toList := by decide +kernel
  have hc : sanitizeKeyPath "a/c" = .ok "a/c".toList := by decide +kernel
  have hfull : fullPath "/srv/../data/".toList "a/b" = .ok "/srv/../data/a/b".toList := by
    decide +kernel
  have hfull' : fullPath "/srv/../data/".toList "a/c" = .ok "/srv/../data/a/c".toList := by
    decide +kernel
  obtain ⟨-, hbelow, hapart⟩ := keys_stay_below_root "/srv/../data/".toList "a/b" "a/c"
  obtain ⟨-, full, hf, h⟩ := hbelow _ hb
  obtain rfl := Except.ok.inj (hfull.symm.trans hf)
  exact ⟨h, (hapart _ _ hb hc (by decide)).2 _ _ hfull hfull'⟩

end Rekha.LocalStorage
