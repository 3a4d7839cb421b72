import Mathlib.Data.List.Induction
import Rekha.Lib.FinMap

/-!
# A tree of files and directories

The files and directories below a root, by their path from it, and the operations
an operating system has on them. An operation fails with an error of which callers
tell only `notFound` apart: the path leads to nothing, and its ancestors are
directories as far as they exist. In a `Rooted` tree the parent of every entry is a
directory, and every operation keeps it so.
-/

inductive FileNode (β : Type) where
  | file (content : β)
  | dir

abbrev FileTree (α β : Type) := FinMap (List α) (FileNode β)

inductive FileError where
  | notFound
  | notADirectory
  | isADirectory
  | other
deriving DecidableEq

namespace FileTree

variable {α β : Type} [DecidableEq α]

def fileAt (t : FileTree α β) (p : List α) : Option β :=
  match t.lookup p with
  | some (.file b) => some b
  | _ => none

def isFile (t : FileTree α β) (p : List α) : Bool := (t.fileAt p).isSome

/-- A file among the first `n` of the paths that lead to `p`. -/
def blocked (t : FileTree α β) (p : List α) (n : ℕ) : Bool :=
  (List.range n).any fun i => t.isFile (p.take i)

/-- The error of a path that leads to nothing. -/
def missing (t : FileTree α β) (p : List α) : FileError :=
  if t.blocked p p.length then .notADirectory else .notFound

def read (t : FileTree α β) (p : List α) : Except FileError β :=
  match t.lookup p with
  | some (.file b) => .ok b
  | some .dir => .error .isADirectory
  | none => .error (t.missing p)

/-- The paths one step below `p`. -/
def children (t : FileTree α β) (p : List α) : List (List α) :=
  t.keys.filter fun q => decide (q ≠ [] ∧ q.dropLast = p)

/-- The paths of the entries of a directory, in no particular order. -/
def readDir (t : FileTree α β) (p : List α) : Except FileError (List (List α)) :=
  match t.lookup p with
  | some .dir => .ok (t.children p)
  | some (.file _) => .error .notADirectory
  | none => .error (t.missing p)

/-- Create those of the first `n` directories on the way to `p` that are missing. -/
def makeDirs (t : FileTree α β) (p : List α) : ℕ → FileTree α β
  | 0 => t
  | n + 1 =>
      if ((t.makeDirs p n).lookup (p.take n)).isSome then t.makeDirs p n
      else (t.makeDirs p n).insert (p.take n) .dir

def createDirAll (t : FileTree α β) (p : List α) : Except FileError (FileTree α β) :=
  if t.blocked p (p.length + 1) then .error .notADirectory
  else .ok (t.makeDirs p (p.length + 1))

/-- Create a file, or empty and rewrite the one that is there. -/
def writeFile (t : FileTree α β) (p : List α) (b : β) : Except FileError (FileTree α β) :=
  match t.lookup p.dropLast, t.lookup p with
  | some .dir, some .dir => .error .isADirectory
  | some .dir, _ => .ok (t.insert p (.file b))
  | _, _ => .error (t.missing p)

/-- Move a file, replacing the one that is there. -/
def rename (t : FileTree α β) (p q : List α) : Except FileError (FileTree α β) :=
  match t.fileAt p with
  | none => .error (t.missing p)
  | some b =>
      match t.lookup q.dropLast, t.lookup q with
      | some .dir, some .dir => .error .isADirectory
      | some .dir, _ => .ok ((t.erase p).insert q (.file b))
      | _, _ => .error (t.missing q)

def removeFile (t : FileTree α β) (p : List α) : Except FileError (FileTree α β) :=
  match t.lookup p with
  | some (.file _) => .ok (t.erase p)
  | some .dir => .error .isADirectory
  | none => .error (t.missing p)

/-- The root is a directory, and so is the parent of every entry. -/
structure Rooted (t : FileTree α β) : Prop where
  root : t.lookup [] = some .dir
  parent : ∀ p a, (t.lookup (p ++ [a])).isSome → t.lookup p = some .dir

def entryFiles (p : List α) (below : List (List α)) : Option (FileNode β) → List (List α)
  | some .dir => below
  | some (.file _) => [p]
  | none => []

/-- The paths of the files below `p`, down to `n` levels. -/
def filesBelow (t : FileTree α β) : ℕ → List α → List (List α)
  | 0, _ => []
  | n + 1, p => (t.children p).flatMap fun q => entryFiles q (t.filesBelow n q) (t.lookup q)

def depth (t : FileTree α β) : ℕ := (t.keys.map List.length).foldr max 0

def empty : FileTree α β := AList.insert [] .dir ∅

variable {t t' : FileTree α β} {p q : List α} {b : β} {n : ℕ} {a : α}

theorem fileAt_eq_some : t.fileAt p = some b ↔ t.lookup p = some (.file b) := by
  unfold fileAt
  split
  · rename_i c h
    simp [h]
  · rename_i h
    constructor
    · intro hnone
      cases hnone
    · intro hfile
      exact absurd hfile (h b)

theorem fileAt_insert_file (t : FileTree α β) (p : List α) (b : β) (q : List α) :
    fileAt (t.insert p (.file b)) q = if q = p then some b else t.fileAt q := by
  unfold fileAt
  rw [FinMap.lookup_insert_ite]
  by_cases hq : q = p
  · rw [if_pos hq, if_pos hq]
  · rw [if_neg hq, if_neg hq]

theorem fileAt_erase (t : FileTree α β) (p q : List α) :
    fileAt (t.erase p) q = if q = p then none else t.fileAt q := by
  unfold fileAt
  rw [FinMap.lookup_erase_ite]
  by_cases hq : q = p
  · rw [if_pos hq, if_pos hq]
  · rw [if_neg hq, if_neg hq]

theorem rooted_empty : Rooted (empty : FileTree α β) := by
  constructor
  · exact AList.lookup_insert _
  · intro p a h
    rw [empty, FinMap.lookup_insert_ite, if_neg (by simp)] at h
    cases h

/-! ## What keeps a tree rooted -/

theorem Rooted.ancestor (ht : t.Rooted) (hq : q ≠ []) (h : (t.lookup (p ++ q)).isSome) :
    t.lookup p = some .dir := by
  induction q using List.reverseRecOn with
  | nil => exact absurd rfl hq
  | append_singleton q a ih =>
      rw [← List.append_assoc] at h
      have hdir := ht.parent _ _ h
      by_cases hnil : q = []
      · subst hnil
        rwa [List.append_nil] at hdir
      · exact ih hnil (Option.isSome_of_eq_some hdir)

theorem Rooted.dir_of_isFile (ht : t.Rooted) (hq : q ≠ []) (h : t.isFile (p ++ q) = true) :
    t.lookup p = some .dir := by
  obtain ⟨b, hb⟩ := Option.isSome_iff_exists.mp h
  exact ht.ancestor hq (Option.isSome_of_eq_some (fileAt_eq_some.mp hb))

theorem Rooted.insert (ht : t.Rooted) (node : FileNode β) (hdir : t.lookup p = some .dir)
    (h : t.lookup (p ++ [a]) ≠ some .dir) : Rooted (t.insert (p ++ [a]) node) := by
  constructor
  · rw [FinMap.lookup_insert_ite, if_neg (by simp)]
    exact ht.root
  · intro q c hc
    rw [FinMap.lookup_insert_ite] at hc ⊢
    by_cases heq : q ++ [c] = p ++ [a]
    · obtain ⟨rfl, -⟩ := List.append_inj' heq rfl
      rw [if_neg (by simp)]
      exact hdir
    · rw [if_neg heq] at hc
      have hq := ht.parent q c hc
      rw [if_neg, hq]
      rintro rfl
      exact h hq

theorem Rooted.erase (ht : t.Rooted) (h : t.lookup p ≠ some .dir) : Rooted (t.erase p) := by
  constructor
  · rw [FinMap.lookup_erase_ite, if_neg, ht.root]
    rintro rfl
    exact h ht.root
  · intro q c hc
    rw [FinMap.lookup_erase_ite] at hc ⊢
    by_cases heq : q ++ [c] = p
    · rw [if_pos heq] at hc
      cases hc
    · rw [if_neg heq] at hc
      have hq := ht.parent q c hc
      rw [if_neg, hq]
      rintro rfl
      exact h hq

/-! ## The operations -/

/-- What creating directories leaves of a tree: all that was there, and besides only
directories on the way. -/
structure Extended (p : List α) (t t' : FileTree α β) : Prop where
  old : ∀ q node, t.lookup q = some node → t'.lookup q = some node
  new : ∀ q, t.lookup q = none → t'.lookup q = none ∨ t'.lookup q = some .dir ∧ q <+: p

theorem Extended.fileAt (h : Extended p t t') (q : List α) : t'.fileAt q = t.fileAt q := by
  cases hq : t.lookup q with
  | some node => rw [FileTree.fileAt, FileTree.fileAt, h.old q node hq, hq]
  | none =>
      rcases h.new q hq with hnone | ⟨hdir, -⟩
      · rw [FileTree.fileAt, FileTree.fileAt, hnone, hq]
      · rw [FileTree.fileAt, FileTree.fileAt, hdir, hq]

theorem Extended.insert_dir {q : List α} (h : Extended p t t') (hfree : t'.lookup q = none)
    (hq : q <+: p) : Extended p t (t'.insert q .dir) := by
  refine ⟨fun r node hr => ?_, fun r hr => ?_⟩
  · have hold := h.old r node hr
    rw [FinMap.lookup_insert_ite, if_neg, hold]
    rintro rfl
    rw [hfree] at hold
    cases hold
  · rw [FinMap.lookup_insert_ite]
    by_cases heq : r = q
    · rw [if_pos heq]
      exact .inr ⟨rfl, heq ▸ hq⟩
    · rw [if_neg heq]
      exact h.new r hr

theorem Rooted.makeDirs (ht : t.Rooted) (p : List α) (n : ℕ) (hn : n ≤ p.length + 1)
    (hfree : t.blocked p n = false) : Rooted (t.makeDirs p n) ∧ Extended p t (t.makeDirs p n) ∧
      ∀ i, i < n → (t.makeDirs p n).lookup (p.take i) = some .dir := by
  induction n with
  | zero =>
      exact ⟨ht, ⟨fun _ _ h => h, fun _ h => .inl h⟩, fun i hi => absurd hi (Nat.not_lt_zero i)⟩
  | succ n ih =>
      rw [blocked, List.range_succ, List.any_append, Bool.or_eq_false_iff] at hfree
      obtain ⟨hroot, hext, hdirs⟩ := ih (by omega) hfree.1
      have hnofile : t.fileAt (p.take n) = none := by simpa [isFile] using hfree.2
      rw [FileTree.makeDirs]
      cases hcur : (t.makeDirs p n).lookup (p.take n) with
      | some node =>
          have hdir : node = .dir := by
            cases node with
            | dir => rfl
            | file b =>
                rw [← hext.fileAt, fileAt_eq_some.mpr hcur] at hnofile
                cases hnofile
          subst hdir
          refine ⟨hroot, hext, fun i hi => ?_⟩
          rcases Nat.lt_succ_iff_lt_or_eq.mp hi with hlt | rfl
          · exact hdirs i hlt
          · exact hcur
      | none =>
          have hpos : 0 < n := by
            rcases Nat.eq_zero_or_pos n with rfl | hpos
            · rw [List.take_zero, hroot.root] at hcur
              cases hcur
            · exact hpos
          obtain ⟨m, rfl⟩ := Nat.exists_eq_add_one.mpr hpos
          have hlt : m < p.length := by omega
          have hsplit : p.take (m + 1) = p.take m ++ [p.get ⟨m, hlt⟩] := by
            rw [List.take_add_one, List.getElem?_eq_getElem hlt]
            rfl
          have hins := hroot.insert .dir (hdirs m (Nat.lt_succ_self m))
            (a := p.get ⟨m, hlt⟩) (by rw [← hsplit, hcur]; simp)
          rw [← hsplit] at hins
          rw [if_neg (by simp)]
          refine ⟨hins, hext.insert_dir hcur (List.take_prefix _ _), fun i hi => ?_⟩
          rw [FinMap.lookup_insert_ite]
          rcases Nat.lt_succ_iff_lt_or_eq.mp hi with hlt' | rfl
          · by_cases heq : p.take i = p.take (m + 1)
            · rw [if_pos heq]
            · rw [if_neg heq]
              exact hdirs i hlt'
          · rw [if_pos rfl]

theorem Rooted.createDirAll (ht : t.Rooted) (h : t.createDirAll p = .ok t') :
    t'.Rooted ∧ Extended p t t' ∧ t'.lookup p = some .dir := by
  unfold FileTree.createDirAll at h
  split at h
  · cases h
  · rename_i hfree
    cases h
    obtain ⟨hroot, hext, hdirs⟩ := ht.makeDirs p _ le_rfl (Bool.not_eq_true _ ▸ hfree)
    have hdir := hdirs p.length (Nat.lt_succ_self _)
    rw [List.take_length] at hdir
    exact ⟨hroot, hext, hdir⟩

theorem writeFile_ok (h : t.writeFile p b = .ok t') :
    t.lookup p.dropLast = some .dir ∧ t.lookup p ≠ some .dir ∧ t' = t.insert p (.file b) := by
  unfold writeFile at h
  split at h
  · cases h
  · rename_i hdir hnot
    cases h
    exact ⟨hdir, hnot, rfl⟩
  · cases h

theorem rename_ok (h : t.rename p q = .ok t') : ∃ b, t.fileAt p = some b ∧
    t.lookup q.dropLast = some .dir ∧ t.lookup q ≠ some .dir ∧
    t' = (t.erase p).insert q (.file b) := by
  unfold rename at h
  split at h
  · cases h
  · rename_i b hfile
    split at h
    · cases h
    · rename_i hdir hnot
      cases h
      exact ⟨b, hfile, hdir, hnot, rfl⟩
    · cases h

theorem removeFile_ok (h : t.removeFile p = .ok t') :
    (t.fileAt p).isSome ∧ t' = t.erase p := by
  unfold removeFile at h
  split at h
  · rename_i b hfile
    cases h
    exact ⟨Option.isSome_of_eq_some (fileAt_eq_some.mpr hfile), rfl⟩
  · cases h
  · cases h

theorem removeFile_error {e : FileError} (h : t.removeFile p = .error e) :
    t.fileAt p = none := by
  unfold removeFile at h
  split at h
  · cases h
  · rename_i hdir
    rw [fileAt, hdir]
  · rename_i hnone
    rw [fileAt, hnone]

theorem read_ok (h : t.read p = .ok b) : t.fileAt p = some b := by
  unfold read at h
  split at h
  · rename_i c hfile
    cases h
    exact fileAt_eq_some.mpr hfile
  · cases h
  · cases h

theorem read_error {e : FileError} (h : t.read p = .error e) : t.fileAt p = none := by
  unfold read at h
  split at h
  · cases h
  · rename_i hdir
    rw [fileAt, hdir]
  · rename_i hnone
    rw [fileAt, hnone]

/-! ## Everything below a directory -/

theorem mem_children : q ∈ t.children p ↔ (t.lookup q).isSome ∧ ∃ a, q = p ++ [a] := by
  rw [children, List.mem_filter, ← AList.mem_keys, ← AList.lookup_isSome, decide_eq_true_eq]
  apply and_congr_right
  intro _
  constructor
  · rintro ⟨hne, rfl⟩
    exact ⟨q.getLast hne, (List.dropLast_append_getLast hne).symm⟩
  · rintro ⟨a, rfl⟩
    exact ⟨by simp, by simp⟩

omit [DecidableEq α] in
theorem mem_entryFiles {below : List (List α)} {node : Option (FileNode β)} :
    q ∈ entryFiles p below node ↔
      (node = some .dir ∧ q ∈ below) ∨ ∃ b, node = some (.file b) ∧ q = p := by
  unfold entryFiles
  split
  · simp
  · simp
  · simp

theorem Rooted.mem_filesBelow (ht : t.Rooted) : q ∈ t.filesBelow n p ↔
    ∃ r, r ≠ [] ∧ r.length ≤ n ∧ q = p ++ r ∧ t.isFile q = true := by
  induction n generalizing p with
  | zero =>
      constructor
      · intro h
        cases h
      · rintro ⟨r, hne, hlen, -⟩
        exact absurd (List.length_eq_zero_iff.mp (Nat.le_zero.mp hlen)) hne
  | succ n ih =>
      rw [filesBelow, List.mem_flatMap]
      constructor
      · rintro ⟨c, hc, hq⟩
        obtain ⟨-, a, rfl⟩ := mem_children.mp hc
        rcases mem_entryFiles.mp hq with ⟨-, hq⟩ | ⟨b, hfile, rfl⟩
        · obtain ⟨r, hne, hlen, rfl, hfile⟩ := ih.mp hq
          exact ⟨a :: r, by simp, by simpa using hlen, by simp, hfile⟩
        · refine ⟨[a], by simp, by simp, rfl, ?_⟩
          rw [isFile, fileAt_eq_some.mpr hfile]
          rfl
      · rintro ⟨r, hne, hlen, rfl, hfile⟩
        obtain ⟨a, r, rfl⟩ := List.exists_cons_of_ne_nil hne
        obtain ⟨b, hb⟩ := Option.isSome_iff_exists.mp hfile
        have hlookup := fileAt_eq_some.mp hb
        have hsplit : p ++ a :: r = (p ++ [a]) ++ r := by simp
        by_cases hr : r = []
        · subst hr
          exact ⟨p ++ [a], mem_children.mpr ⟨Option.isSome_of_eq_some hlookup, a, rfl⟩,
            mem_entryFiles.mpr (.inr ⟨b, hlookup, rfl⟩)⟩
        · have hdir : t.lookup (p ++ [a]) = some .dir := by
            apply ht.ancestor hr
            rw [← hsplit, hlookup]
            rfl
          exact ⟨p ++ [a], mem_children.mpr ⟨Option.isSome_of_eq_some hdir, a, rfl⟩,
            mem_entryFiles.mpr (.inl ⟨hdir, ih.mpr ⟨r, hr, by simpa using hlen, hsplit, hfile⟩⟩)⟩

theorem Rooted.nodup_filesBelow (ht : t.Rooted) : (t.filesBelow n p).Nodup := by
  induction n generalizing p with
  | zero => exact List.nodup_nil
  | succ n ih =>
      have hbelow : ∀ c, c ∈ t.children p → ∀ q,
          q ∈ entryFiles c (t.filesBelow n c) (t.lookup c) → q.take (p.length + 1) = c := by
        intro c hc q hq
        obtain ⟨-, a, rfl⟩ := mem_children.mp hc
        have hlen : (p ++ [a]).length = p.length + 1 := by simp
        rcases mem_entryFiles.mp hq with ⟨-, hq⟩ | ⟨b, -, rfl⟩
        · obtain ⟨r, -, -, rfl, -⟩ := ht.mem_filesBelow.mp hq
          exact List.take_left' hlen
        · exact List.take_of_length_le (Nat.le_of_eq hlen)
      rw [filesBelow, List.nodup_flatMap]
      constructor
      · intro c _
        unfold entryFiles
        split
        · exact ih
        · exact List.nodup_singleton _
        · exact List.nodup_nil
      · have hnodup : (t.children p).Nodup := t.keys_nodup.filter _
        refine hnodup.imp_of_mem fun {c d} hc hd hne => ?_
        intro q hqc hqd
        exact hne ((hbelow c hc q hqc).symm.trans (hbelow d hd q hqd))

theorem length_le_depth (h : (t.lookup p).isSome) : p.length ≤ t.depth := by
  rw [AList.lookup_isSome, AList.mem_keys] at h
  have hmem : p.length ∈ t.keys.map List.length := List.mem_map_of_mem h
  unfold depth
  generalize t.keys.map List.length = ns at hmem
  induction ns with
  | nil => cases hmem
  | cons m ns ih =>
      rcases List.mem_cons.mp hmem with rfl | hrest
      · exact Nat.le_max_left _ _
      · exact Nat.le_trans (ih hrest) (Nat.le_max_right _ _)

end FileTree
