import Mathlib.Data.List.Basic

/-!
# Unix paths

A path is a text over an alphabet with a separator and a dot. Its components are
what stands between separators, without empty parts and inner single dots;
walking them from nowhere resolves the path lexically. A plain name (`IsName`)
is one component that leads one level down, so a path made of plain names leads
strictly below whatever it is joined to (`resolve_join_names`).
-/

namespace UnixPath

variable {α : Type}

/-- The two letters that mean something in a path. -/
structure Alphabet (α : Type) where
  sep : α
  dot : α

inductive Component (α : Type) where
  | rootDir
  | curDir
  | parentDir
  | normal (name : List α)
deriving DecidableEq

/-- Where a path leads: up from the start so many levels, then down along the names. -/
structure Place (α : Type) where
  absolute : Bool
  up : ℕ
  names : List (List α)
deriving DecidableEq

def Place.walk (p : Place α) : Component α → Place α
  | .rootDir => ⟨true, 0, []⟩
  | .curDir => p
  | .parentDir =>
      if p.names.isEmpty then
        if p.absolute then p else { p with up := p.up + 1 }
      else { p with names := p.names.dropLast }
  | .normal name => { p with names := p.names ++ [name] }

def Place.Below (p q : Place α) : Prop :=
  ∃ names, names ≠ [] ∧ q = { p with names := p.names ++ names }

theorem Place.foldl_normal (p : Place α) (names : List (List α)) :
    (names.map Component.normal).foldl Place.walk p = { p with names := p.names ++ names } := by
  induction names generalizing p with
  | nil => simp
  | cons name names ih => simp [ih, Place.walk]

variable (A : Alphabet α)

structure IsName (part : List α) : Prop where
  ne_nil : part ≠ []
  ne_dot : part ≠ [A.dot]
  ne_dots : part ≠ [A.dot, A.dot]
  noSep : A.sep ∉ part

variable {A}

theorem IsName.head? {part : List α} (h : IsName A part) : part.head? ≠ some A.sep := by
  intro hhead
  exact h.noSep (List.mem_of_mem_head? hhead)

theorem IsName.getLast? {part : List α} (h : IsName A part) : part.getLast? ≠ some A.sep := by
  intro hlast
  exact h.noSep (List.mem_of_mem_getLast? hlast)

variable (A) [DecidableEq α]

/-- Extend a path: an absolute path replaces it, a relative one goes behind a separator. -/
def push (buf path : List α) : List α :=
  if path.head? = some A.sep then path
  else if buf = [] ∨ buf.getLast? = some A.sep then buf ++ path
  else buf ++ A.sep :: path

/-- The path of the parts, pushed one after the other. -/
def collect (parts : List (List α)) : List α := parts.foldl (push A) []

/-- The component of a part; empty parts and single dots have none. -/
def component (part : List α) : Option (Component α) :=
  if part = [] ∨ part = [A.dot] then none
  else if part = [A.dot, A.dot] then some .parentDir
  else some (.normal part)

/-- What a path begins with: the root, or a dot that is its first part. -/
def front (text : List α) : List (Component α) :=
  if text.head? = some A.sep then [.rootDir]
  else if (text.splitOn A.sep).head? = some [A.dot] then [.curDir]
  else []

def components (text : List α) : List (Component α) :=
  front A text ++ (text.splitOn A.sep).filterMap (component A)

/-- The place a path leads to, with `..` taken back lexically. -/
def resolve (text : List α) : Place α := (components A text).foldl Place.walk ⟨false, 0, []⟩

variable {A}

/-! ## Paths made of names -/

theorem IsName.component {part : List α} (h : IsName A part) :
    component A part = some (.normal part) := by
  rw [UnixPath.component, if_neg (not_or.mpr ⟨h.ne_nil, h.ne_dot⟩), if_neg h.ne_dots]

theorem push_name {buf part : List α} (h : IsName A part) (hne : buf ≠ [])
    (hlast : buf.getLast? ≠ some A.sep) : push A buf part = buf ++ A.sep :: part := by
  rw [push, if_neg h.head?, if_neg (not_or.mpr ⟨hne, hlast⟩)]

theorem foldl_push {parts : List (List α)} (h : ∀ part ∈ parts, IsName A part) :
    ∀ {buf : List α}, buf ≠ [] → buf.getLast? ≠ some A.sep →
      parts.foldl (push A) buf = [A.sep].intercalate (buf :: parts) := by
  induction parts with
  | nil =>
      intro buf _ _
      rw [List.foldl_nil, List.intercalate_singleton]
  | cons part parts ih =>
      intro buf hne hlast
      have hpart := h part List.mem_cons_self
      have hlast' : (buf ++ A.sep :: part).getLast? ≠ some A.sep := by
        rw [List.getLast?_append_cons, List.getLast?_cons_of_ne_nil hpart.ne_nil]
        exact hpart.getLast?
      rw [List.foldl_cons, push_name hpart hne hlast,
        ih (fun p hp => h p (List.mem_cons_of_mem _ hp)) (by simp) hlast']
      cases parts with
      | nil => simp
      | cons next rest => simp

theorem collect_names {parts : List (List α)} (h : ∀ part ∈ parts, IsName A part) :
    collect A parts = [A.sep].intercalate parts := by
  cases parts with
  | nil => rfl
  | cons part parts =>
      have hpart := h part List.mem_cons_self
      have hfirst : push A [] part = part := by
        rw [push, if_neg hpart.head?, if_pos (Or.inl rfl), List.nil_append]
      rw [collect, List.foldl_cons, hfirst]
      exact foldl_push (fun p hp => h p (List.mem_cons_of_mem _ hp)) hpart.ne_nil hpart.getLast?

theorem splitOn_collect {parts : List (List α)} (hne : parts ≠ [])
    (h : ∀ part ∈ parts, IsName A part) : (collect A parts).splitOn A.sep = parts := by
  rw [collect_names h]
  exact List.splitOn_intercalate A.sep (fun part hpart => (h part hpart).noSep) hne

theorem front_collect {parts : List (List α)} (h : ∀ part ∈ parts, IsName A part) :
    front A (collect A parts) = [] := by
  cases parts with
  | nil => simp [front, collect]
  | cons part parts =>
      have hpart := h part List.mem_cons_self
      have hhead : (collect A (part :: parts)).head? = part.head? := by
        rw [collect_names h]
        obtain ⟨c, cs, rfl⟩ := List.exists_cons_of_ne_nil hpart.ne_nil
        cases parts <;> simp
      rw [front, hhead, if_neg hpart.head?, splitOn_collect (List.cons_ne_nil _ _) h,
        List.head?_cons, if_neg (fun heq => hpart.ne_dot (Option.some.inj heq))]

/-- **The components of a path made of names are the names.** -/
theorem components_collect {parts : List (List α)} (hne : parts ≠ [])
    (h : ∀ part ∈ parts, IsName A part) :
    components A (collect A parts) = parts.map .normal := by
  rw [components, front_collect h, splitOn_collect hne h, List.nil_append]
  induction parts with
  | nil => rfl
  | cons part parts ih =>
      rw [List.filterMap_cons_some (h part List.mem_cons_self).component, List.map_cons]
      cases parts with
      | nil => rfl
      | cons next rest => rw [ih (by simp) fun p hp => h p (List.mem_cons_of_mem _ hp)]

/-! ## Joining -/

theorem front_append_sep {base : List α} (hne : base ≠ []) (rest : List α) :
    front A (base ++ A.sep :: rest) = front A base := by
  have hhead : (base ++ A.sep :: rest).head? = base.head? := by
    obtain ⟨c, cs, rfl⟩ := List.exists_cons_of_ne_nil hne
    rfl
  have hfirst : ((base ++ A.sep :: rest).splitOn A.sep).head? = (base.splitOn A.sep).head? := by
    rw [List.splitOn_append_cons_self]
    obtain ⟨part, parts, hparts⟩ := List.exists_cons_of_ne_nil (List.splitOn_ne_nil A.sep base)
    rw [hparts]
    rfl
  rw [front, front, hhead, hfirst]

theorem front_sep (rest : List α) : front A (A.sep :: rest) = [.rootDir] := by
  rw [front, List.head?_cons, if_pos rfl]

theorem components_append_sep (base path : List α) :
    components A (base ++ A.sep :: path) =
      components A (base ++ [A.sep]) ++ (path.splitOn A.sep).filterMap (component A) := by
  have hfront : front A (base ++ A.sep :: path) = front A (base ++ [A.sep]) := by
    by_cases hne : base = []
    · rw [hne, List.nil_append, List.nil_append, front_sep, front_sep]
    · rw [front_append_sep hne, front_append_sep hne]
  have hnone : (([] : List α).splitOn A.sep).filterMap (component A) = [] := by
    simp [component]
  rw [components, components, hfront, List.splitOn_append_cons_self, List.splitOn_append_cons_self,
    List.filterMap_append, List.filterMap_append, hnone, List.append_nil, List.append_assoc]

theorem components_concat_sep {base : List α} (hne : base ≠ []) :
    components A (base ++ [A.sep]) = components A base := by
  have hnone : (([] : List α).splitOn A.sep).filterMap (component A) = [] := by
    simp [component]
  rw [components, front_append_sep hne, List.splitOn_append_cons_self, List.filterMap_append, hnone,
    List.append_nil, components]

/-- **Behind a root, a relative path that does not begin with a dot keeps its components.** -/
theorem components_push (root : List α) {path : List α} (hhead : path.head? ≠ some A.sep)
    (hfront : front A path = []) :
    components A (push A root path) = components A root ++ components A path := by
  have hpath : components A path = (path.splitOn A.sep).filterMap (component A) := by
    rw [components, hfront, List.nil_append]
  rw [push, if_neg hhead]
  by_cases hnil : root = []
  · have hempty : components A root = [] := by
      simp [hnil, components, front, component]
    rw [if_pos (Or.inl hnil), hempty, hnil, List.nil_append, List.nil_append]
  · by_cases hlast : root.getLast? = some A.sep
    · obtain ⟨base, rfl⟩ := List.getLast?_eq_some_iff.mp hlast
      rw [if_pos (Or.inr hlast), List.append_assoc, List.singleton_append, components_append_sep,
        hpath]
    · rw [if_neg (not_or.mpr ⟨hnil, hlast⟩), components_append_sep, components_concat_sep hnil,
        hpath]

/-- **Joined to any root, a path made of names leads down along them.** -/
theorem resolve_join_names (root : List α) {parts : List (List α)} (hne : parts ≠ [])
    (h : ∀ part ∈ parts, IsName A part) :
    resolve A (push A root (collect A parts)) =
      { resolve A root with names := (resolve A root).names ++ parts } := by
  have hhead : (collect A parts).head? ≠ some A.sep := by
    intro hhead
    have hfront := front_collect h
    rw [front, if_pos hhead] at hfront
    cases hfront
  rw [resolve, components_push root hhead (front_collect h), components_collect hne h,
    List.foldl_append, Place.foldl_normal, resolve]

end UnixPath
