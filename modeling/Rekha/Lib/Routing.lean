import Mathlib.Data.List.Basic

/-!
# Route tables

A pattern is a list of literal segments and parameters, matched against a path
segment by segment. Where no two patterns of a table overlap, the entry that is
found for a path is the only one that matches it (`lookup_eq_some_iff`).
-/

namespace Routing

variable {α β : Type}

inductive Segment (α : Type) where
  | lit (s : α)
  | param
deriving DecidableEq

abbrev Pattern (α : Type) := List (Segment α)

section Matching

variable [DecidableEq α] (valid : α → Bool)

def Segment.takes : Segment α → α → Bool
  | .lit s, t => decide (s = t)
  | .param, t => valid t

def Segment.overlaps : Segment α → Segment α → Bool
  | .lit s, .lit t => decide (s = t)
  | .lit s, .param | .param, .lit s => valid s
  | .param, .param => true

def takes : Pattern α → List α → Bool
  | [], [] => true
  | s :: p, t :: path => s.takes valid t && takes p path
  | _, _ => false

/-- Two patterns that some path may have. Patterns often begin alike, so the
last segments are compared first. -/
def overlaps : Pattern α → Pattern α → Bool
  | [], [] => true
  | s :: p, t :: q => overlaps p q && s.overlaps valid t
  | _, _ => false

/-- The first entry whose pattern the path has. -/
def lookup (table : List (Pattern α × β)) (path : List α) : Option (Pattern α × β) :=
  table.find? fun entry => takes valid entry.1 path

/-- No two patterns of the table overlap. -/
def disjoint : List (Pattern α × β) → Bool
  | [] => true
  | entry :: table => (table.all fun e => !overlaps valid entry.1 e.1) && disjoint table

variable {valid}

theorem Segment.overlaps_of_takes {s t : Segment α} {a : α} (hs : s.takes valid a = true)
    (ht : t.takes valid a = true) : s.overlaps valid t = true := by
  cases s with
  | lit s =>
      obtain rfl := of_decide_eq_true hs
      cases t with
      | lit t => exact decide_eq_true (of_decide_eq_true ht).symm
      | param => exact ht
  | param =>
      cases t with
      | lit t =>
          obtain rfl := of_decide_eq_true ht
          exact hs
      | param => rfl

theorem overlaps_of_takes : ∀ {p q : Pattern α} {path : List α}, takes valid p path = true →
    takes valid q path = true → overlaps valid p q = true
  | [], [], _, _, _ => rfl
  | [], _ :: _, [], _, h | [], _ :: _, _ :: _, h, _ => by cases h
  | _ :: _, [], [], h, _ | _ :: _, [], _ :: _, _, h => by cases h
  | _ :: _, _ :: _, [], h, _ => by cases h
  | s :: p, t :: q, a :: path, hp, hq => by
      rw [takes, Bool.and_eq_true] at hp hq
      rw [overlaps, Bool.and_eq_true]
      exact ⟨overlaps_of_takes hp.2 hq.2, Segment.overlaps_of_takes hp.1 hq.1⟩

theorem lookup_eq_some_iff {table : List (Pattern α × β)} (hd : disjoint valid table = true)
    {path : List α} {entry : Pattern α × β} :
    lookup valid table path = some entry ↔ entry ∈ table ∧ takes valid entry.1 path = true := by
  constructor
  · intro h
    have htakes := List.find?_some h
    exact ⟨List.mem_of_find?_eq_some h, htakes⟩
  · rintro ⟨hmem, htakes⟩
    induction table with
    | nil => cases hmem
    | cons first table ih =>
        obtain ⟨hfirst, hrest⟩ := Bool.and_eq_true_iff.mp hd
        rw [lookup, List.find?_cons]
        rcases List.mem_cons.mp hmem with rfl | hmem
        · rw [htakes]
        · have hskip : takes valid first.1 path = false := by
            rw [← Bool.not_eq_true]
            intro htaken
            have hapart := List.all_eq_true.mp hfirst _ hmem
            rw [overlaps_of_takes htaken htakes] at hapart
            cases hapart
          rw [hskip]
          exact ih hrest hmem

/-! ## Paths made from patterns -/

/-- The path with these arguments in the places of the parameters. -/
def fill : Pattern α → List α → List α
  | [], _ => []
  | .lit s :: p, args => s :: fill p args
  | .param :: p, arg :: args => arg :: fill p args
  | .param :: _, [] => []

omit [DecidableEq α] in
theorem mem_fill {a : α} : ∀ {p : Pattern α} {args : List α}, a ∈ fill p args →
    Segment.lit a ∈ p ∨ a ∈ args
  | [], _, h => by cases h
  | .lit s :: p, args, h => by
      rcases List.mem_cons.mp h with rfl | h
      · exact .inl List.mem_cons_self
      · exact (mem_fill h).imp_left (List.mem_cons_of_mem _)
  | .param :: p, arg :: args, h => by
      rcases List.mem_cons.mp h with rfl | h
      · exact .inr List.mem_cons_self
      · exact (mem_fill h).imp (List.mem_cons_of_mem _) (List.mem_cons_of_mem _)
  | .param :: _, [], h => by cases h

def params : Pattern α → ℕ
  | [] => 0
  | .lit _ :: p => params p
  | .param :: p => params p + 1

theorem takes_fill : ∀ {p : Pattern α} {args : List α}, params p = args.length →
    (∀ a ∈ args, valid a = true) → takes valid p (fill p args) = true
  | [], _, _, _ => rfl
  | .lit s :: p, args, hlen, hvalid => by
      rw [fill, takes, Bool.and_eq_true]
      exact ⟨decide_eq_true rfl, takes_fill hlen hvalid⟩
  | .param :: p, [], hlen, _ => by cases hlen
  | .param :: p, arg :: args, hlen, hvalid => by
      rw [fill, takes, Bool.and_eq_true]
      exact ⟨hvalid arg List.mem_cons_self, takes_fill (Nat.succ.inj hlen)
        fun a ha => hvalid a (List.mem_cons_of_mem arg ha)⟩

/-- What the parameters of a pattern stand for in a path. -/
def capture : Pattern α → List α → List α
  | .lit _ :: p, _ :: path => capture p path
  | .param :: p, arg :: path => arg :: capture p path
  | _, _ => []

omit [DecidableEq α] in
theorem capture_fill : ∀ {p : Pattern α} {args : List α}, params p = args.length →
    capture p (fill p args) = args
  | [], [], _ => rfl
  | [], _ :: _, hlen => by cases hlen
  | .lit s :: p, args, hlen => by
      rw [fill, capture]
      exact capture_fill hlen
  | .param :: p, [], hlen => by cases hlen
  | .param :: p, arg :: args, hlen => by
      rw [fill, capture, capture_fill (Nat.succ.inj hlen)]

end Matching

/-! ## Paths as text -/

section Text

variable {γ : Type} [DecidableEq γ] {sep : γ}

def join (sep : γ) (segments : List (List γ)) : List γ := segments.flatMap fun s => sep :: s

omit [DecidableEq γ] in
theorem join_eq_intercalate : ∀ (first : List γ) (segments : List (List γ)),
    first ++ join sep segments = [sep].intercalate (first :: segments)
  | first, [] => by rw [join, List.flatMap_nil, List.append_nil, List.intercalate_singleton]
  | first, s :: segments => by
      rw [List.intercalate_cons_cons, ← join_eq_intercalate s segments, List.append_assoc]
      rfl

theorem splitOn_join {segments : List (List γ)} (h : ∀ s ∈ segments, sep ∉ s) :
    (join sep segments).splitOn sep = [] :: segments := by
  have hsplit : ([sep].intercalate ([] :: segments)).splitOn sep = [] :: segments := by
    apply List.splitOn_intercalate
    · intro s hs
      rcases List.mem_cons.mp hs with rfl | hs
      · exact List.not_mem_nil
      · exact h s hs
    · exact List.cons_ne_nil _ _
  rw [← join_eq_intercalate] at hsplit
  exact hsplit

end Text

end Routing
