import Mathlib.Data.List.Induction
import Mathlib.Data.Prod.Lex
import Rekha.Cluster.StateMachine

/-!
# High-water marks

A clock map keeps the latest tag of every node. `advance` compares the seqs of two
tags of one node, `global_high_water` the tags themselves, and the derived order of
tags looks at the node first. So each node's mark is the tag with its largest seq,
while the global one is the mark of the largest node, and that has the largest seq
of all only where the largest node is ahead (`high_water_iff`).
-/

namespace Rekha.Cluster

/-- The derived `Ord`: by node, then by seq. -/
instance : LinearOrder ClockTag :=
  LinearOrder.lift' (fun t => toLex (t.node, t.seq)) fun a b h => by
    obtain ⟨hnode, hseq⟩ := Prod.mk.inj (congrArg ofLex h)
    cases a
    cases b
    cases hnode
    cases hseq
    rfl

theorem ClockTag.le_iff {a b : ClockTag} :
    a ≤ b ↔ a.node < b.node ∨ a.node = b.node ∧ a.seq ≤ b.seq :=
  Prod.Lex.toLex_le_toLex

namespace ClockMap

def new : ClockMap := ⟨∅⟩

def advance (m : ClockMap) (node : ℕ) (tag : ClockTag) : ClockMap :=
  match m.inner.lookup node with
  | none => ⟨m.inner.insert node tag⟩
  | some entry => if tag.seq > entry.seq then ⟨m.inner.insert node tag⟩ else m

def get (m : ClockMap) (node : ℕ) : Option ClockTag := m.inner.lookup node

def values (m : ClockMap) : List ClockTag := m.inner.entries.map Sigma.snd

/-- The values in the order a hash map hands them out. -/
structure Iteration (m : ClockMap) where
  order : List ClockTag
  perm : order.Perm m.values

/-- `values().max()`. -/
def globalHighWater (m : ClockMap) (iter : m.Iteration) : Option ClockTag := iter.order.max?

/-- A sequence of calls of `advance` on a new map. -/
def advanceAll (calls : List (ℕ × ClockTag)) : ClockMap :=
  calls.foldl (fun m call => m.advance call.1 call.2) new

end ClockMap

open ClockMap

/-! ## What is to be tracked -/

/-- `t` has the largest seq that was ever advanced for `n`. -/
def IsMark (calls : List (ℕ × ClockTag)) (n : ℕ) (t : ClockTag) : Prop :=
  (n, t) ∈ calls ∧ ∀ t', (n, t') ∈ calls → t'.seq ≤ t.seq

/-- True high-water marks, for every node and for all of them. -/
structure TracksHighWater (calls : List (ℕ × ClockTag)) : Prop where
  own : ∀ n t, (advanceAll calls).get n = some t ↔ IsMark calls n t
  absent : ∀ n, (advanceAll calls).get n = none ↔ ∀ t, (n, t) ∉ calls
  anyOrder : ∀ calls', calls'.Perm calls → ∀ n,
    (advanceAll calls').get n = (advanceAll calls).get n
  global : calls ≠ [] → ∀ iter, ∃ n t, (advanceAll calls).globalHighWater iter = some t ∧
    (n, t) ∈ calls ∧ ∀ call ∈ calls, call.2.seq ≤ t.seq

def LargestNodeAhead (calls : List (ℕ × ClockTag)) : Prop :=
  ∀ top ∈ calls, (∀ call ∈ calls, call.1 ≤ top.1) →
    ∀ call ∈ calls, ∃ t, (top.1, t) ∈ calls ∧ call.2.seq ≤ t.seq

/-! ## The marks of the nodes -/

section Marks

variable {calls calls' : List (ℕ × ClockTag)} {n : ℕ} {t t' : ClockTag}

theorem get_advance (m : ClockMap) (node : ℕ) (tag : ClockTag) (n : ℕ) :
    (m.advance node tag).get n =
      if n = node then
        some (((m.get node).filter fun entry => decide (tag.seq ≤ entry.seq)).getD tag)
      else m.get n := by
  unfold advance ClockMap.get
  cases hentry : m.inner.lookup node with
  | none =>
      rw [FinMap.lookup_insert_ite]
      rfl
  | some entry =>
      dsimp only
      by_cases hlt : tag.seq > entry.seq
      · rw [if_pos hlt, FinMap.lookup_insert_ite, Option.filter_some,
          decide_eq_false (not_le.mpr hlt)]
        rfl
      · rw [if_neg hlt, Option.filter_some, decide_eq_true (not_lt.mp hlt)]
        by_cases hn : n = node
        · rw [if_pos hn, hn, hentry]
          rfl
        · rw [if_neg hn]

theorem advanceAll_snoc (calls : List (ℕ × ClockTag)) (call : ℕ × ClockTag) :
    advanceAll (calls ++ [call]) = (advanceAll calls).advance call.1 call.2 := by
  rw [advanceAll, List.foldl_append]
  rfl

theorem get_advanceAll (calls : List (ℕ × ClockTag)) (n : ℕ) :
    (∀ t, (advanceAll calls).get n = some t → IsMark calls n t) ∧
      ((advanceAll calls).get n = none → ∀ t, (n, t) ∉ calls) := by
  induction calls using List.reverseRecOn with
  | nil =>
      refine ⟨fun t h => ?_, fun _ _ => List.not_mem_nil⟩
      cases h
  | append_singleton calls call ih =>
      obtain ⟨node, tag⟩ := call
      rw [advanceAll_snoc, get_advance]
      by_cases hn : n = node
      · subst hn
        rw [if_pos rfl]
        refine ⟨fun t h => ?_, fun h => by cases h⟩
        obtain rfl := Option.some.inj h
        cases hold : (advanceAll calls).get n with
        | none =>
            refine ⟨List.mem_append_right _ List.mem_cons_self, fun t' ht' => ?_⟩
            rcases List.mem_append.mp ht' with hmem | hmem
            · exact absurd hmem (ih.2 hold t')
            · rw [(Prod.mk.inj (List.mem_singleton.mp hmem)).2]
              exact le_rfl
        | some entry =>
            obtain ⟨hmem, hmax⟩ := ih.1 entry hold
            rw [Option.filter_some]
            by_cases hle : tag.seq ≤ entry.seq
            · rw [decide_eq_true hle]
              refine ⟨List.mem_append_left _ hmem, fun t' ht' => ?_⟩
              rcases List.mem_append.mp ht' with h' | h'
              · exact hmax t' h'
              · rw [(Prod.mk.inj (List.mem_singleton.mp h')).2]
                exact hle
            · rw [decide_eq_false hle]
              refine ⟨List.mem_append_right _ List.mem_cons_self, fun t' ht' => ?_⟩
              rcases List.mem_append.mp ht' with h' | h'
              · exact (hmax t' h').trans (not_le.mp hle).le
              · rw [(Prod.mk.inj (List.mem_singleton.mp h')).2]
                exact le_rfl
      · rw [if_neg hn]
        have hmem : ∀ t, (n, t) ∈ calls ++ [(node, tag)] ↔ (n, t) ∈ calls := by
          intro t
          simp [hn]
        simp only [IsMark, hmem]
        exact ih

theorem IsMark.unique (hown : ∀ call ∈ calls, call.2.node = call.1) (h : IsMark calls n t)
    (h' : IsMark calls n t') : t = t' := by
  have hnode : t.node = t'.node := (hown _ h.1).trans (hown _ h'.1).symm
  have hseq : t.seq = t'.seq := le_antisymm (h'.2 t h.1) (h.2 t' h'.1)
  cases t
  cases t'
  cases hnode
  cases hseq
  rfl

theorem get_eq_some_iff (hown : ∀ call ∈ calls, call.2.node = call.1) :
    (advanceAll calls).get n = some t ↔ IsMark calls n t := by
  refine ⟨(get_advanceAll calls n).1 t, fun h => ?_⟩
  cases hget : (advanceAll calls).get n with
  | none => exact absurd h.1 ((get_advanceAll calls n).2 hget t)
  | some t' => rw [((get_advanceAll calls n).1 t' hget).unique hown h]

theorem get_eq_none_iff : (advanceAll calls).get n = none ↔ ∀ t, (n, t) ∉ calls := by
  refine ⟨(get_advanceAll calls n).2, fun h => ?_⟩
  cases hget : (advanceAll calls).get n with
  | none => rfl
  | some t => exact absurd ((get_advanceAll calls n).1 t hget).1 (h t)

theorem get_perm (hown : ∀ call ∈ calls, call.2.node = call.1) (h : calls'.Perm calls) :
    (advanceAll calls').get n = (advanceAll calls).get n := by
  have hown' : ∀ call ∈ calls', call.2.node = call.1 := fun call hc => hown call (h.mem_iff.mp hc)
  ext t
  rw [get_eq_some_iff hown', get_eq_some_iff hown]
  simp only [IsMark, h.mem_iff]

/-! ## The mark of all -/

theorem mem_values {m : ClockMap} : t ∈ m.values ↔ ∃ n, m.get n = some t := by
  rw [values, List.mem_map]
  constructor
  · rintro ⟨⟨n, t⟩, he, rfl⟩
    exact ⟨n, FinMap.mem_entries_iff.mp he⟩
  · rintro ⟨n, h⟩
    exact ⟨⟨n, t⟩, FinMap.mem_entries_iff.mpr h, rfl⟩

theorem globalHighWater_eq_some_iff (hown : ∀ call ∈ calls, call.2.node = call.1)
    (iter : (advanceAll calls).Iteration) : (advanceAll calls).globalHighWater iter = some t ↔
      IsMark calls t.node t ∧ ∀ call ∈ calls, call.1 ≤ t.node := by
  have hmem : ∀ t, t ∈ iter.order ↔ IsMark calls t.node t := by
    intro t
    rw [iter.perm.mem_iff, mem_values]
    constructor
    · rintro ⟨n, h⟩
      have hmark := (get_eq_some_iff hown).mp h
      rwa [show t.node = n from hown _ hmark.1]
    · intro h
      exact ⟨t.node, (get_eq_some_iff hown).mpr h⟩
  rw [globalHighWater, List.max?_eq_some_iff, hmem]
  refine and_congr_right fun hmark => ⟨fun hmax call hcall => ?_, fun hmax t' ht' => ?_⟩
  · cases hget : (advanceAll calls).get call.1 with
    | none => exact absurd hcall (get_eq_none_iff.mp hget call.2)
    | some t' =>
        have hmark' := (get_eq_some_iff hown).mp hget
        have hnode : t'.node = call.1 := hown _ hmark'.1
        rw [← hnode] at hmark' ⊢
        rcases ClockTag.le_iff.mp (hmax t' ((hmem t').mpr hmark')) with hlt | ⟨heq, -⟩
        · exact hlt.le
        · exact heq.le
  · rw [hmem] at ht'
    rw [ClockTag.le_iff]
    rcases (hmax _ ht'.1).lt_or_eq with hlt | heq
    · exact .inl hlt
    · have heq' : t'.node = t.node := heq
      rw [heq'] at ht'
      exact .inr ⟨heq', hmark.2 t' ht'.1⟩

theorem exists_globalHighWater (hne : calls ≠ []) (iter : (advanceAll calls).Iteration) :
    ∃ t, (advanceAll calls).globalHighWater iter = some t := by
  obtain ⟨call, hcall⟩ := List.exists_mem_of_ne_nil calls hne
  have hsome : ((advanceAll calls).get call.1).isSome := by
    rw [Option.isSome_iff_ne_none]
    exact fun hnone => get_eq_none_iff.mp hnone call.2 hcall
  obtain ⟨t, ht⟩ := Option.isSome_iff_exists.mp hsome
  have hmem : t ∈ iter.order := iter.perm.mem_iff.mpr (mem_values.mpr ⟨_, ht⟩)
  cases hmax : (advanceAll calls).globalHighWater iter with
  | some t => exact ⟨t, rfl⟩
  | none =>
      rw [globalHighWater, List.max?_eq_none_iff] at hmax
      rw [hmax] at hmem
      cases hmem

end Marks

/-- **A clock map tracks true high-water marks exactly when the largest node is
ahead.** The marks of the nodes are right in any case. -/
theorem high_water_iff {calls : List (ℕ × ClockTag)}
    (hown : ∀ call ∈ calls, call.2.node = call.1) :
    TracksHighWater calls ↔ LargestNodeAhead calls := by
  constructor
  · intro h top htop hlargest call hcall
    let iter : (advanceAll calls).Iteration := ⟨_, List.Perm.refl _⟩
    obtain ⟨n, t, hglobal, hmem, hmax⟩ := h.global (List.ne_nil_of_mem htop) iter
    obtain ⟨hmark, hnode⟩ := (globalHighWater_eq_some_iff hown iter).mp hglobal
    have htop' : top.1 = t.node := le_antisymm (hnode top htop) (hlargest _ hmark.1)
    exact ⟨t, htop' ▸ hmark.1, hmax call hcall⟩
  · intro h
    refine ⟨fun n t => get_eq_some_iff hown, fun n => get_eq_none_iff,
      fun calls' hperm n => get_perm hown hperm, fun hne iter => ?_⟩
    obtain ⟨t, hglobal⟩ := exists_globalHighWater hne iter
    obtain ⟨hmark, hnode⟩ := (globalHighWater_eq_some_iff hown iter).mp hglobal
    refine ⟨t.node, t, hglobal, hmark.1, fun call hcall => ?_⟩
    obtain ⟨t', ht', hle⟩ := h _ hmark.1 hnode call hcall
    exact hle.trans (hmark.2 t' ht')

theorem high_water_iff_demo :
    TracksHighWater [(1, ⟨1, 5⟩), (2, ⟨2, 8⟩)] ↔ LargestNodeAhead [(1, ⟨1, 5⟩), (2, ⟨2, 8⟩)] :=
  high_water_iff (by simp)

def behindCalls : List (ℕ × ClockTag) := [(1, ⟨1, 5⟩), (2, ⟨2, 3⟩)]

/-- **A node with a larger id hides the high-water mark.** -/
theorem high_water_hidden :
    (∀ iter, (advanceAll behindCalls).globalHighWater iter = some ⟨2, 3⟩) ∧
      ¬ TracksHighWater behindCalls := by
  have hown : ∀ call ∈ behindCalls, call.2.node = call.1 := by
    simp [behindCalls]
  have hglobal : ∀ iter, (advanceAll behindCalls).globalHighWater iter = some ⟨2, 3⟩ := by
    intro iter
    rw [globalHighWater_eq_some_iff hown]
    simp [behindCalls, IsMark]
  refine ⟨hglobal, fun h => ?_⟩
  obtain ⟨n, t, ht, -, hmax⟩ := h.global (by simp [behindCalls]) ⟨_, List.Perm.refl _⟩
  rw [hglobal, Option.some.injEq] at ht
  subst ht
  exact absurd (hmax (1, ⟨1, 5⟩) List.mem_cons_self) (by decide)

end Rekha.Cluster
