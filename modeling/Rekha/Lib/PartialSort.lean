import Mathlib.Data.List.Chain
import Mathlib.Data.List.Sort
import Mathlib.Order.WithBot

/-!
# Sorting keys that need not compare

Some elements have no key. A comparator that counts a pair without two keys as
equal is not transitive, and a sort that only settles adjacent pairs may leave
anything on the two sides of such an element. The first `k` of every result are
the nearest ones exactly when every element has a key or no two keys differ
(`topK_iff`).
-/

namespace PartialSort

variable {α β : Type} [LinearOrder α] {key : β → Option α} {l out : List β} {k : ℕ}

def InOrder (key : β → Option α) (a b : β) : Prop :=
  ∀ x ∈ key a, ∀ y ∈ key b, x ≤ y

/-- What a sort returns that settles adjacent pairs. -/
structure SortsTo (key : β → Option α) (out l : List β) : Prop where
  perm : l.Perm out
  chain : l.IsChain (InOrder key)

/-- The first `k` are in order, and none of them is beyond one that is cut off. -/
structure TopK (key : β → Option α) (l : List β) (k : ℕ) : Prop where
  ordered : (l.take k).Pairwise (InOrder key)
  nearest : ∀ a ∈ l.take k, ∀ b ∈ l.drop k, InOrder key a b

theorem topK_of_pairwise (h : l.Pairwise (InOrder key)) : TopK key l k := by
  rw [← List.take_append_drop k l, List.pairwise_append] at h
  exact ⟨h.1, h.2.2⟩

/-- A key, or something below all keys. -/
def rank (key : β → Option α) (a : β) : WithBot α := key a

theorem inOrder_iff_rank {a b : β} (ha : (key a).isSome) (hb : (key b).isSome) :
    InOrder key a b ↔ rank key a ≤ rank key b := by
  obtain ⟨x, hx⟩ := Option.isSome_iff_exists.mp ha
  obtain ⟨y, hy⟩ := Option.isSome_iff_exists.mp hb
  rw [InOrder, rank, rank, hx, hy]
  simp only [Option.mem_some_iff, forall_eq']
  exact WithBot.coe_le_coe.symm

theorem pairwise_of_isChain (hkey : ∀ a ∈ l, (key a).isSome)
    (h : l.IsChain (InOrder key)) : l.Pairwise (InOrder key) := by
  have : Trans (fun a b => rank key a ≤ rank key b) (fun a b => rank key a ≤ rank key b)
      (fun a b => rank key a ≤ rank key b) := ⟨le_trans⟩
  have hchain := h.imp_of_mem_imp fun a b ha hb =>
    (inOrder_iff_rank (hkey a ha) (hkey b hb)).mp
  refine (List.isChain_iff_pairwise.mp hchain).imp_of_mem fun ha hb => ?_
  exact (inOrder_iff_rank (hkey _ ha) (hkey _ hb)).mpr

/-- The elements without a key, then the others in order. -/
def arrange (key : β → Option α) (l : List β) : List β :=
  l.filter (fun a => (key a).isNone) ++
    (l.filter fun a => (key a).isSome).insertionSort fun a b => rank key a ≤ rank key b

theorem perm_arrange (key : β → Option α) (l : List β) : (arrange key l).Perm l := by
  have hsort := List.perm_insertionSort (fun a b => rank key a ≤ rank key b)
    (l.filter fun a => (key a).isSome)
  refine (hsort.append_left _).trans ?_
  have hnot : (fun a => (key a).isSome) = fun a => !(key a).isNone := by
    ext1 a
    cases key a <;> rfl
  rw [hnot]
  exact List.filter_append_perm _ l

theorem inOrder_of_none {a b : β} (h : key a = none ∨ key b = none) : InOrder key a b := by
  intro x hx y hy
  rcases h with h | h
  · rw [h] at hx
    cases hx
  · rw [h] at hy
    cases hy

theorem isChain_arrange (key : β → Option α) (l : List β) :
    (arrange key l).IsChain (InOrder key) := by
  refine List.isChain_append.mpr ⟨?_, ?_, ?_⟩
  · apply List.Pairwise.isChain
    apply List.pairwise_of_forall_mem_list
    intro a ha b _
    exact inOrder_of_none (.inl (Option.isNone_iff_eq_none.mp (List.mem_filter.mp ha).2))
  · have : IsTrans β fun a b => rank key a ≤ rank key b := ⟨fun _ _ _ => le_trans⟩
    have : Std.Total fun a b : β => rank key a ≤ rank key b := ⟨fun _ _ => le_total _ _⟩
    refine ((List.pairwise_insertionSort _ _).imp ?_).isChain
    intro a b hab x hx y hy
    rw [rank, rank, Option.mem_def.mp hx, Option.mem_def.mp hy] at hab
    exact WithBot.coe_le_coe.mp hab
  · intro a ha b _
    have hmem := List.mem_of_getLast? (Option.mem_def.mp ha)
    exact inOrder_of_none (.inl (Option.isNone_iff_eq_none.mp (List.mem_filter.mp hmem).2))

theorem sortsTo_arrange (key : β → Option α) (out : List β) : SortsTo key out (arrange key out) :=
  ⟨perm_arrange key out, isChain_arrange key out⟩

/-! ## When every result is right -/

theorem exists_sortsTo_cons {a b c : β} {x y : α} (hc : c ∈ out) (hnone : key c = none)
    (ha : a ∈ out) (hx : key a = some x) (hb : b ∈ out) (hy : key b = some y) (hlt : y < x) :
    ∃ l, SortsTo key out (a :: l) ∧ b ∈ l := by
  obtain ⟨s, t, rfl⟩ := List.append_of_mem ha
  rw [List.perm_middle.mem_iff, List.mem_cons] at hc hb
  have hc : c ∈ s ++ t := by
    apply hc.resolve_left
    rintro rfl
    rw [hx] at hnone
    cases hnone
  have hb : b ∈ s ++ t := by
    apply hb.resolve_left
    rintro rfl
    rw [hx] at hy
    obtain rfl := Option.some.inj hy
    exact lt_irrefl _ hlt
  refine ⟨arrange key (s ++ t), ⟨?_, ?_⟩, (perm_arrange key _).mem_iff.mpr hb⟩
  · exact ((perm_arrange key (s ++ t)).cons a).trans List.perm_middle.symm
  · refine List.isChain_cons.mpr ⟨fun d hd => inOrder_of_none (.inr ?_), isChain_arrange _ _⟩
    cases hfilter : (s ++ t).filter fun d => (key d).isNone with
    | nil =>
        have hmem : c ∈ (s ++ t).filter fun d => (key d).isNone :=
          List.mem_filter.mpr ⟨hc, by rw [hnone]; rfl⟩
        rw [hfilter] at hmem
        exact absurd hmem List.not_mem_nil
    | cons e rest =>
        rw [arrange, hfilter, List.cons_append, List.head?_cons, Option.mem_some_iff] at hd
        obtain rfl := hd
        have hmem : e ∈ (s ++ t).filter fun d => (key d).isNone := by
          rw [hfilter]
          exact List.mem_cons_self
        exact Option.isNone_iff_eq_none.mp (List.mem_filter.mp hmem).2

theorem not_topK_cons {a b : β} {x y : α} (hk : 1 ≤ k) (hb : b ∈ l) (hx : key a = some x)
    (hy : key b = some y) (hlt : y < x) : ¬ TopK key (a :: l) k := by
  obtain ⟨k, rfl⟩ : ∃ n, k = n + 1 := ⟨k - 1, by omega⟩
  rintro ⟨hordered, hnearest⟩
  rw [List.take_succ_cons] at hordered hnearest
  rw [List.drop_succ_cons] at hnearest
  have hab : InOrder key a b := by
    rw [← List.take_append_drop k l, List.mem_append] at hb
    rcases hb with hb | hb
    · exact (List.pairwise_cons.mp hordered).1 b hb
    · exact hnearest a List.mem_cons_self b hb
  exact absurd (hab x hx y hy) (not_le.mpr hlt)

/-- **Cutting after `k` is right for every result of the sort** exactly when all
elements have a key, or no two keys differ. -/
theorem topK_iff (hk : 1 ≤ k) : (∀ l, SortsTo key out l → TopK key l k) ↔
    (∀ a ∈ out, (key a).isSome) ∨
      ∀ a ∈ out, ∀ b ∈ out, ∀ x ∈ key a, ∀ y ∈ key b, x = y := by
  constructor
  · intro hall
    by_contra hnot
    obtain ⟨hsome, hsame⟩ := not_or.mp hnot
    push Not at hsome hsame
    obtain ⟨c, hc, hnone⟩ := hsome
    have hnone : key c = none := by simpa using hnone
    obtain ⟨a, ha, b, hb, x, hx, y, hy, hne⟩ := hsame
    rcases lt_or_gt_of_ne hne with hlt | hlt
    · obtain ⟨l, hl, hmem⟩ := exists_sortsTo_cons hc hnone hb hy ha hx hlt
      exact not_topK_cons hk hmem hy hx hlt (hall _ hl)
    · obtain ⟨l, hl, hmem⟩ := exists_sortsTo_cons hc hnone ha hx hb hy hlt
      exact not_topK_cons hk hmem hx hy hlt (hall _ hl)
  · intro hor l hl
    apply topK_of_pairwise
    rcases hor with hsome | hsame
    · exact pairwise_of_isChain (fun a ha => hsome a (hl.perm.mem_iff.mp ha)) hl.chain
    · apply List.pairwise_of_forall_mem_list
      intro a ha b hb x hx y hy
      exact (hsame a (hl.perm.mem_iff.mp ha) b (hl.perm.mem_iff.mp hb) x hx y hy).le

end PartialSort
