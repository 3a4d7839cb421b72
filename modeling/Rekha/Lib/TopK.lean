import Mathlib.Data.List.Sort
import Mathlib.Data.List.TakeWhile

/-!
# The first `k` under a key

A stable ascending sort by a key, cut after `k` elements. Without ties an
element makes the cut exactly when fewer than `k` elements have a smaller key
(`Nearest.mem_iff`), and a part of a list has the same first `k` as the whole
exactly when it contains them (`take_sortOn_eq_iff`). With ties only the two
facts that do not depend on the tie-breaking remain.
-/

namespace TopK

variable {α β : Type} [LinearOrder β] {key : α → β} {l : List α} {a : α} {k : ℕ}

def sortOn (key : α → β) (l : List α) : List α :=
  l.insertionSort fun a b => key a ≤ key b

theorem perm_sortOn (key : α → β) (l : List α) : (sortOn key l).Perm l :=
  List.perm_insertionSort _ _

theorem pairwise_sortOn (key : α → β) (l : List α) :
    (sortOn key l).Pairwise fun a b => key a ≤ key b := by
  have : IsTrans α fun a b => key a ≤ key b := ⟨fun _ _ _ => le_trans⟩
  have : Std.Total fun a b : α => key a ≤ key b := ⟨fun _ _ => le_total _ _⟩
  exact List.pairwise_insertionSort _ _

theorem insertionSort_eq_sortOn {r : α → α → Prop} [DecidableRel r]
    (hr : ∀ a ∈ l, ∀ b ∈ l, r a b ↔ key a ≤ key b) : l.insertionSort r = sortOn key l := by
  have := List.map_insertionSort (r := r) (s := fun a b => key a ≤ key b) id l hr
  rwa [List.map_id, List.map_id] at this

/-- `f` holds the `min k l.length` elements of `l` with the smallest keys. -/
structure Nearest (key : α → β) (l : List α) (k : ℕ) (f : List α) : Prop where
  nodup : f.Nodup
  sub : f ⊆ l
  length : f.length = min k l.length
  closed : ∀ a ∈ f, ∀ b ∈ l, b ∉ f → key a ≤ key b

/-- **Rank decides.** Without ties an element is among the `k` nearest exactly
when fewer than `k` elements have a smaller key. -/
theorem Nearest.mem_iff {f : List α} (h : Nearest key l k f) (hl : l.Nodup)
    (hinj : ∀ x ∈ l, ∀ y ∈ l, key x = key y → x = y) :
    a ∈ f ↔ a ∈ l ∧ l.countP (fun b => decide (key b < key a)) < k := by
  have hnearer : ∀ p : α → Bool, l.countP p = (l.filter p).length := fun _ =>
    List.countP_eq_length_filter
  constructor
  · intro ha
    refine ⟨h.sub ha, ?_⟩
    -- the nearer elements and `a` itself all fit into `f`
    have hsub : a :: l.filter (fun b => decide (key b < key a)) ⊆ f := by
      intro b hb
      rcases List.mem_cons.mp hb with rfl | hb
      · exact ha
      · obtain ⟨hbl, hlt⟩ := List.mem_filter.mp hb
        by_contra hbf
        exact absurd (h.closed a ha b hbl hbf) (not_le.mpr (of_decide_eq_true hlt))
    have hnodup : (a :: l.filter fun b => decide (key b < key a)).Nodup := by
      refine List.nodup_cons.mpr ⟨fun hmem => ?_, List.filter_sublist.nodup hl⟩
      exact absurd (of_decide_eq_true (List.mem_filter.mp hmem).2) (lt_irrefl _)
    have hlen := (List.subperm_of_subset hnodup hsub).length_le
    rw [List.length_cons, h.length] at hlen
    rw [hnearer]
    exact hlen.trans (min_le_left _ _)
  · rintro ⟨hal, hlt⟩
    by_contra haf
    have hsub : f ⊆ l.filter fun b => decide (key b < key a) := by
      intro b hb
      refine List.mem_filter.mpr ⟨h.sub hb, decide_eq_true ?_⟩
      refine lt_of_le_of_ne (h.closed b hb a hal haf) fun heq => haf ?_
      rw [← hinj b (h.sub hb) a hal heq]
      exact hb
    have hlen := (List.subperm_of_subset h.nodup hsub).length_le
    rw [h.length, ← hnearer] at hlen
    have hlk : l.length < k := by
      by_contra hkl
      rw [min_eq_left (not_lt.mp hkl)] at hlen
      exact absurd hlt (not_lt.mpr hlen)
    have hall : f.length = l.length := h.length.trans (min_eq_right hlk.le)
    have hperm := (List.subperm_of_subset h.nodup h.sub).perm_of_length_le hall.symm.le
    exact haf (hperm.mem_iff.mpr hal)

theorem nearest_take_sortOn (hl : l.Nodup) : Nearest key l k ((sortOn key l).take k) where
  nodup := (List.take_sublist _ _).nodup ((perm_sortOn key l).nodup_iff.mpr hl)
  sub := fun _ ha => (perm_sortOn key l).mem_iff.mp (List.mem_of_mem_take ha)
  length := by rw [List.length_take, (perm_sortOn key l).length_eq]
  closed := by
    intro a ha b hb hnot
    have hsort := pairwise_sortOn key l
    rw [← List.take_append_drop k (sortOn key l)] at hsort
    have hmem := (perm_sortOn key l).mem_iff.mpr hb
    rw [← List.take_append_drop k (sortOn key l)] at hmem
    exact (List.pairwise_append.mp hsort).2.2 a ha b
      ((List.mem_append.mp hmem).resolve_left hnot)

/-- **A part of a list has the same first `k`** exactly when it contains the
first `k` of the whole. -/
theorem take_sortOn_eq_iff {l' : List α} (hl : l.Nodup) (hl' : l'.Nodup) (hsub : l' ⊆ l)
    (hinj : ∀ x ∈ l, ∀ y ∈ l, key x = key y → x = y) :
    (sortOn key l').take k = (sortOn key l).take k ↔ ∀ a ∈ (sortOn key l).take k, a ∈ l' := by
  have hn : Nearest key l k ((sortOn key l).take k) := nearest_take_sortOn hl
  have hn' : Nearest key l' k ((sortOn key l').take k) := nearest_take_sortOn hl'
  constructor
  · intro heq a ha
    exact hn'.sub (heq ▸ ha)
  · intro hin
    have hle : (sortOn key l).take k ⊆ (sortOn key l').take k := by
      intro a ha
      have hrank := ((hn.mem_iff hl hinj).mp ha).2
      refine (hn'.mem_iff hl' fun x hx y hy => hinj x (hsub hx) y (hsub hy)).mpr
        ⟨hin a ha, lt_of_le_of_lt ?_ hrank⟩
      exact (List.subperm_of_subset hl' hsub).countP_le _
    have hlen : ((sortOn key l').take k).length ≤ ((sortOn key l).take k).length := by
      have := (List.subperm_of_subset hl' hsub).length_le
      rw [hn.length, hn'.length]
      omega
    have hperm := ((List.subperm_of_subset hn.nodup hle).perm_of_length_le hlen).symm
    have hstrict : ∀ {m : List α}, m ⊆ l → ((sortOn key m).take k).Pairwise
        fun a b => key a ≤ key b := fun _ =>
      (pairwise_sortOn key _).sublist (List.take_sublist _ _)
    refine hperm.eq_of_pairwise (fun a b ha hb hab hba => ?_) (hstrict hsub)
      (hstrict (List.Subset.refl l))
    exact hinj a (hsub (hn'.sub ha)) b (hn.sub hb) (le_antisymm hab hba)

theorem mem_take_of_countP {p : α → Bool} (ha : a ∈ l)
    (hp : ∀ b ∈ l, key b ≤ key a → p b = true) (hk : l.countP p ≤ k) :
    a ∈ (sortOn key l).take k := by
  have hperm := perm_sortOn key l
  obtain ⟨s₁, s₂, hs⟩ := List.append_of_mem (hperm.mem_iff.mpr ha)
  have hsort := pairwise_sortOn key l
  rw [hs] at hsort
  have hlow : s₁.countP p = s₁.length := by
    refine List.countP_eq_length.mpr fun b hb => hp b ?_ ?_
    · exact hperm.mem_iff.mp (hs ▸ List.mem_append_left _ hb)
    · exact (List.pairwise_append.mp hsort).2.2 b hb a List.mem_cons_self
  rw [← hperm.countP_eq, hs, List.countP_append, hlow, List.countP_cons,
    if_pos (hp a ha (le_refl _))] at hk
  rw [hs, List.take_append, List.mem_append]
  right
  rw [← Nat.succ_pred_eq_of_pos (Nat.sub_pos_of_lt (n := k) (m := s₁.length) (by omega)),
    List.take_succ_cons]
  exact List.mem_cons_self

theorem head_mem_take {b : α} (hb : b ∈ (sortOn key (a :: l)).take k) (hab : key a ≤ key b) :
    a ∈ (sortOn key (a :: l)).take k := by
  have hs : sortOn key (a :: l) =
      ((sortOn key l).takeWhile fun b => ¬ key a ≤ key b) ++
        a :: (sortOn key l).dropWhile fun b => ¬ key a ≤ key b :=
    List.insertionSort_cons_eq_take_drop _ a l
  rw [hs] at hb ⊢
  by_cases hlt : ((sortOn key l).takeWhile fun b => ¬ key a ≤ key b).length < k
  · rw [List.take_append, List.mem_append]
    right
    rw [← Nat.succ_pred_eq_of_pos (Nat.sub_pos_of_lt hlt), List.take_succ_cons]
    exact List.mem_cons_self
  · rw [List.take_append_of_le_length (not_lt.mp hlt)] at hb
    have hnot := List.mem_takeWhile_imp (List.mem_of_mem_take hb)
    exact absurd hab (by simpa using hnot)

end TopK
