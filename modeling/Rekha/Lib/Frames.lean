import Mathlib.Data.List.Infix

/-!
# Self-delimiting frames in context

A format for the elements of a log: a frame is a nonempty word that carries an
item, whether a word is a frame depends on a context left by the frames before
it, and no two frames start the same word. A file is read as long as its front
is a frame; what has been read then is the longest prefix that is a
concatenation of frames, and that prefix, with its items, is unique.
-/

/-- A frame format over symbols `α` with items `β` and contexts `σ`. -/
structure Framing (α β σ : Type) where
  IsFrame : σ → List α → β → Prop
  next : β → σ
  ne_nil : ∀ {s p b}, IsFrame s p b → p ≠ []
  /-- The front of a word holds at most one frame. -/
  unique : ∀ {s p q b c l}, IsFrame s p b → IsFrame s q c → p <+: l → q <+: l → p = q ∧ b = c

namespace Framing

variable {α β σ : Type} (F : Framing α β σ)

/-- `p` is a concatenation of frames with items `bs`, starting in context `s`. -/
inductive Frames : σ → List α → List β → Prop
  | nil {s : σ} : Frames s [] []
  | cons {s : σ} {p l : List α} {b : β} {bs : List β} :
      F.IsFrame s p b → Frames (F.next b) l bs → Frames s (p ++ l) (b :: bs)

/-- The context after the items `bs`. -/
def after (s : σ) : List β → σ
  | [] => s
  | b :: bs => after (F.next b) bs

def Stuck (s : σ) (l : List α) : Prop := ∀ p b, F.IsFrame s p b → ¬ p <+: l

/-- `p`, with items `bs`, is the longest prefix of `l` that is a concatenation
of frames. -/
structure Longest (s : σ) (l p : List α) (bs : List β) : Prop where
  frames : F.Frames s p bs
  isPrefix : p <+: l
  longest : ∀ q cs, F.Frames s q cs → q <+: l → q <+: p ∧ cs <+: bs

variable {F} {s : σ} {l p q : List α} {b : β} {bs cs : List β}

theorem Frames.append (h₁ : F.Frames s p bs) (h₂ : F.Frames (F.after s bs) q cs) :
    F.Frames s (p ++ q) (bs ++ cs) := by
  induction h₁ with
  | nil => exact h₂
  | cons hb _ ih =>
      rw [List.append_assoc]
      exact .cons hb (ih h₂)

theorem Frames.single (h : F.IsFrame s p b) : F.Frames s p [b] := by
  have := Frames.cons h (Frames.nil (F := F))
  rwa [List.append_nil] at this

theorem Frames.snoc (h : F.Frames s p bs) (hb : F.IsFrame (F.after s bs) q b) :
    F.Frames s (p ++ q) (bs ++ [b]) :=
  h.append (.single hb)

theorem Frames.length_le (h : F.Frames s p bs) : bs.length ≤ p.length := by
  induction h with
  | nil => exact Nat.le_refl 0
  | cons hb _ ih =>
      have hpos := List.length_pos_of_ne_nil (F.ne_nil hb)
      simp only [List.length_cons, List.length_append]
      omega

theorem Stuck.longest (h : F.Stuck s l) : F.Longest s l [] [] := by
  refine ⟨.nil, List.nil_prefix, fun q cs hq hql => ?_⟩
  cases hq with
  | nil => exact ⟨List.nil_prefix, List.nil_prefix⟩
  | cons hc _ => exact absurd ((List.prefix_append _ _).trans hql) (h _ _ hc)

theorem Frames.append_longest (h : F.Frames s p bs) (hq : F.Longest (F.after s bs) l q cs) :
    F.Longest s (p ++ l) (p ++ q) (bs ++ cs) := by
  refine ⟨h.append hq.frames, (List.prefix_append_right_inj p).mpr hq.isPrefix, ?_⟩
  induction h with
  | nil => exact hq.longest
  | @cons s p m b bs hb hrest ih =>
      intro q' cs' hq' hql
      cases hq' with
      | nil => exact ⟨List.nil_prefix, List.nil_prefix⟩
      | @cons _ p' n c cs'' hc hcs =>
          rw [List.append_assoc] at hql
          obtain ⟨rfl, rfl⟩ := F.unique hb hc (List.prefix_append _ _)
            ((List.prefix_append _ _).trans hql)
          obtain ⟨hn, hcs'⟩ := ih hq n cs'' hcs ((List.prefix_append_right_inj _).mp hql)
          rw [List.append_assoc]
          exact ⟨(List.prefix_append_right_inj _).mpr hn, List.cons_prefix_cons.mpr ⟨rfl, hcs'⟩⟩

theorem Frames.longest (h : F.Frames s p bs) (hstuck : F.Stuck (F.after s bs) l) :
    F.Longest s (p ++ l) p bs := by
  have := h.append_longest hstuck.longest
  rwa [List.append_nil, List.append_nil] at this

theorem stuck_nil : F.Stuck s [] := by
  intro p b hb hp
  exact F.ne_nil hb (List.prefix_nil.mp hp)

theorem Longest.stuck (h : F.Longest s (p ++ l) p bs) : F.Stuck (F.after s bs) l := by
  intro q b hb hq
  have hle := (h.longest _ _ (h.frames.snoc hb) ((List.prefix_append_right_inj p).mpr hq)).1
  have hlen := hle.length_le
  have hpos := List.length_pos_of_ne_nil (F.ne_nil hb)
  rw [List.length_append] at hlen
  omega

theorem exists_longest (F : Framing α β σ) : ∀ (n : ℕ) (s : σ) (l : List α), l.length ≤ n →
    ∃ p bs, F.Longest s l p bs
  | 0, s, l, hn => by
      obtain rfl := List.length_eq_zero_iff.mp (Nat.le_zero.mp hn)
      exact ⟨[], [], stuck_nil.longest⟩
  | n + 1, s, l, hn => by
      by_cases hstuck : F.Stuck s l
      · exact ⟨[], [], hstuck.longest⟩
      · rw [Stuck] at hstuck
        push Not at hstuck
        obtain ⟨p, b, hb, t, rfl⟩ := hstuck
        have hpos := List.length_pos_of_ne_nil (F.ne_nil hb)
        rw [List.length_append] at hn
        obtain ⟨q, cs, hq⟩ := exists_longest F n (F.next b) t (by omega)
        exact ⟨p ++ q, b :: cs, (Frames.single hb).append_longest hq⟩

theorem Frames.longest_self (h : F.Frames s p bs) : F.Longest s p p bs := by
  have := h.longest stuck_nil
  rwa [List.append_nil] at this

theorem Longest.unique (h₁ : F.Longest s l p bs) (h₂ : F.Longest s l q cs) :
    p = q ∧ bs = cs := by
  obtain ⟨hpq, hbc⟩ := h₂.longest p bs h₁.frames h₁.isPrefix
  obtain ⟨hqp, hcb⟩ := h₁.longest q cs h₂.frames h₂.isPrefix
  exact ⟨hpq.eq_of_length_le hqp.length_le, hbc.eq_of_length_le hcb.length_le⟩

theorem Longest.eq_nil_iff (h : F.Longest s l p bs) : bs = [] ↔ F.Stuck s l := by
  constructor
  · rintro rfl
    obtain ⟨hframes, hprefix, hlong⟩ := h
    cases hframes
    exact Longest.stuck ⟨.nil, hprefix, hlong⟩
  · intro hstuck
    exact (h.unique hstuck.longest).2

theorem Longest.eq_singleton_iff (h : F.Longest s l p bs) :
    bs = [b] ↔ ∃ q t, l = q ++ t ∧ F.IsFrame s q b ∧ F.Stuck (F.next b) t := by
  constructor
  · rintro rfl
    obtain ⟨t, rfl⟩ := h.isPrefix
    have hstuck := h.stuck
    obtain ⟨hframes, -, -⟩ := h
    cases hframes with
    | @cons _ q m _ _ hb hrest =>
        cases hrest
        rw [List.append_nil]
        exact ⟨q, t, rfl, hb, hstuck⟩
  · rintro ⟨q, t, rfl, hb, hstuck⟩
    exact (h.unique ((Frames.single hb).longest hstuck)).2

theorem Frames.take (h : F.Frames s p bs) (n : ℕ) :
    ∃ q, q <+: p ∧ F.Frames s q (bs.take n) := by
  induction h generalizing n with
  | nil => exact ⟨[], List.nil_prefix, by rw [List.take_nil]; exact .nil⟩
  | @cons s p l b bs hb _ ih =>
      cases n with
      | zero => exact ⟨[], List.nil_prefix, .nil⟩
      | succ n =>
          obtain ⟨q, hq, hfr⟩ := ih n
          exact ⟨p ++ q, (List.prefix_append_right_inj p).mpr hq, .cons hb hfr⟩

theorem Frames.ext (h₁ : F.Frames s p bs) (h₂ : F.Frames s q cs) (hp : p <+: l) (hq : q <+: l)
    (hlen : bs.length = cs.length) : p = q ∧ bs = cs := by
  induction h₁ generalizing q cs l with
  | nil =>
      obtain rfl := List.length_eq_zero_iff.mp hlen.symm
      cases h₂
      exact ⟨rfl, rfl⟩
  | @cons s p m b bs hb _ ih =>
      cases h₂ with
      | nil => exact absurd hlen (by simp)
      | @cons _ q' n c cs' hc hcs =>
          obtain ⟨rfl, rfl⟩ := F.unique hb hc ((List.prefix_append _ _).trans hp)
            ((List.prefix_append _ _).trans hq)
          obtain ⟨t, rfl⟩ := (List.prefix_append p m).trans hp
          obtain ⟨rfl, rfl⟩ := ih hcs ((List.prefix_append_right_inj _).mp hp)
            ((List.prefix_append_right_inj _).mp hq) (Nat.succ.inj hlen)
          exact ⟨rfl, rfl⟩

/-- What is read from a concatenation of frames cut at `k`: the frames that end
at or before `k`, and no others. -/
theorem Frames.cut (h : F.Frames s l bs) {k : ℕ} (hcut : F.Longest s (l.take k) p cs) :
    ∃ n, n ≤ bs.length ∧ cs = bs.take n ∧ p.length ≤ k ∧
      ∀ q, F.Frames s q (bs.take (n + 1)) → q <+: l → n < bs.length → k < q.length := by
  have hpl : p <+: l := hcut.isPrefix.trans (List.take_prefix k l)
  have hcs : cs <+: bs := (h.longest_self.longest p cs hcut.frames hpl).2
  refine ⟨cs.length, hcs.length_le, List.prefix_iff_eq_take.mp hcs, ?_, ?_⟩
  · exact hcut.isPrefix.length_le.trans (List.length_take_le k l)
  · intro q hq hql hlt
    by_contra hle
    have hqk : q <+: l.take k :=
      List.prefix_take_iff.mpr ⟨hql, Nat.le_of_not_lt hle⟩
    have hlen := (hcut.longest q _ hq hqk).2.length_le
    rw [List.length_take] at hlen
    omega

/-- Frames that are cut behind the first `bs` of them: those stay, and of the
others the ones that end at or before the cut. -/
theorem Frames.cut_append (h₁ : F.Frames s p bs) (h₂ : F.Frames (F.after s bs) q cs) {k : ℕ}
    (hk : p.length ≤ k) {l : List α} {ds : List β} (hcut : F.Longest s ((p ++ q).take k) l ds) :
    ∃ n m, n ≤ cs.length ∧ ds = bs ++ cs.take n ∧ l = p ++ m ∧
      F.Frames (F.after s bs) m (cs.take n) ∧ m <+: q ∧ p.length + m.length ≤ k ∧
      ∀ r, F.Frames (F.after s bs) r (cs.take (n + 1)) → r <+: q → n < cs.length →
        k < p.length + r.length := by
  rw [List.take_append, List.take_of_length_le hk] at hcut
  obtain ⟨m, cs', hm⟩ := exists_longest F _ (F.after s bs) (q.take (k - p.length)) (Nat.le_refl _)
  obtain ⟨rfl, rfl⟩ := hcut.unique (h₁.append_longest hm)
  obtain ⟨n, hn, rfl, hlen, hnext⟩ := h₂.cut hm
  refine ⟨n, m, hn, rfl, rfl, hm.frames, hm.isPrefix.trans (List.take_prefix _ _), by omega, ?_⟩
  intro r hr hrq hlt
  have := hnext r hr hrq hlt
  omega

end Framing
