import Mathlib.Data.List.Infix
import Mathlib.Data.Nat.Notation

/-!
# Text with byte offsets

A text is a list of characters and its positions are counted in the bytes of its
UTF-8 form. Cutting a text anywhere but between two characters has no result, and
searching gives the byte offset of the first occurrence. `slice_isSome` says which
cuts succeed, `find_eq_some` where a search ends.
-/

namespace Utf8

def size : List Char → ℕ
  | [] => 0
  | c :: s => c.utf8Size + size s

/-- What is left behind the first `n` bytes. -/
def dropBytes : List Char → ℕ → Option (List Char)
  | s, 0 => some s
  | [], _ + 1 => none
  | c :: s, n + 1 => if c.utf8Size ≤ n + 1 then dropBytes s (n + 1 - c.utf8Size) else none

/-- The first `n` bytes. -/
def takeBytes : List Char → ℕ → Option (List Char)
  | _, 0 => some []
  | [], _ + 1 => none
  | c :: s, n + 1 =>
      if c.utf8Size ≤ n + 1 then (takeBytes s (n + 1 - c.utf8Size)).map (c :: ·) else none

def slice (s : List Char) (start stop : ℕ) : Option (List Char) :=
  if start ≤ stop then (dropBytes s start).bind fun rest => takeBytes rest (stop - start) else none

/-- The byte offset of the first occurrence of `pat`. -/
def find (pat : List Char) : List Char → Option ℕ
  | [] => if pat = [] then some 0 else none
  | c :: s => if pat <+: c :: s then some 0 else (find pat s).map (· + c.utf8Size)

/-- A character starts at the offset, or the text ends there. -/
def IsBoundary (s : List Char) (n : ℕ) : Prop :=
  ∃ before after, s = before ++ after ∧ size before = n

variable {s mid before after pat : List Char} {a b n : ℕ}

@[simp] theorem size_nil : size [] = 0 := rfl

@[simp] theorem size_cons (c : Char) (s : List Char) : size (c :: s) = c.utf8Size + size s := rfl

@[simp] theorem size_append (s t : List Char) : size (s ++ t) = size s + size t := by
  induction s with
  | nil => rw [List.nil_append, size_nil, Nat.zero_add]
  | cons c s ih => rw [List.cons_append, size_cons, size_cons, ih, Nat.add_assoc]

/-! ## ASCII -/

theorem utf8Size_ascii {c : Char} (h : c.toNat < 128) : c.utf8Size = 1 := by
  refine Char.utf8Size_eq_one_iff.mpr (UInt32.le_iff_toNat_le.mpr ?_)
  exact Nat.le_of_lt_succ h

theorem ascii_forall {P : Char → Prop} (h : ∀ m < 128, P (Char.ofNat m)) {c : Char}
    (hc : c.toNat < 128) : P c := by
  have hP := h c.toNat hc
  rwa [Char.ofNat_toNat] at hP

theorem forall_of_all {P : Char → Prop} [DecidablePred P] {s : List Char}
    (h : s.all (fun c => decide (P c)) = true) : ∀ c ∈ s, P c :=
  fun c hc => of_decide_eq_true (List.all_eq_true.mp h c hc)

theorem toUpper_ascii {c : Char} (h : c.toNat < 128) : c.toUpper.toNat < 128 :=
  ascii_forall (P := fun c => c.toUpper.toNat < 128) (by decide) h

/-! ## Cutting -/

theorem dropBytes_eq_some : ∀ {s : List Char} {n : ℕ},
    dropBytes s n = some after ↔ ∃ before, s = before ++ after ∧ size before = n
  | s, 0 => by
      rw [dropBytes, Option.some.injEq]
      constructor
      · rintro rfl
        exact ⟨[], rfl, rfl⟩
      · rintro ⟨before, rfl, hsize⟩
        cases before with
        | nil => rfl
        | cons c before =>
            have hpos := c.utf8Size_pos
            rw [size_cons] at hsize
            omega
  | [], n + 1 => by
      rw [dropBytes]
      refine ⟨(fun h => by cases h), ?_⟩
      rintro ⟨before, happend, hsize⟩
      rw [(List.append_eq_nil_iff.mp happend.symm).1] at hsize
      cases hsize
  | c :: s, n + 1 => by
      rw [dropBytes]
      have hpos := c.utf8Size_pos
      by_cases hle : c.utf8Size ≤ n + 1
      · rw [if_pos hle, dropBytes_eq_some]
        constructor
        · rintro ⟨before, rfl, hsize⟩
          refine ⟨c :: before, rfl, ?_⟩
          rw [size_cons]
          omega
        · rintro ⟨before, happend, hsize⟩
          cases before with
          | nil => cases hsize
          | cons d before =>
              obtain ⟨rfl, rfl⟩ := List.cons.inj happend
              rw [size_cons] at hsize
              exact ⟨before, rfl, by omega⟩
      · rw [if_neg hle]
        refine ⟨(fun h => by cases h), ?_⟩
        rintro ⟨before, happend, hsize⟩
        cases before with
        | nil => cases hsize
        | cons d before =>
            obtain ⟨rfl, rfl⟩ := List.cons.inj happend
            rw [size_cons] at hsize
            omega

theorem takeBytes_eq_some : ∀ {s : List Char} {n : ℕ} {before : List Char},
    takeBytes s n = some before ↔ ∃ after, s = before ++ after ∧ size before = n
  | s, 0, before => by
      rw [takeBytes, Option.some.injEq]
      constructor
      · rintro rfl
        exact ⟨s, rfl, rfl⟩
      · rintro ⟨after, rfl, hsize⟩
        cases before with
        | nil => rfl
        | cons c before =>
            have hpos := c.utf8Size_pos
            rw [size_cons] at hsize
            omega
  | [], n + 1, before => by
      rw [takeBytes]
      refine ⟨(fun h => by cases h), ?_⟩
      rintro ⟨after, happend, hsize⟩
      rw [(List.append_eq_nil_iff.mp happend.symm).1] at hsize
      cases hsize
  | c :: s, n + 1, before => by
      rw [takeBytes]
      have hpos := c.utf8Size_pos
      by_cases hle : c.utf8Size ≤ n + 1
      · rw [if_pos hle]
        simp only [Option.map_eq_some_iff, takeBytes_eq_some]
        constructor
        · rintro ⟨front, ⟨after, rfl, hsize⟩, rfl⟩
          refine ⟨after, rfl, ?_⟩
          rw [size_cons]
          omega
        · rintro ⟨after, happend, hsize⟩
          cases before with
          | nil => cases hsize
          | cons d before =>
              obtain ⟨rfl, rfl⟩ := List.cons.inj happend
              rw [size_cons] at hsize
              exact ⟨before, ⟨after, rfl, by omega⟩, rfl⟩
      · rw [if_neg hle]
        refine ⟨(fun h => by cases h), ?_⟩
        rintro ⟨after, happend, hsize⟩
        cases before with
        | nil => cases hsize
        | cons d before =>
            obtain ⟨rfl, rfl⟩ := List.cons.inj happend
            rw [size_cons] at hsize
            omega

theorem slice_eq_some : slice s a b = some mid ↔
    ∃ before after, s = before ++ (mid ++ after) ∧ size before = a ∧ a + size mid = b := by
  rw [slice]
  by_cases hle : a ≤ b
  · rw [if_pos hle, Option.bind_eq_some_iff]
    simp only [dropBytes_eq_some, takeBytes_eq_some]
    constructor
    · rintro ⟨rest, ⟨before, rfl, hbefore⟩, after, rfl, hmid⟩
      exact ⟨before, after, rfl, hbefore, by omega⟩
    · rintro ⟨before, after, rfl, hbefore, hmid⟩
      exact ⟨mid ++ after, ⟨before, rfl, hbefore⟩, after, rfl, by omega⟩
  · rw [if_neg hle]
    refine ⟨(fun h => by cases h), ?_⟩
    rintro ⟨before, after, -, -, hmid⟩
    omega

theorem append_of_size_le : ∀ {before before' after after' : List Char},
    before ++ after = before' ++ after' → size before ≤ size before' →
      ∃ mid, before' = before ++ mid ∧ after = mid ++ after'
  | [], before', after, after', h, _ => ⟨before', rfl, h⟩
  | c :: before, [], after, after', _, hle => by
      have hpos := c.utf8Size_pos
      rw [size_cons, size_nil] at hle
      omega
  | c :: before, d :: before', after, after', h, hle => by
      obtain ⟨rfl, htail⟩ := List.cons.inj h
      rw [size_cons, size_cons] at hle
      obtain ⟨mid, rfl, rfl⟩ := append_of_size_le htail (by omega)
      exact ⟨mid, rfl, rfl⟩

theorem append_inj_of_size {before before' after after' : List Char}
    (h : before ++ after = before' ++ after') (hsize : size before = size before') :
    before = before' ∧ after = after' := by
  obtain ⟨mid, rfl, rfl⟩ := append_of_size_le h hsize.le
  cases mid with
  | nil => exact ⟨(List.append_nil before).symm, rfl⟩
  | cons c mid =>
      have hpos := c.utf8Size_pos
      rw [size_append, size_cons] at hsize
      omega

/-- **A cut succeeds exactly between two boundaries in order.** -/
theorem slice_isSome : (slice s a b).isSome = true ↔ a ≤ b ∧ IsBoundary s a ∧ IsBoundary s b := by
  rw [Option.isSome_iff_exists]
  constructor
  · rintro ⟨mid, h⟩
    obtain ⟨before, after, rfl, hbefore, hmid⟩ := slice_eq_some.mp h
    refine ⟨by omega, ⟨before, _, rfl, hbefore⟩, before ++ mid, after, by simp, ?_⟩
    rw [size_append]
    omega
  · rintro ⟨hle, ⟨before, after, rfl, rfl⟩, before', after', happend, rfl⟩
    obtain ⟨mid, rfl, rfl⟩ := append_of_size_le happend hle
    exact ⟨mid, slice_eq_some.mpr ⟨before, after', rfl, rfl, (size_append _ _).symm⟩⟩

theorem dropBytes_isSome : (dropBytes s a).isSome = true ↔ IsBoundary s a := by
  rw [Option.isSome_iff_exists]
  simp only [dropBytes_eq_some]
  constructor
  · rintro ⟨after, before, h⟩
    exact ⟨before, after, h⟩
  · rintro ⟨before, after, h⟩
    exact ⟨after, before, h⟩

theorem isBoundary_size (s : List Char) : IsBoundary s (size s) := ⟨s, [], by simp, rfl⟩

/-! ## Searching -/

theorem find_eq_some : ∀ {s : List Char} {n : ℕ}, find pat s = some n ↔
    ∃ before after, s = before ++ (pat ++ after) ∧ size before = n ∧
      ∀ before' after', s = before' ++ (pat ++ after') → n ≤ size before'
  | [], n => by
      rw [find]
      by_cases hpat : pat = []
      · rw [if_pos hpat, Option.some.injEq]
        constructor
        · rintro rfl
          exact ⟨[], [], by simp [hpat], rfl, fun _ _ _ => Nat.zero_le _⟩
        · rintro ⟨before, after, happend, rfl, -⟩
          rw [(List.append_eq_nil_iff.mp happend.symm).1]
          rfl
      · rw [if_neg hpat]
        refine ⟨(fun h => by cases h), ?_⟩
        rintro ⟨before, after, happend, -⟩
        simp [hpat] at happend
  | c :: s, n => by
      rw [find]
      by_cases hpre : pat <+: c :: s
      · rw [if_pos hpre, Option.some.injEq]
        obtain ⟨rest, hrest⟩ := hpre
        constructor
        · rintro rfl
          exact ⟨[], rest, hrest.symm, rfl, fun _ _ _ => Nat.zero_le _⟩
        · rintro ⟨before, after, -, rfl, hfirst⟩
          exact (Nat.le_zero.mp (hfirst [] rest hrest.symm)).symm
      · rw [if_neg hpre, Option.map_eq_some_iff]
        simp only [find_eq_some]
        constructor
        · rintro ⟨m, ⟨before, after, rfl, rfl, hfirst⟩, rfl⟩
          refine ⟨c :: before, after, rfl, by rw [size_cons]; omega, ?_⟩
          intro before' after' happend
          cases before' with
          | nil => exact absurd ⟨after', happend.symm⟩ hpre
          | cons d before' =>
              obtain ⟨rfl, htail⟩ := List.cons.inj happend
              have hle := hfirst before' after' htail
              rw [size_cons]
              omega
        · rintro ⟨before, after, happend, rfl, hfirst⟩
          cases before with
          | nil => exact absurd ⟨after, happend.symm⟩ hpre
          | cons d before =>
              obtain ⟨rfl, rfl⟩ := List.cons.inj happend
              refine ⟨size before, ⟨before, after, rfl, rfl, ?_⟩, by rw [size_cons]; omega⟩
              intro before' after' htail
              have hle := hfirst (c :: before') after' (by rw [htail]; rfl)
              rw [size_cons, size_cons] at hle
              omega

theorem find_eq_none : ∀ {s : List Char}, find pat s = none ↔ ¬ pat <:+: s
  | [] => by
      rw [find, List.infix_nil]
      by_cases hpat : pat = []
      · simp [hpat]
      · simp [hpat]
  | c :: s => by
      rw [find, List.infix_cons_iff, not_or]
      by_cases hpre : pat <+: c :: s
      · simp [hpre]
      · rw [if_neg hpre, Option.map_eq_none_iff, find_eq_none, and_iff_right hpre]

theorem append_of_not_mem {front rest : List Char} {c : Char} (hc : c ∉ front)
    (h : front ++ rest = before ++ c :: after) : ∃ mid, before = front ++ mid := by
  rcases List.append_eq_append_iff.mp h with ⟨mid, hbefore, -⟩ | ⟨mid, hfront, hrest⟩
  · exact ⟨mid, hbefore⟩
  · cases mid with
    | nil => exact ⟨[], by rw [hfront, List.append_nil, List.append_nil]⟩
    | cons d mid =>
        obtain ⟨rfl, -⟩ := List.cons.inj hrest
        exact absurd (hfront ▸ by simp) hc

theorem find_singleton {c : Char} : find [c] s = some n ↔
    ∃ before after, s = before ++ c :: after ∧ size before = n ∧ c ∉ before := by
  rw [find_eq_some]
  constructor
  · rintro ⟨before, after, rfl, rfl, hfirst⟩
    refine ⟨before, after, rfl, rfl, fun hmem => ?_⟩
    obtain ⟨front, rest, rfl⟩ := List.append_of_mem hmem
    have hle := hfirst front (rest ++ c :: after) (by simp)
    have hpos := c.utf8Size_pos
    rw [size_append, size_cons] at hle
    omega
  · rintro ⟨before, after, rfl, rfl, hmem⟩
    refine ⟨before, after, rfl, rfl, fun before' after' happend => ?_⟩
    obtain ⟨mid, rfl⟩ := append_of_not_mem hmem happend
    rw [size_append]
    exact Nat.le_add_right _ _

theorem find_singleton_none {c : Char} : find [c] s = none ↔ c ∉ s := by
  rw [find_eq_none, List.singleton_infix_iff]

theorem find_front (h : pat <+: s) : find pat s = some 0 := by
  obtain ⟨after, rfl⟩ := h
  exact find_eq_some.mpr ⟨[], after, rfl, rfl, fun _ _ _ => Nat.zero_le _⟩

end Utf8
