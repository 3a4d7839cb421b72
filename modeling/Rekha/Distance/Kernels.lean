import Mathlib.Data.List.GetD
import Mathlib.Tactic.Ring
import Rekha.Lib.Lanes

/-!
# The distance kernels

`l2_squared` and `dot` of `rekha-distance`, over exact arithmetic: blocks of
eight lanes with one accumulator a lane, then the scalar tail. A slice or an
index out of bounds and vectors of different length are a panic, modelled by
`none`. On vectors of equal length nothing panics, and the result is the plain
sum the scalar reference functions compute (`simd_matches_scalar`).
-/

namespace Rekha.Simd

variable {R : Type*} [CommRing R]

/-! ## Eight lanes -/

abbrev F32x8 (R : Type*) := Fin 8 → R

namespace F32x8

def splat (x : R) : F32x8 R := fun _ => x

/-- `self * m + a`, lane by lane. -/
def mulAdd (x m a : F32x8 R) : F32x8 R := fun j => x j * m j + a j

def reduceAdd (x : F32x8 R) : R := x 0 + x 1 + x 2 + x 3 + x 4 + x 5 + x 6 + x 7

/-- `f32x8::from` of a slice of eight floats. -/
def ofSlice (s : List R) : Option (F32x8 R) :=
  if h : s.length = 8 then some fun j => s.get (j.cast h.symm) else none

theorem reduceAdd_eq_sum (x : F32x8 R) : x.reduceAdd = ∑ j, x j := by
  simp only [reduceAdd, Fin.sum_univ_eight]

end F32x8

/-- `&v[lo..hi]`. -/
def slice (v : List R) (lo hi : ℕ) : Option (List R) :=
  if lo ≤ hi ∧ hi ≤ v.length then some ((v.drop lo).take (hi - lo)) else none

/-! ## The two kernels -/

/-- The block loop: `x` and `y` are the `i`-th blocks of the two vectors. -/
def blockLoop (block : F32x8 R → F32x8 R → F32x8 R → F32x8 R) (a b : List R) (chunks : ℕ) :
    Option (F32x8 R) :=
  (List.range chunks).foldlM (fun acc i => do
    let x ← (slice a (i * 8) (i * 8 + 8)).bind F32x8.ofSlice
    let y ← (slice b (i * 8) (i * 8 + 8)).bind F32x8.ofSlice
    some (block x y acc)) (F32x8.splat 0)

/-- The scalar loop over `lo..lo + len`. -/
def tailLoop (term : R → R → R) (a b : List R) (lo len : ℕ) (sum : R) : Option R :=
  (List.range' lo len).foldlM (fun sum i => do
    let x ← a[i]?
    let y ← b[i]?
    some (sum + term x y)) sum

/-- A kernel: the lengths must agree; blocks, reduction, tail. -/
def blocked (block : F32x8 R → F32x8 R → F32x8 R → F32x8 R) (term : R → R → R)
    (a b : List R) : Option R :=
  if a.length = b.length then do
    let chunks := a.length / 8
    let acc ← blockLoop block a b chunks
    tailLoop term a b (chunks * 8) (a.length - chunks * 8) acc.reduceAdd
  else none

def l2Squared : List R → List R → Option R :=
  blocked
    (fun x y acc => let d := x - y; d.mulAdd d acc)
    (fun x y => let d := x - y; d * d)

def dot : List R → List R → Option R :=
  blocked (fun x y acc => x.mulAdd y acc) (fun x y => x * y)

/-- Terms of corresponding elements, added up from the left. -/
def scalar (term : R → R → R) (a b : List R) : Option R :=
  if a.length = b.length then some (((a.zip b).map fun p => term p.1 p.2).foldl (· + ·) 0)
  else none

def dotScalar : List R → List R → Option R := scalar fun x y => x * y

def l2SquaredScalar : List R → List R → Option R := scalar fun x y => let d := x - y; d * d

/-! ## What a kernel returns -/

section Kernel

variable {block : F32x8 R → F32x8 R → F32x8 R → F32x8 R} {term : R → R → R} {a b v : List R}

theorem ofSlice_slice {lo : ℕ} (h : lo + 8 ≤ v.length) :
    (slice v lo (lo + 8)).bind F32x8.ofSlice = some fun j : Fin 8 => v.getD (lo + j) 0 := by
  have hlen : ((v.drop lo).take 8).length = 8 := by
    rw [List.length_take, List.length_drop]
    omega
  have hslice : slice v lo (lo + 8) = some ((v.drop lo).take 8) := by
    rw [slice, if_pos ⟨by omega, h⟩, Nat.add_sub_cancel_left]
  rw [hslice, Option.bind_some, F32x8.ofSlice, dif_pos hlen, Option.some.injEq]
  ext j
  have hj : lo + j < v.length := by omega
  rw [List.getD_eq_getElem _ _ hj, List.get_eq_getElem, List.getElem_take, List.getElem_drop]
  rfl

def termAt (term : R → R → R) (a b : List R) (i : ℕ) : R := term (a.getD i 0) (b.getD i 0)

/-- **The block loop stays in bounds** and accumulates in each lane the terms at
its indices. -/
theorem blockLoop_eq (hblock : ∀ x y acc j, block x y acc j = acc j + term (x j) (y j))
    {chunks : ℕ} (ha : chunks * 8 ≤ a.length) (hb : chunks * 8 ≤ b.length) :
    blockLoop block a b chunks = some (Lanes.lanes 8 (termAt term a b) chunks) := by
  induction chunks with
  | zero =>
      rw [Lanes.lanes_zero]
      rfl
  | succ n ih =>
      rw [Nat.succ_mul] at ha hb
      have ih := ih (by omega) (by omega)
      rw [blockLoop] at ih ⊢
      rw [List.range_succ, List.foldlM_append, ih, Lanes.lanes_succ]
      simp only [Option.bind_eq_bind, Option.bind_some, List.foldlM_cons, List.foldlM_nil,
        ofSlice_slice ha, ofSlice_slice hb, Option.pure_def]
      congr 1
      ext j
      exact hblock _ _ _ j

/-- **The tail loop stays in bounds** and adds the terms at its indices. -/
theorem tailLoop_eq {lo len : ℕ} (ha : lo + len ≤ a.length) (hb : lo + len ≤ b.length) (s : R) :
    tailLoop term a b lo len s =
      some (s + ∑ i ∈ Finset.Ico lo (lo + len), termAt term a b i) := by
  induction len with
  | zero => simp [tailLoop]
  | succ k ih =>
      have ih := ih (by omega) (by omega)
      have hak : a[lo + k]? = some (a.getD (lo + k) 0) := by
        rw [List.getElem?_eq_getElem (by omega), List.getD_eq_getElem]
      have hbk : b[lo + k]? = some (b.getD (lo + k) 0) := by
        rw [List.getElem?_eq_getElem (by omega), List.getD_eq_getElem]
      rw [tailLoop] at ih ⊢
      rw [List.range'_1_concat, List.foldlM_append, ih]
      simp only [Option.bind_eq_bind, Option.bind_some, List.foldlM_cons, List.foldlM_nil, hak, hbk,
        Option.pure_def]
      rw [← Nat.add_assoc lo k 1, Finset.sum_Ico_succ_top (by omega), ← add_assoc]
      rfl

theorem blocked_eq_sum (hblock : ∀ x y acc j, block x y acc j = acc j + term (x j) (y j))
    (h : a.length = b.length) :
    blocked block term a b = some (∑ i ∈ Finset.range a.length, termAt term a b i) := by
  have hchunks : a.length / 8 * 8 ≤ a.length := Nat.div_mul_le_self _ _
  have htail : a.length / 8 * 8 + (a.length - a.length / 8 * 8) = a.length := by omega
  have hloop : blockLoop block a b (a.length / 8) = some _ :=
    blockLoop_eq hblock hchunks (h ▸ hchunks)
  have hrest : ∀ s, tailLoop term a b (a.length / 8 * 8) (a.length - a.length / 8 * 8) s = _ :=
    tailLoop_eq htail.le (htail.le.trans h.le)
  rw [blocked, if_pos h]
  simp only [Option.bind_eq_bind]
  rw [hloop, Option.bind_some, hrest, htail, F32x8.reduceAdd_eq_sum, Lanes.sum_blocked _ hchunks]

theorem scalar_eq_sum (h : a.length = b.length) :
    scalar term a b = some (∑ i ∈ Finset.range a.length, termAt term a b i) := by
  have hterms : (a.zip b).map (fun p => term p.1 p.2) =
      (List.range a.length).map (termAt term a b) := by
    apply List.ext_getElem
    · simp [h]
    · intro i h₁ h₂
      have hia : i < a.length := by simpa using h₂
      rw [List.getElem_map, List.getElem_zip, List.getElem_map, List.getElem_range, termAt,
        List.getD_eq_getElem _ _ hia, List.getD_eq_getElem _ _ (h ▸ hia)]
  rw [scalar, if_pos h, hterms, ← List.sum_eq_foldl]
  rfl

theorem sum_termAt (h : a.length = b.length) :
    ∑ i ∈ Finset.range a.length, termAt term a b i =
      ∑ i : Fin a.length, term (a.get i) (b.get (i.cast h)) := by
  rw [Finset.sum_range]
  apply Finset.sum_congr rfl
  intro i _
  have hib : (i : ℕ) < b.length := h ▸ i.isLt
  rw [termAt, List.getD_eq_getElem _ _ i.isLt, List.getD_eq_getElem _ _ hib]
  rfl

theorem blocked_eq_scalar (hblock : ∀ x y acc j, block x y acc j = acc j + term (x j) (y j))
    (h : a.length = b.length) :
    blocked block term a b = scalar term a b ∧
      blocked block term a b = some (∑ i : Fin a.length, term (a.get i) (b.get (i.cast h))) := by
  rw [← sum_termAt h, blocked_eq_sum hblock h, scalar_eq_sum h]
  exact ⟨rfl, rfl⟩

end Kernel

/-- **The 8-wide kernels compute the plain sums**, as the scalar reference
functions do, on vectors of every length; no access is out of bounds. -/
theorem simd_matches_scalar (a b : List R) (h : a.length = b.length) :
    (l2Squared a b = l2SquaredScalar a b ∧
      l2Squared a b = some (∑ i : Fin a.length, (a.get i - b.get (i.cast h)) ^ 2)) ∧
    dot a b = dotScalar a b ∧
      dot a b = some (∑ i : Fin a.length, a.get i * b.get (i.cast h)) := by
  have hl2 : ∀ (x y acc : F32x8 R) (j : Fin 8),
      (x - y).mulAdd (x - y) acc j = acc j + (x j - y j) * (x j - y j) := by
    intro x y acc j
    exact add_comm _ _
  have hdot : ∀ (x y acc : F32x8 R) (j : Fin 8), x.mulAdd y acc j = acc j + x j * y j := by
    intro x y acc j
    exact add_comm _ _
  refine ⟨?_, blocked_eq_scalar hdot h⟩
  simp only [pow_two]
  exact blocked_eq_scalar hl2 h

/-- Nine elements: one block and a tail. -/
theorem simd_matches_scalar_nine :
    l2Squared [1, 2, 3, 4, 5, 6, 7, 8, 9] [0, 0, 0, 0, 0, 0, 0, 0, (1 : ℤ)] = some 268 ∧
      dot [1, 2, 3, 4, 5, 6, 7, 8, 9] [1, 1, 1, 1, 1, 1, 1, 1, (2 : ℤ)] = some 54 := by
  obtain ⟨⟨-, hl2⟩, -, -⟩ := simd_matches_scalar
    [1, 2, 3, 4, 5, 6, 7, 8, 9] [0, 0, 0, 0, 0, 0, 0, 0, (1 : ℤ)] rfl
  obtain ⟨-, -, hdot⟩ := simd_matches_scalar
    [1, 2, 3, 4, 5, 6, 7, 8, 9] [1, 1, 1, 1, 1, 1, 1, 1, (2 : ℤ)] rfl
  rw [hl2, hdot]
  exact ⟨by decide, by decide⟩

end Rekha.Simd
