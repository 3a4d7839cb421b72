import Mathlib.Data.Int.Order.Basic
import Mathlib.Tactic.Ring
import Mathlib.Tactic.Linarith
import Mathlib.Tactic.NormNum

/-!
# IEEE 754 comparison on bit patterns

A binary interchange format is its bits: one sign bit, `e` exponent bits, the
rest mantissa. Read without the sign the bits are a natural number, and that
number orders the non-NaN values, so comparison needs no real arithmetic:
`orderKey` is the signed magnitude, which identifies the two zeros. `totalKey`
adds NaN on top, as a total-ordering wrapper does; the IEEE relations
`eq`, `lt`, `le` are false as soon as one side is NaN. `ofInt` is the
round-to-nearest-even conversion of an integer.
-/

/-- A value of the binary format of width `w` with `e` exponent bits. -/
structure Ieee (w e : ℕ) where
  bits : BitVec w
deriving DecidableEq

namespace Ieee

variable {w e : ℕ}

def magnitude (x : Ieee w e) : ℕ := x.bits.toNat % 2 ^ (w - 1)

def isNegative (x : Ieee w e) : Bool := decide (2 ^ (w - 1) ≤ x.bits.toNat)

/-- The magnitude of the infinities: all exponent bits set, mantissa zero. -/
def infinity (w e : ℕ) : ℕ := (2 ^ e - 1) * 2 ^ (w - 1 - e)

def isNaN (x : Ieee w e) : Bool := decide (infinity w e < x.magnitude)

/-- Signed magnitude: orders the non-NaN values and identifies the zeros. -/
def orderKey (x : Ieee w e) : ℤ :=
  if x.isNegative then -(x.magnitude : ℤ) else x.magnitude

/-- The classes of the total-ordering wrapper: NaN equals itself. -/
inductive TotalKey where
  | number (k : ℤ)
  | nan
deriving DecidableEq

def TotalKey.le : TotalKey → TotalKey → Bool
  | _, .nan => true
  | .nan, .number _ => false
  | .number a, .number b => decide (a ≤ b)

def TotalKey.lt (x y : TotalKey) : Bool := !y.le x

def totalKey (x : Ieee w e) : TotalKey :=
  if x.isNaN then .nan else .number x.orderKey

def eq (x y : Ieee w e) : Bool :=
  !x.isNaN && !y.isNaN && decide (x.orderKey = y.orderKey)

def lt (x y : Ieee w e) : Bool :=
  !x.isNaN && !y.isNaN && decide (x.orderKey < y.orderKey)

def le (x y : Ieee w e) : Bool :=
  !x.isNaN && !y.isNaN && decide (x.orderKey ≤ y.orderKey)

/-- IEEE partial comparison: undefined when a side is NaN. -/
def partialCmp (x y : Ieee w e) : Option Ordering :=
  if x.isNaN || y.isNaN then none else some (compare x.orderKey y.orderKey)

theorem totalKey_of_num {x : Ieee w e} (h : x.isNaN = false) :
    x.totalKey = .number x.orderKey := by
  simp [totalKey, h]

theorem totalKey_of_nan {x : Ieee w e} (h : x.isNaN = true) : x.totalKey = .nan := by
  simp [totalKey, h]

theorem eq_iff {x y : Ieee w e} :
    x.eq y = true ↔ x.isNaN = false ∧ x.totalKey = y.totalKey := by
  cases hx : x.isNaN with
  | true => simp [eq, hx]
  | false =>
      cases hy : y.isNaN with
      | true => simp [eq, hx, hy, totalKey_of_num hx, totalKey_of_nan hy]
      | false => simp [eq, hx, hy, totalKey_of_num hx, totalKey_of_num hy]

theorem lt_iff {x y : Ieee w e} (hx : x.isNaN = false) (hy : y.isNaN = false) :
    x.lt y = true ↔ x.orderKey < y.orderKey := by
  simp [lt, hx, hy]

theorem le_iff {x y : Ieee w e} (hx : x.isNaN = false) (hy : y.isNaN = false) :
    x.le y = true ↔ x.orderKey ≤ y.orderKey := by
  simp [le, hx, hy]

theorem totalKey_lt (x y : Ieee w e) :
    x.totalKey.lt y.totalKey = (x.lt y ^^ (y.isNaN && !x.isNaN)) := by
  have hflip : decide (x.orderKey < y.orderKey) = !decide (y.orderKey ≤ x.orderKey) := by
    rw [← decide_not]
    exact decide_eq_decide.mpr not_le.symm
  rw [lt, hflip, TotalKey.lt, totalKey, totalKey]
  cases x.isNaN <;> cases y.isNaN <;> simp [TotalKey.le]

theorem totalKey_le (x y : Ieee w e) :
    x.totalKey.le y.totalKey = (x.le y ^^ y.isNaN) := by
  cases hx : x.isNaN <;> cases hy : y.isNaN <;>
    simp [TotalKey.le, totalKey, le, hx, hy]

/-! ## Conversion from integers -/

/-- `n / 2 ^ s`, rounded to nearest, ties to even. -/
def roundShift (n s : ℕ) : ℕ :=
  let q := n / 2 ^ s
  let r := n % 2 ^ s
  if 2 ^ s < 2 * r ∨ (2 ^ s = 2 * r ∧ q % 2 = 1) then q + 1 else q

/-- Magnitude of the nearest value to a natural number. With `k` the position
of its top bit the significand is `n` scaled to `2 ^ p ≤ · < 2 ^ (p + 1)`; its
leading one is the unit of the exponent field, which is why the exponent below
is one short. A significand that rounds up to `2 ^ (p + 1)` carries into it. -/
def magnitudeOfNat (w e n : ℕ) : ℕ :=
  let p := w - 1 - e
  let k := Nat.log2 n
  let significand := if k ≤ p then n * 2 ^ (p - k) else roundShift n (k - p)
  if n = 0 then 0 else (k + (2 ^ (e - 1) - 1) - 1) * 2 ^ p + significand

def ofInt (w e : ℕ) (i : ℤ) : Ieee w e :=
  ⟨BitVec.ofNat w ((if i < 0 then 2 ^ (w - 1) else 0) + magnitudeOfNat w e i.natAbs)⟩

theorem roundShift_le (n s : ℕ) : roundShift n s ≤ n / 2 ^ s + 1 := by
  simp only [roundShift]
  split <;> omega

theorem significand_le (n p : ℕ) (hn : n ≠ 0) :
    (if Nat.log2 n ≤ p then n * 2 ^ (p - Nat.log2 n)
      else roundShift n (Nat.log2 n - p)) ≤ 2 ^ (p + 1) := by
  have hlt : n < 2 ^ (Nat.log2 n + 1) := (Nat.log2_lt hn).mp (Nat.lt_succ_self _)
  split
  · rename_i hk
    have hpow : 2 ^ (Nat.log2 n + 1) * 2 ^ (p - Nat.log2 n) = 2 ^ (p + 1) := by
      rw [← pow_add]
      congr 1
      omega
    rw [← hpow]
    exact Nat.mul_le_mul_right _ hlt.le
  · rename_i hk
    have hpow : 2 ^ (p + 1) * 2 ^ (Nat.log2 n - p) = 2 ^ (Nat.log2 n + 1) := by
      rw [← pow_add]
      congr 1
      omega
    have hdiv : n / 2 ^ (Nat.log2 n - p) < 2 ^ (p + 1) := by
      rw [Nat.div_lt_iff_lt_mul (Nat.two_pow_pos _), hpow]
      exact hlt
    have := roundShift_le n (Nat.log2 n - p)
    omega

theorem infinity_lt (he : e + 1 ≤ w) : infinity w e < 2 ^ (w - 1) := by
  have hsplit : 2 ^ (w - 1) = 2 ^ e * 2 ^ (w - 1 - e) := by
    rw [← pow_add]
    congr 1
    omega
  rw [infinity, hsplit]
  exact Nat.mul_lt_mul_of_pos_right (Nat.sub_lt (Nat.two_pow_pos e) Nat.one_pos)
    (Nat.two_pow_pos _)

theorem magnitudeOfNat_le {n : ℕ} (he : 2 ≤ e) (hn : Nat.log2 n < 2 ^ (e - 1)) :
    magnitudeOfNat w e n ≤ infinity w e := by
  rw [magnitudeOfNat]
  split
  · exact Nat.zero_le _
  · rename_i hne
    have hsig := significand_le n (w - 1 - e) hne
    have htop : 2 ^ e = 2 * 2 ^ (e - 1) := by
      rw [← pow_succ']
      congr 1
      omega
    have hhalf : 2 ≤ 2 ^ (e - 1) := by
      calc 2 = 2 ^ 1 := rfl
        _ ≤ 2 ^ (e - 1) := Nat.pow_le_pow_right (by decide) (by omega)
    have hexp : Nat.log2 n + (2 ^ (e - 1) - 1) - 1 + 2 ≤ 2 ^ e - 1 := by omega
    calc _ ≤ (Nat.log2 n + (2 ^ (e - 1) - 1) - 1) * 2 ^ (w - 1 - e) +
            2 ^ (w - 1 - e + 1) := Nat.add_le_add_left hsig _
      _ = (Nat.log2 n + (2 ^ (e - 1) - 1) - 1 + 2) * 2 ^ (w - 1 - e) := by ring
      _ ≤ infinity w e := Nat.mul_le_mul_right _ hexp

/-- **Converting an integer never gives NaN**, provided the format reaches it. -/
theorem isNaN_ofInt {i : ℤ} (he : 2 ≤ e) (hw : e + 1 ≤ w)
    (hi : Nat.log2 i.natAbs < 2 ^ (e - 1)) : (ofInt w e i).isNaN = false := by
  have hle := magnitudeOfNat_le (w := w) he hi
  have hmag : (ofInt w e i).magnitude = magnitudeOfNat w e i.natAbs := by
    have hlt : magnitudeOfNat w e i.natAbs < 2 ^ (w - 1) :=
      lt_of_le_of_lt hle (infinity_lt hw)
    have hdvd : 2 ^ (w - 1) ∣ 2 ^ w := pow_dvd_pow 2 (Nat.sub_le w 1)
    rw [magnitude, ofInt, BitVec.toNat_ofNat, Nat.mod_mod_of_dvd _ hdvd]
    split
    · rw [Nat.add_mod_left, Nat.mod_eq_of_lt hlt]
    · rw [Nat.zero_add, Nat.mod_eq_of_lt hlt]
  simp only [isNaN, hmag, decide_eq_false_iff_not, not_lt]
  exact hle

end Ieee
