import Mathlib.Algebra.Order.Ring.Nat

/-!
# Bytes

`toLe k n` writes the low `k` bytes of `n`, the least significant first, and
`ofLe` reads such a little-endian word back. `crc32` is the usual CRC-32.
-/

namespace Bytes

def toLe : ℕ → ℕ → List UInt8
  | 0, _ => []
  | k + 1, n => UInt8.ofNat n :: toLe k (n / 256)

def ofLe : List UInt8 → ℕ
  | [] => 0
  | b :: l => b.toNat + 256 * ofLe l

@[simp] theorem length_toLe (k n : ℕ) : (toLe k n).length = k := by
  induction k generalizing n with
  | zero => rfl
  | succ k ih => rw [toLe, List.length_cons, ih]

theorem ofLe_toLe (k n : ℕ) (h : n < 256 ^ k) : ofLe (toLe k n) = n := by
  induction k generalizing n with
  | zero =>
      rw [pow_zero] at h
      rw [Nat.lt_one_iff.mp h]
      rfl
  | succ k ih =>
      have hdiv : n / 256 < 256 ^ k := by
        rw [pow_succ] at h
        exact (Nat.div_lt_iff_lt_mul (by decide)).mpr h
      rw [toLe, ofLe, ih _ hdiv, UInt8.toNat_ofNat']
      exact Nat.mod_add_div n 256

theorem toLe_ofLe (l : List UInt8) : toLe l.length (ofLe l) = l := by
  induction l with
  | nil => rfl
  | cons b l ih =>
      have hb : b.toNat < 256 := b.toNat_lt
      have hmod : UInt8.ofNat (b.toNat + 256 * ofLe l) = b := by
        apply UInt8.toNat_inj.mp
        rw [UInt8.toNat_ofNat']
        omega
      have hdiv : (b.toNat + 256 * ofLe l) / 256 = ofLe l := by omega
      rw [List.length_cons, ofLe, toLe, hmod, hdiv, ih]

theorem ofLe_lt (l : List UInt8) : ofLe l < 256 ^ l.length := by
  induction l with
  | nil => decide
  | cons b l ih =>
      have hb : b.toNat < 256 := b.toNat_lt
      rw [ofLe, List.length_cons, pow_succ]
      omega

/-- One bit of the CRC-32 with the reflected polynomial. -/
def crc32Bit (c : UInt32) : UInt32 :=
  if c % 2 = 1 then (c >>> 1) ^^^ 0xEDB88320 else c >>> 1

def crc32Byte (c : UInt32) (b : UInt8) : UInt32 :=
  (List.range 8).foldl (fun c _ => crc32Bit c) (c ^^^ b.toUInt32)

def crc32 (l : List UInt8) : UInt32 := l.foldl crc32Byte 0xFFFFFFFF ^^^ 0xFFFFFFFF

-- the check value of the CRC-32 definition, for the digits 1 to 9
example : crc32 [49, 50, 51, 52, 53, 54, 55, 56, 57] = 0xCBF43926 := by decide +kernel

end Bytes
