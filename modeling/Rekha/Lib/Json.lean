import Rekha.Lib.Ieee

/-!
# JSON values

Values as a parser hands them out: an integer that fits 64 bits is kept exactly,
non-negative or negative; any other number is a finite float. Objects are lists
of entries in iteration order, with keys that do not repeat (`UniqueKeys`).
-/

namespace Ieee

variable {w e : ℕ}

def isFinite (x : Ieee w e) : Bool := decide (x.magnitude < infinity w e)

theorem magnitude_ofInt {i : ℤ} (he : 2 ≤ e) (hw : e + 1 ≤ w)
    (hi : Nat.log2 i.natAbs < 2 ^ (e - 1)) :
    (ofInt w e i).magnitude = magnitudeOfNat w e i.natAbs := by
  have hlt : magnitudeOfNat w e i.natAbs < 2 ^ (w - 1) :=
    lt_of_le_of_lt (magnitudeOfNat_le he hi) (infinity_lt hw)
  have hdvd : 2 ^ (w - 1) ∣ 2 ^ w := pow_dvd_pow 2 (Nat.sub_le w 1)
  rw [magnitude, ofInt, BitVec.toNat_ofNat, Nat.mod_mod_of_dvd _ hdvd]
  split
  · rw [Nat.add_mod_left, Nat.mod_eq_of_lt hlt]
  · rw [Nat.zero_add, Nat.mod_eq_of_lt hlt]

theorem isFinite_ofInt {i : ℤ} (he : 2 ≤ e) (hw : e + 1 ≤ w)
    (hi : Nat.log2 i.natAbs + 1 < 2 ^ (e - 1)) : (ofInt w e i).isFinite = true := by
  rw [isFinite, decide_eq_true_eq, magnitude_ofInt he hw (by omega), magnitudeOfNat]
  have htop : 2 ^ e = 2 * 2 ^ (e - 1) := by
    rw [← pow_succ']
    congr 1
    omega
  have hpos := Nat.two_pow_pos (w - 1 - e)
  have hhalf : 2 ≤ 2 ^ (e - 1) := by
    calc 2 = 2 ^ 1 := rfl
      _ ≤ 2 ^ (e - 1) := Nat.pow_le_pow_right (by decide) (by omega)
  split
  · exact Nat.mul_pos (by omega) hpos
  · rename_i hne
    have hsig := significand_le i.natAbs (w - 1 - e) hne
    have hexp : Nat.log2 i.natAbs + (2 ^ (e - 1) - 1) - 1 + 2 < 2 ^ e - 1 := by omega
    calc _ ≤ (Nat.log2 i.natAbs + (2 ^ (e - 1) - 1) - 1) * 2 ^ (w - 1 - e) +
            2 ^ (w - 1 - e + 1) := Nat.add_le_add_left hsig _
      _ = (Nat.log2 i.natAbs + (2 ^ (e - 1) - 1) - 1 + 2) * 2 ^ (w - 1 - e) := by ring
      _ < infinity w e := Nat.mul_lt_mul_of_pos_right hexp hpos

end Ieee

namespace Json

/-- A number: integers beyond 64 bits and everything with a fraction or an
exponent are floats. -/
inductive Number where
  | posInt (n : UInt64)
  | negInt (i : Int64) (neg : i < 0)
  | float (f : Ieee 64 11) (finite : f.isFinite = true)

namespace Number

theorem log2_lt_of_lt {n : ℕ} (h : n < 2 ^ 64) : Nat.log2 n + 1 < 2 ^ (11 - 1) := by
  rcases Nat.eq_zero_or_pos n with hz | hpos
  · rw [hz]
    decide
  · have hlog : Nat.log2 n < 64 := (Nat.log2_lt hpos.ne').mpr h
    omega

/-- The number as `i64`, if it is an integer in that range. -/
def asI64 : Number → Option Int64
  | .posInt n => if n.toNat < 2 ^ 63 then some (Int64.ofNat n.toNat) else none
  | .negInt i _ => some i
  | .float _ _ => none

/-- The number as `u64`, if it is an integer in that range. -/
def asU64 : Number → Option UInt64
  | .posInt n => some n
  | .negInt _ _ => none
  | .float _ _ => none

def toF64 : Number → Ieee 64 11
  | .posInt n => Ieee.ofInt 64 11 n.toNat
  | .negInt i _ => Ieee.ofInt 64 11 i.toInt
  | .float f _ => f

/-- The number as `f64`: every number has one. -/
def asF64 (n : Number) : Option (Ieee 64 11) := some n.toF64

def ofI64 (i : Int64) : Number :=
  if h : i < 0 then .negInt i h else .posInt i.toUInt64

/-- Integers are numbers within 64 bits, with a sign or without. -/
def ofInt (i : ℤ) : Option Number :=
  if -2 ^ 63 ≤ i ∧ i < 2 ^ 63 then some (ofI64 (Int64.ofInt i))
  else if 0 ≤ i ∧ i < 2 ^ 64 then some (.posInt (UInt64.ofNat i.toNat))
  else none

/-- There is no number for an infinity or a NaN. -/
def ofF64 (f : Ieee 64 11) : Option Number :=
  if h : f.isFinite = true then some (.float f h) else none

theorem asI64_ofI64 (i : Int64) : (ofI64 i).asI64 = some i := by
  unfold ofI64
  split
  · rfl
  · rename_i hneg
    have hpos : 0 ≤ i.toInt := not_lt.mp (mt (@Int64.lt_iff_toInt_lt i 0).mpr hneg)
    have hlt : i.toInt < 2 ^ 63 := Int64.toInt_lt i
    have hnat : i.toUInt64.toNat = i.toInt.toNat :=
      Int64.toNat_toUInt64_of_le (Int64.le_iff_toInt_le.mpr hpos)
    have hback : Int64.ofNat i.toInt.toNat = i := by
      apply Int64.toInt_inj.mp
      rw [Int64.toInt_ofNat_of_lt (by omega)]
      omega
    rw [asI64, hnat, if_pos (by omega), hback]

theorem isFinite_toF64 : ∀ n : Number, n.toF64.isFinite = true
  | .posInt n => by
      refine Ieee.isFinite_ofInt (by decide) (by decide) ?_
      exact log2_lt_of_lt (n := (n.toNat : ℤ).natAbs) (UInt64.toNat_lt n)
  | .negInt i _ => by
      refine Ieee.isFinite_ofInt (by decide) (by decide) ?_
      have hlo : -(2 ^ 63) ≤ i.toInt := Int64.le_toInt i
      have hhi : i.toInt < 2 ^ 63 := Int64.toInt_lt i
      exact log2_lt_of_lt (by omega)
  | .float _ h => h

theorem toF64_of_asI64 : ∀ {n : Number} {i : Int64}, n.asI64 = some i →
    n.toF64 = Ieee.ofInt 64 11 i.toInt
  | .posInt n, i, h => by
      rw [asI64] at h
      split at h
      · rename_i hn
        obtain rfl := Option.some.inj h
        rw [toF64, Int64.toInt_ofNat_of_lt hn]
      · cases h
  | .negInt i' hneg, i, h => by
      obtain rfl := Option.some.inj h
      rfl

end Number

end Json

inductive Json where
  | null
  | bool (b : Bool)
  | number (n : Json.Number)
  | string (s : String)
  | array (xs : List Json)
  | object (map : List (String × Json))

namespace Json

def asArray : Json → Option (List Json)
  | .array xs => some xs
  | _ => none

theorem asArray_eq {v : Json} {xs : List Json} : v.asArray = some xs ↔ v = .array xs := by
  cases v <;> simp [asArray]

def asF64 : Json → Option (Ieee 64 11)
  | .number n => n.asF64
  | _ => none

def asU64 : Json → Option UInt64
  | .number n => n.asU64
  | _ => none

/-- Indexing with a key, `null` where there is none. -/
def index (v : Json) (key : String) : Json :=
  match v with
  | .object map => (map.lookup key).getD .null
  | _ => .null

def ofI64 (i : Int64) : Json := .number (Number.ofI64 i)

/-- A float without a number is written as `null`. -/
def ofF64 (f : Ieee 64 11) : Json :=
  match Number.ofF64 f with
  | some n => .number n
  | none => .null

theorem ofF64_finite {f : Ieee 64 11} (h : f.isFinite = true) :
    ofF64 f = .number (.float f h) := by
  rw [ofF64, Number.ofF64, dif_pos h]

mutual

/-- No object in the value repeats a key. -/
def UniqueKeys : Json → Prop
  | .array xs => UniqueKeysList xs
  | .object map => (map.map Prod.fst).Nodup ∧ UniqueKeysEntries map
  | _ => True

def UniqueKeysList : List Json → Prop
  | [] => True
  | x :: xs => UniqueKeys x ∧ UniqueKeysList xs

def UniqueKeysEntries : List (String × Json) → Prop
  | [] => True
  | (_, x) :: map => UniqueKeys x ∧ UniqueKeysEntries map

end

theorem uniqueKeysList_iff {xs : List Json} : UniqueKeysList xs ↔ ∀ x ∈ xs, x.UniqueKeys := by
  induction xs with
  | nil => simp [UniqueKeysList]
  | cons x xs ih => simp [UniqueKeysList, ih]

theorem uniqueKeysEntries_iff {map : List (String × Json)} :
    UniqueKeysEntries map ↔ ∀ p ∈ map, p.2.UniqueKeys := by
  induction map with
  | nil => simp [UniqueKeysEntries]
  | cons p map ih => simp [UniqueKeysEntries, ih]

theorem nested_induction {P : Json → Prop}
    (object : ∀ map : List (String × Json),
      (∀ key xs, (key, .array xs) ∈ map → ∀ x ∈ xs, P x) → P (.object map))
    (other : ∀ v : Json, (∀ map, v ≠ .object map) → P v) (v : Json) : P v := by
  match v with
  | .object map =>
      apply object
      intro key xs hmem x hx
      have hxs : sizeOf x < sizeOf xs := List.sizeOf_lt_of_mem hx
      have hmap : sizeOf (key, Json.array xs) < sizeOf map := List.sizeOf_lt_of_mem hmem
      exact nested_induction object other x
  | .null => exact other _ (fun map h => by cases h)
  | .bool b => exact other _ (fun map h => by cases h)
  | .number n => exact other _ (fun map h => by cases h)
  | .string s => exact other _ (fun map h => by cases h)
  | .array xs => exact other _ (fun map h => by cases h)
termination_by sizeOf v
decreasing_by
  simp only [Prod.mk.sizeOf_spec, Json.array.sizeOf_spec] at hmap
  simp only [Json.object.sizeOf_spec]
  omega

end Json
