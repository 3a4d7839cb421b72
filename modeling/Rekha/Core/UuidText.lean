import Mathlib.Data.List.Range
import Rekha.Core.Types

/-!
# Ids as text

Reading an id back from text is the `uuid` crate's. It accepts several textual
forms; what the code relies on is that it reads the form it writes.
`hexText` reads the hyphenated, the simple, the braced and the URN form.
-/

namespace Rekha

/-- `Uuid::parse_str`: an id, or the text of the error. -/
structure UuidText where
  parseStr : String → Except String Uuid
  parseStr_toString : ∀ u : Uuid, parseStr u.toString = .ok u

theorem UuidText.toString_inj (text : UuidText) {u v : Uuid} :
    u.toString = v.toString ↔ u = v := by
  constructor
  · intro h
    have hu := text.parseStr_toString u
    rw [h, text.parseStr_toString v] at hu
    exact (Except.ok.inj hu).symm
  · rintro rfl
    rfl

namespace Uuid

def hexDigits : List Char := "0123456789abcdef".toList

/-- The value of a lowercase hexadecimal digit. -/
def hexValue (c : Char) : Option ℕ :=
  if hexDigits.idxOf c < 16 then some (hexDigits.idxOf c) else none

/-- The number written by the hexadecimal digits among some characters. -/
def hexNumber (cs : List Char) : ℕ := (cs.filterMap hexValue).foldl (fun n d => 16 * n + d) 0

def simple (u : Uuid) : String := String.ofList (u.toString.toList.filter fun c => c ≠ '-')

/-- Read the digits, and accept them in one of the forms they are written in. -/
def parseHex (s : String) : Except String Uuid :=
  let cs := s.toList.map Char.toLower
  let digits := if "urn:uuid:".toList.isPrefixOf cs then cs.drop 9 else cs
  let u : Uuid := ⟨BitVec.ofNat 128 (hexNumber digits)⟩
  if String.ofList cs ∈ [u.toString, u.simple, "\x7b" ++ u.toString ++ "\x7d",
      "urn:uuid:" ++ u.toString]
  then .ok u
  else .error "invalid character"

/-! ## The hyphenated form reads back -/

theorem foldl_digits : ∀ (k n : ℕ),
    ((List.range k).map fun i => n / 16 ^ (k - 1 - i) % 16).foldl (fun n d => 16 * n + d) 0 =
      n % 16 ^ k
  | 0, n => by simp [Nat.mod_one]
  | k + 1, n => by
      have hshift : ((List.range k).map fun i => n / 16 ^ (k + 1 - 1 - i) % 16) =
          (List.range k).map fun i => n / 16 / 16 ^ (k - 1 - i) % 16 := by
        apply List.map_congr_left
        intro i hi
        have hik := List.mem_range.mp hi
        have hexp : k + 1 - 1 - i = (k - 1 - i).succ := by omega
        rw [Nat.div_div_eq_div_mul, hexp, Nat.pow_succ']
      rw [List.range_succ, List.map_append, List.foldl_append, hshift, foldl_digits k (n / 16)]
      have hsplit := Nat.mod_mul (x := n) (a := 16) (b := 16 ^ k)
      rw [List.map_singleton, List.foldl_cons, List.foldl_nil, Nat.pow_succ', hsplit]
      simp only [Nat.add_sub_cancel, Nat.sub_self, Nat.pow_zero, Nat.div_one]
      omega

theorem hexValue_digit : ∀ d < 16, hexValue (hexDigits.getD d '0') = some d := by decide

def digit (u : Uuid) (i : ℕ) : Char := hexDigits.getD (u.bits.toNat / 16 ^ (31 - i) % 16) '0'

theorem hexValue_digits (u : Uuid) (is : List ℕ) :
    (is.map u.digit).filterMap hexValue = is.map fun i => u.bits.toNat / 16 ^ (31 - i) % 16 := by
  induction is with
  | nil => rfl
  | cons i is ih =>
      have hd : hexValue (u.digit i) = some (u.bits.toNat / 16 ^ (31 - i) % 16) :=
        hexValue_digit _ (Nat.mod_lt _ (by decide))
      rw [List.map_cons, List.filterMap_cons_some hd, ih]
      rfl

theorem toList_toString (u : Uuid) : u.toString.toList =
    (List.range' 0 8).map u.digit ++ '-' :: (List.range' 8 4).map u.digit ++
      '-' :: (List.range' 12 4).map u.digit ++ '-' :: (List.range' 16 4).map u.digit ++
      '-' :: (List.range' 20 12).map u.digit := by
  rw [toString, String.toList_ofList]
  rfl

theorem toLower_toString (u : Uuid) : u.toString.toList.map Char.toLower = u.toString.toList := by
  have hdigit : ∀ i, (u.digit i).toLower = u.digit i := by
    intro i
    have hall : ∀ d < 16, (hexDigits.getD d '0').toLower = hexDigits.getD d '0' := by decide
    exact hall _ (Nat.mod_lt _ (by decide))
  have hdash : ('-').toLower = '-' := by decide
  have hgroup : ∀ is : List ℕ, (is.map u.digit).map Char.toLower = is.map u.digit := by
    intro is
    rw [List.map_map]
    exact List.map_congr_left fun i _ => hdigit i
  simp only [toList_toString, List.map_append, List.map_cons, hgroup, hdash]

theorem hexNumber_toString (u : Uuid) : hexNumber u.toString.toList = u.bits.toNat := by
  have hdash : hexValue '-' = none := by decide
  have hrange : List.range' 0 8 ++ List.range' 8 4 ++ List.range' 12 4 ++ List.range' 16 4 ++
      List.range' 20 12 = List.range 32 := by decide
  rw [hexNumber, toList_toString]
  simp only [List.filterMap_append, List.filterMap_cons, hdash, hexValue_digits]
  rw [← List.map_append, ← List.map_append, ← List.map_append, ← List.map_append, hrange]
  have hread := foldl_digits 32 u.bits.toNat
  rw [Nat.mod_eq_of_lt (by simpa using u.bits.isLt)] at hread
  exact hread

theorem parseHex_toString (u : Uuid) : parseHex u.toString = .ok u := by
  have hfirst : 'u' ≠ u.digit 0 := by
    have hall : ∀ d < 16, 'u' ≠ hexDigits.getD d '0' := by decide
    exact hall _ (Nat.mod_lt _ (by decide))
  have hprefix : "urn:uuid:".toList.isPrefixOf u.toString.toList = false := by
    rw [toList_toString, show "urn:uuid:".toList = 'u' :: "rn:uuid:".toList from rfl]
    show ('u' == u.digit 0 && _) = false
    rw [beq_eq_false_iff_ne.mpr hfirst, Bool.false_and]
  simp only [parseHex, toLower_toString, hprefix, Bool.false_eq_true, if_false,
    hexNumber_toString, BitVec.ofNat_toNat, BitVec.setWidth_eq, String.ofList_toList]
  rw [if_pos List.mem_cons_self]

end Uuid

/-- The textual forms the crate accepts. -/
def hexText : UuidText := ⟨Uuid.parseHex, Uuid.parseHex_toString⟩

end Rekha
