import Mathlib.Data.Int.Notation
import Mathlib.Data.List.TakeWhile
import Mathlib.Data.Nat.Notation

/-!
# Numbers as text

Integers have an optional sign and digits; floats have a fraction and an exponent
as well, or are an infinity or no number. What a decimal literal is rounded to is
left to the reader. A printed number reads as itself (`parseInt_print`,
`parseFloat_print`).
-/

namespace NumberText

def parseDigits (s : List Char) : Option ℕ :=
  if !s.isEmpty && s.all Char.isDigit then some (Nat.ofDigitChars 10 s 0) else none

/-- Take a sign off the front; `true` for a minus. -/
def takeSign : List Char → Bool × List Char
  | '-' :: s => (true, s)
  | '+' :: s => (false, s)
  | s => (false, s)

def signed (negative : Bool) (n : ℕ) : ℤ := if negative then -(n : ℤ) else n

def parseInt (s : List Char) : Option ℤ := (parseDigits (takeSign s).2).map (signed (takeSign s).1)

/-- A natural number may have a plus, but no minus. -/
def parseNat (s : List Char) : Option ℕ :=
  if (takeSign s).1 then none else parseDigits (takeSign s).2

/-- What a float text says, before rounding. -/
inductive FloatLiteral where
  | infinity (negative : Bool)
  | nan (negative : Bool)
  | decimal (negative : Bool) (mantissa : ℕ) (exponent : ℤ)
deriving DecidableEq

/-- Digits with an optional point; a digit is needed on one side of it. The
exponent is the number of places behind the point, taken negatively. -/
def parseMantissa (s : List Char) : Option (ℕ × ℤ) :=
  match s.splitOn '.' with
  | [whole] => (parseDigits whole).map fun n => (n, 0)
  | [whole, fraction] => (parseDigits (whole ++ fraction)).map fun n => (n, -(fraction.length : ℤ))
  | _ => none

def isExponentMark (c : Char) : Bool := decide (c = 'e' ∨ c = 'E')

/-- A mantissa, and an exponent behind the first `e`. -/
def parseDecimal (s : List Char) : Option (ℕ × ℤ) :=
  let front := s.takeWhile fun c => !isExponentMark c
  match s.dropWhile fun c => !isExponentMark c with
  | [] => parseMantissa front
  | _ :: exponent => do
      let (n, e) ← parseMantissa front
      let shift ← parseInt exponent
      pure (n, e + shift)

def parseFloat (s : List Char) : Option FloatLiteral :=
  let negative := (takeSign s).1
  let rest := (takeSign s).2
  let lower := rest.map Char.toLower
  if lower = ['i', 'n', 'f'] ∨ lower = ['i', 'n', 'f', 'i', 'n', 'i', 't', 'y'] then
    some (.infinity negative)
  else if lower = ['n', 'a', 'n'] then some (.nan negative)
  else (parseDecimal rest).map fun d => .decimal negative d.1 d.2

/-! ## What is no number -/

theorem parseDigits_none {s : List Char} {c : Char} (hmem : c ∈ s) (hc : c.isDigit = false) :
    parseDigits s = none := by
  apply if_neg
  rw [Bool.and_eq_true, List.all_eq_true]
  rintro ⟨-, hall⟩
  rw [hall c hmem] at hc
  cases hc

theorem parseMantissa_none {s : List Char} {c : Char} (hc : c.isDigit = false) (hpoint : c ≠ '.') :
    parseMantissa (c :: s) = none := by
  obtain ⟨whole, parts, hparts⟩ := List.exists_cons_of_ne_nil (List.splitOn_ne_nil '.' s)
  have hsplit : (c :: s).splitOn '.' = (c :: whole) :: parts := by
    rw [List.splitOn_cons_eq_if_modifyHead, if_neg (by simpa using hpoint), hparts]
    rfl
  rw [parseMantissa, hsplit]
  split
  · rename_i heq
    obtain ⟨rfl, -⟩ := List.cons.inj heq
    rw [parseDigits_none List.mem_cons_self hc]
    rfl
  · rename_i heq
    obtain ⟨rfl, -⟩ := List.cons.inj heq
    rw [parseDigits_none (List.mem_append_left _ List.mem_cons_self) hc]
    rfl
  · rfl

theorem bracket_not_number (s : List Char) :
    parseInt ('[' :: s) = none ∧ parseFloat ('[' :: s) = none := by
  have hsign : takeSign ('[' :: s) = (false, '[' :: s) := rfl
  constructor
  · rw [parseInt, hsign, parseDigits_none List.mem_cons_self (by decide)]
    rfl
  · have hmantissa : parseDecimal ('[' :: s) = none := by
      rw [parseDecimal, List.takeWhile_cons_of_pos (by decide)]
      split
      · exact parseMantissa_none (by decide) (by decide)
      · rw [parseMantissa_none (by decide) (by decide)]
        rfl
    rw [parseFloat, hsign]
    simp [hmantissa]

/-! ## Printing -/

def printNat (n : ℕ) : List Char := Nat.toDigits 10 n

def printInt (i : ℤ) : List Char :=
  if i < 0 then '-' :: printNat i.natAbs else printNat i.natAbs

/-- A decimal number: sign, digits and the digits behind the point. -/
structure Decimal where
  negative : Bool
  whole : ℕ
  fraction : List (Fin 10)
deriving DecidableEq

def printFraction (fraction : List (Fin 10)) : List Char :=
  fraction.map fun d => Nat.digitChar d.val

def Decimal.print (d : Decimal) : List Char :=
  (if d.negative then ['-'] else []) ++ (printNat d.whole ++
    if d.fraction.isEmpty then [] else '.' :: printFraction d.fraction)

def Decimal.literal (d : Decimal) : FloatLiteral :=
  .decimal d.negative (Nat.ofDigitChars 10 (printFraction d.fraction) d.whole)
    (-(d.fraction.length : ℤ))

theorem isDigit_printNat {n : ℕ} : ∀ c ∈ printNat n, c.isDigit = true :=
  fun _ hc => Nat.isDigit_of_mem_toDigits (by decide) (by decide) hc

theorem printNat_ne_nil (n : ℕ) : printNat n ≠ [] := Nat.toDigits_ne_nil

theorem parseDigits_of_isDigit {s : List Char} (hne : s ≠ []) (h : ∀ c ∈ s, c.isDigit = true) :
    parseDigits s = some (Nat.ofDigitChars 10 s 0) := by
  have hcond : (!s.isEmpty && s.all Char.isDigit) = true := by
    rw [List.isEmpty_eq_false_iff.mpr hne, List.all_eq_true.mpr h]
    rfl
  rw [parseDigits, if_pos hcond]

theorem parseDigits_printNat (n : ℕ) : parseDigits (printNat n) = some n := by
  rw [parseDigits_of_isDigit (printNat_ne_nil n) isDigit_printNat, printNat,
    Nat.ofDigitChars_ten_toDigits]

theorem takeSign_of_isDigit {c : Char} (hc : c.isDigit = true) (s : List Char) :
    takeSign (c :: s) = (false, c :: s) := by
  unfold takeSign
  split
  · rename_i heq
    obtain ⟨rfl, -⟩ := List.cons.inj heq
    cases hc
  · rename_i heq
    obtain ⟨rfl, -⟩ := List.cons.inj heq
    cases hc
  · rfl

theorem printNat_cons (n : ℕ) : ∃ c s, printNat n = c :: s ∧ c.isDigit = true := by
  obtain ⟨c, s, h⟩ := List.exists_cons_of_ne_nil (printNat_ne_nil n)
  exact ⟨c, s, h, isDigit_printNat c (h ▸ List.mem_cons_self)⟩

theorem takeSign_printNat (n : ℕ) (s : List Char) :
    takeSign (printNat n ++ s) = (false, printNat n ++ s) := by
  obtain ⟨c, t, h, hc⟩ := printNat_cons n
  rw [h, List.cons_append, takeSign_of_isDigit hc]

theorem parseNat_printNat (n : ℕ) : parseNat (printNat n) = some n := by
  have hsign := takeSign_printNat n []
  rw [List.append_nil] at hsign
  rw [parseNat, hsign, if_neg Bool.false_ne_true, parseDigits_printNat]

/-- **A printed integer reads as itself.** -/
theorem parseInt_print (i : ℤ) : parseInt (printInt i) = some i := by
  rw [printInt]
  by_cases hneg : i < 0
  · have hsign : takeSign ('-' :: printNat i.natAbs) = (true, printNat i.natAbs) := rfl
    rw [if_pos hneg, parseInt, hsign, parseDigits_printNat, Option.map_some, signed, if_pos rfl,
      Int.ofNat_natAbs_of_nonpos (Int.le_of_lt hneg), Int.neg_neg]
  · have hsign := takeSign_printNat i.natAbs []
    rw [List.append_nil] at hsign
    rw [if_neg hneg, parseInt, hsign, parseDigits_printNat, Option.map_some, signed,
      if_neg Bool.false_ne_true, Int.natAbs_of_nonneg (Int.not_lt.mp hneg)]

theorem isDigit_printFraction {fraction : List (Fin 10)} :
    ∀ c ∈ printFraction fraction, c.isDigit = true := by
  intro c hc
  obtain ⟨d, -, rfl⟩ := List.mem_map.mp hc
  exact (by decide : ∀ d : Fin 10, (Nat.digitChar d.val).isDigit = true) d

theorem parseMantissa_print (whole : ℕ) (fraction : List (Fin 10)) :
    parseMantissa
        (printNat whole ++ if fraction.isEmpty then [] else '.' :: printFraction fraction) =
      some (Nat.ofDigitChars 10 (printFraction fraction) whole, -(fraction.length : ℤ)) := by
  have hpoint : ∀ s : List Char, (∀ c ∈ s, c.isDigit = true) → '.' ∉ s := by
    intro s hs hmem
    exact absurd (hs _ hmem) (by decide)
  cases fraction with
  | nil =>
      have hsplit := List.splitOn_eq_singleton (hpoint _ (isDigit_printNat (n := whole)))
      rw [List.isEmpty_nil, if_pos rfl, List.append_nil, parseMantissa, hsplit]
      show (parseDigits (printNat whole)).map _ = _
      rw [parseDigits_printNat]
      rfl
  | cons d fraction =>
      have hsplit : (printNat whole ++ '.' :: printFraction (d :: fraction)).splitOn '.' =
          [printNat whole, printFraction (d :: fraction)] := by
        rw [List.splitOn_append_cons_self, List.splitOn_eq_singleton (hpoint _ isDigit_printNat),
          List.splitOn_eq_singleton (hpoint _ isDigit_printFraction)]
        rfl
      have hdigits : ∀ c ∈ printNat whole ++ printFraction (d :: fraction), c.isDigit = true := by
        intro c hc
        rcases List.mem_append.mp hc with hc | hc
        · exact isDigit_printNat c hc
        · exact isDigit_printFraction c hc
      rw [List.isEmpty_cons, if_neg Bool.false_ne_true, parseMantissa, hsplit]
      show (parseDigits (printNat whole ++ printFraction (d :: fraction))).map _ = _
      rw [parseDigits_of_isDigit (List.append_ne_nil_of_left_ne_nil (printNat_ne_nil whole) _)
        hdigits, Nat.ofDigitChars_append, printNat, Nat.ofDigitChars_ten_toDigits, Option.map_some,
        printFraction, List.length_map]

theorem mem_printUnsigned {whole : ℕ} {fraction : List (Fin 10)} {c : Char}
    (hc : c ∈ printNat whole ++ if fraction.isEmpty then [] else '.' :: printFraction fraction) :
    c.isDigit = true ∨ c = '.' := by
  rcases List.mem_append.mp hc with hc | hc
  · exact Or.inl (isDigit_printNat c hc)
  · split at hc
    · cases hc
    · rcases List.mem_cons.mp hc with rfl | hc
      · exact Or.inr rfl
      · exact Or.inl (isDigit_printFraction c hc)

theorem toLower_of_isDigit {c : Char} (h : c.isDigit = true) : c.toLower = c := by
  unfold Char.toLower
  apply dif_neg
  rintro ⟨hlo, -⟩
  simp only [Char.isDigit, Bool.and_eq_true, decide_eq_true_eq] at h
  exact absurd (UInt32.le_trans hlo h.2) (by decide)

/-- **A printed decimal reads as itself.** -/
theorem parseFloat_print (d : Decimal) : parseFloat d.print = some d.literal := by
  obtain ⟨negative, whole, fraction⟩ := d
  have hsign : takeSign (Decimal.print ⟨negative, whole, fraction⟩) = (negative,
      printNat whole ++ if fraction.isEmpty then [] else '.' :: printFraction fraction) := by
    cases negative with
    | true => rfl
    | false => exact takeSign_printNat whole _
  have hmantissa := parseMantissa_print whole fraction
  have hchars : ∀ c ∈ printNat whole ++
      if fraction.isEmpty then [] else '.' :: printFraction fraction,
        c.isDigit = true ∨ c = '.' := fun c hc => mem_printUnsigned hc
  have hfirst : ∃ c s, (printNat whole ++
      if fraction.isEmpty then [] else '.' :: printFraction fraction) = c :: s ∧
        c.isDigit = true := by
    obtain ⟨c, s, h, hc⟩ := printNat_cons whole
    exact ⟨c, _, by rw [h, List.cons_append], hc⟩
  rw [parseFloat, hsign]
  generalize (printNat whole ++
    if fraction.isEmpty then [] else '.' :: printFraction fraction) = rest at *
  obtain ⟨c, s, rfl, hc⟩ := hfirst
  have hlower : c.toLower ≠ 'i' ∧ c.toLower ≠ 'n' := by
    rw [toLower_of_isDigit hc]
    constructor
    · rintro rfl
      cases hc
    · rintro rfl
      cases hc
  have hmark : ∀ x ∈ c :: s, (!isExponentMark x) = true := by
    intro x hx
    rcases hchars x hx with hx | rfl
    · rw [Bool.not_eq_true', isExponentMark, decide_eq_false_iff_not]
      rintro (rfl | rfl)
      · cases hx
      · cases hx
    · rfl
  have hdecimal : parseDecimal (c :: s) =
      some (Nat.ofDigitChars 10 (printFraction fraction) whole, -(fraction.length : ℤ)) := by
    rw [parseDecimal, List.takeWhile_eq_self_iff.mpr hmark, List.dropWhile_eq_nil_iff.mpr hmark]
    exact hmantissa
  rw [hdecimal]
  simp [hlower, Decimal.literal]

end NumberText
