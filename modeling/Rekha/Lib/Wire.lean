import Rekha.Lib.Bytes

/-!
# Self-delimiting values

A decoder takes a value off the front of a byte string and returns the rest. It
reads an encoder back when it does so behind every encoding that is not longer
than a length field can say. Fixed-width words, options behind a tag byte and
sequences behind an eight-byte count read back as soon as their parts do.
-/

namespace Wire

open Bytes

variable {α β : Type}

abbrev Encoder (α : Type) := α → List UInt8
abbrev Decoder (α : Type) := List UInt8 → Option (α × List UInt8)

/-- `dec` reads back what `enc` writes, whatever follows. -/
def Reads (enc : Encoder α) (dec : Decoder α) : Prop :=
  ∀ a rest, (enc a).length < 2 ^ 64 → dec (enc a ++ rest) = some (a, rest)

/-- A `k`-byte word. -/
def word (k : ℕ) : Decoder ℕ := fun l =>
  if k ≤ l.length then some (ofLe (l.take k), l.drop k) else none

theorem word_toLe {k n : ℕ} (h : n < 256 ^ k) (rest : List UInt8) :
    word k (toLe k n ++ rest) = some (n, rest) := by
  unfold word
  rw [if_pos (by simp), List.take_left' (length_toLe k n), List.drop_left' (length_toLe k n),
    ofLe_toLe k n h]

def decodeMap (f : α → Option β) (dec : Decoder α) : Decoder β := fun l =>
  (dec l).bind fun p => (f p.1).map fun b => (b, p.2)

theorem decodeMap_eq {f : α → Option β} {dec : Decoder α} {l rest : List UInt8} {a : α} {b : β}
    (h : dec l = some (a, rest)) (hf : f a = some b) :
    decodeMap f dec l = some (b, rest) := by
  unfold decodeMap
  rw [h, Option.bind_some, hf]
  rfl

/-! ## Options -/

def option (enc : Encoder α) : Encoder (Option α)
  | none => [0]
  | some a => 1 :: enc a

def decodeOption (dec : Decoder α) : Decoder (Option α)
  | [] => none
  | tag :: l =>
      if tag = 0 then some (none, l)
      else if tag = 1 then (dec l).map fun p => (some p.1, p.2)
      else none

theorem option_reads {enc : Encoder α} {dec : Decoder α} (h : Reads enc dec) :
    Reads (option enc) (decodeOption dec) := by
  intro a rest hlen
  cases a with
  | none => rfl
  | some a =>
      have hlen' : (enc a).length < 2 ^ 64 := by
        rw [option, List.length_cons] at hlen
        omega
      show (dec (enc a ++ rest)).map _ = _
      rw [h a rest hlen']
      rfl

/-! ## Sequences -/

/-- `n` values one after the other. -/
def decodeMany (dec : Decoder α) : ℕ → Decoder (List α)
  | 0, l => some ([], l)
  | n + 1, l =>
      match dec l with
      | none => none
      | some (a, l) => (decodeMany dec n l).map fun p => (a :: p.1, p.2)

def sequence (enc : Encoder α) : Encoder (List α) := fun l =>
  toLe 8 l.length ++ l.flatMap enc

def decodeSequence (dec : Decoder α) : Decoder (List α) := fun l =>
  (word 8 l).bind fun p => decodeMany dec p.1 p.2

theorem decodeMany_flatMap {enc : Encoder α} {dec : Decoder α} (h : Reads enc dec)
    (l : List α) (rest : List UInt8) (hlen : (l.flatMap enc).length < 2 ^ 64) :
    decodeMany dec l.length (l.flatMap enc ++ rest) = some (l, rest) := by
  induction l with
  | nil => rfl
  | cons a l ih =>
      rw [List.flatMap_cons, List.length_append] at hlen
      rw [List.flatMap_cons, List.append_assoc, List.length_cons, decodeMany,
        h a _ (by omega)]
      dsimp only
      rw [ih (by omega)]
      rfl

theorem length_le_length_flatMap {enc : Encoder α} (hpos : ∀ a, 0 < (enc a).length)
    (l : List α) : l.length ≤ (l.flatMap enc).length := by
  induction l with
  | nil => exact Nat.le_refl 0
  | cons a l ih =>
      have ha := hpos a
      rw [List.flatMap_cons, List.length_append, List.length_cons]
      omega

theorem sequence_reads {enc : Encoder α} {dec : Decoder α} (h : Reads enc dec)
    (hpos : ∀ a, 0 < (enc a).length) : Reads (sequence enc) (decodeSequence dec) := by
  intro l rest hlen
  rw [sequence, List.length_append, length_toLe] at hlen
  have hcount : l.length < 256 ^ 8 := by
    have := length_le_length_flatMap hpos l
    omega
  unfold decodeSequence sequence
  rw [List.append_assoc, word_toLe hcount, Option.bind_some]
  exact decodeMany_flatMap h l rest (by omega)

/-! ## Prefixes -/

/-- What follows does not change what is taken off the front. -/
def Extends (dec : Decoder α) : Prop :=
  ∀ ⦃l a r⦄, dec l = some (a, r) → ∀ x, dec (l ++ x) = some (a, r ++ x)

theorem word_extends (k : ℕ) : Extends (word k) := by
  intro l a r h x
  unfold word at h ⊢
  split at h
  · rename_i hk
    simp only [Option.some.injEq, Prod.mk.injEq] at h
    obtain ⟨rfl, rfl⟩ := h
    rw [if_pos (by rw [List.length_append]; omega), List.take_append_of_le_length hk,
      List.drop_append_of_le_length hk]
  · cases h

theorem Extends.bind {dec : Decoder α} {f : α × List UInt8 → Option (β × List UInt8)}
    (h : Extends dec) (hf : ∀ a, Extends fun l => f (a, l)) :
    Extends fun l => (dec l).bind f := by
  intro l b r hb x
  obtain ⟨⟨a, r₁⟩, ha, hb⟩ := Option.bind_eq_some_iff.mp hb
  show (dec (l ++ x)).bind _ = _
  rw [h ha x, Option.bind_some]
  exact hf a hb x

theorem decodeMap_extends {f : α → Option β} {dec : Decoder α} (h : Extends dec) :
    Extends (decodeMap f dec) := by
  apply h.bind
  intro a l b r hb x
  obtain ⟨b', hb', heq⟩ := Option.map_eq_some_iff.mp hb
  cases heq
  show (f a).map _ = _
  rw [hb']
  rfl

theorem fails_extends : Extends fun _ => (none : Option (α × List UInt8)) := by
  intro l a r h
  cases h

theorem decodeOption_extends {dec : Decoder α} (h : Extends dec) :
    Extends (decodeOption dec) := by
  intro l a r ha x
  cases l with
  | nil => cases ha
  | cons tag l =>
      show decodeOption dec (tag :: (l ++ x)) = _
      unfold decodeOption at ha ⊢
      dsimp only at ha ⊢
      split at ha
      · rename_i htag
        cases ha
        rw [if_pos htag]
      · rename_i htag
        rw [if_neg htag]
        split at ha
        · rename_i hone
          obtain ⟨⟨b, r₁⟩, hb, heq⟩ := Option.map_eq_some_iff.mp ha
          cases heq
          rw [if_pos hone, h hb x]
          rfl
        · cases ha

theorem decodeMany_extends {dec : Decoder α} (h : Extends dec) :
    ∀ n, Extends (decodeMany dec n)
  | 0 => by
      intro l a r ha x
      cases ha
      rfl
  | n + 1 => by
      intro l a r ha x
      unfold decodeMany at ha ⊢
      split at ha
      · cases ha
      · rename_i b l₁ hb
        obtain ⟨⟨bs, r₁⟩, hbs, heq⟩ := Option.map_eq_some_iff.mp ha
        cases heq
        rw [h hb x]
        dsimp only
        rw [decodeMany_extends h n hbs x]
        rfl

theorem decodeSequence_extends {dec : Decoder α} (h : Extends dec) :
    Extends (decodeSequence dec) :=
  (word_extends 8).bind fun n => decodeMany_extends h n

/-- **A cut encoding does not decode**: whatever it decoded to, the whole would
decode to as well, with bytes left over. -/
theorem Extends.cut {dec : Decoder α} (hext : Extends dec) {whole p : List UInt8} {a : α}
    (h : dec whole = some (a, [])) (hp : p <+: whole) (hne : p ≠ whole) : dec p = none := by
  obtain ⟨q, rfl⟩ := hp
  cases hdec : dec p with
  | none => rfl
  | some b =>
      rw [hext hdec q] at h
      simp only [Option.some.injEq, Prod.mk.injEq, List.append_eq_nil_iff] at h
      obtain ⟨-, -, rfl⟩ := h
      exact absurd (List.append_nil p).symm hne

end Wire
