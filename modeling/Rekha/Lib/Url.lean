import Mathlib.Data.List.Basic
import Mathlib.Data.List.DropRight

/-!
# Schemes and hosts

The parts of an absolute URL that a client needs before it can send anything: the
scheme up to the first colon, and the host of a web address. The scheme of a text is
that of every longer text in which a slash follows (`scheme_append_slash`), and an
address that has a scheme itself is no host behind another scheme (`host_nested`).
Texts are without control characters, which a client takes out first.
-/

namespace Url

def isSchemeChar (c : Char) : Bool := c.isAlphanum || decide (c = '+' ∨ c = '-' ∨ c = '.')

/-- A letter and scheme characters in front of a colon. -/
def scheme (url : List Char) : Option (List Char) :=
  match url.takeWhile isSchemeChar, url.dropWhile isSchemeChar with
  | c :: s, ':' :: _ => if c.isAlpha then some (c :: s) else none
  | _, _ => none

def IsWeb (s : List Char) : Prop :=
  s.map Char.toLower = "http".toList ∨ s.map Char.toLower = "https".toList

def isSlash (c : Char) : Bool := decide (c = '/' ∨ c = '\\')

/-- What is behind the scheme and its slashes. -/
def afterScheme (url : List Char) : List Char :=
  ((url.dropWhile (· ≠ ':')).drop 1).dropWhile isSlash

/-- Where the host of a web address ends at the latest. -/
def endsAuthority (c : Char) : Bool := isSlash c || decide (c = '?' ∨ c = '#')

def authority (url : List Char) : List Char :=
  (afterScheme url).takeWhile fun c => !endsAuthority c

/-- The host of a web address, behind a user and before a port. -/
def host (url : List Char) : List Char :=
  ((authority url).rtakeWhile (· ≠ '@')).takeWhile (· ≠ ':')

section Scheme

variable {url s t rest : List Char} {c d : Char}

theorem takeWhile_append_stop {p : Char → Bool} (hs : ∀ c ∈ s, p c = true) (hd : p d = false) :
    (s ++ d :: rest).takeWhile p = s := by
  rw [List.takeWhile_append_of_pos hs, List.takeWhile_cons_of_neg (by rw [hd]; decide),
    List.append_nil]

theorem dropWhile_append_stop {p : Char → Bool} (hs : ∀ c ∈ s, p c = true) (hd : p d = false) :
    (s ++ d :: rest).dropWhile p = d :: rest := by
  rw [List.dropWhile_append_of_pos hs, List.dropWhile_cons_of_neg (by rw [hd]; decide)]

theorem mem_of_mem_takeWhile_append {p : Char → Bool} (hd : p d = false)
    (hc : c ∈ (s ++ d :: rest).takeWhile p) : c ∈ s := by
  rw [List.takeWhile_append] at hc
  split at hc
  · rw [List.takeWhile_cons_of_neg (by rw [hd]; decide), List.append_nil] at hc
    exact hc
  · exact (List.takeWhile_prefix p).sublist.mem hc

theorem scheme_append_colon (hc : c.isAlpha = true) (hs : ∀ d ∈ c :: s, isSchemeChar d = true) :
    scheme (c :: s ++ ':' :: rest) = some (c :: s) := by
  have htake : (c :: s ++ ':' :: rest).takeWhile isSchemeChar = c :: s :=
    takeWhile_append_stop hs (by decide)
  have hdrop : (c :: s ++ ':' :: rest).dropWhile isSchemeChar = ':' :: rest :=
    dropWhile_append_stop hs (by decide)
  rw [scheme, htake, hdrop]
  exact if_pos hc

theorem exists_of_scheme_eq_some (h : scheme url = some s) : ∃ c t rest, s = c :: t ∧
    url = c :: t ++ ':' :: rest ∧ c.isAlpha = true ∧ ∀ d ∈ c :: t, isSchemeChar d = true := by
  rw [scheme] at h
  split at h
  · rename_i c t rest htake hdrop
    split at h
    · rename_i hc
      obtain rfl := Option.some.inj h
      refine ⟨c, t, rest, rfl, ?_, hc, ?_⟩
      · rw [← htake, ← hdrop, List.takeWhile_append_dropWhile]
      · intro d hd
        rw [← htake] at hd
        exact List.mem_takeWhile_imp hd
    · cases h
  · cases h

theorem scheme_append_slash (url rest : List Char) : scheme (url ++ '/' :: rest) = scheme url := by
  ext s
  constructor
  · intro h
    obtain ⟨c, t, tail, rfl, heq, hc, hs⟩ := exists_of_scheme_eq_some h
    rcases List.append_eq_append_iff.mp heq with ⟨more, hmore, hrest⟩ | ⟨more, hmore, hrest⟩
    · cases more with
      | nil => cases hrest
      | cons d more =>
          obtain ⟨rfl, -⟩ := List.cons.inj hrest
          have hmem : '/' ∈ c :: t := hmore ▸ List.mem_append_right _ List.mem_cons_self
          have hslash := hs '/' hmem
          exact absurd hslash (by decide)
    · cases more with
      | nil => cases hrest
      | cons d more =>
          obtain ⟨rfl, -⟩ := List.cons.inj hrest
          rw [hmore]
          exact scheme_append_colon hc hs
  · intro h
    obtain ⟨c, t, tail, rfl, rfl, hc, hs⟩ := exists_of_scheme_eq_some h
    rw [List.append_assoc]
    exact scheme_append_colon hc hs

end Scheme

section Host

variable {addr s rest : List Char} {c : Char}

theorem not_endsAuthority_of_isSchemeChar (h : isSchemeChar c = true) :
    endsAuthority c = false := by
  rw [Bool.eq_false_iff]
  intro hend
  rcases Bool.or_eq_true_iff.mp hend with hend | hend
  · rcases of_decide_eq_true hend with rfl | rfl <;> exact absurd h (by decide)
  · rcases of_decide_eq_true hend with rfl | rfl <;> exact absurd h (by decide)

theorem host_nested (hscheme : scheme addr = some s) (hat : '@' ∉ addr) :
    host ("http://".toList ++ (addr ++ '/' :: rest)) = s := by
  obtain ⟨c, t, tail, rfl, rfl, -, hs⟩ := exists_of_scheme_eq_some hscheme
  have hends : ∀ d ∈ c :: t, (!endsAuthority d) = true := by
    intro d hd
    rw [not_endsAuthority_of_isSchemeChar (hs d hd)]
    rfl
  have hslash : isSlash c = false :=
    (Bool.or_eq_false_iff.mp (not_endsAuthority_of_isSchemeChar (hs c List.mem_cons_self))).1
  have hafter : afterScheme ("http://".toList ++ (c :: t ++ ':' :: tail ++ '/' :: rest))
      = c :: t ++ ':' :: (tail ++ '/' :: rest) := by
    show List.dropWhile isSlash (c :: (t ++ ':' :: tail ++ '/' :: rest)) = _
    rw [List.dropWhile_cons_of_neg (by rw [hslash]; decide), List.append_assoc]
    rfl
  have hauthority : authority ("http://".toList ++ (c :: t ++ ':' :: tail ++ '/' :: rest))
      = c :: t ++ ':' :: (tail ++ '/' :: rest).takeWhile fun c => !endsAuthority c := by
    rw [authority, hafter, List.takeWhile_append_of_pos hends,
      List.takeWhile_cons_of_pos (by decide)]
  have huser : ∀ d ∈ c :: t ++ ':' :: (tail ++ '/' :: rest).takeWhile fun c => !endsAuthority c,
      decide (d ≠ '@') = true := by
    intro d hd
    apply decide_eq_true
    rintro rfl
    apply hat
    rcases List.mem_append.mp hd with hd | hd
    · exact List.mem_append_left _ hd
    · refine List.mem_append_right _ ?_
      rcases List.mem_cons.mp hd with hd | hd
      · cases hd
      · exact List.mem_cons_of_mem _ (mem_of_mem_takeWhile_append (by decide) hd)
  rw [host, hauthority, List.rtakeWhile_eq_self_iff.mpr huser]
  refine takeWhile_append_stop ?_ (by decide)
  intro d hd
  apply decide_eq_true
  rintro rfl
  exact absurd (hs _ hd) (by decide)

end Host

end Url
