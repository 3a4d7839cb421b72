import Mathlib.Data.List.Basic
import Mathlib.Data.List.Forall2

/-!
# Comma-separated values

A reader for lines of fields, and what it makes of written fields: a field without
commas, quotes and line ends stands for itself, and any text does between quotes
with its own quotes doubled. Lines of such fields are read back (`read_line`). A text
that is written as it is must be plain to be read back (`read_bare_iff`).
-/

namespace Csv

inductive Mode where
  | start
  | plain
  | quoted
  /-- Behind a quote, which closes the field or is the first of two. -/
  | closed
deriving DecidableEq

/-- What the end of the text makes of the field and record in hand. -/
def finish (mode : Mode) (field : List Char) (record : List (List Char)) :
    Option (List (List (List Char))) :=
  if mode = .quoted then none
  else if mode = .start ∧ record = [] then some []
  else some [record ++ [field]]

/-- Read records of fields, with the current field and record so far in hand. -/
def read : Mode → List Char → List (List Char) → List Char → Option (List (List (List Char)))
  | mode, field, record, [] => finish mode field record
  | mode, field, record, c :: s =>
      if mode = .quoted then
        if c = '"' then read .closed field record s else read .quoted (field ++ [c]) record s
      else if c = ',' then read .start [] (record ++ [field]) s
      else if c = '\n' then (read .start [] [] s).map ((record ++ [field]) :: ·)
      else if c = '"' then
        if mode = .start then read .quoted [] record s
        else if mode = .closed then read .quoted (field ++ ['"']) record s
        else none
      else if mode = .closed then none
      else read .plain (field ++ [c]) record s

def double (c : Char) : List Char := if c = '"' then ['"', '"'] else [c]

def quote (s : List Char) : List Char := '"' :: (s.flatMap double ++ ['"'])

def IsPlain (s : List Char) : Prop := ',' ∉ s ∧ '\n' ∉ s ∧ '"' ∉ s

inductive Encodes : List Char → List Char → Prop
  | plain {s : List Char} : IsPlain s → Encodes s s
  | quoted (s : List Char) : Encodes (quote s) s

/-- Behind a field: the rest of the record, or the next one. -/
def next (record : List (List Char)) (d : Char) (s : List Char) :
    Option (List (List (List Char))) :=
  if d = ',' then read .start [] record s else (read .start [] [] s).map (record :: ·)

section Fields

variable {s t rest : List Char} {d : Char}

theorem read_delimiter (hd : d = ',' ∨ d = '\n') {mode : Mode} (hmode : mode ≠ .quoted)
    (field : List Char) (record : List (List Char)) :
    read mode field record (d :: rest) = next (record ++ [field]) d rest := by
  rw [read, if_neg hmode]
  rcases hd with rfl | rfl <;> rfl

theorem read_plain (hd : d = ',' ∨ d = '\n') (record : List (List Char)) :
    ∀ (s : List Char) (mode : Mode) (field : List Char), IsPlain s → mode = .start ∨ mode = .plain →
      read mode field record (s ++ d :: rest) = next (record ++ [field ++ s]) d rest
  | [], mode, field, _, hmode => by
      rw [List.append_nil]
      apply read_delimiter hd
      rcases hmode with rfl | rfl <;> exact Mode.noConfusion
  | c :: s, mode, field, hs, hmode => by
      have hcomma : ¬ c = ',' := fun h => hs.1 (h ▸ List.mem_cons_self)
      have hline : ¬ c = '\n' := fun h => hs.2.1 (h ▸ List.mem_cons_self)
      have hquote : ¬ c = '"' := fun h => hs.2.2 (h ▸ List.mem_cons_self)
      have hrest : IsPlain s := ⟨fun h => hs.1 (List.mem_cons_of_mem c h),
        fun h => hs.2.1 (List.mem_cons_of_mem c h), fun h => hs.2.2 (List.mem_cons_of_mem c h)⟩
      have hstep : read mode field record (c :: s ++ d :: rest)
          = read .plain (field ++ [c]) record (s ++ d :: rest) := by
        rw [List.cons_append, read, if_neg (by rcases hmode with rfl | rfl <;> decide),
          if_neg hcomma, if_neg hline, if_neg hquote,
          if_neg (by rcases hmode with rfl | rfl <;> decide)]
      rw [hstep, read_plain hd record s .plain (field ++ [c]) hrest (.inr rfl), List.append_assoc]
      rfl

theorem read_quoted (record : List (List Char)) : ∀ s field : List Char,
    read .quoted field record (s.flatMap double ++ '"' :: rest)
      = read .closed (field ++ s) record rest
  | [], field => by
      rw [List.append_nil]
      rfl
  | c :: s, field => by
      rw [List.flatMap_cons, List.append_assoc, double]
      by_cases hc : c = '"'
      · subst hc
        show read .quoted (field ++ ['"']) record (s.flatMap double ++ '"' :: rest) = _
        rw [read_quoted record s, List.append_assoc]
        rfl
      · rw [if_neg hc, List.singleton_append, read, if_pos rfl, if_neg hc, read_quoted record s,
          List.append_assoc]
        rfl

theorem read_field (h : Encodes t s) (hd : d = ',' ∨ d = '\n') (record : List (List Char)) :
    read .start [] record (t ++ d :: rest) = next (record ++ [s]) d rest := by
  cases h with
  | plain hs => exact read_plain hd record s .start [] hs (.inl rfl)
  | quoted =>
      show read .quoted [] record ((s.flatMap double ++ ['"']) ++ d :: rest) = _
      rw [List.append_assoc, List.singleton_append, read_quoted]
      exact read_delimiter hd (by decide) s record

end Fields

section Lines

def line (fields : List (List Char)) : List Char := [','].intercalate fields ++ ['\n']

theorem read_line (rest : List Char) : ∀ {ts ss : List (List Char)} (record : List (List Char)),
    List.Forall₂ Encodes ts ss → ts ≠ [] →
      read .start [] record (line ts ++ rest) = (read .start [] [] rest).map ((record ++ ss) :: ·)
  | [], _, _, _, hne => absurd rfl hne
  | [t], _, record, h, _ => by
      obtain ⟨s, ss, hs, hss, rfl⟩ := List.forall₂_cons_left_iff.mp h
      obtain rfl := List.forall₂_nil_left_iff.mp hss
      rw [line, List.intercalate_singleton, List.append_assoc, List.singleton_append,
        read_field hs (.inr rfl)]
      rfl
  | t :: t' :: ts, _, record, h, _ => by
      obtain ⟨s, ss, hs, hss, rfl⟩ := List.forall₂_cons_left_iff.mp h
      have htail := read_line rest (record ++ [s]) hss (List.cons_ne_nil t' ts)
      rw [line, List.intercalate_cons_cons, List.append_assoc, List.append_assoc, List.append_assoc,
        List.singleton_append, read_field hs (.inl rfl), next, if_pos rfl, ← List.append_assoc]
      rw [line] at htail
      rw [htail, List.append_assoc]
      rfl

end Lines

/-! ## Fields written as they are -/

section Inverse

variable {s u v rest field : List Char} {d : Char} {record : List (List Char)}
variable {R : List (List (List Char))}

theorem isPlain_nil : IsPlain [] := ⟨List.not_mem_nil, List.not_mem_nil, List.not_mem_nil⟩

theorem IsPlain.cons (hcomma : ¬ d = ',') (hline : ¬ d = '\n') (hquote : ¬ d = '"')
    (hs : IsPlain s) : IsPlain (d :: s) := by
  refine ⟨fun h => ?_, fun h => ?_, fun h => ?_⟩
  · exact (List.mem_cons.mp h).elim (fun heq => hcomma heq.symm) hs.1
  · exact (List.mem_cons.mp h).elim (fun heq => hline heq.symm) hs.2.1
  · exact (List.mem_cons.mp h).elim (fun heq => hquote heq.symm) hs.2.2

/-- Behind a field the text ends, or the record does, or another field begins. -/
def Ends (record : List (List Char)) (field v : List Char) (R : List (List (List Char))) : Prop :=
  v = [] ∧ R = [record ++ [field]] ∨
    ∃ d rest, (d = ',' ∨ d = '\n') ∧ v = d :: rest ∧ next (record ++ [field]) d rest = some R

theorem ends_delimiter (hd : d = ',' ∨ d = '\n') {mode : Mode} (hmode : mode ≠ .quoted)
    (h : read mode field record (d :: rest) = some R) : Ends record field (d :: rest) R := by
  rw [read_delimiter hd hmode] at h
  exact .inr ⟨d, rest, hd, rfl, h⟩

theorem read_plain_inverse : ∀ (u field : List Char), read .plain field record u = some R →
    ∃ t v, IsPlain t ∧ u = t ++ v ∧ Ends record (field ++ t) v R
  | [], field, h => by
      refine ⟨[], [], isPlain_nil, rfl, .inl ⟨rfl, ?_⟩⟩
      rw [List.append_nil]
      exact (Option.some.inj h).symm
  | c :: u, field, h => by
      by_cases hd : c = ',' ∨ c = '\n'
      · refine ⟨[], c :: u, isPlain_nil, rfl, ?_⟩
        rw [List.append_nil]
        exact ends_delimiter hd (by decide) h
      · obtain ⟨hcomma, hline⟩ := not_or.mp hd
        rw [read, if_neg (by decide), if_neg hcomma, if_neg hline] at h
        by_cases hquote : c = '"'
        · rw [if_pos hquote, if_neg (by decide), if_neg (by decide)] at h
          cases h
        · rw [if_neg hquote, if_neg (by decide)] at h
          obtain ⟨t, v, ht, rfl, hends⟩ := read_plain_inverse u (field ++ [c]) h
          refine ⟨c :: t, v, ht.cons hcomma hline hquote, rfl, ?_⟩
          rwa [List.append_assoc] at hends

theorem read_quoted_inverse : ∀ (u field : List Char), read .quoted field record u = some R →
    ∃ s v, u = s.flatMap double ++ '"' :: v ∧ Ends record (field ++ s) v R
  | [], field, h => by cases h
  | c :: u, field, h => by
      rw [read, if_pos rfl] at h
      by_cases hquote : c = '"'
      · subst hquote
        rw [if_pos rfl] at h
        match u with
        | [] =>
            refine ⟨[], [], rfl, .inl ⟨rfl, ?_⟩⟩
            rw [List.append_nil]
            exact (Option.some.inj h).symm
        | c :: u =>
            by_cases hd : c = ',' ∨ c = '\n'
            · refine ⟨[], c :: u, rfl, ?_⟩
              rw [List.append_nil]
              exact ends_delimiter hd (by decide) h
            · obtain ⟨hcomma, hline⟩ := not_or.mp hd
              rw [read, if_neg (by decide), if_neg hcomma, if_neg hline] at h
              by_cases hquote : c = '"'
              · subst hquote
                rw [if_pos rfl, if_neg (by decide), if_pos rfl] at h
                obtain ⟨s, v, rfl, hends⟩ := read_quoted_inverse u (field ++ ['"']) h
                refine ⟨'"' :: s, v, rfl, ?_⟩
                rwa [List.append_assoc] at hends
              · rw [if_neg hquote, if_pos rfl] at h
                cases h
      · rw [if_neg hquote] at h
        obtain ⟨s, v, rfl, hends⟩ := read_quoted_inverse u (field ++ [c]) h
        refine ⟨c :: s, v, ?_, ?_⟩
        · rw [List.flatMap_cons, double, if_neg hquote]
          rfl
        · rwa [List.append_assoc] at hends

theorem read_inverse (hne : u ≠ []) (h : read .start [] record u = some R) :
    ∃ t s v, u = t ++ v ∧ Encodes t s ∧ Ends record s v R := by
  obtain ⟨c, u, rfl⟩ := List.exists_cons_of_ne_nil hne
  by_cases hd : c = ',' ∨ c = '\n'
  · exact ⟨[], [], c :: u, rfl, .plain isPlain_nil, ends_delimiter hd (by decide) h⟩
  · obtain ⟨hcomma, hline⟩ := not_or.mp hd
    rw [read, if_neg (by decide), if_neg hcomma, if_neg hline] at h
    by_cases hquote : c = '"'
    · subst hquote
      rw [if_pos rfl, if_pos rfl] at h
      obtain ⟨s, v, rfl, hends⟩ := read_quoted_inverse u [] h
      refine ⟨quote s, s, v, ?_, .quoted s, hends⟩
      rw [quote, List.cons_append, List.append_assoc]
      rfl
    · rw [if_neg hquote, if_neg (by decide)] at h
      obtain ⟨t, v, ht, rfl, hends⟩ := read_plain_inverse u [c] h
      exact ⟨c :: t, c :: t, v, rfl, .plain (ht.cons hcomma hline hquote), hends⟩

theorem read_prefix : ∀ {u : List Char} {mode : Mode} {field : List Char}
    {record : List (List Char)}, record ≠ [] → read mode field record u = some R →
      ∃ r R', R = r :: R' ∧ record <+: r
  | [], mode, field, record, hne, h => by
      rw [read, finish] at h
      split at h
      · cases h
      · rw [if_neg fun hstart => hne hstart.2] at h
        exact ⟨_, [], (Option.some.inj h).symm, List.prefix_append record [field]⟩
  | c :: u, mode, field, record, hne, h => by
      rw [read] at h
      split at h
      · split at h <;> exact read_prefix hne h
      · split at h
        · obtain ⟨r, R', hR, hr⟩ := read_prefix (List.append_ne_nil_of_left_ne_nil hne [field]) h
          exact ⟨r, R', hR, (List.prefix_append record [field]).trans hr⟩
        · split at h
          · obtain ⟨R', -, rfl⟩ := Option.map_eq_some_iff.mp h
            exact ⟨_, R', rfl, List.prefix_append record [field]⟩
          · split at h
            · split at h
              · exact read_prefix hne h
              · split at h
                · exact read_prefix hne h
                · cases h
            · split at h
              · cases h
              · exact read_prefix hne h

theorem Ends.head (h : Ends [] field v R) : ∃ fields R', R = (field :: fields) :: R' := by
  rcases h with ⟨-, rfl⟩ | ⟨d, rest, hd, -, hnext⟩
  · exact ⟨[], [], rfl⟩
  · rcases hd with rfl | rfl
    · obtain ⟨r, R', rfl, fields, rfl⟩ :=
        read_prefix (List.cons_ne_nil field []) hnext
      exact ⟨fields, R', rfl⟩
    · obtain ⟨R', -, rfl⟩ := Option.map_eq_some_iff.mp hnext
      exact ⟨[], R', rfl⟩

theorem doubled_ne (hd : d ≠ '"') : ∀ (s : List Char) (n : ℕ) (w : List Char),
    List.replicate (n + 1) '"' ++ (s.flatMap double ++ w) ≠ s ++ d :: rest
  | [], n, w, h => hd (List.cons.inj h).1.symm
  | c :: s, n, w, h => by
      obtain ⟨rfl, htail⟩ := List.cons.inj h
      apply doubled_ne hd s (n + 1) w
      refine Eq.trans ?_ htail
      show _ = List.replicate n '"' ++ (('"' :: '"' :: s.flatMap double) ++ w)
      simp [List.replicate_succ']

theorem isPlain_of_read (hd : d = ',' ∨ d = '\n') {fields : List (List Char)}
    (h : read .start [] [] (s ++ d :: rest) = some ((s :: fields) :: R)) : IsPlain s := by
  obtain ⟨t, s', v, hu, hencodes, hends⟩ :=
    read_inverse (List.append_ne_nil_of_right_ne_nil s (List.cons_ne_nil d rest)) h
  obtain ⟨fields', R', hR⟩ := hends.head
  obtain rfl : s = s' := (List.cons.inj (List.cons.inj hR).1).1
  cases hencodes with
  | plain hs => exact hs
  | quoted =>
      have hquote : d ≠ '"' := by rcases hd with rfl | rfl <;> decide
      have hdoubled : List.replicate 1 '"' ++ (s.flatMap double ++ '"' :: v) = s ++ d :: rest := by
        rw [hu, quote, List.cons_append, List.append_assoc]
        rfl
      exact absurd hdoubled (doubled_ne hquote s 0 ('"' :: v))

theorem exists_delimiter (s : List Char) (ts : List (List Char)) :
    ∃ d rest, (d = ',' ∨ d = '\n') ∧ line (s :: ts) = s ++ d :: rest := by
  cases ts with
  | nil =>
      refine ⟨'\n', [], .inr rfl, ?_⟩
      rw [line, List.intercalate_singleton]
  | cons t ts =>
      refine ⟨',', line (t :: ts), .inl rfl, ?_⟩
      rw [line, List.intercalate_cons_cons, line, List.append_assoc, List.append_assoc]
      rfl

/-- **Lines that begin with a text as it is** are read back if and only if all these
texts are plain. -/
theorem read_bare_iff {α : Type} (name : α → List Char) {ts ss : α → List (List Char)}
    (hencodes : ∀ a, List.Forall₂ Encodes (ts a) (ss a)) : ∀ rows : List α,
      read .start [] [] (rows.flatMap fun a => line (name a :: ts a))
          = some (rows.map fun a => name a :: ss a) ↔ ∀ a ∈ rows, IsPlain (name a)
  | [] => iff_of_true rfl fun a ha => absurd ha List.not_mem_nil
  | a :: rows => by
      rw [List.forall_mem_cons, ← read_bare_iff name hencodes rows, List.flatMap_cons,
        List.map_cons]
      have hline (hplain : IsPlain (name a)) :=
        read_line (rows.flatMap fun a => line (name a :: ts a)) []
          (.cons (.plain hplain) (hencodes a)) (List.cons_ne_nil (name a) (ts a))
      constructor
      · intro h
        obtain ⟨d, rest, hd, heq⟩ := exists_delimiter (name a) (ts a)
        have hplain : IsPlain (name a) := by
          rw [heq, List.append_assoc, List.cons_append] at h
          exact isPlain_of_read hd h
        rw [hline hplain] at h
        obtain ⟨R', hR', heq'⟩ := Option.map_eq_some_iff.mp h
        obtain rfl := (List.cons.inj heq').2
        exact ⟨hplain, hR'⟩
      · rintro ⟨hplain, h⟩
        rw [hline hplain, h]
        rfl

end Inverse

end Csv
