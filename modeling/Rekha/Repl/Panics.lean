import Rekha.Repl.Sql

/-!
# When the query parser panics

The offsets of keywords come from the upper-cased copy of the text, which need not
be as long as the text, and each clause is cut without a look at the order of the
clauses. The parser returns exactly when the offsets it uses lie between characters
of the text (`Aligned`) and each clause it reads opens before it closes (`Ordered`).
-/

namespace Rekha.Repl

open Checked Utf8 NumberText

variable (L : Primitives)

/-! ## What can go wrong -/

/-- The keyword is in the upper-cased copy, first at the byte offset `n`. -/
def Found (keyword : String) (t : Text) (n : ℕ) : Prop :=
  find keyword.toList (upperText L t) = some n

def isBracket (c : Char) : Bool := decide (c = '[' ∨ c = ']')

/-- The first bracket is a closing one, and an opening one follows. -/
def ClosesFirst (s : Text) : Prop := (s.filter isBracket).head? = some ']' ∧ '[' ∈ s

/-- A bracketed list of numbers, with anything but brackets around it. -/
def IsVector (s : Text) : Prop :=
  ∃ before inner after, s = before ++ '[' :: (inner ++ ']' :: after) ∧ '[' ∉ before ∧
    ']' ∉ before ∧ ']' ∉ inner ∧ ∀ e ∈ inner.splitOn ',', (parseFloat (trim e)).isSome = true

/-- A quote with nothing around it, or as an element in brackets. -/
inductive HasLoneQuote : Text → Prop where
  | quote {s : Text} (h : trim s = ['"'] ∨ trim s = ['\'']) : HasLoneQuote s
  | element {s inner e : Text} (h : trim s = '[' :: (inner ++ [']'])) (he : e ∈ inner.splitOn ',')
      (hquote : HasLoneQuote e) : HasLoneQuote s

def ComparesLoneQuote (filter : Text) : Prop :=
  L.fromStr filter = none ∧ ∃ op idx value, findOperator filter = some (op, idx) ∧
    dropBytes filter (idx + size op.toList) = some value ∧ HasLoneQuote value

/-- There is no vector, or one that can be read: the parser goes on behind it. -/
def VectorReads (t : Text) : Prop :=
  ∀ n, Found L "NEAREST TO" t n → ∀ rest, dropBytes t (n + 10) = some rest → IsVector (trim rest)

/-- There is no filter, or one that can be read. -/
def WhereReads (t : Text) : Prop :=
  ∀ w, Found L "WHERE " t w → ∀ filter, slice t (w + 6) (whereEnd L t) = some filter →
    (L.fromStr (trim filter)).isSome = true ∨ (findOperator (trim filter)).isSome = true

/-- The offsets that a `SELECT` uses lie between characters of the text. -/
def SelectAligned (t : Text) : Prop :=
  ∀ f, Found L "FROM " t f → IsBoundary t 7 ∧ IsBoundary t f ∧ IsBoundary t (f + 5) ∧
    (∀ n, Found L "NEAREST TO" t n → IsBoundary t (n + 10)) ∧
    (VectorReads L t →
      (∀ w, Found L "WHERE " t w → IsBoundary t (w + 6) ∧ IsBoundary t (whereEnd L t)) ∧
      (WhereReads L t →
        ∀ l, Found L "LIMIT " t l → IsBoundary t (l + 6) ∧ IsBoundary t (limitEnd L t)))

/-- What a `SELECT` opens it closes behind. -/
def SelectOrdered (t : Text) : Prop :=
  ∀ f, Found L "FROM " t f →
    (∀ n, Found L "NEAREST TO" t n → ∀ rest, dropBytes t (n + 10) = some rest →
      ¬ ClosesFirst rest) ∧
    (VectorReads L t →
      (∀ w, Found L "WHERE " t w → w + 6 ≤ whereEnd L t ∧
        ∀ filter, slice t (w + 6) (whereEnd L t) = some filter →
          ¬ ComparesLoneQuote L (trim filter)) ∧
      (WhereReads L t → ∀ l, Found L "LIMIT " t l → l + 6 ≤ limitEnd L t))

def Aligned (t : Text) : Prop :=
  if "CREATE COLLECTION ".toList <+: upperText L t then IsBoundary t 18
  else if "SELECT COUNT(*)".toList <+: upperText L t then
    ∀ f, Found L "FROM " t f → IsBoundary t (f + 5)
  else if "SELECT ".toList <+: upperText L t then SelectAligned L t
  else True

def Ordered (t : Text) : Prop :=
  "SELECT ".toList <+: upperText L t → ¬ "SELECT COUNT(*)".toList <+: upperText L t →
    SelectOrdered L t

variable {L} {t s : Text}

/-! ## Cuts -/

theorem cut_panics {a b : ℕ} :
    cut s a b = .panic ↔ ¬ (a ≤ b ∧ IsBoundary s a ∧ IsBoundary s b) := by
  rw [cut, expect_panics, ← slice_isSome, Option.not_isSome_iff_eq_none]

theorem cutFrom_panics {a : ℕ} : cutFrom s a = .panic ↔ ¬ IsBoundary s a := by
  rw [cutFrom, expect_panics, ← dropBytes_isSome, Option.not_isSome_iff_eq_none]

theorem cut_ok {a b : ℕ} {mid : Text} : cut s a b = .ok mid ↔ slice s a b = some mid := expect_ok

theorem cutFrom_ok {a : ℕ} {rest : Text} : cutFrom s a = .ok rest ↔ dropBytes s a = some rest :=
  expect_ok

theorem isBoundary_of_find {pat : Text} {n : ℕ} (h : find pat s = some n) :
    IsBoundary s n ∧ IsBoundary s (n + size pat) := by
  obtain ⟨before, after, rfl, rfl, -⟩ := find_eq_some.mp h
  refine ⟨⟨before, _, rfl, rfl⟩, before ++ pat, after, by simp, size_append _ _⟩

theorem isBoundary_zero (s : Text) : IsBoundary s 0 := ⟨[], s, rfl, rfl⟩

theorem isBoundary_getD {o : Option ℕ} (h : ∀ n, o = some n → IsBoundary s n) :
    IsBoundary s (o.getD (size s)) := by
  cases o with
  | none => exact isBoundary_size s
  | some n => exact h n rfl

/-! ## The clauses of a `SELECT` -/

theorem extractFromClause_cut {f : ℕ} {rest : Text} (hf : Found L "FROM " t f)
    (hrest : dropBytes t (f + 5) = some rest) : ∃ c, extractFromClause L t = .ok c := by
  have hstop : IsBoundary (trim rest)
      (((find [' '] (trim rest)).or (find ['\n'] (trim rest))).getD (size (trim rest))) := by
    apply isBoundary_getD
    intro n hn
    rcases Option.or_eq_some_iff.mp hn with hn | ⟨-, hn⟩
    · exact (isBoundary_of_find hn).1
    · exact (isBoundary_of_find hn).1
  have hslice := slice_isSome.mpr ⟨Nat.zero_le _, isBoundary_zero _, hstop⟩
  obtain ⟨mid, hmid⟩ := Option.isSome_iff_exists.mp hslice
  unfold Found at hf
  rw [extractFromClause, hf]
  dsimp only
  rw [cutFrom_ok.mpr hrest, ok_bind, cut_ok.mpr hmid, ok_bind]
  exact ⟨_, rfl⟩

theorem extractFromClause_panics :
    extractFromClause L t = .panic ↔ ∃ f, Found L "FROM " t f ∧ ¬ IsBoundary t (f + 5) := by
  constructor
  · intro h
    cases hf : find "FROM ".toList (upperText L t) with
    | none =>
        rw [extractFromClause, hf] at h
        cases h
    | some f =>
        refine ⟨f, hf, fun hboundary => ?_⟩
        obtain ⟨rest, hrest⟩ := Option.isSome_iff_exists.mp (dropBytes_isSome.mpr hboundary)
        obtain ⟨c, hc⟩ := extractFromClause_cut hf hrest
        rw [hc] at h
        cases h
  · rintro ⟨f, hf, hboundary⟩
    unfold Found at hf
    rw [extractFromClause, hf]
    dsimp only
    rw [cutFrom_panics.mpr hboundary, panic_bind]

theorem extractFromClause_ok :
    (∃ c, extractFromClause L t = .ok c) ↔ ∃ f, Found L "FROM " t f ∧ IsBoundary t (f + 5) := by
  constructor
  · rintro ⟨c, hc⟩
    cases hf : find "FROM ".toList (upperText L t) with
    | none =>
        rw [extractFromClause, hf] at hc
        cases hc
    | some f =>
        refine ⟨f, hf, not_not.mp fun hboundary => ?_⟩
        rw [extractFromClause_panics.mpr ⟨f, hf, hboundary⟩] at hc
        cases hc
  · rintro ⟨f, hf, hboundary⟩
    obtain ⟨rest, hrest⟩ := Option.isSome_iff_exists.mp (dropBytes_isSome.mpr hboundary)
    exact extractFromClause_cut hf hrest

theorem select_first (h : "SELECT ".toList <+: upperText L t) :
    Found L "SELECT " t 0 ∧ ∀ f, Found L "FROM " t f → 7 ≤ f := by
  refine ⟨find_front h, fun f hf => ?_⟩
  obtain ⟨before, after, happend, rfl, -⟩ := find_eq_some.mp hf
  obtain ⟨rest, hrest⟩ := h
  obtain ⟨mid, rfl⟩ := append_of_not_mem (by decide) (hrest.trans happend)
  rw [size_append]
  exact Nat.le_add_right 7 _

theorem extractFields_panics (h : "SELECT ".toList <+: upperText L t) {f : ℕ}
    (hf : Found L "FROM " t f) :
    extractFields L t = .panic ↔ ¬ (IsBoundary t 7 ∧ IsBoundary t f) := by
  obtain ⟨hselect, hle⟩ := select_first h
  have hle := hle f hf
  unfold Found at hf hselect
  rw [extractFields, hselect, hf]
  dsimp only
  rw [bind_panics, cut_panics, Nat.zero_add, and_iff_right hle]
  apply or_iff_left
  rintro ⟨mid, -, hpanic⟩
  split at hpanic
  · cases hpanic
  · cases hpanic

theorem extractFields_ok (h : "SELECT ".toList <+: upperText L t) {f : ℕ}
    (hf : Found L "FROM " t f) (h7 : IsBoundary t 7) (hboundary : IsBoundary t f) :
    ∃ fields, extractFields L t = .ok fields := by
  obtain ⟨hselect, hle⟩ := select_first h
  have hslice := slice_isSome.mpr ⟨hle f hf, h7, hboundary⟩
  obtain ⟨mid, hmid⟩ := Option.isSome_iff_exists.mp hslice
  unfold Found at hf hselect
  rw [extractFields, hselect, hf]
  dsimp only
  rw [Nat.zero_add, cut_ok.mpr hmid, ok_bind]
  split
  · exact ⟨_, rfl⟩
  · exact ⟨_, rfl⟩

/-! ## Vectors -/

theorem isBracket_of_whitespace (c : Char) (h : isWhitespace c = true) : isBracket c = false := by
  apply decide_eq_false
  rintro (rfl | rfl)
  · exact absurd h (by decide)
  · exact absurd h (by decide)

theorem closesFirst_trim : ClosesFirst (trim s) ↔ ClosesFirst s := by
  have hmem : ∀ u : Text, '[' ∈ u ↔ '[' ∈ u.filter isBracket := by
    intro u
    rw [List.mem_filter]
    exact (and_iff_left rfl).symm
  rw [ClosesFirst, ClosesFirst, hmem, hmem s, filter_trim isBracket_of_whitespace]

theorem filter_isBracket (hopen : '[' ∉ s) (hclose : ']' ∉ s) : s.filter isBracket = [] := by
  apply List.filter_eq_nil_iff.mpr
  intro c hc
  rw [isBracket, decide_eq_true_eq]
  rintro (rfl | rfl)
  · exact hopen hc
  · exact hclose hc

theorem brackets_cases {a b : ℕ} (ha : find ['['] s = some a) (hb : find [']'] s = some b) :
    (∃ before inner after, s = before ++ '[' :: (inner ++ ']' :: after) ∧ '[' ∉ before ∧
      ']' ∉ before ∧ ']' ∉ inner ∧ a = size before ∧ b = size before + 1 + size inner) ∨
    (ClosesFirst s ∧ b < a) := by
  obtain ⟨p, q, rfl, rfl, hp⟩ := find_singleton.mp ha
  obtain ⟨p', q', happend, rfl, hp'⟩ := find_singleton.mp hb
  rcases Nat.lt_or_ge (size p') (size p) with hlt | hle
  · refine Or.inr ⟨⟨?_, by simp⟩, hlt⟩
    obtain ⟨mid, rfl, htail⟩ := append_of_size_le happend.symm hlt.le
    cases mid with
    | nil =>
        rw [List.append_nil] at hlt
        exact absurd hlt (lt_irrefl _)
    | cons d mid =>
        obtain ⟨rfl, -⟩ := List.cons.inj htail
        rw [List.append_assoc, List.filter_append,
          filter_isBracket (fun hc => hp (List.mem_append_left _ hc)) hp']
        rfl
  · obtain ⟨mid, rfl, htail⟩ := append_of_size_le happend hle
    cases mid with
    | nil => exact absurd (List.cons.inj htail).1 (by decide)
    | cons d mid =>
        obtain ⟨rfl, rfl⟩ := List.cons.inj htail
        refine Or.inl ⟨p, mid, q', rfl, hp, ?_, ?_, rfl, ?_⟩
        · exact fun h => hp' (List.mem_append_left _ h)
        · exact fun h => hp' (List.mem_append_right _ (List.mem_cons_of_mem _ h))
        · rw [size_append, size_cons]
          exact (Nat.add_assoc _ _ _).symm

theorem not_closesFirst {before inner after : Text} (hopen : '[' ∉ before) (hclose : ']' ∉ before) :
    ¬ ClosesFirst (before ++ '[' :: (inner ++ ']' :: after)) := by
  rintro ⟨hhead, -⟩
  rw [List.filter_append, filter_isBracket hopen hclose, List.nil_append] at hhead
  exact absurd (Option.some.inj (show some '[' = some ']' from hhead)) (by decide)

theorem parseVector_eq {before inner after : Text}
    (h : trim s = before ++ '[' :: (inner ++ ']' :: after)) (hopen : '[' ∉ before)
    (hclose : ']' ∉ before) (hinner : ']' ∉ inner) :
    parseVector L s = (inner.splitOn ',').mapM fun e => parseElement L (trim e) := by
  have hstart : find ['['] (trim s) = some (size before) :=
    find_singleton.mpr ⟨before, _, h, rfl, hopen⟩
  have hstop : find [']'] (trim s) = some (size before + 1 + size inner) := by
    refine find_singleton.mpr ⟨before ++ '[' :: inner, after, by simp [h], ?_, ?_⟩
    · rw [size_append, size_cons]
      exact (Nat.add_assoc _ _ _).symm
    · rw [List.mem_append, List.mem_cons]
      rintro (hmem | hmem | hmem)
      · exact hclose hmem
      · cases hmem
      · exact hinner hmem
  have hslice : slice (trim s) (size before + 1) (size before + 1 + size inner) = some inner := by
    refine slice_eq_some.mpr ⟨before ++ ['['], ']' :: after, by simp [h], ?_, rfl⟩
    rw [size_append]
    rfl
  rw [parseVector, hstart]
  dsimp only
  rw [hstop]
  dsimp only
  rw [cut_ok.mpr hslice, ok_bind]

theorem parseElement_not_panics : parseElement L s ≠ .panic := by
  unfold parseElement
  split
  · simp
  · split <;> simp

theorem parseElement_ok : (∃ x, parseElement L s = .ok x) ↔ (parseFloat s).isSome = true := by
  unfold parseElement
  cases parseFloat s with
  | some f => simp
  | none =>
      dsimp only
      split <;> simp

theorem parseVector_panics : parseVector L s = .panic ↔ ClosesFirst (trim s) := by
  cases ha : find ['['] (trim s) with
  | none =>
      rw [parseVector, ha]
      refine ⟨(fun h => by cases h), ?_⟩
      rintro ⟨-, hmem⟩
      exact absurd hmem (find_singleton_none.mp ha)
  | some a =>
      cases hb : find [']'] (trim s) with
      | none =>
          rw [parseVector, ha]
          dsimp only
          rw [hb]
          refine ⟨(fun h => by cases h), ?_⟩
          rintro ⟨hhead, -⟩
          have hmem := List.mem_of_mem_head? hhead
          exact absurd (List.mem_filter.mp hmem).1 (find_singleton_none.mp hb)
      | some b =>
          rcases brackets_cases ha hb with ⟨before, inner, after, h, hopen, hclose, hinner, -⟩ |
            ⟨hcloses, hlt⟩
          · rw [parseVector_eq h hopen hclose hinner, h]
            refine iff_of_false (mapM_not_panics fun e => parseElement_not_panics) ?_
            exact not_closesFirst hopen hclose
          · refine iff_of_true ?_ hcloses
            have hpanic : cut (trim s) (a + 1) b = .panic := by
              apply cut_panics.mpr
              rintro ⟨hle, -⟩
              omega
            rw [parseVector, ha]
            dsimp only
            rw [hb]
            dsimp only
            rw [hpanic, panic_bind]

theorem parseVector_brackets {v : List F32} (h : parseVector L s = .ok v) :
    ∃ before inner after, trim s = before ++ '[' :: (inner ++ ']' :: after) ∧ '[' ∉ before ∧
      ']' ∉ before ∧ ']' ∉ inner := by
  cases ha : find ['['] (trim s) with
  | none =>
      rw [parseVector, ha] at h
      cases h
  | some a =>
      cases hb : find [']'] (trim s) with
      | none =>
          rw [parseVector, ha] at h
          dsimp only at h
          rw [hb] at h
          cases h
      | some b =>
          rcases brackets_cases ha hb with ⟨before, inner, after, heq, hopen, hclose, hinner, -⟩ |
            ⟨hcloses, -⟩
          · exact ⟨before, inner, after, heq, hopen, hclose, hinner⟩
          · rw [parseVector_panics.mpr hcloses] at h
            cases h

theorem parseVector_ok : (∃ v, parseVector L s = .ok v) ↔ IsVector (trim s) := by
  constructor
  · rintro ⟨v, hv⟩
    obtain ⟨before, inner, after, h, hopen, hclose, hinner⟩ := parseVector_brackets hv
    rw [parseVector_eq h hopen hclose hinner] at hv
    have hall := mapM_succeeds.mp ⟨v, hv⟩
    exact ⟨before, inner, after, h, hopen, hclose, hinner,
      fun e he => parseElement_ok.mp (hall e he)⟩
  · rintro ⟨before, inner, after, h, hopen, hclose, hinner, hall⟩
    rw [parseVector_eq h hopen hclose hinner]
    exact mapM_succeeds.mpr fun e he => parseElement_ok.mpr (hall e he)

/-! ## The other clauses -/

theorem forall_found {keyword : String} {n : ℕ} {P : ℕ → Prop} (h : Found L keyword t n) :
    (∀ m, Found L keyword t m → P m) ↔ P n := by
  constructor
  · intro hall
    exact hall n h
  · intro hP m hm
    rwa [← Option.some.inj (h.symm.trans hm)]

theorem forall_absent {keyword : String} {P : ℕ → Prop}
    (h : find keyword.toList (upperText L t) = none) : ∀ m, Found L keyword t m → P m := by
  intro m hm
  cases h.symm.trans hm

theorem nearestClause_panics : nearestClause L t = .panic ↔ ¬ ∀ n, Found L "NEAREST TO" t n →
    IsBoundary t (n + 10) ∧ ∀ rest, dropBytes t (n + 10) = some rest → ¬ ClosesFirst rest := by
  cases hn : find "NEAREST TO".toList (upperText L t) with
  | none =>
      rw [nearestClause, hn]
      exact iff_of_false (by simp) (not_not.mpr (forall_absent hn))
  | some n =>
      rw [forall_found hn, nearestClause, hn]
      dsimp only
      rw [bind_panics, cutFrom_panics, not_and_or]
      apply or_congr_right
      simp only [cutFrom_ok, bind_panics, parseVector_panics, trim_trim, closesFirst_trim]
      simp

theorem nearestClause_ok (h : nearestClause L t ≠ .panic) :
    (∃ v, nearestClause L t = .ok v) ↔ VectorReads L t := by
  cases hn : find "NEAREST TO".toList (upperText L t) with
  | none =>
      rw [nearestClause, hn]
      exact iff_of_true ⟨_, rfl⟩ (forall_absent hn)
  | some n =>
      have hclear := (forall_found hn).mp (not_not.mp (mt nearestClause_panics.mpr h))
      obtain ⟨rest, hrest⟩ := Option.isSome_iff_exists.mp (dropBytes_isSome.mpr hclear.1)
      rw [VectorReads, forall_found hn, hrest, nearestClause, hn]
      dsimp only
      rw [cutFrom_ok.mpr hrest, ok_bind]
      simp only [Option.some.injEq, forall_eq', bind_ok, pure_eq, ok.injEq]
      have hread := parseVector_ok (L := L) (s := trim rest)
      rw [trim_trim] at hread
      rw [← hread]
      constructor
      · rintro ⟨_, v, hv, -⟩
        exact ⟨v, hv⟩
      · rintro ⟨v, hv⟩
        exact ⟨_, v, hv, rfl⟩

theorem limitClause_panics : limitClause L t = .panic ↔ ¬ ∀ l, Found L "LIMIT " t l →
    l + 6 ≤ limitEnd L t ∧ IsBoundary t (l + 6) ∧ IsBoundary t (limitEnd L t) := by
  cases hl : find "LIMIT ".toList (upperText L t) with
  | none =>
      rw [limitClause, hl]
      exact iff_of_false (by simp) (not_not.mpr (forall_absent hl))
  | some l =>
      rw [forall_found hl, limitClause, hl]
      dsimp only
      rw [bind_panics, cut_panics]
      apply or_iff_left
      rintro ⟨mid, -, hpanic⟩
      cases hpanic

/-! ## Conditions -/

theorem parseCondition_eq {op : String} {idx : ℕ} (h : findOperator s = some (op, idx)) :
    ∃ field value, s = field ++ (op.toList ++ value) ∧ size field = idx ∧
      parseCondition s = .ok (trim field, op, trim value) := by
  obtain ⟨op', -, hop⟩ := List.exists_of_findSome?_eq_some h
  obtain ⟨idx', hidx, heq⟩ := Option.map_eq_some_iff.mp hop
  obtain ⟨rfl, rfl⟩ := Prod.mk.inj heq
  obtain ⟨field, value, hs, hsize, -⟩ := find_eq_some.mp hidx
  refine ⟨field, value, hs, hsize, ?_⟩
  have hfield : cut s 0 idx' = .ok field :=
    cut_ok.mpr (slice_eq_some.mpr ⟨[], op'.toList ++ value, hs, rfl, by rw [hsize, Nat.zero_add]⟩)
  have hvalue : cutFrom s (idx' + size op'.toList) = .ok value := by
    refine cutFrom_ok.mpr (dropBytes_eq_some.mpr ⟨field ++ op'.toList, ?_, ?_⟩)
    · rw [List.append_assoc]
      exact hs
    · rw [size_append, hsize]
  rw [parseCondition, h]
  dsimp only
  rw [hfield, ok_bind, hvalue, ok_bind]
  rfl

theorem chromaOperator_isSome {op : String} {idx : ℕ} (h : findOperator s = some (op, idx)) :
    ∃ name, chromaOperator op = some name := by
  obtain ⟨op', hmem, hop⟩ := List.exists_of_findSome?_eq_some h
  obtain ⟨idx', -, heq⟩ := Option.map_eq_some_iff.mp hop
  obtain ⟨rfl, rfl⟩ := Prod.mk.inj heq
  exact Option.isSome_iff_exists.mp
    ((by decide : ∀ op ∈ operators, (chromaOperator op).isSome = true) _ hmem)

theorem bracketed_not_number (inner : Text) :
    parseI64 ('[' :: inner) = none ∧ parseFloat ('[' :: inner) = none := by
  obtain ⟨hint, hfloat⟩ := bracket_not_number inner
  refine ⟨?_, hfloat⟩
  rw [parseI64, hint]
  rfl

/-! ## Values -/

theorem hasLoneQuote_iff : HasLoneQuote s ↔ (trim s = ['"'] ∨ trim s = ['\'']) ∨
    ∃ inner, trim s = '[' :: (inner ++ [']']) ∧ ∃ e ∈ inner.splitOn ',', HasLoneQuote e := by
  constructor
  · intro h
    cases h with
    | quote h => exact Or.inl h
    | element h he hquote => exact Or.inr ⟨_, h, _, he, hquote⟩
  · rintro (h | ⟨inner, h, e, he, hquote⟩)
    · exact .quote h
    · exact .element h he hquote

theorem hasLoneQuote_trim : HasLoneQuote (trim s) ↔ HasLoneQuote s := by
  rw [hasLoneQuote_iff, hasLoneQuote_iff, trim_trim]

theorem ends_iff {a b : Char} : s.head? = some a ∧ s.getLast? = some b ↔
    (a = b ∧ s = [a]) ∨ ∃ mid, s = a :: (mid ++ [b]) := by
  constructor
  · rintro ⟨hhead, hlast⟩
    obtain ⟨front, rfl⟩ := List.getLast?_eq_some_iff.mp hlast
    cases front with
    | nil =>
        obtain rfl := Option.some.inj hhead
        exact Or.inl ⟨rfl, rfl⟩
    | cons c front =>
        obtain rfl := Option.some.inj hhead
        exact Or.inr ⟨front, rfl⟩
  · rintro (⟨rfl, rfl⟩ | ⟨mid, rfl⟩)
    · exact ⟨rfl, rfl⟩
    · exact ⟨rfl, List.getLast?_eq_some_iff.mpr ⟨a :: mid, rfl⟩⟩

theorem cut_ends {a b : Char} {mid : Text} (ha : a.utf8Size = 1) (hb : b.utf8Size = 1) :
    cut (a :: (mid ++ [b])) 1 (size (a :: (mid ++ [b])) - 1) = .ok mid := by
  refine cut_ok.mpr (slice_eq_some.mpr ⟨[a], [b], rfl, by rw [size_cons, ha]; rfl, ?_⟩)
  rw [size_cons, size_append, size_cons, ha, hb, size_nil]
  omega

theorem isQuoted_iff {quote : Char} :
    isQuoted quote s = true ↔ s = [quote] ∨ ∃ mid, s = quote :: (mid ++ [quote]) := by
  rw [isQuoted, decide_eq_true_eq, ends_iff]
  simp

theorem isBracketed_iff : isBracketed s = true ↔ ∃ inner, s = '[' :: (inner ++ [']']) := by
  rw [isBracketed, decide_eq_true_eq, ends_iff]
  simp

theorem parseValueWithin_cases (fuel : ℕ) (s : Text) :
    (∃ quote, (quote = '"' ∨ quote = '\'') ∧
      ((trim s = [quote] ∧ parseValueWithin L (fuel + 1) s = .panic) ∨
        ∃ mid, trim s = quote :: (mid ++ [quote]) ∧
          parseValueWithin L (fuel + 1) s = .ok (.string (String.ofList mid)))) ∨
    (∃ inner, trim s = '[' :: (inner ++ [']']) ∧ parseValueWithin L (fuel + 1) s =
      (inner.splitOn ',').mapM (fun e => parseValueWithin L fuel (trim e)) >>=
        fun items => .ok (.array items)) ∨
    (isQuoted '"' (trim s) = false ∧ isQuoted '\'' (trim s) = false ∧
      isBracketed (trim s) = false ∧ ∃ v, parseValueWithin L (fuel + 1) s = .ok v) := by
  rw [parseValueWithin]
  by_cases hquoted : (isQuoted '"' (trim s) || isQuoted '\'' (trim s)) = true
  · rw [if_pos hquoted]
    obtain ⟨quote, hquote, hq⟩ : ∃ quote, (quote = '"' ∨ quote = '\'') ∧
        isQuoted quote (trim s) = true := by
      rcases Bool.or_eq_true_iff.mp hquoted with h | h
      · exact ⟨'"', Or.inl rfl, h⟩
      · exact ⟨'\'', Or.inr rfl, h⟩
    have hone : quote.utf8Size = 1 := by
      rcases hquote with rfl | rfl
      · rfl
      · rfl
    refine Or.inl ⟨quote, hquote, ?_⟩
    rcases isQuoted_iff.mp hq with h | ⟨mid, h⟩
    · refine Or.inl ⟨h, ?_⟩
      have hpanic : cut (trim s) 1 (size (trim s) - 1) = .panic := by
        rw [h, size_cons, hone]
        exact cut_panics.mpr fun hcut => absurd hcut.1 (by decide)
      rw [hpanic, panic_bind]
    · refine Or.inr ⟨mid, h, ?_⟩
      rw [h, cut_ends hone hone, ok_bind]
      rfl
  · rw [if_neg hquoted]
    rw [Bool.or_eq_true, not_or, Bool.not_eq_true, Bool.not_eq_true] at hquoted
    by_cases hbracketed : isBracketed (trim s) = true
    · obtain ⟨inner, h⟩ := isBracketed_iff.mp hbracketed
      obtain ⟨hint, hfloat⟩ := bracketed_not_number (inner ++ [']'])
      have hword : ¬ (trim s = "true".toList ∨ trim s = "false".toList) := by
        rw [h]
        rintro (hword | hword)
        · exact absurd (List.cons.inj hword).1 (by decide)
        · exact absurd (List.cons.inj hword).1 (by decide)
      refine Or.inr (Or.inl ⟨inner, h, ?_⟩)
      rw [if_neg hword, if_pos hbracketed, h, hint]
      dsimp only
      rw [hfloat]
      dsimp only
      rw [cut_ends rfl rfl, ok_bind]
      rfl
    · refine Or.inr (Or.inr ⟨hquoted.1, hquoted.2, Bool.eq_false_iff.mpr hbracketed, ?_⟩)
      split
      · exact ⟨_, rfl⟩
      · split
        · exact ⟨_, rfl⟩
        · split
          · exact ⟨_, rfl⟩
          · exact ⟨_, rfl⟩

theorem parseValueWithin_not_error : ∀ (fuel : ℕ) (s : Text) (e : String),
    parseValueWithin L fuel s ≠ .error e
  | 0, _, _ => by simp [parseValueWithin]
  | fuel + 1, s, e => by
      rcases parseValueWithin_cases (L := L) fuel s with
        ⟨_, -, ⟨-, h⟩ | ⟨_, -, h⟩⟩ | ⟨inner, -, h⟩ | ⟨-, -, -, v, h⟩
      · simp [h]
      · simp [h]
      · rw [h]
        cases hitems : (inner.splitOn ',').mapM fun e => parseValueWithin L fuel (trim e) with
        | ok items => simp
        | error e' =>
            exact absurd hitems (mapM_not_error fun x e => parseValueWithin_not_error fuel _ e)
        | panic => simp
      · simp [h]

theorem infix_intercalate {sep e : Text} : ∀ {parts : List Text}, e ∈ parts →
    e <:+: sep.intercalate parts
  | [part], h => by
      obtain rfl := List.mem_singleton.mp h
      rw [List.intercalate_singleton]
  | part :: next :: parts, h => by
      rw [List.intercalate_cons_cons]
      rcases List.mem_cons.mp h with rfl | h
      · exact ⟨[], sep ++ sep.intercalate (next :: parts), by simp⟩
      · exact (infix_intercalate h).trans (List.suffix_append _ _).isInfix

theorem length_le_of_mem_splitOn {c : Char} {e : Text} (h : e ∈ s.splitOn c) :
    e.length ≤ s.length := by
  have hpart := @infix_intercalate [c] _ _ h
  rw [List.intercalate_splitOn] at hpart
  exact hpart.length_le

/-- **A value panics exactly where a quote stands alone.** -/
theorem parseValueWithin_panics : ∀ (fuel : ℕ) (s : Text), s.length < fuel →
    (parseValueWithin L fuel s = .panic ↔ HasLoneQuote s)
  | 0, s, h => absurd h (Nat.not_lt_zero _)
  | fuel + 1, s, hlen => by
      rw [hasLoneQuote_iff]
      rcases parseValueWithin_cases (L := L) fuel s with ⟨quote, hquote, ⟨h, heq⟩ | ⟨mid, h, heq⟩⟩ |
        ⟨inner, h, heq⟩ | ⟨hdouble, hsingle, hbracketed, v, heq⟩
      · rw [heq, h]
        refine iff_of_true rfl (Or.inl ?_)
        rcases hquote with rfl | rfl
        · exact Or.inl rfl
        · exact Or.inr rfl
      · rw [heq, h]
        refine iff_of_false (by simp) ?_
        rintro (h' | ⟨inner, h', -⟩)
        · simp at h'
        · obtain rfl := (List.cons.inj h').1
          rcases hquote with hquote | hquote
          · cases hquote
          · cases hquote
      · have hitem : ∀ e ∈ inner.splitOn ',',
            (parseValueWithin L fuel (trim e) = .panic ↔ HasLoneQuote e) := by
          intro e he
          rw [← hasLoneQuote_trim]
          refine parseValueWithin_panics fuel (trim e) ?_
          have hle := length_le_of_mem_splitOn he
          have htrim := length_trim_le s
          have htrim' := length_trim_le e
          rw [h, List.length_cons, List.length_append] at htrim
          omega
        rw [heq, h, bind_panics, mapM_panics fun x e => parseValueWithin_not_error fuel _ e]
        have hsame : (∃ e ∈ inner.splitOn ',', parseValueWithin L fuel (trim e) = .panic) ↔
            ∃ e ∈ inner.splitOn ',', HasLoneQuote e :=
          exists_congr fun e => and_congr_right fun he => hitem e he
        rw [hsame]
        constructor
        · rintro (hquote | ⟨_, -, hpanic⟩)
          · exact Or.inr ⟨inner, rfl, hquote⟩
          · cases hpanic
        · rintro (h' | ⟨inner', h', hquote⟩)
          · simp at h'
          · obtain rfl := List.append_cancel_right (List.cons.inj h').2
            exact Or.inl hquote
      · rw [heq]
        refine iff_of_false (by simp) ?_
        rintro ((h | h) | ⟨inner, h, -⟩)
        · exact absurd (isQuoted_iff.mpr (Or.inl h)) (by simp [hdouble])
        · exact absurd (isQuoted_iff.mpr (Or.inl h)) (by simp [hsingle])
        · exact absurd (isBracketed_iff.mpr ⟨inner, h⟩) (by simp [hbracketed])

/-! ## Filters -/

theorem parseWhere_condition {op : String} {idx : ℕ} (hjson : L.fromStr (trim s) = none)
    (hop : findOperator (trim s) = some (op, idx)) : ∃ field name value,
      trim s = field ++ (op.toList ++ value) ∧ size field = idx ∧ chromaOperator op = some name ∧
      parseWhere L s = parseValue L (trim value) >>= fun v =>
        .ok (.object [(String.ofList (trim field), .object [(name, v)])]) := by
  obtain ⟨field, value, hs, hsize, hcondition⟩ := parseCondition_eq hop
  obtain ⟨name, hname⟩ := chromaOperator_isSome hop
  refine ⟨field, name, value, hs, hsize, hname, ?_⟩
  rw [parseWhere, hjson]
  dsimp only
  rw [hcondition, ok_bind]
  dsimp only
  rw [hname]
  rfl

theorem parseWhere_panics : parseWhere L s = .panic ↔ ComparesLoneQuote L (trim s) := by
  rw [ComparesLoneQuote]
  cases hjson : L.fromStr (trim s) with
  | some v =>
      rw [parseWhere, hjson]
      exact iff_of_false (by simp) (fun h => by cases h.1)
  | none =>
      cases hop : findOperator (trim s) with
      | none =>
          rw [parseWhere, hjson]
          dsimp only
          rw [parseCondition, hop]
          refine iff_of_false (by simp) ?_
          rintro ⟨-, op, idx, value, h, -⟩
          cases h
      | some found =>
          obtain ⟨op, idx⟩ := found
          obtain ⟨field, name, value, hs, hsize, -, heq⟩ := parseWhere_condition hjson hop
          have hvalue : dropBytes (trim s) (idx + size op.toList) = some value := by
            refine dropBytes_eq_some.mpr ⟨field ++ op.toList, ?_, ?_⟩
            · rw [List.append_assoc]
              exact hs
            · rw [size_append, hsize]
          have hpanic : parseValue L (trim value) = .panic ↔ HasLoneQuote value := by
            rw [parseValue, parseValueWithin_panics _ _ (Nat.lt_succ_self _), hasLoneQuote_trim]
          rw [heq, bind_panics, hpanic]
          constructor
          · rintro (hquote | ⟨_, -, h⟩)
            · exact ⟨rfl, op, idx, value, rfl, hvalue, hquote⟩
            · cases h
          · rintro ⟨-, op', idx', value', h, hvalue', hquote⟩
            obtain ⟨rfl, rfl⟩ := Prod.mk.inj (Option.some.inj h)
            rw [hvalue] at hvalue'
            exact Or.inl (Option.some.inj hvalue' ▸ hquote)

theorem parseWhere_ok (h : parseWhere L s ≠ .panic) : (∃ v, parseWhere L s = .ok v) ↔
    (L.fromStr (trim s)).isSome = true ∨ (findOperator (trim s)).isSome = true := by
  cases hjson : L.fromStr (trim s) with
  | some v =>
      rw [parseWhere, hjson]
      exact iff_of_true ⟨_, rfl⟩ (Or.inl rfl)
  | none =>
      cases hop : findOperator (trim s) with
      | none =>
          rw [parseWhere, hjson]
          dsimp only
          rw [parseCondition, hop]
          exact iff_of_false (by simp) (by simp)
      | some found =>
          refine iff_of_true ?_ (Or.inr rfl)
          obtain ⟨op, idx⟩ := found
          obtain ⟨field, name, value, -, -, -, heq⟩ := parseWhere_condition hjson hop
          rw [heq] at h ⊢
          cases hv : parseValue L (trim value) with
          | ok v => exact ⟨_, rfl⟩
          | error e => exact absurd hv (parseValueWithin_not_error _ _ e)
          | panic =>
              rw [hv] at h
              exact absurd rfl h

theorem whereClause_panics : whereClause L t = .panic ↔ ¬ ∀ w, Found L "WHERE " t w →
    (w + 6 ≤ whereEnd L t ∧ IsBoundary t (w + 6) ∧ IsBoundary t (whereEnd L t)) ∧
      ∀ filter, slice t (w + 6) (whereEnd L t) = some filter →
        ¬ ComparesLoneQuote L (trim filter) := by
  cases hw : find "WHERE ".toList (upperText L t) with
  | none =>
      rw [whereClause, hw]
      exact iff_of_false (by simp) (not_not.mpr (forall_absent hw))
  | some w =>
      rw [forall_found hw, whereClause, hw]
      dsimp only
      rw [bind_panics, cut_panics]
      refine Iff.trans (or_congr_right ?_) not_and_or.symm
      simp only [cut_ok, bind_panics, parseWhere_panics, trim_trim]
      simp

theorem whereClause_ok (h : whereClause L t ≠ .panic) :
    (∃ v, whereClause L t = .ok v) ↔ WhereReads L t := by
  cases hw : find "WHERE ".toList (upperText L t) with
  | none =>
      rw [whereClause, hw]
      exact iff_of_true ⟨_, rfl⟩ (forall_absent hw)
  | some w =>
      have hclear := (forall_found hw).mp (not_not.mp (mt whereClause_panics.mpr h))
      obtain ⟨filter, hfilter⟩ := Option.isSome_iff_exists.mp (slice_isSome.mpr hclear.1)
      have hpanic : parseWhere L (trim filter) ≠ .panic := by
        rw [Ne, parseWhere_panics, trim_trim]
        exact hclear.2 filter hfilter
      have hread := parseWhere_ok hpanic
      rw [trim_trim] at hread
      rw [WhereReads, forall_found hw, hfilter, whereClause, hw]
      dsimp only
      rw [cut_ok.mpr hfilter, ok_bind]
      simp only [Option.some.injEq, forall_eq', bind_ok, pure_eq, ok.injEq]
      rw [← hread]
      constructor
      · rintro ⟨_, v, hv, -⟩
        exact ⟨v, hv⟩
      · rintro ⟨v, hv⟩
        exact ⟨_, v, hv, rfl⟩

/-! ## Queries -/

theorem extractFromClause_returns {f : ℕ} (hf : Found L "FROM " t f) :
    (extractFromClause L t ≠ .panic ↔ IsBoundary t (f + 5)) ∧
      ((∃ c, extractFromClause L t = .ok c) ↔ IsBoundary t (f + 5)) := by
  constructor
  · rw [Ne, extractFromClause_panics, ← not_forall_not, not_not]
    simp only [not_and, not_not]
    exact forall_found hf
  · rw [extractFromClause_ok]
    constructor
    · rintro ⟨m, hm, hboundary⟩
      rwa [Option.some.inj (hf.symm.trans hm)]
    · intro hboundary
      exact ⟨f, hf, hboundary⟩

theorem clauses_return : (nearestClause L t ≠ .panic ∧
    ((∃ v, nearestClause L t = .ok v) → whereClause L t ≠ .panic ∧
      ((∃ j, whereClause L t = .ok j) → limitClause L t ≠ .panic))) ↔
    (∀ n, Found L "NEAREST TO" t n →
      IsBoundary t (n + 10) ∧ ∀ rest, dropBytes t (n + 10) = some rest → ¬ ClosesFirst rest) ∧
    (VectorReads L t → (∀ w, Found L "WHERE " t w →
      (w + 6 ≤ whereEnd L t ∧ IsBoundary t (w + 6) ∧ IsBoundary t (whereEnd L t)) ∧
        ∀ filter, slice t (w + 6) (whereEnd L t) = some filter →
          ¬ ComparesLoneQuote L (trim filter)) ∧
      (WhereReads L t → ∀ l, Found L "LIMIT " t l →
        l + 6 ≤ limitEnd L t ∧ IsBoundary t (l + 6) ∧ IsBoundary t (limitEnd L t))) := by
  rw [← not_not (a := ∀ n, Found L "NEAREST TO" t n → _), ← nearestClause_panics,
    ← not_not (a := ∀ w, Found L "WHERE " t w → _), ← whereClause_panics,
    ← not_not (a := ∀ l, Found L "LIMIT " t l → _), ← limitClause_panics]
  exact and_congr_right fun hnearest => imp_congr (nearestClause_ok hnearest)
    (and_congr_right fun hwhere => imp_congr_left (whereClause_ok hwhere))

/-- **A `SELECT` returns exactly when its offsets are aligned and its clauses in order.** -/
theorem parseSelect_panics (h : "SELECT ".toList <+: upperText L t) :
    parseSelect L t ≠ .panic ↔ SelectAligned L t ∧ SelectOrdered L t := by
  cases hf : find "FROM ".toList (upperText L t) with
  | none =>
      have herror : parseSelect L t = .error "Missing FROM clause" := by
        rw [parseSelect, extractFromClause, hf]
        rfl
      rw [herror]
      exact iff_of_true (by simp) ⟨forall_absent hf, forall_absent hf⟩
  | some f =>
      have hchain : parseSelect L t ≠ .panic ↔ extractFromClause L t ≠ .panic ∧
          ((∃ c, extractFromClause L t = .ok c) → extractFields L t ≠ .panic ∧
          ((∃ fs, extractFields L t = .ok fs) → nearestClause L t ≠ .panic ∧
          ((∃ v, nearestClause L t = .ok v) → whereClause L t ≠ .panic ∧
          ((∃ j, whereClause L t = .ok j) → limitClause L t ≠ .panic)))) := by
        rw [parseSelect]
        refine bind_returns fun _ => bind_returns fun _ => bind_returns fun _ =>
          bind_returns fun _ => ?_
        rw [Ne, bind_panics]
        simp
      have hfields : extractFields L t ≠ .panic ↔ IsBoundary t 7 ∧ IsBoundary t f := by
        rw [Ne, extractFields_panics h hf, not_not]
      rw [SelectAligned, SelectOrdered, forall_found hf, forall_found hf, hchain,
        (extractFromClause_returns hf).1, (extractFromClause_returns hf).2, hfields, clauses_return]
      constructor
      · rintro ⟨hf5, hrest⟩
        obtain ⟨⟨h7, hfb⟩, hrest⟩ := hrest hf5
        obtain ⟨hnearest, hrest⟩ := hrest (extractFields_ok h hf h7 hfb)
        refine ⟨⟨h7, hfb, hf5, fun n hn => (hnearest n hn).1, fun hv => ?_⟩,
          fun n hn => (hnearest n hn).2, fun hv => ?_⟩
        · exact ⟨fun w hw => ((hrest hv).1 w hw).1.2, fun hj l hl => ((hrest hv).2 hj l hl).2⟩
        · exact ⟨fun w hw => ⟨((hrest hv).1 w hw).1.1, ((hrest hv).1 w hw).2⟩,
            fun hj l hl => ((hrest hv).2 hj l hl).1⟩
      · rintro ⟨⟨h7, hfb, hf5, hnalign, halign⟩, hnorder, horder⟩
        refine ⟨hf5, fun _ => ⟨⟨h7, hfb⟩, fun _ => ⟨fun n hn => ⟨hnalign n hn, hnorder n hn⟩,
          fun hv => ⟨fun w hw => ?_, fun hj l hl => ?_⟩⟩⟩⟩
        · exact ⟨⟨((horder hv).1 w hw).1, (halign hv).1 w hw⟩, ((horder hv).1 w hw).2⟩
        · exact ⟨(horder hv).2 hj l hl, (halign hv).2 hj l hl⟩

/-- **The parser returns exactly when the offsets it uses are aligned and the clauses
it reads are in order.** -/
theorem parse_returns_iff (input : Text) : parseQuery L input ≠ .panic ↔
    Aligned L (trim (trimEndMatches ';' (trim input))) ∧
      Ordered L (trim (trimEndMatches ';' (trim input))) := by
  rw [parseQuery, Aligned, Ordered]
  generalize trim (trimEndMatches ';' (trim input)) = t
  by_cases hcreate : "CREATE COLLECTION ".toList <+: upperText L t
  · have hnot : ¬ "SELECT ".toList <+: upperText L t := by
      intro hselect
      obtain ⟨rest, hrest⟩ := hcreate
      obtain ⟨rest', hrest'⟩ := hselect
      exact absurd (List.cons.inj (hrest.trans hrest'.symm)).1 (by decide)
    rw [if_pos hcreate, if_pos hcreate, Ne, bind_panics, cutFrom_panics]
    constructor
    · intro h
      exact ⟨not_not.mp (not_or.mp h).1, fun hselect => absurd hselect hnot⟩
    · rintro ⟨hboundary, -⟩ (hpanic | ⟨name, -, hpanic⟩)
      · exact hpanic hboundary
      · dsimp only at hpanic
        split at hpanic
        · cases hpanic
        · cases hpanic
  · rw [if_neg hcreate, if_neg hcreate]
    by_cases hcount : "SELECT COUNT(*)".toList <+: upperText L t
    · rw [if_pos hcount, if_pos hcount, Ne, bind_panics, extractFromClause_panics]
      constructor
      · intro h
        refine ⟨fun f hf => ?_, fun _ hnot => absurd hcount hnot⟩
        exact not_not.mp fun hboundary => (not_or.mp h).1 ⟨f, hf, hboundary⟩
      · rintro ⟨halign, -⟩ (⟨f, hf, hboundary⟩ | ⟨c, -, hpanic⟩)
        · exact hboundary (halign f hf)
        · cases hpanic
    · rw [if_neg hcount, if_neg hcount]
      by_cases hselect : "SELECT ".toList <+: upperText L t
      · rw [if_pos hselect, if_pos hselect, parseSelect_panics hselect]
        simp only [hselect, hcount, not_false_eq_true, forall_const]
      · rw [if_neg hselect, if_neg hselect]
        exact iff_of_true (by simp) ⟨trivial, fun h => absurd h hselect⟩

/-- **A filter behind the limit panics**: it is cut up to the ` LIMIT` in front of it. -/
theorem where_behind_limit_panics :
    parseQuery demoPrimitives "SELECT * FROM c LIMIT 1 WHERE a = 1".toList = .panic := rfl

/-! ## Texts whose upper case keeps the offsets -/

/-- Upper-casing replaces each character by one that takes as many bytes. -/
def SameLength (L : Primitives) (t : Text) : Prop :=
  ∀ c ∈ t, ∃ d, L.upper c = [d] ∧ d.utf8Size = c.utf8Size

theorem sameLength_ascii (h : ∀ c ∈ t, c.toNat < 128) : SameLength L t := by
  intro c hc
  refine ⟨c.toUpper, L.upper_ascii c (h c hc), ?_⟩
  rw [utf8Size_ascii (toUpper_ascii (h c hc)), utf8Size_ascii (h c hc)]

theorem SameLength.append {s r : Text} (h : SameLength L (s ++ r)) :
    SameLength L s ∧ SameLength L r :=
  ⟨fun c hc => h c (List.mem_append_left r hc), fun c hc => h c (List.mem_append_right s hc)⟩

theorem SameLength.size_upperText (h : SameLength L t) : size (upperText L t) = size t := by
  induction t with
  | nil => rfl
  | cons c t ih =>
      obtain ⟨d, hd, hsize⟩ := h c List.mem_cons_self
      rw [upperText, List.flatMap_cons, hd, List.singleton_append, size_cons, size_cons, hsize,
        ← upperText, ih fun x hx => h x (List.mem_cons_of_mem c hx)]

theorem upperText_append (s r : Text) : upperText L (s ++ r) = upperText L s ++ upperText L r :=
  List.flatMap_append

theorem SameLength.split : ∀ {t u v : Text}, SameLength L t → upperText L t = u ++ v →
    ∃ before after, t = before ++ after ∧ upperText L before = u ∧ upperText L after = v
  | t, [], v, _, huv => ⟨[], t, rfl, rfl, huv⟩
  | [], d :: u, v, _, huv => by cases huv
  | c :: t, d :: u, v, h, huv => by
      obtain ⟨x, hx, -⟩ := h c List.mem_cons_self
      rw [upperText, List.flatMap_cons, hx, ← upperText] at huv
      obtain ⟨rfl, htail⟩ := List.cons.inj huv
      obtain ⟨before, after, rfl, rfl, rfl⟩ :=
        SameLength.split (fun y hy => h y (List.mem_cons_of_mem c hy)) htail
      refine ⟨c :: before, after, rfl, ?_, rfl⟩
      rw [upperText, List.flatMap_cons, hx]
      rfl

theorem Found.place {keyword : String} {n : ℕ} (h : SameLength L t) (hfound : Found L keyword t n) :
    ∃ before mid after, t = before ++ (mid ++ after) ∧ upperText L mid = keyword.toList ∧
      size before = n := by
  obtain ⟨u, v, huv, rfl, -⟩ := find_eq_some.mp hfound
  obtain ⟨before, rest, rfl, rfl, hrest⟩ := h.split huv
  obtain ⟨mid, after, rfl, hmid, rfl⟩ := h.append.2.split hrest
  exact ⟨before, mid, after, rfl, hmid, h.append.1.size_upperText.symm⟩

theorem Found.isBoundary {keyword : String} {n : ℕ} (h : SameLength L t)
    (hfound : Found L keyword t n) :
    IsBoundary t n ∧ IsBoundary t (n + size keyword.toList) := by
  obtain ⟨before, mid, after, rfl, hmid, rfl⟩ := hfound.place h
  refine ⟨⟨before, _, rfl, rfl⟩, before ++ mid, after, by simp, ?_⟩
  rw [size_append, ← hmid, h.append.2.append.1.size_upperText]

theorem isBoundary_of_begins {keyword : String} (h : SameLength L t)
    (hkeyword : keyword.toList <+: upperText L t) : IsBoundary t (size keyword.toList) := by
  have hfound : Found L keyword t 0 := find_front hkeyword
  have hboundary := (hfound.isBoundary h).2
  rwa [Nat.zero_add] at hboundary

theorem isBoundary_whereEnd (h : SameLength L t) : IsBoundary t (whereEnd L t) := by
  apply isBoundary_getD
  intro n hn
  rcases Option.or_eq_some_iff.mp hn with hn | ⟨-, hn⟩
  · rcases Option.or_eq_some_iff.mp hn with hn | ⟨-, hn⟩
    · rcases Option.or_eq_some_iff.mp hn with hn | ⟨-, hn⟩
      · exact (Found.isBoundary h hn).1
      · exact (Found.isBoundary h hn).1
    · exact (Found.isBoundary h hn).1
  · exact (Found.isBoundary h hn).1

theorem isBoundary_limitEnd (h : SameLength L t) : IsBoundary t (limitEnd L t) := by
  apply isBoundary_getD
  intro n hn
  rcases Option.or_eq_some_iff.mp hn with hn | ⟨-, hn⟩
  · exact (Found.isBoundary h hn).1
  · exact (Found.isBoundary h hn).1

/-- **Where the upper case has the same lengths every offset is aligned**, so only the
order of the clauses counts. -/
theorem aligned_sameLength (h : SameLength L t) : Aligned L t := by
  rw [Aligned]
  split
  · rename_i hcreate
    exact isBoundary_of_begins h hcreate
  · split
    · exact fun f hf => (hf.isBoundary h).2
    · split
      · rename_i hselect
        refine fun f hf => ⟨isBoundary_of_begins h hselect, (hf.isBoundary h).1,
          (hf.isBoundary h).2, fun n hn => (hn.isBoundary h).2,
          fun _ => ⟨fun w hw => ?_, fun _ l hl => ?_⟩⟩
        · exact ⟨(hw.isBoundary h).2, isBoundary_whereEnd h⟩
        · exact ⟨(hl.isBoundary h).2, isBoundary_limitEnd h⟩
      · trivial

end Rekha.Repl
