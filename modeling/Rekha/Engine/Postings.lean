import Rekha.Core.Filter
import Rekha.Lib.Inverted

/-!
# The metadata inverted index

`Postings` keeps, for every metadata key and canonical value, the bitmap of
offsets whose record carries that value, a second table of the numeric values
for range scans, and the bitmap `all` of indexed offsets. A bitmap is a
`Finset ℕ`; an `OrderedFloat<f64>` key is its equivalence class, which is what
hashing and ordering see of it.

`Represents p docs` says what the three structures hold of a collection of
documents, and `mem_evaluate` what a filter computes from them: the tree walk
over canonical keys. Against the oracle, which compares values, the two leaf
evaluators part exactly on `diverges`.
-/

namespace Rekha

/-- `OrderedFloat<f64>` up to equality: NaN equals itself and is greatest. -/
abbrev OrderedFloat := Ieee.TotalKey

/-- Canonical, comparable form of a metadata value. -/
inductive ValueKey where
  | str (s : String)
  | bool (b : Bool)
  | num (n : OrderedFloat)
deriving DecidableEq

def ValueKey.fromValue : MetadataValue → ValueKey
  | .str s => .str s
  | .bool b => .bool b
  | .int i => .num (MetadataValue.ofI64 i).totalKey
  | .float f => .num f.totalKey

def ValueKey.number : ValueKey → Option OrderedFloat
  | .num n => some n
  | _ => none

theorem ValueKey.bind_number_eq_some {a : Option ValueKey} {n : OrderedFloat} :
    a.bind ValueKey.number = some n ↔ a = some (.num n) := by
  cases a with
  | none => simp
  | some a => cases a <;> simp [ValueKey.number]

/-- `std::ops::Bound` over numeric keys. -/
inductive Bound where
  | included (x : OrderedFloat)
  | excluded (x : OrderedFloat)
  | unbounded

def Bound.above : Bound → OrderedFloat → Bool
  | .included x, y => x.le y
  | .excluded x, y => x.lt y
  | .unbounded, _ => true

def Bound.below : Bound → OrderedFloat → Bool
  | .included x, y => y.le x
  | .excluded x, y => y.lt x
  | .unbounded, _ => true

/-- Inverted index over record metadata. -/
structure Postings where
  eq : Inverted String ValueKey
  num : Inverted String OrderedFloat
  all : Finset ℕ

namespace Postings

def new : Postings := ⟨∅, ∅, ∅⟩

/-- One `(key, value)` of the metadata enters both tables. -/
def insertKey (offset : ℕ) (p : Postings) (key : String) (value : MetadataValue) :
    Postings :=
  { p with
    eq := p.eq.add key (ValueKey.fromValue value) offset
    num := match value.asF64 with
      | some n => p.num.add key n.totalKey offset
      | none => p.num }

/-- Index `metadata` for `offset`. -/
def insert (p : Postings) (offset : ℕ) (metadata : Option Metadata) : Postings :=
  let p := { p with all := Insert.insert offset p.all }
  match metadata with
  | none => p
  | some metadata =>
      metadata.entries.foldl (fun p e => p.insertKey offset e.1 e.2) p

/-- One `(key, value)` of the metadata leaves both tables. -/
def removeKey (offset : ℕ) (p : Postings) (key : String) (value : MetadataValue) :
    Postings :=
  { p with
    eq := p.eq.remove key (ValueKey.fromValue value) offset
    num := match value.asF64 with
      | some n => p.num.remove key n.totalKey offset
      | none => p.num }

/-- Un-index `metadata` for `offset`. -/
def remove (p : Postings) (offset : ℕ) (metadata : Option Metadata) : Postings :=
  let p := { p with all := p.all.erase offset }
  match metadata with
  | none => p
  | some metadata =>
      metadata.entries.foldl (fun p e => p.removeKey offset e.1 e.2) p

/-- Drop `offset` from every index and from `all`. -/
def removeAll (p : Postings) (offset : ℕ) : Postings :=
  ⟨p.eq.removeAll offset, p.num.removeAll offset, p.all.erase offset⟩

/-- Bitmap of offsets carrying `key`. -/
def keyPresent (p : Postings) (key : String) : Finset ℕ :=
  p.eq.rowUnion key fun _ => true

def eqBitmap (p : Postings) (key : String) (v : ValueKey) : Finset ℕ :=
  p.eq.cell key v

/-- Union of numeric postings between two bounds. -/
def numRange (p : Postings) (key : String) (lo hi : Bound) : Finset ℕ :=
  p.num.rowUnion key fun x => lo.above x && hi.below x

end Postings

/-- Union of the exact-match postings of a list of values. -/
def unionEq (p : Postings) (key : String) (vs : List MetadataValue) : Finset ℕ :=
  vs.foldl (fun out v => out ∪ p.eqBitmap key (ValueKey.fromValue v)) ∅

def evalOp (p : Postings) (key : String) : ComparisonOp → Finset ℕ
  | .eq v => p.eqBitmap key (ValueKey.fromValue v)
  -- a document without the key is no hit, as in `matchOp`
  | .ne v => p.keyPresent key \ p.eqBitmap key (ValueKey.fromValue v)
  | .gt n => p.numRange key (.excluded n.totalKey) .unbounded
  | .gte n => p.numRange key (.included n.totalKey) .unbounded
  | .lt n => p.numRange key .unbounded (.excluded n.totalKey)
  | .lte n => p.numRange key .unbounded (.included n.totalKey)
  | .isIn vs => unionEq p key vs
  | .nin vs => p.all \ unionEq p key vs

mutual

def evalCondition (p : Postings) : WhereCondition → Finset ℕ
  | .comparison key op => evalOp p key op
  | .and [] => p.all
  | .and (first :: rest) => evalAnd p (evalCondition p first) rest
  | .or conds => evalOr p ∅ conds

/-- The loop `out &= eval_condition(..)`. -/
def evalAnd (p : Postings) (out : Finset ℕ) : List WhereCondition → Finset ℕ
  | [] => out
  | c :: rest => evalAnd p (out ∩ evalCondition p c) rest

/-- The loop `out |= eval_condition(..)`. -/
def evalOr (p : Postings) (out : Finset ℕ) : List WhereCondition → Finset ℕ
  | [] => out
  | c :: rest => evalOr p (out ∪ evalCondition p c) rest

end

/-- Bitmap of offsets matching the filter. -/
def Postings.evaluate (p : Postings) (filter : WhereFilter) : Finset ℕ :=
  evalCondition p filter.condition

/-! ## What the tables hold -/

/-- A record's metadata as the index sees it: canonical values by key, and the
empty map for absent metadata. -/
def keyView (metadata : Option Metadata) (key : String) : Option ValueKey :=
  ((metadata.getD ∅).lookup key).map ValueKey.fromValue

/-- The three structures hold exactly the canonical values of `docs`. -/
structure Represents (p : Postings) (docs : ℕ → Option (Option Metadata)) : Prop where
  all : ∀ o, o ∈ p.all ↔ (docs o).isSome
  eq : ∀ k v o, o ∈ p.eq.cell k v ↔ ∃ md, docs o = some md ∧ keyView md k = some v
  num : ∀ k n o, o ∈ p.num.cell k n ↔
    ∃ md, docs o = some md ∧ keyView md k = some (.num n)

theorem asF64_eq_some_iff {value : MetadataValue} {n : OrderedFloat} :
    (∃ x, value.asF64 = some x ∧ x.totalKey = n) ↔
      ValueKey.fromValue value = .num n := by
  cases value <;> simp [MetadataValue.asF64, ValueKey.fromValue]

namespace Postings

theorem mem_insertKey_num (offset : ℕ) (p : Postings) (key k : String)
    (value : MetadataValue) (n : OrderedFloat) (o : ℕ) :
    o ∈ (p.insertKey offset key value).num.cell k n ↔ o ∈ p.num.cell k n ∨
      (k = key ∧ ValueKey.fromValue value = .num n ∧ o = offset) := by
  rw [← asF64_eq_some_iff, insertKey]
  cases value.asF64 with
  | none => simp
  | some x => simp [Inverted.mem_cell_add, eq_comm]

theorem mem_removeKey_num (offset : ℕ) (p : Postings) (key k : String)
    (value : MetadataValue) (n : OrderedFloat) (o : ℕ) :
    o ∈ (p.removeKey offset key value).num.cell k n ↔ o ∈ p.num.cell k n ∧
      ¬ (k = key ∧ ValueKey.fromValue value = .num n ∧ o = offset) := by
  rw [← asF64_eq_some_iff, removeKey]
  cases value.asF64 with
  | none => simp
  | some x => simp [Inverted.mem_cell_remove, eq_comm]

theorem foldl_insertKey (offset : ℕ) : ∀ (l : List (Sigma fun _ : String => MetadataValue))
    (p : Postings),
    (l.foldl (fun p e => p.insertKey offset e.1 e.2) p).all = p.all ∧
    (∀ k v o, o ∈ (l.foldl (fun p e => p.insertKey offset e.1 e.2) p).eq.cell k v ↔
      o ∈ p.eq.cell k v ∨
        ((∃ mv, ⟨k, mv⟩ ∈ l ∧ ValueKey.fromValue mv = v) ∧ o = offset)) ∧
    (∀ k n o, o ∈ (l.foldl (fun p e => p.insertKey offset e.1 e.2) p).num.cell k n ↔
      o ∈ p.num.cell k n ∨
        ((∃ mv, ⟨k, mv⟩ ∈ l ∧ ValueKey.fromValue mv = .num n) ∧ o = offset))
  | [], p => by simp
  | ⟨key, value⟩ :: l, p => by
      obtain ⟨hall, heq, hnum⟩ := foldl_insertKey offset l (p.insertKey offset key value)
      refine ⟨hall, fun k v o => ?_, fun k n o => ?_⟩
      · rw [List.foldl_cons, heq, insertKey, Inverted.mem_cell_add]
        grind
      · rw [List.foldl_cons, hnum, mem_insertKey_num]
        grind

theorem foldl_removeKey (offset : ℕ) : ∀ (l : List (Sigma fun _ : String => MetadataValue))
    (p : Postings),
    (l.foldl (fun p e => p.removeKey offset e.1 e.2) p).all = p.all ∧
    (∀ k v o, o ∈ (l.foldl (fun p e => p.removeKey offset e.1 e.2) p).eq.cell k v ↔
      o ∈ p.eq.cell k v ∧
        ¬ ((∃ mv, ⟨k, mv⟩ ∈ l ∧ ValueKey.fromValue mv = v) ∧ o = offset)) ∧
    (∀ k n o, o ∈ (l.foldl (fun p e => p.removeKey offset e.1 e.2) p).num.cell k n ↔
      o ∈ p.num.cell k n ∧
        ¬ ((∃ mv, ⟨k, mv⟩ ∈ l ∧ ValueKey.fromValue mv = .num n) ∧ o = offset))
  | [], p => by simp
  | ⟨key, value⟩ :: l, p => by
      obtain ⟨hall, heq, hnum⟩ := foldl_removeKey offset l (p.removeKey offset key value)
      refine ⟨hall, fun k v o => ?_, fun k n o => ?_⟩
      · rw [List.foldl_cons, heq, removeKey, Inverted.mem_cell_remove]
        grind
      · rw [List.foldl_cons, hnum, mem_removeKey_num]
        grind

theorem exists_entry_iff {m : Metadata} {k : String} {v : ValueKey} :
    (∃ mv, (⟨k, mv⟩ : Sigma fun _ : String => MetadataValue) ∈ m.entries ∧
      ValueKey.fromValue mv = v) ↔ keyView (some m) k = some v := by
  simp only [FinMap.mem_entries_iff, keyView, Option.getD_some, Option.map_eq_some_iff]

theorem mem_insert (p : Postings) (offset : ℕ) (md : Option Metadata) :
    (p.insert offset md).all = Insert.insert offset p.all ∧
    (∀ k v o, o ∈ (p.insert offset md).eq.cell k v ↔
      o ∈ p.eq.cell k v ∨ (keyView md k = some v ∧ o = offset)) ∧
    (∀ k n o, o ∈ (p.insert offset md).num.cell k n ↔
      o ∈ p.num.cell k n ∨ (keyView md k = some (.num n) ∧ o = offset)) := by
  cases md with
  | none => simp [insert, keyView]
  | some m =>
      simp only [insert, ← exists_entry_iff]
      exact foldl_insertKey offset m.entries _

theorem mem_remove (p : Postings) (offset : ℕ) (md : Option Metadata) :
    (p.remove offset md).all = p.all.erase offset ∧
    (∀ k v o, o ∈ (p.remove offset md).eq.cell k v ↔
      o ∈ p.eq.cell k v ∧ ¬ (keyView md k = some v ∧ o = offset)) ∧
    (∀ k n o, o ∈ (p.remove offset md).num.cell k n ↔
      o ∈ p.num.cell k n ∧ ¬ (keyView md k = some (.num n) ∧ o = offset)) := by
  cases md with
  | none => simp [remove, keyView]
  | some m =>
      simp only [remove, ← exists_entry_iff]
      exact foldl_removeKey offset m.entries _

end Postings

section Represents

variable {p : Postings} {docs : ℕ → Option (Option Metadata)}

theorem represents_new : Represents Postings.new fun _ => none := by
  constructor <;> simp [Postings.new]

theorem Represents.insert (h : Represents p docs) {o : ℕ} (hnew : docs o = none)
    (md : Option Metadata) :
    Represents (p.insert o md) (Function.update docs o (some md)) := by
  obtain ⟨hall, heq, hnum⟩ := Postings.mem_insert p o md
  constructor
  · intro o'
    rw [hall, Finset.mem_insert, h.all]
    by_cases ho : o' = o
    · simp [ho]
    · simp [ho]
  · intro k v o'
    rw [heq, h.eq]
    by_cases ho : o' = o
    · subst ho
      simp [hnew]
    · simp [ho]
  · intro k n o'
    rw [hnum, h.num]
    by_cases ho : o' = o
    · subst ho
      simp [hnew]
    · simp [ho]

/-- Un-indexing an offset, given metadata with the canonical values it was
indexed under. -/
theorem Represents.remove (h : Represents p docs) {o : ℕ} {md : Option Metadata}
    (hold : ∀ md', docs o = some md' → keyView md' = keyView md) :
    Represents (p.remove o md) (Function.update docs o none) := by
  obtain ⟨hall, heq, hnum⟩ := Postings.mem_remove p o md
  constructor
  · intro o'
    rw [hall, Finset.mem_erase, h.all]
    by_cases ho : o' = o
    · simp [ho]
    · simp [ho]
  · intro k v o'
    rw [heq, h.eq]
    by_cases ho : o' = o
    · subst ho
      simp only [Function.update_self, and_true]
      constructor
      · rintro ⟨⟨md', hmd', hv⟩, hne⟩
        exact absurd (hold md' hmd' ▸ hv) hne
      · rintro ⟨md', hmd', -⟩
        exact absurd hmd' (by simp)
    · simp [ho]
  · intro k n o'
    rw [hnum, h.num]
    by_cases ho : o' = o
    · subst ho
      simp only [Function.update_self, and_true]
      constructor
      · rintro ⟨⟨md', hmd', hv⟩, hne⟩
        exact absurd (hold md' hmd' ▸ hv) hne
      · rintro ⟨md', hmd', -⟩
        exact absurd hmd' (by simp)
    · simp [ho]

theorem Represents.remove_self (h : Represents p docs) {o : ℕ} {md : Option Metadata}
    (hold : docs o = some md) :
    Represents (p.remove o md) (Function.update docs o none) := by
  apply h.remove
  intro md' hmd'
  rw [hold, Option.some.injEq] at hmd'
  rw [hmd']

theorem Represents.removeAll (h : Represents p docs) (o : ℕ) :
    Represents (p.removeAll o) (Function.update docs o none) := by
  constructor
  · intro o'
    rw [Postings.removeAll, Finset.mem_erase, h.all]
    by_cases ho : o' = o <;> simp [ho]
  · intro k v o'
    rw [Postings.removeAll, Inverted.mem_cell_removeAll, h.eq]
    by_cases ho : o' = o <;> simp [ho]
  · intro k n o'
    rw [Postings.removeAll, Inverted.mem_cell_removeAll, h.num]
    by_cases ho : o' = o <;> simp [ho]

end Represents

/-! ## What a filter computes -/

/-- Verdict of a comparison on the canonical value of its key. -/
def keyLeaf (actual : Option ValueKey) : ComparisonOp → Bool
  | .eq v => decide (actual = some (ValueKey.fromValue v))
  | .ne v => actual.any fun a => decide (a ≠ ValueKey.fromValue v)
  | .gt n => (actual.bind ValueKey.number).any n.totalKey.lt
  | .gte n => (actual.bind ValueKey.number).any n.totalKey.le
  | .lt n => (actual.bind ValueKey.number).any fun x => x.lt n.totalKey
  | .lte n => (actual.bind ValueKey.number).any fun x => x.le n.totalKey
  | .isIn vs => vs.any fun v => decide (actual = some (ValueKey.fromValue v))
  | .nin vs => !vs.any fun v => decide (actual = some (ValueKey.fromValue v))

section Evaluate

variable {p : Postings} {docs : ℕ → Option (Option Metadata)}

/-- The canonical value at `key` of the document at an offset. -/
def docKey (docs : ℕ → Option (Option Metadata)) (o : ℕ) (key : String) :
    Option ValueKey :=
  (docs o).bind fun md => keyView md key

theorem Represents.mem_cell (h : Represents p docs) (key : String) (v : ValueKey)
    (o : ℕ) : o ∈ p.eq.cell key v ↔ docKey docs o key = some v := by
  rw [h.eq, docKey]
  cases docs o <;> simp

theorem Represents.mem_numCell (h : Represents p docs) (key : String)
    (n : OrderedFloat) (o : ℕ) :
    o ∈ p.num.cell key n ↔ (docKey docs o key).bind ValueKey.number = some n := by
  rw [h.num, ValueKey.bind_number_eq_some, docKey]
  cases docs o <;> simp

theorem isSome_of_docKey {o : ℕ} {key : String} {v : ValueKey}
    (h : docKey docs o key = some v) : (docs o).isSome := by
  rw [docKey] at h
  cases hd : docs o with
  | none => simp [hd] at h
  | some md => rfl

theorem Represents.mem_numRange (h : Represents p docs) (key : String) (lo hi : Bound)
    (o : ℕ) : o ∈ p.numRange key lo hi ↔
      ((docKey docs o key).bind ValueKey.number).any
        (fun x => lo.above x && hi.below x) = true := by
  rw [Postings.numRange, Inverted.mem_rowUnion]
  simp only [h.mem_numCell, Option.any_eq_true]
  exact exists_congr fun x => and_comm

theorem Represents.mem_keyPresent (h : Represents p docs) (key : String) (o : ℕ) :
    o ∈ p.keyPresent key ↔ (docKey docs o key).isSome := by
  rw [Postings.keyPresent, Inverted.mem_rowUnion, Option.isSome_iff_exists]
  simp only [h.mem_cell, true_and]

theorem Represents.mem_unionEq (h : Represents p docs) (key : String)
    (vs : List MetadataValue) (o : ℕ) : o ∈ unionEq p key vs ↔
      vs.any (fun v => decide (docKey docs o key = some (ValueKey.fromValue v))) = true := by
  rw [unionEq, Inverted.mem_foldl_union]
  simp only [Postings.eqBitmap, h.mem_cell, List.any_eq_true, decide_eq_true_eq]
  simp

theorem Represents.mem_evalOp (h : Represents p docs) (key : String)
    (op : ComparisonOp) (o : ℕ) : o ∈ evalOp p key op ↔
      (docs o).isSome ∧ keyLeaf (docKey docs o key) op = true := by
  have hlive : ∀ q : Prop, (q → ∃ v, docKey docs o key = some v) →
      (q ↔ (docs o).isSome ∧ q) := fun q hq =>
    ⟨fun hp => ⟨isSome_of_docKey (hq hp).choose_spec, hp⟩, And.right⟩
  have hnum : ∀ f : OrderedFloat → Bool,
      ((docKey docs o key).bind ValueKey.number).any f = true →
        ∃ v, docKey docs o key = some v := by
    intro f hf
    cases hd : docKey docs o key with
    | none => simp [hd] at hf
    | some a => exact ⟨a, rfl⟩
  -- a positive operator selects only ids that have the key, a negative one by difference
  cases op with
  | eq v =>
      rw [evalOp, Postings.eqBitmap, h.mem_cell, keyLeaf, decide_eq_true_eq]
      exact hlive _ fun hv => ⟨_, hv⟩
  | ne v =>
      rw [evalOp, Finset.mem_sdiff, h.mem_keyPresent, Postings.eqBitmap, h.mem_cell]
      cases hd : docKey docs o key with
      | none => simp [keyLeaf]
      | some a => simp [keyLeaf, isSome_of_docKey hd]
  | gt n =>
      rw [evalOp, h.mem_numRange, keyLeaf]
      simp only [Bound.above, Bound.below, Bool.and_true]
      exact hlive _ (hnum _)
  | gte n =>
      rw [evalOp, h.mem_numRange, keyLeaf]
      simp only [Bound.above, Bound.below, Bool.and_true]
      exact hlive _ (hnum _)
  | lt n =>
      rw [evalOp, h.mem_numRange, keyLeaf]
      simp only [Bound.above, Bound.below, Bool.true_and]
      exact hlive _ (hnum _)
  | lte n =>
      rw [evalOp, h.mem_numRange, keyLeaf]
      simp only [Bound.above, Bound.below, Bool.true_and]
      exact hlive _ (hnum _)
  | isIn vs =>
      rw [evalOp, h.mem_unionEq, keyLeaf]
      refine hlive _ fun hv => ?_
      obtain ⟨v, -, hv⟩ := List.any_eq_true.mp hv
      exact ⟨_, of_decide_eq_true hv⟩
  | nin vs =>
      rw [evalOp, Finset.mem_sdiff, h.all, h.mem_unionEq, keyLeaf, Bool.not_eq_true,
        Bool.not_eq_true']

mutual

theorem Represents.mem_evalCondition (h : Represents p docs) (o : ℕ) :
    ∀ c : WhereCondition, o ∈ evalCondition p c ↔
      (docs o).isSome ∧ c.eval (fun key => keyLeaf (docKey docs o key)) = true
  | .comparison key op => by
      rw [evalCondition, WhereCondition.eval]
      exact h.mem_evalOp key op o
  | .and [] => by
      rw [evalCondition, h.all]
      simp [WhereCondition.eval, WhereCondition.evalAll]
  | .and (first :: rest) => by
      have hfirst := h.mem_evalCondition o first
      rw [evalCondition, h.mem_evalAnd o rest _ fun ho => (hfirst.mp ho).1, hfirst,
        WhereCondition.eval, WhereCondition.evalAll, Bool.and_eq_true, and_assoc]
  | .or conds => by
      rw [evalCondition, h.mem_evalOr o conds ∅, WhereCondition.eval]
      simp

theorem Represents.mem_evalAnd (h : Represents p docs) (o : ℕ) :
    ∀ (conds : List WhereCondition) (out : Finset ℕ),
      (o ∈ out → (docs o).isSome = true) → (o ∈ evalAnd p out conds ↔ o ∈ out ∧
        WhereCondition.evalAll (fun key => keyLeaf (docKey docs o key)) conds = true)
  | [], out, _ => by
      rw [evalAnd]
      simp [WhereCondition.evalAll]
  | c :: conds, out, hout => by
      rw [evalAnd, h.mem_evalAnd o conds _ fun ho => hout (Finset.mem_inter.mp ho).1,
        Finset.mem_inter, h.mem_evalCondition o c, WhereCondition.evalAll,
        Bool.and_eq_true]
      constructor
      · rintro ⟨⟨ho, -, hc⟩, hcs⟩
        exact ⟨ho, hc, hcs⟩
      · rintro ⟨ho, hc, hcs⟩
        exact ⟨⟨ho, hout ho, hc⟩, hcs⟩

theorem Represents.mem_evalOr (h : Represents p docs) (o : ℕ) :
    ∀ (conds : List WhereCondition) (out : Finset ℕ),
      o ∈ evalOr p out conds ↔ o ∈ out ∨ ((docs o).isSome ∧
        WhereCondition.evalAny (fun key => keyLeaf (docKey docs o key)) conds = true)
  | [], out => by
      rw [evalOr]
      simp [WhereCondition.evalAny]
  | c :: conds, out => by
      rw [evalOr, h.mem_evalOr o conds, Finset.mem_union, h.mem_evalCondition o c,
        WhereCondition.evalAny, Bool.or_eq_true, and_or_left, or_assoc]

end

/-- The tree walk over the canonical keys of one document. -/
def keyMatches (F : WhereFilter) (md : Option Metadata) : Bool :=
  F.condition.eval fun key => keyLeaf (keyView md key)

/-- **What a filter computes**: the live offsets whose document passes the tree
walk over canonical keys. -/
theorem Represents.mem_evaluate (h : Represents p docs) (F : WhereFilter) (o : ℕ) :
    o ∈ p.evaluate F ↔ ∃ md, docs o = some md ∧ keyMatches F md = true := by
  rw [Postings.evaluate, h.mem_evalCondition o]
  unfold docKey keyMatches
  cases docs o with
  | none => simp
  | some md => simp

end Evaluate

end Rekha
