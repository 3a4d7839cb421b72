import Rekha.Core.Types

/-!
# `where` filters and their oracle

`WhereFilter.matches` is the semantics contract of metadata filters: a direct
evaluation against one record's metadata. `WhereCondition.eval` is the same
tree walk with the verdict of a comparison left open; two evaluators of filters
are compared leaf by leaf through it.
-/

namespace Rekha

/-- A comparison applied to a single metadata key. -/
inductive ComparisonOp where
  | eq (v : MetadataValue)
  | ne (v : MetadataValue)
  | gt (n : F64)
  | gte (n : F64)
  | lt (n : F64)
  | lte (n : F64)
  | isIn (vs : List MetadataValue)
  | nin (vs : List MetadataValue)

inductive WhereCondition where
  | comparison (key : String) (op : ComparisonOp)
  | and (conds : List WhereCondition)
  | or (conds : List WhereCondition)

structure WhereFilter where
  condition : WhereCondition

/-- Metadata equality with numeric coercion between integers and floats. -/
def valuesEqual : MetadataValue → MetadataValue → Bool
  | .str x, .str y => decide (x = y)
  | .bool x, .bool y => decide (x = y)
  | .int x, .int y => decide (x = y)
  | .float x, .float y => x.eq y
  | .int x, .float y => (MetadataValue.ofI64 x).eq y
  | .float x, .int y => x.eq (MetadataValue.ofI64 y)
  | _, _ => false

def numeric (metadata : Metadata) (key : String) : Option F64 :=
  (metadata.lookup key).bind MetadataValue.asF64

def matchOp (key : String) (op : ComparisonOp) (metadata : Metadata) : Bool :=
  match op with
  | .eq v => (metadata.lookup key).any fun actual => valuesEqual actual v
  | .ne v => (metadata.lookup key).any fun actual => !valuesEqual actual v
  | .gt n => (numeric metadata key).any fun actual => n.lt actual
  | .gte n => (numeric metadata key).any fun actual => n.le actual
  | .lt n => (numeric metadata key).any fun actual => actual.lt n
  | .lte n => (numeric metadata key).any fun actual => actual.le n
  | .isIn vs =>
      (metadata.lookup key).any fun actual => vs.any fun v => valuesEqual actual v
  | .nin vs =>
      match metadata.lookup key with
      -- the one operator that a missing key passes
      | none => true
      | some actual => !vs.any fun v => valuesEqual actual v

mutual

def matchCondition (metadata : Metadata) : WhereCondition → Bool
  | .comparison key op => matchOp key op metadata
  | .and conds => matchAll metadata conds
  | .or conds => matchAny metadata conds

/-- `conds.iter().all(..)`. -/
def matchAll (metadata : Metadata) : List WhereCondition → Bool
  | [] => true
  | c :: conds => matchCondition metadata c && matchAll metadata conds

/-- `conds.iter().any(..)`. -/
def matchAny (metadata : Metadata) : List WhereCondition → Bool
  | [] => false
  | c :: conds => matchCondition metadata c || matchAny metadata conds

end

/-- Evaluates the filter against a metadata map. -/
def WhereFilter.matches (f : WhereFilter) (metadata : Metadata) : Bool :=
  matchCondition metadata f.condition

/-- A record's optional metadata: a record without metadata is evaluated
against the empty map. -/
def filterMatchesOpt (f : WhereFilter) : Option Metadata → Bool
  | some m => f.matches m
  | none => f.matches ∅

/-! ## The tree walk over open leaves -/

namespace WhereCondition

mutual

/-- Verdict of the tree when `leaf` decides the comparisons. -/
def eval (leaf : String → ComparisonOp → Bool) : WhereCondition → Bool
  | .comparison key op => leaf key op
  | .and conds => evalAll leaf conds
  | .or conds => evalAny leaf conds

def evalAll (leaf : String → ComparisonOp → Bool) : List WhereCondition → Bool
  | [] => true
  | c :: conds => eval leaf c && evalAll leaf conds

def evalAny (leaf : String → ComparisonOp → Bool) : List WhereCondition → Bool
  | [] => false
  | c :: conds => eval leaf c || evalAny leaf conds

end

mutual

def leaves : WhereCondition → List (String × ComparisonOp)
  | .comparison key op => [(key, op)]
  | .and conds => leavesList conds
  | .or conds => leavesList conds

def leavesList : List WhereCondition → List (String × ComparisonOp)
  | [] => []
  | c :: conds => leaves c ++ leavesList conds

end

mutual

theorem eval_congr {f g : String → ComparisonOp → Bool} :
    ∀ c : WhereCondition, (∀ l ∈ c.leaves, f l.1 l.2 = g l.1 l.2) →
      c.eval f = c.eval g
  | .comparison key op, h => h (key, op) (by simp [leaves])
  | .and conds, h => by
      rw [eval, eval]
      exact (evalList_congr conds (by rwa [leaves] at h)).1
  | .or conds, h => by
      rw [eval, eval]
      exact (evalList_congr conds (by rwa [leaves] at h)).2

theorem evalList_congr {f g : String → ComparisonOp → Bool} :
    ∀ conds : List WhereCondition,
      (∀ l ∈ leavesList conds, f l.1 l.2 = g l.1 l.2) →
      evalAll f conds = evalAll g conds ∧ evalAny f conds = evalAny g conds
  | [], _ => ⟨rfl, rfl⟩
  | c :: conds, h => by
      simp only [leavesList, List.mem_append] at h
      have hc := eval_congr c fun l hl => h l (Or.inl hl)
      have hcs := evalList_congr conds fun l hl => h l (Or.inr hl)
      simp only [evalAll, evalAny, hc, hcs, and_self]

end

end WhereCondition

mutual

theorem matchCondition_eq_eval (metadata : Metadata) : ∀ c : WhereCondition,
    matchCondition metadata c = c.eval fun key op => matchOp key op metadata
  | .comparison key op => by rw [matchCondition, WhereCondition.eval]
  | .and conds => by
      rw [matchCondition, WhereCondition.eval]
      exact (matchList_eq_eval metadata conds).1
  | .or conds => by
      rw [matchCondition, WhereCondition.eval]
      exact (matchList_eq_eval metadata conds).2

theorem matchList_eq_eval (metadata : Metadata) : ∀ conds : List WhereCondition,
    matchAll metadata conds =
        WhereCondition.evalAll (fun key op => matchOp key op metadata) conds ∧
      matchAny metadata conds =
        WhereCondition.evalAny (fun key op => matchOp key op metadata) conds
  | [] => ⟨rfl, rfl⟩
  | c :: conds => by
      have hc := matchCondition_eq_eval metadata c
      have hcs := matchList_eq_eval metadata conds
      simp only [matchAll, matchAny, WhereCondition.evalAll, WhereCondition.evalAny,
        hc, hcs, and_self]

end

end Rekha
