import Rekha.Lib.FinMap
import Rekha.Lib.Ieee

/-!
# Data model

Ids, vectors, metadata, the WAL operation and the collection configuration of
`rekha-core`. Floats are IEEE bit patterns, an `Arc<[f32]>` is a list, a
`HashMap` is a `FinMap`. Configuration fields that only tune the HNSW graph
(`m`, `ef_construction`) and the creation time `created_at_ms` are read by
nothing below and left out.
-/

namespace Rekha

abbrev F32 := Ieee 32 8
abbrev F64 := Ieee 64 11

abbrev Id := String
abbrev Document := String
abbrev Embedding := List F32

inductive MetadataValue where
  | str (s : String)
  | bool (b : Bool)
  | int (i : Int64)
  | float (f : F64)
deriving DecidableEq

namespace MetadataValue

/-- `i as f64`. -/
def ofI64 (i : Int64) : F64 := Ieee.ofInt 64 11 i.toInt

def asF64 : MetadataValue → Option F64
  | .int i => some (ofI64 i)
  | .float f => some f
  | _ => none

/-- The derived `PartialEq`: floats compare as IEEE floats. -/
def beq : MetadataValue → MetadataValue → Bool
  | .str s, .str t => decide (s = t)
  | .bool a, .bool b => decide (a = b)
  | .int i, .int j => decide (i = j)
  | .float f, .float g => f.eq g
  | _, _ => false

theorem isNaN_ofI64 (i : Int64) : (ofI64 i).isNaN = false := by
  refine Ieee.isNaN_ofInt (by decide) (by decide) ?_
  have hlo : -(2 ^ 63) ≤ i.toInt := Int64.le_toInt i
  have hhi : i.toInt < 2 ^ 63 := Int64.toInt_lt i
  have habs : i.toInt.natAbs < 2 ^ 64 := by omega
  rcases Nat.eq_zero_or_pos i.toInt.natAbs with hz | hpos
  · rw [hz]
    decide
  · calc Nat.log2 i.toInt.natAbs < 64 := (Nat.log2_lt hpos.ne').mpr habs
      _ < 2 ^ (11 - 1) := by decide

end MetadataValue

abbrev Metadata := FinMap String MetadataValue

/-- `HashMap`'s `PartialEq`: same length, and every entry has an equal
counterpart. -/
def Metadata.beq (m₁ m₂ : Metadata) : Bool :=
  decide (m₁.size = m₂.size) && m₁.entries.all fun e =>
    match m₂.lookup e.1 with
    | some v => e.2.beq v
    | none => false

/-- `Option<Metadata>`'s `PartialEq`. -/
def Metadata.optBeq : Option Metadata → Option Metadata → Bool
  | none, none => true
  | some m₁, some m₂ => Metadata.beq m₁ m₂
  | _, _ => false

inductive Distance where
  | l2
  | cosine
  | ip
deriving DecidableEq

def Distance.name : Distance → String
  | .l2 => "l2"
  | .cosine => "cosine"
  | .ip => "ip"

inductive Operation where
  | add (id : Id) (embedding : Embedding) (metadata : Option Metadata)
      (document : Option Document)
  | update (id : Id) (metadata : Option Metadata) (document : Option Document)
  | delete (id : Id)
  | upsert (id : Id) (embedding : Embedding) (metadata : Option Metadata)
      (document : Option Document)

def Operation.id : Operation → Id
  | .add id _ _ _ => id
  | .update id _ _ => id
  | .delete id => id
  | .upsert id _ _ _ => id

structure Uuid where
  bits : BitVec 128
deriving DecidableEq

/-- The lowercase hexadecimal digits of an id, in groups of 8, 4, 4, 4 and 12. -/
def Uuid.toString (u : Uuid) : String :=
  let digit (i : ℕ) : Char :=
    "0123456789abcdef".toList.getD (u.bits.toNat / 16 ^ (31 - i) % 16) '0'
  let group (start n : ℕ) : List Char := (List.range' start n).map digit
  String.ofList (group 0 8 ++ '-' :: group 8 4 ++ '-' :: group 12 4 ++ '-' :: group 16 4 ++
    '-' :: group 20 12)

structure HnswConfig where
  efSearch : ℕ := 100
  batchSize : ℕ := 100
  syncThreshold : ℕ := 1000
  maxScan : ℕ := 10000

structure CollectionConfig where
  id : Uuid
  tenant : String := "default_tenant"
  database : String := "default_database"
  name : String
  dimension : ℕ
  space : Distance
  metadata : Option Metadata := none
  hnsw : HnswConfig := {}

end Rekha
