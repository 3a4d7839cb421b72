import Rekha.Lib.JsonRead
import Rekha.Server.Chroma
import Rekha.Server.MetadataJson

/-!
# Bodies of requests and responses

What the Chroma routes read from a JSON body and what they answer with, as the other
side reads it. A float that is not finite is written as `null`, and no float is read
from that.
-/

namespace Rekha.Server

open Json

/-- What `serde_json` makes of the text of a float: the number that a finite `f32` is
read as, the `f32` that a number is read as, and any value as it is read again. -/
structure FloatText where
  number : F32 → Json.Number
  toF32 : Json.Number → F32
  reread : Json → Json
  reread_null : reread .null = .null
  reread_object : ∀ members, ∃ members', reread (.object members) = .object members'

/-- The floats `0.0` and `1.0`. -/
def demoFloatText : FloatText where
  number d :=
    if d = ⟨0x3F800000⟩ then .float ⟨0x3FF0000000000000⟩ rfl else .float ⟨0⟩ rfl
  toF32
    | .float f _ => if f = ⟨0x3FF0000000000000⟩ then ⟨0x3F800000⟩ else ⟨0⟩
    | _ => ⟨0⟩
  reread v := v
  reread_null := rfl
  reread_object members := ⟨members, rfl⟩

namespace FloatText

variable (T : FloatText)

def write (d : F32) : Json := if d.isFinite then .number (T.number d) else .null

def read : Json → Option F32
  | .number n => some (T.toF32 n)
  | _ => none

def back (d : F32) : F32 := T.toF32 (T.number d)

end FloatText

def ofUsize (n : ℕ) : Json := .number (.posInt (UInt64.ofNat n))

def readUsize (v : Json) : Option ℕ := v.asU64.map UInt64.toNat

variable (T : FloatText)

def readWhere (v : Json) : Option WhereFilter := (WhereFilter.fromJsonValue v).toOption

def readDefault {α : Type} (name : String) (default : α) (read : Json → Option α)
    (members : List (String × Json)) : Option α :=
  match members.lookup name with
  | some v => read v
  | none => some default

def defaultNResults : ℕ := 10

def ChromaCreateCollectionRequest.deserialize (v : Json) :
    Option ChromaCreateCollectionRequest := do
  let members ← readObject v
  let name ← readField "name" readString members
  let metadata ← readMetadata ((members.lookup "metadata").getD .null)
  let dimension ← readOptional "dimension" readUsize members
  let getOrCreate ← readDefault "get_or_create" false readBool members
  pure ⟨name, convertMetadata metadata, dimension, getOrCreate⟩

def ChromaQueryRequest.deserialize (v : Json) : Option ChromaQueryRequest := do
  let members ← readObject v
  let queryEmbeddings ← readField "query_embeddings" (readList (readList T.read)) members
  let nResults ← readDefault "n_results" defaultNResults readUsize members
  let whereFilter ← readOptional "where" readWhere members
  let include_ ← readDefault "include" [] (readList readString) members
  pure ⟨queryEmbeddings, nResults, whereFilter, include_⟩

/-- The filter is read, and then not used. -/
def ChromaGetRequest.deserialize (v : Json) : Option ChromaGetRequest := do
  let members ← readObject v
  let ids ← readOptional "ids" (readList readString) members
  let _ ← readOptional "where" readWhere members
  let include_ ← readDefault "include" [] (readList readString) members
  pure ⟨ids, include_⟩

/-! ## Responses -/

/-- `flatten_metadata`, as it is read. -/
def metadataBody (m : Option Metadata) : Json := ofOption T.reread (flattenMetadata m)

def collectionBody (r : ChromaCollectionResponse) : Json :=
  .object [("id", .string r.id), ("name", .string r.name), ("type", .string "collection"),
    ("dimension", ofOption ofUsize r.dimension), ("metadata", metadataBody T r.metadata),
    ("tenant", .string r.tenant), ("database", .string r.database),
    ("configuration_json", .object [])]

def queryBody (r : ChromaQueryResponse) : Json :=
  .object [("ids", ofList (ofList Json.string) r.ids),
    ("distances", ofOption (ofList (ofList T.write)) r.distances),
    ("metadatas", ofOption (ofList (ofList (metadataBody T))) r.metadatas),
    ("documents", ofOption (ofList (ofList (ofOption Json.string))) r.documents)]

def getBody (r : ChromaGetResponse) : Json :=
  .object [("ids", ofList Json.string r.ids),
    ("embeddings", ofOption (ofList (ofList T.write)) r.embeddings),
    ("metadatas", ofList (metadataBody T) r.metadatas),
    ("documents", ofList (ofOption Json.string) r.documents)]

def errorBody (message : String) : Json := .object [("error", .string message)]

/-- A response. A body that is no JSON is left out. -/
structure HttpReply where
  status : ℕ
  body : Option Json

/-- What `message` says of an error is its text. -/
def answer {α : Type} (message : EngineError → String) (encode : α → ℕ × Json) :
    EStateM.Result EngineError Engine α → HttpReply
  | .ok a _ => ⟨(encode a).1, some (encode a).2⟩
  | .error e _ => ⟨engineErrorStatus e, some (errorBody (message e))⟩

/-- What the extractor answers where it cannot read a body. -/
def unprocessable : HttpReply := ⟨422, none⟩

end Rekha.Server
