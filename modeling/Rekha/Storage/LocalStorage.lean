import Rekha.Lib.Outcome
import Rekha.Lib.Trace
import Rekha.Storage.ObjectKeys

/-!
# The local object store

Objects are files below a root, written through a temp file and a rename; a
listing skips every file whose name looks like that of a temp file. What the store
is for is a map from keys to bytes.
-/

namespace Rekha.LocalStorage

abbrev Tree := FileTree String (List UInt8)

abbrev StoreM := EStateM StorageError Tree

/-! ## The calls -/

/-- Where the file system fails a `put`: while the directories are created, of
which `made` are looked at by then, on creating the temp file, while it is written
and synced, or on the rename. -/
inductive PutFault where
  | dirs (made : ℕ)
  | create
  | write (written : List UInt8)
  | rename

/-- An operation on the tree; a failure changes nothing. -/
def onTree (op : Tree → Except FileError Tree) : StoreM Unit := fun t =>
  match op t with
  | .ok t' => .ok () t'
  | .error e => .error (.io e) t

/-- `create_dir_all` that fails at one of the first directories. -/
def failingDirs (made : ℕ) (dir : List String) : StoreM Unit := fun t =>
  if t.blocked dir (min made (dir.length + 1)) then .error (.io .notADirectory) t
  else .error (.io .other) (t.makeDirs dir (min made (dir.length + 1)))

/-- `create_dir_all`. -/
def createDirs (fault : Option PutFault) (dir : List String) : StoreM Unit :=
  match fault with
  | some (.dirs made) => failingDirs made dir
  | _ => onTree fun t => t.createDirAll dir

/-- Create, write and sync the temp file. -/
def writeTmp (fault : Option PutFault) (tmp : List String) (bytes : List UInt8) : StoreM Unit :=
  match fault with
  | some .create => throw (.io .other)
  | some (.write written) => do
      onTree fun t => t.writeFile tmp written
      throw (.io .other)
  | _ => onTree fun t => t.writeFile tmp bytes

def renameTmp (fault : Option PutFault) (tmp path : List String) : StoreM Unit :=
  match fault with
  | some .rename => throw (.io .other)
  | _ => onTree fun t => t.rename tmp path

/-- Write `bytes` at `key`. -/
def put (fault : Option PutFault) (pid nonce : ℕ) (key : String) (bytes : List UInt8) :
    StoreM Unit := do
  let path ← Outcome.ofExcept (sanitizeKey key)
  createDirs fault path.dropLast
  writeTmp fault (tmpPath pid nonce path) bytes
  renameTmp fault (tmpPath pid nonce path) path

/-- Read the object at `key`. -/
def get (t : Tree) (key : String) : Except StorageError (Option (List UInt8)) :=
  match sanitizeKey key with
  | .error e => .error e
  | .ok path =>
      match t.read path with
      | .ok bytes => .ok (some bytes)
      | .error .notFound => .ok none
      | .error e => .error (.io e)

/-- The key of a file that a listing finds. -/
def listedKey (path : List String) : String :=
  String.ofList ((keyOf path).toList.map fun c => if c = '\\' then '/' else c)

/-- The keys of an entry: of a file its own, unless its name is a temp file's. -/
def entryKeys (path : List String) (below : Except StorageError (List String)) :
    Option (FileNode (List UInt8)) → Except StorageError (List String)
  | some .dir => below
  | some (.file _) => .ok (if isTemp (fileName path) then [] else [listedKey path])
  | none => .ok []

/-- The keys of all files under `dir`, down to the given number of levels. -/
def walk (t : Tree) : ℕ → List String → Except StorageError (List String)
  | 0, _ => .ok []
  | n + 1, dir =>
      match t.readDir dir with
      -- a directory that is not there has no keys
      | .error .notFound => .ok []
      | .error e => .error (.io e)
      | .ok entries => do
          let found ← entries.mapM fun path => entryKeys path (walk t n path) (t.lookup path)
          pure found.flatten

/-- `prefix.trim_end_matches('/')`. -/
def trimmed (under : String) : String := String.ofList (under.toList.rdropWhile (· == '/'))

def listDir (under : String) : Except StorageError (List String) :=
  if trimmed under = "" then .ok [] else sanitizeKey (trimmed under)

/-- List the keys under a prefix. No path is longer than the tree is deep. -/
def list (t : Tree) (under : String) : Except StorageError (List String) :=
  match listDir under with
  | .error e => .error e
  | .ok dir =>
      -- a file is listed under its own name, whatever that is
      if t.isFile dir then .ok [trimmed under]
      else
        match walk t (t.depth + 1) dir with
        | .error e => .error e
        | .ok keys => .ok (keys.mergeSort fun a b => decide (a ≤ b))

/-- Remove the object at `key`. -/
def delete (key : String) : StoreM Unit := fun t =>
  match sanitizeKey key with
  | .error e => .error e t
  | .ok path =>
      match t.removeFile path with
      | .ok t' => .ok () t'
      | .error .notFound => .error (.notFound key) t
      | .error e => .error (.io e) t

def «exists» (t : Tree) (key : String) : Except StorageError Bool :=
  match sanitizeKey key with
  | .error e => .error e
  | .ok path => .ok (t.isFile path)

inductive StoreCall where
  | put (fault : Option PutFault) (pid nonce : ℕ) (key : String) (bytes : List UInt8)
  | get (key : String)
  | delete (key : String)
  | «exists» (key : String)
  | list (under : String)

inductive StoreReply where
  | done
  | bytes (content : Option (List UInt8))
  | found (b : Bool)
  | keys (ks : List String)

/-- A call that only looks at the tree. -/
def reading (query : Tree → Except StorageError StoreReply) : StoreM StoreReply := fun t =>
  match query t with
  | .ok reply => .ok reply t
  | .error e => .error e t

def StoreCall.exec : StoreCall → StoreM StoreReply
  | .put fault pid nonce key bytes => do
      LocalStorage.put fault pid nonce key bytes
      pure .done
  | .get key => reading fun t => (LocalStorage.get t key).map StoreReply.bytes
  | .delete key => do
      LocalStorage.delete key
      pure .done
  | .exists key => reading fun t => (LocalStorage.«exists» t key).map StoreReply.found
  | .list under => reading fun t => (LocalStorage.list t under).map StoreReply.keys

/-! ## The map -/

/-- What the store is for: a map from keys to bytes. -/
abbrev Objects := String → Option (List UInt8)

abbrev StoreEvent := StoreCall × Except StorageError StoreReply

/-- What an answered call makes of the map. -/
def record (m : Objects) : StoreEvent → Objects
  | (.put _ _ _ key bytes, .ok _) => Function.update m key (some bytes)
  | (.delete key, .ok _) => Function.update m key none
  | _ => m

/-- Under each key the bytes of the last put that was not followed by a delete. -/
def objects (events : List StoreEvent) : Objects := events.foldl record fun _ => none

def rejected (key : String) : Option String :=
  match sanitizeKey key with
  | .error _ => some key
  | .ok _ => none

def StoreCall.rejects : StoreCall → Option String
  | .put _ _ _ key _ | .get key | .delete key | .exists key => rejected key
  | .list under => if trimmed under = "" then none else rejected (trimmed under)

/-- `key` is listed under a prefix: it is the prefix, or starts with it and a slash,
or the prefix is empty. -/
def Under (under key : String) : Prop :=
  trimmed under = "" ∨ key = trimmed under ∨ ∃ rest, key = trimmed under ++ "/" ++ rest

/-- How a map answers a call that names no rejected key. -/
def Answers (m : Objects) : StoreCall → Except StorageError StoreReply → Prop
  | .put _ _ _ _ _, reply => reply = .ok .done
  | .get key, reply => reply = .ok (.bytes (m key))
  | .delete key, reply => ((m key).isSome ∧ reply = .ok .done) ∨
      (m key = none ∧ reply = .error (.notFound key))
  | .exists key, reply => reply = .ok (.found (m key).isSome)
  | .list under, reply => ∃ keys, reply = .ok (.keys keys) ∧ (keys.Pairwise fun a b => a < b) ∧
      ∀ key, key ∈ keys ↔ (m key).isSome ∧ Under under key

/-- **A map**: every call that returned without an I/O error was answered as the map
of the calls before it answers, or rejected. A rejected call changes nothing. -/
structure AnsweredAsMap (events : List StoreEvent) : Prop where
  answered : ∀ before (call : StoreCall) reply after, events = before ++ (call, reply) :: after →
    (∀ e, reply ≠ .error (.io e)) → call.rejects = none → Answers (objects before) call reply
  rejected : ∀ (call : StoreCall) key, call.rejects = some key →
    ∀ t, call.exec t = .error (.invalidKey key) t

/-- The files, and the map that the calls so far have made. -/
structure Ledger where
  tree : Tree
  objects : Objects

def Ledger.start : Ledger := ⟨FileTree.empty, fun _ => none⟩

/-- One call, with any fault, where `C` allows it. -/
inductive StoreStep (C : StoreCall → Tree → Objects → Prop) :
    List StoreEvent → Ledger → Ledger → Prop
  | ok {call : StoreCall} {t t' : Tree} {m : Objects} {reply : StoreReply} (hC : C call t m)
      (h : call.exec t = .ok reply t') :
      StoreStep C [(call, .ok reply)] ⟨t, m⟩ ⟨t', record m (call, .ok reply)⟩
  | error {call : StoreCall} {t t' : Tree} {m : Objects} {e : StorageError} (hC : C call t m)
      (h : call.exec t = .error e t') :
      StoreStep C [(call, .error e)] ⟨t, m⟩ ⟨t', record m (call, .error e)⟩

/-! ## Temp files and objects -/

/-- The `put` does not fail before it creates its temp file. -/
def reachesTemp : Option PutFault → Bool
  | some (.dirs _) | some .create => false
  | _ => true

/-- The last segment of the key contains the marker of temp files. -/
def TempNamed (key : String) : Prop :=
  ∃ path, sanitizeKey key = .ok path ∧ isTemp (fileName path) = true

/-- A temp file that no `put` stored as an object. -/
def Leftover (t : Tree) (m : Objects) (path : List String) : Prop :=
  isTemp (fileName path) = true ∧ t.isFile path = true ∧ m (keyOf path) = none

/-- A temp file takes no object's place. -/
def Spares : StoreCall → Tree → Objects → Prop
  | .put fault pid nonce key _, _, m => ∀ path, sanitizeKey key = .ok path →
      reachesTemp fault = true → m (keyOf (tmpPath pid nonce path)) = none
  | _, _, _ => True

/-- The call names no leftover, and a listing covers no object with a temp file's name
other than the prefix itself. -/
def Avoids : StoreCall → Tree → Objects → Prop
  | .put .., _, _ => True
  | .get key, t, m | .delete key, t, m | .exists key, t, m =>
      ∀ path, sanitizeKey key = .ok path → ¬ Leftover t m path
  | .list under, t, m => ∀ dir, listDir under = .ok dir → ¬ Leftover t m dir ∧
      ∀ key, (m key).isSome → Under under key → TempNamed key → key = trimmed under

/-- Temp files and objects keep apart in the call. -/
def Apart (call : StoreCall) (t : Tree) (m : Objects) : Prop := Spares call t m ∧ Avoids call t m

end Rekha.LocalStorage
