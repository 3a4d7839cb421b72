import Rekha.Engine.Collection

/-!
# Engine calls on one collection

The write calls of the engine, which validate a batch, commit it, apply the
flush policy and may checkpoint; and the runs they generate. A run is a
sequence of calls that all returned `Ok`. Its history is the list of operations
it acknowledged: the `n`-th of them carries seq `n`.
-/

namespace Rekha

open Collection

/-- The `i`-th of an optional parallel list of optional values. -/
def nthOpt {α : Type} (opt : Option (List (Option α))) (i : ℕ) : Option α :=
  (opt.map fun l => l.getD i none).getD none

/-- One operation per id, with its embedding, metadata and document. -/
def putOps (mk : Id → Embedding → Option Metadata → Option Document → Operation)
    (ids : List Id) (embeddings : List Embedding)
    (metadatas : Option (List (Option Metadata)))
    (documents : Option (List (Option Document))) : List Operation :=
  ids.zipIdx.map fun p =>
    mk p.1 (embeddings.getD p.2 []) (nthOpt metadatas p.2) (nthOpt documents p.2)

def addOps := putOps .add

def upsertOps := putOps .upsert

def updateOps (ids : List Id) (metadatas : Option (List (Option Metadata)))
    (documents : Option (List (Option Document))) : List Operation :=
  ids.zipIdx.map fun p => .update p.1 (nthOpt metadatas p.2) (nthOpt documents p.2)

def Collection.setDimension (c : Collection) (dim : ℕ) : Collection :=
  { c with config := { c.config with dimension := dim } }

/-- An unset dimension is taken from the first embedding, before validation. -/
def inferDimension (embeddings : List Embedding) : EngineM (Option ℕ) := do
  let c ← get
  match embeddings with
  | [] => pure none
  | e :: _ =>
      if c.config.dimension = 0 then do
        modify fun c => c.setDimension e.length
        pure (some e.length)
      else pure none

/-- Store an inferred dimension in the catalog. A failure of the catalog call
(`persisted = false`) is only logged. -/
def persistDimension (persisted : Bool) : Option ℕ → EngineM Unit
  | none => pure ()
  | some dim =>
      if persisted then
        modify fun c => { c with catalog := { c.catalog with dimension := dim } }
      else pure ()

/-- The body `add` and `upsert` share. -/
def putBatch (persisted : Bool) (validate : Collection → Except EngineError Unit)
    (embeddings : List Embedding) (ops : List Operation) : EngineM Unit := do
  let inferred ← inferDimension embeddings
  let c ← get
  Outcome.ofExcept (validate c)
  persistDimension persisted inferred
  writeOps ops
  flushIfNeeded
  autoCheckpoint

def add (persisted : Bool) (ids : List Id) (embeddings : List Embedding)
    (metadatas : Option (List (Option Metadata)))
    (documents : Option (List (Option Document))) : EngineM Unit :=
  putBatch persisted (fun c => c.validateAdd ids embeddings metadatas documents) embeddings
    (addOps ids embeddings metadatas documents)

def upsert (persisted : Bool) (ids : List Id) (embeddings : List Embedding)
    (metadatas : Option (List (Option Metadata)))
    (documents : Option (List (Option Document))) : EngineM Unit :=
  putBatch persisted (fun c => c.validateUpsert ids embeddings metadatas documents)
    embeddings (upsertOps ids embeddings metadatas documents)

/-- Update the metadata and document of existing records. -/
def update (ids : List Id) (metadatas : Option (List (Option Metadata)))
    (documents : Option (List (Option Document))) : EngineM Unit := do
  let c ← get
  Outcome.ofExcept (c.validateUpdate ids metadatas documents)
  writeOps (updateOps ids metadatas documents)
  autoCheckpoint

/-- Delete records by id; missing ids are fine. -/
def delete (ids : List Id) : EngineM Unit := do
  writeOps (ids.map .delete)
  autoCheckpoint

/-! ## Runs -/

/-- What a client, the flush policy or an operator can do to a collection. -/
inductive Call where
  | add (persisted : Bool) (ids : List Id) (embeddings : List Embedding)
      (metadatas : Option (List (Option Metadata)))
      (documents : Option (List (Option Document)))
  | upsert (persisted : Bool) (ids : List Id) (embeddings : List Embedding)
      (metadatas : Option (List (Option Metadata)))
      (documents : Option (List (Option Document)))
  | update (ids : List Id) (metadatas : Option (List (Option Metadata)))
      (documents : Option (List (Option Document)))
  | delete (ids : List Id)
  | flush
  | checkpoint
  | optimize
  | restart (order : HashOrder)

namespace Call

/-- Keep the state of a successful run. -/
def accepted {α : Type} (m : EngineM α) (c : Collection) : Except EngineError Collection :=
  match m c with
  | .ok _ c => .ok c
  | .error e _ => .error e

def run : Call → Collection → Except EngineError Collection
  | .add p ids es ms ds => accepted (Rekha.add p ids es ms ds)
  | .upsert p ids es ms ds => accepted (Rekha.upsert p ids es ms ds)
  | .update ids ms ds => accepted (Rekha.update ids ms ds)
  | .delete ids => accepted (Rekha.delete ids)
  | .flush => accepted flushBuffer
  | .checkpoint => accepted Collection.checkpoint
  | .optimize => accepted Collection.optimize
  | .restart order => fun c => reopen c.config c.disk order

/-- The operations an accepted call acknowledges. -/
def ops : Call → List Operation
  | .add _ ids es ms ds => addOps ids es ms ds
  | .upsert _ ids es ms ds => upsertOps ids es ms ds
  | .update ids ms ds => updateOps ids ms ds
  | .delete ids => ids.map .delete
  | _ => []

/-- A write batch or a flush: no explicit checkpoint, optimize or restart. -/
def isWriteOrFlush : Call → Prop
  | .checkpoint | .optimize | .restart _ => False
  | _ => True

end Call

/-- Run a list of calls, stopping at the first one that fails. -/
def runAll : List Call → Collection → Except EngineError Collection
  | [], c => .ok c
  | a :: calls, c =>
      match a.run c with
      | .ok c => runAll calls c
      | .error e => .error e

theorem exists_accepted {α : Type} {m : EngineM α} {c : Collection} {P : Collection → Bool}
    (h : (Call.accepted m c).toOption.any P = true) :
    ∃ a c', m c = .ok a c' ∧ P c' = true := by
  rw [Call.accepted] at h
  cases hm : m c with
  | error e c' =>
      rw [hm] at h
      exact absurd h (by simp [Except.toOption])
  | ok a c' =>
      rw [hm] at h
      exact ⟨a, c', rfl, h⟩

theorem exists_runAll {calls : List Call} {c : Collection} {P : Collection → Bool}
    (h : (runAll calls c).toOption.any P = true) :
    ∃ c', runAll calls c = .ok c' ∧ P c' = true := by
  cases hr : runAll calls c with
  | error e =>
      rw [hr] at h
      exact absurd h (by simp [Except.toOption])
  | ok c' =>
      rw [hr] at h
      exact ⟨c', rfl, h⟩

/-- States reached from a fresh collection by accepted calls of the allowed
kinds, with the operations acknowledged on the way. -/
inductive Reachable (allowed : Call → Prop) (config : CollectionConfig) :
    List Operation → Collection → Prop
  | fresh : Reachable allowed config [] (Collection.fresh config)
  | call {h : List Operation} {c c' : Collection} (a : Call) :
      Reachable allowed config h c → allowed a → a.run c = .ok c' →
      Reachable allowed config (h ++ a.ops) c'

theorem Reachable.runAll {allowed : Call → Prop} {config : CollectionConfig} :
    ∀ {calls : List Call} {h : List Operation} {c c' : Collection},
      Reachable allowed config h c → (∀ a ∈ calls, allowed a) →
      Rekha.runAll calls c = .ok c' →
      Reachable allowed config (h ++ calls.flatMap Call.ops) c'
  | [], h, c, c', hc, _, hr => by
      obtain rfl := Except.ok.inj hr
      rw [List.flatMap_nil, List.append_nil]
      exact hc
  | a :: calls, h, c, c', hc, hall, hr => by
      rw [Rekha.runAll] at hr
      cases ha : a.run c with
      | error e =>
          rw [ha] at hr
          exact absurd hr (by simp)
      | ok c₁ =>
          rw [ha] at hr
          have hc₁ := Reachable.call a hc (hall a List.mem_cons_self) ha
          have := Reachable.runAll hc₁ (fun b hb => hall b (List.mem_cons_of_mem a hb)) hr
          rwa [List.append_assoc] at this

/-! ## A collection to run -/

def demoConfig : CollectionConfig :=
  { id := ⟨1⟩, name := "demo", dimension := 1, space := .l2 }

/-- The one-dimensional vectors `0.0`, `1.0` and `2.0`. -/
def zero : Embedding := [⟨0#32⟩]
def one : Embedding := [⟨0x3F800000#32⟩]
def two : Embedding := [⟨0x40000000#32⟩]

end Rekha
