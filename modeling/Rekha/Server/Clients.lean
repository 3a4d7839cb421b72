import Rekha.Lib.Processes
import Rekha.Server.Isolation
import Rekha.Server.Native

/-!
# The native requests step by step

A request is cut where another can come between: at its catalog transaction, at
its update of the map and at each lookup in it. Run on its own it is the handler
(`run_alone`).
-/

namespace Rekha.Server.Native

open RedbCatalog Outcome Server.Engine Processes Processes.Config

/-! ## The steps -/

/-- A request, with what its steps meet in the file system. -/
inductive Call where
  | create (files : Opening) (id : Uuid) (req : CreateCollectionRequest)
  | delete (walFile checkpointDir : Removal) (id : Uuid)
  | list

inductive Reply where
  | created (res : CollectionResponse)
  | deleted
  | listed (out : List CollectionResponse)

/-- Where a request stands between two steps. -/
inductive Stage where
  | start
  | opening (files : Opening) (record : CollectionRecord)
  | reading (record : CollectionRecord)
  | removing (walFile checkpointDir : Removal) (id : Uuid)
  | counting (records : List CollectionRecord) (out : List CollectionResponse)
  | done (res : Except EngineError Reply)

/-- The requests to a server with one tenant and database. -/
structure Clients (ι : Type) where
  tenant : String
  database : String
  call : ι → Call

namespace Clients

variable {ι : Type}

/-- The steps of the handlers on the shared engine. -/
def next (S : Clients ι) (i : ι) : Stage → Engine → Option (Stage × Engine)
  | .start, e =>
      match S.call i with
      | .create files id req =>
          match validateCreate req with
          | .error err => some (.done (.error err), e)
          | .ok () =>
              match RedbCatalog.createCollection none
                (createConfig id S.tenant S.database req) e.catalog with
              | .ok record c => some (.opening files record, { e with catalog := c })
              | .error err c => some (.done (.error (.catalog err)), { e with catalog := c })
      | .delete walFile checkpointDir id =>
          match RedbCatalog.deleteCollection none id e.catalog with
          | .ok _ c => some (.removing walFile checkpointDir id, { e with catalog := c })
          | .error err c => some (.done (.error (.catalog err)), { e with catalog := c })
      | .list => some (.counting (e.listCollections S.tenant S.database) [], e)
  | .opening files record, e =>
      match openCollection files record with
      | .error err => some (.done (.error err), e)
      | .ok coll => some (.reading record,
          { e with collections := e.collections.insert record.config.id coll })
  | .reading record, e => some (.done ((counted e record).map .created), e)
  | .removing walFile checkpointDir id, e =>
      let e' := { e with collections := e.collections.erase id }
      some (.done ((result (removeFiles walFile checkpointDir e')).map fun _ => .deleted), e')
  | .counting [] out, e => some (.done (.ok (.listed out)), e)
  | .counting (record :: records) out, e =>
      match counted e record with
      | .error err => some (.done (.error err), e)
      | .ok res => some (.counting records (out ++ [res]), e)
  | .done _, _ => none

/-- All requests before their first step. -/
def starting (e : Engine) : Config ι Engine Stage := ⟨e, fun _ => .start⟩

end Clients

def Call.handle (tenant database : String) : Call → ServerM Reply
  | .create files id req => .created <$> createCollection files id tenant database req
  | .delete walFile checkpointDir id =>
      (fun _ => .deleted) <$> deleteCollection walFile checkpointDir id
  | .list => .listed <$> listCollections tenant database

namespace Clients

variable {ι : Type}

/-! ## One request on its own -/

theorem result_ofExcept {α : Type} (x : Except EngineError α) (e : Engine) :
    result (Outcome.ofExcept x e) = x := by
  cases x with
  | ok a => rfl
  | error err => rfl

theorem turns_counting (S : Clients ι) (i : ι) (e : Engine) :
    ∀ (records : List CollectionRecord) (out : List CollectionResponse),
      (turn (S.next i))^[records.length + 1] (.counting records out, e) =
        (.done ((countAll e records out).map .listed), e)
  | [], _ => rfl
  | record :: records, out => by
      cases hcount : counted e record with
      | error err =>
          rw [iterate_turn_some _ (by rw [next, hcount]), countAll, hcount]
          exact iterate_turn_none _ rfl
      | ok res =>
          rw [iterate_turn_some _ (by rw [next, hcount]), countAll, hcount]
          exact turns_counting S i e records (out ++ [res])

theorem turns_delete (S : Clients ι) {i : ι} (e : Engine) {walFile checkpointDir : Removal}
    {id : Uuid} (hcall : S.call i = .delete walFile checkpointDir id) :
    (turn (S.next i))^[2] (.start, e) =
      (.done ((result (deleteCollection walFile checkpointDir id e)).map fun _ => .deleted),
        final (deleteCollection walFile checkpointDir id e)) := by
  cases hdelete : RedbCatalog.deleteCollection none id e.catalog with
  | error err catalog =>
      have hhandle : deleteCollection walFile checkpointDir id e =
          .error (.catalog err) { e with catalog := catalog } := by
        refine bind_error.mpr (Or.inl ?_)
        rw [onCatalog, hdelete]
      have hnext : S.next i .start e =
          some (.done (.error (.catalog err)), { e with catalog := catalog }) := by
        rw [next, hcall]
        simp only [hdelete]
      rw [hhandle, iterate_turn_some 1 hnext]
      exact iterate_turn_none 1 rfl
  | ok u catalog =>
      have hhandle : deleteCollection walFile checkpointDir id e =
          removeFiles walFile checkpointDir ⟨catalog, e.collections.erase id⟩ :=
        bind_of_ok (onCatalog_ok.mpr ⟨catalog, hdelete, rfl⟩)
      have hnext : S.next i .start e =
          some (.removing walFile checkpointDir id, { e with catalog := catalog }) := by
        rw [next, hcall]
        simp only [hdelete]
      rw [hhandle, LifecycleCall.final_removeFiles, iterate_turn_some 1 hnext]
      rfl

theorem turns_create (S : Clients ι) {i : ι} (e : Engine) {files : Opening} {id : Uuid}
    {req : CreateCollectionRequest} (hcall : S.call i = .create files id req) :
    (turn (S.next i))^[3] (.start, e) =
      (.done ((result (createCollection files id S.tenant S.database req e)).map .created),
        final (createCollection files id S.tenant S.database req e)) := by
  unfold createCollection
  cases hvalid : validateCreate req with
  | error err =>
      have hnext : S.next i .start e = some (.done (.error err), e) := by
        rw [next, hcall]
        simp only [hvalid]
      rw [iterate_turn_some 2 hnext]
      exact iterate_turn_none 2 rfl
  | ok u =>
      show _ = (Stage.done ((result (EStateM.bind (Engine.createCollection _ _ _) _ e)).map _),
        final (EStateM.bind (Engine.createCollection _ _ _) _ e))
      rw [EStateM.bind]
      cases hcreate : RedbCatalog.createCollection none
          (createConfig id S.tenant S.database req) e.catalog with
      | error err c =>
          have hnext : S.next i .start e =
              some (.done (.error (.catalog err)), { e with catalog := c }) := by
            rw [next, hcall]
            simp only [hvalid, hcreate]
          rw [createCollection_of_error hcreate, iterate_turn_some 2 hnext]
          exact iterate_turn_none 2 rfl
      | ok record c =>
          have hnext : S.next i .start e =
              some (.opening files record, { e with catalog := c }) := by
            rw [next, hcall]
            simp only [hvalid, hcreate]
          rw [iterate_turn_some 2 hnext]
          cases hopen : openCollection files record with
          | error err =>
              rw [createCollection_of_fails hcreate hopen,
                iterate_turn_some 1 (by rw [next, hopen])]
              exact iterate_turn_none 1 rfl
          | ok coll =>
              obtain ⟨_, _, _, rfl, _⟩ := RedbCatalog.createCollection_ok.mp hcreate
              rw [createCollection_of_opened hcreate hopen,
                iterate_turn_some 1 (by rw [next, hopen])]
              show _ = (Stage.done ((result (Outcome.ofExcept (counted _ _) _)).map _),
                final (Outcome.ofExcept (counted _ _) _))
              rw [result_ofExcept, final_ofExcept]
              rfl

theorem run_alone (S : Clients ι) (i : ι) (e : Engine) :
    let handled := (S.call i).handle S.tenant S.database e
    ∃ n, (turn (S.next i))^[n] (.start, e) = (.done (result handled), final handled) := by
  intro handled
  show ∃ n, _ = (Stage.done (result ((S.call i).handle _ _ e)), final ((S.call i).handle _ _ e))
  cases hcall : S.call i with
  | create files id req =>
      refine ⟨3, ?_⟩
      rw [Call.handle, ActsOn.result_map, ActsOn.final_map]
      exact turns_create S e hcall
  | delete walFile checkpointDir id =>
      refine ⟨2, ?_⟩
      rw [Call.handle, ActsOn.result_map, ActsOn.final_map]
      exact turns_delete S e hcall
  | list =>
      refine ⟨(e.listCollections S.tenant S.database).length + 2, ?_⟩
      have hhandle : listCollections S.tenant S.database e =
          Outcome.ofExcept (countAll e (e.listCollections S.tenant S.database) []) e := rfl
      rw [Call.handle, ActsOn.result_map, ActsOn.final_map, hhandle,
        iterate_turn_some _ (by rw [next, hcall]), turns_counting, result_ofExcept, final_ofExcept]

end Clients

end Rekha.Server.Native
