import Mathlib.Data.List.Basic
import EasyLsm.Db.Gc

/-!
# Flushing

`flush_memtables` of `compact.rs`: every frozen memtable becomes a table, then one manifest update
lists the tables in level 0 and drops the logs, and the new version is published.
-/

namespace EasyLsm.Db

open Lib

/-- `DbError::Io` of an `Error::new(ErrorKind::Other, format!("{}: {}", text, e))`. -/
def otherError (text : String) (e : DbError) : DbError := .io (.other (text ++ ": " ++ e.display))

/-- Write entries to a table one after the other. -/
def TableWriter.writeAll (env : Env) (w : TableWriter) : List Entry → Op TableWriter
  | [] => pure w
  | e :: es => do
      let w ← w.write env e.1 e.2
      TableWriter.writeAll env w es

/-- Write one memtable to the table with a given id. -/
def flushTable (env : Env) (sstId : UInt32) (memtable : Memtable .immutable) :
    Op FileMetadata := do
  let sstPath := env.path (.sst sstId)
  let writer ← (TableWriter.new (.sst sstId)).mapError
    (otherError ("Failed to create SSTable " ++ sstPath))
  let writer ← (writer.writeAll env memtable.iter).mapError
    (otherError ("Failed to write to SSTable " ++ sstPath))
  let meta' ← (writer.finalize env).mapError
    (otherError ("Failed to finalize SSTable " ++ sstPath))
  return { meta' with fileId := sstId }

/-- Open the tables that were just written. -/
def openNewTables (env : Env) (text : String) (newSstables : List FileMetadata) :
    Op (List TableHandle) :=
  Prog.forEach (fun meta' => (openTable env meta'.fileId).mapError
    (otherError (text ++ env.path (.sst meta'.fileId)))) newSstables

/-- The last phase of a flush and of a compaction: collect what nothing references. -/
def collectGarbage (env : Env) : Op Unit := do
  let guard ← Prog.read World.manifest
  let (walsKeep, sstsKeep) := prepareGcSnapshot guard
  garbageCollect env walsKeep sstsKeep

/-- `flush_memtables`. -/
def flushMemtables (env : Env) : Op Unit := do
  let currentVersion ← Prog.read World.current
  let memtablesToFlush := currentVersion.frozenMemtables
  if memtablesToFlush.isEmpty then return ()
  else do
    let startSstId ← reserveSstableId
    let manifestGuard ← Prog.read World.manifest
    let walsToDelete := manifestGuard.wals.take memtablesToFlush.length
    if walsToDelete.length ≠ memtablesToFlush.length then
      Prog.fail (.dataCorrupted ("CRITICAL ERROR: WAL len " ++
        toString manifestGuard.wals.length ++ " mismatch Memtable len " ++
        toString memtablesToFlush.length))
    else do
      let newSstables ← Prog.forEach (fun p => flushTable env (startSstId + UInt32.ofNat p.2) p.1)
        memtablesToFlush.zipIdx
      let newSstObjs ← openNewTables env "Failed to open new SSTable " newSstables
      let _ ← applyAtomicUpdate env
        (fun candidate => Prog.ofExcept (flushMutator newSstables walsToDelete candidate)) 3
      Prog.modify fun w => { w with
        current := flushVersion newSstables.length newSstObjs w.current }
      collectGarbage env

end EasyLsm.Db
