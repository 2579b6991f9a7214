import Mathlib.Data.List.Basic
import EasyLsm.Db.World

/-!
# Writing and reading

`put`, `del`, `get` and `rotate_memtable` of `lib.rs` for one thread: a `put` is a group of one,
which takes the next LSN, appends its record to the log, inserts its entry into the memtable and
rotates the memtable when it is full.
-/

namespace EasyLsm.Db

open Lib

/-- `rotate_memtable` up to its last line, with the log of the version that it replaces. The log
file is created before the manifest that lists it is committed, and opened again afterwards. -/
def switchMemtable (env : Env) : Op WalHandle := do
  let newManifest ← applyAtomicUpdate env (fun manifestCandidate => do
    let newWalId := manifestCandidate.nextWalId
    let _ ← openWal newWalId
    Prog.ofExcept (rotateMutator manifestCandidate)) 3
  match newManifest.wals.getLast? with
  | none => Prog.fail (.dataCorrupted "No WALs after rotation")
  | some newWalId => do
      let newWal ← openWal newWalId
      let current ← Prog.read World.current
      Prog.modify fun w => { w with
        current := rotateVersion Memtable.freezeFromRef Memtable.new newWal w.current }
      return current.mutableWal

/-- `rotate_memtable`. At its end the old version is dropped, and its log with it. -/
def rotateMemtable (env : Env) : Op Unit := do
  let mutableWal ← switchMemtable env
  mutableWal.drop

/-- `write_memtable` for a group of one. -/
def writeMemtable (e : Entry) : Op Unit :=
  Prog.modify fun w => { w with
    current := { w.current with mutableMemtable := w.current.mutableMemtable.putBatch [e] } }

/-- `Db::write` for a group of one. -/
def write (env : Env) (key : Key) (val : Value) : Op Unit := do
  let lsn ← Prog.read World.nextLsn
  Prog.modify fun w => { w with nextLsn := w.nextLsn + 1 }
  let e : Entry := (key.updateLsn lsn, val)
  let mutableWal ← Prog.read fun w => w.current.mutableWal
  mutableWal.write (Wal.encodeEntry env.crates.crc32 e)
  writeMemtable e
  let size ← Prog.read fun w => w.current.mutableMemtable.size
  if env.maxMemtableSize ≤ size then rotateMemtable env else pure ()

/-- `Db::put`. -/
def put (env : Env) (key : Bytes) (value : Value) : Op Unit := write env (Key.new key 0) value

/-- `Db::del`. -/
def del (env : Env) (key : Bytes) : Op Unit := put env key .tombstone

/-- Ask tables for a key until one has it. -/
def searchTables (env : Env) (keyBytes : Bytes) : List TableHandle → Op (Option Value)
  | [] => pure none
  | sstable :: rest => do
      match ← sstable.search env keyBytes with
      | some val => return some val
      | none => searchTables env keyBytes rest

/-- `Db::get`. -/
def get (env : Env) (key : Bytes) : Op (Option Value) := do
  let currentVersion ← Prog.read World.current
  match currentVersion.mutableMemtable.get key with
  | some val => return some val
  | none =>
      -- newest to oldest
      match currentVersion.frozenMemtables.reverse.findSome? (·.get key) with
      | some val => return some val
      | none => searchTables env key currentVersion.sstables.flatten

end EasyLsm.Db
