import Mathlib.Data.List.Basic
import EasyLsm.DataStores.Formats
import EasyLsm.Db.World

/-!
# Opening a database

`Db::new` of `lib.rs`: find the manifest or create the first one, replay the logs that it lists,
open the tables, and continue with the LSN behind the last entry of the last log.
-/

namespace EasyLsm.Db

open Lib

/-- `RecoveredState`. -/
structure RecoveredState where
  mutableMemtable : Memtable .mutable
  mutableWal : WalHandle
  frozenMemtables : List (Memtable .immutable)
  sstables : List (List TableHandle)
  nextLsn : UInt64

/-- `Wal<ReadOnly>::open` and the whole iteration. -/
def replayWal (env : Env) (walId : UInt32) : Op (List Entry) := do
  let fault ← nextFault
  let dir ← Prog.read World.dir
  match dir.read (.wal walId), fault with
  | none, _ =>
      Prog.fail (.io (.notFound ("WAL file not found: \"" ++ env.path (.wal walId) ++ "\"")))
  | some _, some f => Prog.fail (.io f.kind)
  | some file, none => Prog.ofExcept (Wal.replay env.crates.crc32 file)

/-- `replay_immutable_wal`. -/
def replayImmutableWal (env : Env) (walId : UInt32) : Op (Memtable .immutable) := do
  let es ← replayWal env walId
  return (Memtable.new.putBatch es).freeze

/-- The LSN of the last entry, 0 when there is none. -/
def lastLsn (es : List Entry) : UInt64 :=
  match es.getLast? with
  | none => 0
  | some e => e.1.lsn

/-- `replay_mutable_wal`. -/
def replayMutableWal (env : Env) (walId : UInt32) : Op (Memtable .mutable × UInt64) := do
  let es ← replayWal env walId
  return (Memtable.new.putBatch es, lastLsn es)

/-- `recover_state`. -/
def recoverState (env : Env) (manifest : Manifest) : Op RecoveredState :=
  match manifest.wals.getLast? with
  | none => Prog.fail (.dataCorrupted "Manifest contains no WALs")
  | some mutableWalId => do
      let frozenMemtables ← Prog.forEach (replayImmutableWal env) manifest.wals.dropLast
      let (mutableMemtable, maxLsn) ← replayMutableWal env mutableWalId
      let mutableWal ← openWal mutableWalId
      let sstables ← Prog.forEach (fun level : Level =>
        Prog.forEach (fun fileMeta => openTable env fileMeta.fileId) level.files) manifest.levels
      return { mutableMemtable, mutableWal, frozenMemtables, sstables, nextLsn := maxLsn + 1 }

/-- `Manifest::prepare_pristine_start`. -/
def preparePristineStart (env : Env) : Op Manifest := do
  let wal ← openWal 0
  let m := Manifest.new wal.id
  writeToPath env m (.mf 0)
  return m

/-- `Manifest::recover_or_init`. -/
def recoverOrInit (env : Env) : Op Manifest := do
  let dir ← Prog.read World.dir
  match Manifest.recover env.crates.crc32 env.dbDir dir with
  | none => preparePristineStart env
  | some result => do
      match ← nextFault with
      | none => Prog.ofExcept result
      | some f => Prog.fail (Manifest.readError env.dbDir
          ((Manifest.newestVersion dir).getD 0) (.io f.kind))

/-- `Db::new` on a directory that exists. What was in memory before is gone. -/
def newDb (env : Env) : Op Unit := do
  let manifest ← recoverOrInit env
  let state ← recoverState env manifest
  Prog.modify fun w => { w with
    manifest
    current := {
      nextLsn := state.nextLsn
      mutableMemtable := state.mutableMemtable
      frozenMemtables := state.frozenMemtables
      mutableWal := state.mutableWal
      sstables := state.sstables }
    nextLsn := state.nextLsn }

/-! ## The first start -/

/-- A database directory `db` with the default size of memtables. -/
def defaultEnv : Env := ⟨crates, "db", 4194304⟩

/-- The directory that the first start leaves: the first log and the first manifest. -/
def pristineDir (env : Env) : Dir :=
  let dir : Dir := (FileStore.empty.openOrCreate (.wal 0)).2.setContent 0 Wal.magicBytes
  (dir.create (.mf 0)).2.setContent 1 ((Manifest.new 0).encode env.crates.crc32)

/-- A database after its first start. -/
def pristine (env : Env) : World where
  dir := pristineDir env
  faults := []
  trace := []
  manifest := Manifest.new 0
  current := {
    nextLsn := 1
    mutableMemtable := Memtable.new
    frozenMemtables := []
    mutableWal := ⟨0, 0, []⟩
    sstables := [] }
  nextLsn := 1

/-- `Db::new` on an empty directory. -/
theorem newDb_pristine (env : Env) {w : World} (hdir : w.dir = FileStore.empty)
    (hfaults : w.faults = []) :
    ∃ trace, newDb env w = (.ok (), { pristine env with trace }) := by
  cases w
  cases hdir
  cases hfaults
  exact ⟨_, rfl⟩

end EasyLsm.Db
