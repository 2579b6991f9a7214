import Mathlib.Data.List.Basic
import Mathlib.Data.List.Sort
import EasyLsm.Db.World

/-!
# Garbage collection

`prepare_gc_snapshot` and `garbage_collect` of `compact.rs`. Of the manifest files the two with
the highest versions are kept, and of the logs and tables those that one of these two lists, or
the manifest in memory. Errors are ignored, file by file.
-/

namespace EasyLsm.Db

open Lib

/-- `prepare_gc_snapshot`: the logs and the tables that the manifest lists. -/
def prepareGcSnapshot (m : Manifest) : List UInt32 × List UInt32 := (m.wals, m.sstableIds)

/-- What a manifest file lists; nothing when it cannot be read. -/
def referencedBy (env : Env) (version : UInt32) : Op (List UInt32 × List UInt32) := do
  match ← (openFile (.mf version)).attempt with
  | .error _ => return ([], [])
  | .ok inode => do
      let dir ← Prog.read World.dir
      match Manifest.decode env.crates.crc32 (dir.content inode) with
      | .error _ => return ([], [])
      | .ok (m, _) => return (m.wals, m.sstableIds)

/-- A log or a table that is not referenced. -/
def isObsolete (referencedWals referencedSsts : List UInt32) : FileName → Bool
  | .mf _ => false
  | .mfTmp _ => false
  | .wal id => !referencedWals.contains id
  | .sst id => !referencedSsts.contains id

/-- Delete a file and ignore an error. -/
def deleteFile (name : FileName) : Op Unit := do
  let _ ← (removeFile name).attempt

/-- `garbage_collect`. -/
def garbageCollect (env : Env) (liveWalsSnapshot liveSstsSnapshot : List UInt32) : Op Unit := do
  match ← nextFault with
  | some _ => return ()
  | none => do
      let dir ← Prog.read World.dir
      let fileNames := dir.names.map Prod.fst
      let manifestFiles := (Dir.versions dir).insertionSort (· ≥ ·)
      let keepCount := 2
      let kept ← Prog.forEach (referencedBy env) (manifestFiles.take keepCount)
      let referencedWals := liveWalsSnapshot ++ kept.flatMap Prod.fst
      let referencedSsts := liveSstsSnapshot ++ kept.flatMap Prod.snd
      let _ ← Prog.forEach (fun version => deleteFile (.mf version))
        (manifestFiles.drop keepCount)
      let _ ← Prog.forEach deleteFile (fileNames.filter (isObsolete referencedWals referencedSsts))

end EasyLsm.Db
