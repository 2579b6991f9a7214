import Mathlib.Data.List.Basic
import Mathlib.Data.List.Sort
import EasyLsm.DataStores.Manifest

/-!
# Structural updates

A rotation, a flush and a compaction each change two things: the manifest, through the closure
handed to `apply_atomic_update`, and the `DbVersion`, after the commit. Both halves of the three
operations are here, as functions of the candidate manifest and of the loaded version. The types
of memtables, logs and tables are parameters of `DbVersion`.
-/

namespace EasyLsm

open Lib

/-- `DbVersion`. -/
structure DbVersion (Mem Frozen Wal Sst : Type) where
  nextLsn : UInt64
  mutableMemtable : Mem
  frozenMemtables : List Frozen
  mutableWal : Wal
  sstables : List (List Sst)

/-! ## The manifest -/

/-- The closure of `rotate_memtable`: list the next WAL id. -/
def rotateMutator (m : Manifest) : Except DbError Manifest :=
  .ok { m with wals := m.wals ++ [m.nextWalId] }

/-- List one flushed table in level 0, which is created when there is no level. -/
def pushL0 (m : Manifest) (meta' : FileMetadata) : Manifest :=
  let levels := if m.levels.isEmpty then [default] else m.levels
  { m with levels := levels.modify 0 (fun level => ⟨level.files ++ [meta']⟩) }

/-- The `{:?}` text of a vector of ids. -/
def debugIds (ids : List UInt32) : String :=
  "[" ++ ", ".intercalate (ids.map fun id => toString id.toNat) ++ "]"

/-- The closure of `flush_memtables`: list the new tables and drop the flushed WALs. -/
def flushMutator (newSstables : List FileMetadata) (walsToDelete : List UInt32) (m : Manifest) :
    Except DbError Manifest :=
  let m := newSstables.foldl pushL0 m
  let currentWals := m.wals.take walsToDelete.length
  if currentWals ≠ walsToDelete then
    .error (.dataCorrupted ("Manifest mismatch during flush commit. Expected WALs " ++
      debugIds walsToDelete ++ ", found " ++ debugIds currentWals))
  else
    .ok { m with wals := m.wals.drop walsToDelete.length }

/-- Add empty elements until the list is longer than `idx`. -/
def growTo {α : Type} (fill : α) (idx : Nat) (l : List α) : List α :=
  l ++ List.replicate (idx + 1 - l.length) fill

/-- Keep the files whose id is not among those of `removed`. -/
def retainFiles (removed : List FileMetadata) (level : Level) : Level :=
  ⟨level.files.filter fun f => ¬ removed.any fun rem => rem.fileId = f.fileId⟩

/-- Add files to a level and sort it by smallest key. -/
def extendLevel (newFiles : List FileMetadata) (level : Level) : Level :=
  ⟨(level.files ++ newFiles).insertionSort fun a b => a.minKey ≤ b.minKey⟩

/-- The closure of `execute_compaction`: take the inputs out of their levels, add the outputs to
the target level and sort it. -/
def compactMutator (sourceLevelIdx : Nat) (removeFromSource removeFromTarget newFiles :
    List FileMetadata) (m : Manifest) : Except DbError Manifest :=
  let targetLevelIdx := sourceLevelIdx + 1
  let levels := growTo default targetLevelIdx m.levels
  let levels := levels.modify sourceLevelIdx (retainFiles removeFromSource)
  let levels := levels.modify targetLevelIdx (retainFiles removeFromTarget)
  let levels := levels.modify targetLevelIdx (extendLevel newFiles)
  .ok { m with levels }

/-! ## The version -/

section Version

variable {Mem Frozen Wal Sst : Type}

/-- The new version of `rotate_memtable`. -/
def rotateVersion (freezeFromRef : Mem → Frozen) (fresh : Mem) (newWal : Wal)
    (current : DbVersion Mem Frozen Wal Sst) : DbVersion Mem Frozen Wal Sst where
  nextLsn := current.nextLsn
  mutableMemtable := fresh
  mutableWal := newWal
  frozenMemtables := current.frozenMemtables ++ [freezeFromRef current.mutableMemtable]
  sstables := current.sstables

/-- The new version of `flush_memtables`. -/
def flushVersion (numFlushed : Nat) (newSstObjs : List Sst)
    (current : DbVersion Mem Frozen Wal Sst) : DbVersion Mem Frozen Wal Sst :=
  let sstables := if current.sstables.isEmpty then [[]] else current.sstables
  { current with
    frozenMemtables := current.frozenMemtables.drop numFlushed
    sstables := sstables.modify 0 (· ++ newSstObjs) }

/-- The new version of `execute_compaction`, for tables with an id and a smallest key. -/
def compactVersion (sstId : Sst → UInt32) (minKey : Sst → Key) (sourceLevelIdx : Nat)
    (removeFromSource removeFromTarget : List FileMetadata) (newSstObjs : List Sst)
    (current : DbVersion Mem Frozen Wal Sst) : DbVersion Mem Frozen Wal Sst :=
  let targetLevelIdx := sourceLevelIdx + 1
  let retain (removed : List FileMetadata) (level : List Sst) : List Sst :=
    level.filter fun sst => ¬ removed.any fun f => f.fileId = sstId sst
  let levels := growTo [] targetLevelIdx current.sstables
  let levels := levels.modify sourceLevelIdx (retain removeFromSource)
  let levels := levels.modify targetLevelIdx (retain removeFromTarget)
  let levels := levels.modify targetLevelIdx fun level =>
    (level ++ newSstObjs).insertionSort fun a b => minKey a ≤ minKey b
  { current with sstables := levels }

end Version

/-! ## What the closures leave alone -/

/-- A closure leaves the version and the counters of the candidate alone. -/
structure KeepsCounters (mutator : Manifest → Except DbError Manifest) : Prop where
  version : ∀ {m m' : Manifest}, mutator m = .ok m' → m'.version = m.version
  nextWalId : ∀ {m m' : Manifest}, mutator m = .ok m' → m'.nextWalId = m.nextWalId
  nextSstableId : ∀ {m m' : Manifest}, mutator m = .ok m' → m'.nextSstableId = m.nextSstableId

theorem rotateMutator_keepsCounters : KeepsCounters rotateMutator := by
  constructor <;> · intro m m' h; cases h; rfl

/-- Listing flushed tables changes the levels only. -/
theorem foldl_pushL0_eq (metas : List FileMetadata) (m : Manifest) :
    ∃ levels, metas.foldl pushL0 m = { m with levels } := by
  induction metas generalizing m with
  | nil => exact ⟨m.levels, rfl⟩
  | cons f metas ih =>
      obtain ⟨levels, h⟩ := ih (pushL0 m f)
      exact ⟨levels, by rw [List.foldl_cons, h, pushL0]⟩

theorem flushMutator_keepsCounters (newSstables : List FileMetadata)
    (walsToDelete : List UInt32) : KeepsCounters (flushMutator newSstables walsToDelete) := by
  have hkeeps : ∀ {m m' : Manifest}, flushMutator newSstables walsToDelete m = .ok m' →
      ∃ levels wals, m' = { m with levels, wals } := by
    intro m m' h
    obtain ⟨levels, hfold⟩ := foldl_pushL0_eq newSstables m
    simp only [flushMutator, hfold] at h
    split at h
    · cases h
    · cases h
      exact ⟨_, _, rfl⟩
  constructor <;> · intro m m' h; obtain ⟨_, _, rfl⟩ := hkeeps h; rfl

theorem compactMutator_keepsCounters (sourceLevelIdx : Nat) (removeFromSource removeFromTarget
    newFiles : List FileMetadata) : KeepsCounters
      (compactMutator sourceLevelIdx removeFromSource removeFromTarget newFiles) := by
  constructor <;> · intro m m' h; cases h; rfl

end EasyLsm
