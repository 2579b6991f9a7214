import Mathlib.Data.List.Basic
import Mathlib.Logic.Function.Basic
import EasyLsm.Db.Compacting
import EasyLsm.Db.Gc
import EasyLsm.Lib.Transition

/-!
# The structural path as a transition system

Rotations, flushes, compactions and garbage collection work on the manifest, `db_current` and the
directory at the same time. One thread writes memtables and rotates them, the other one is the
compaction thread. Each load and store of `db_current`, each section under the manifest lock and
each file operation is a step of its own; a label says how the I/O of the step ends. A merge reads
its inputs in one step, which differs from the source only when it writes an output over an input.

Memtables are named by numbers, and a memtable is the list of the entries inserted into it. An inode
holds a table, a manifest, or something that cannot be decoded; what a log file holds is left out.
-/

namespace EasyLsm.Structural

open Lib Db

/-! ## The state -/

/-- What an inode holds. -/
inductive File where
  | table (entries : List Entry)
  | manifest (m : Manifest)
  | other

/-- A log that was opened. -/
structure Log where
  id : UInt32
  inode : Nat
  deriving DecidableEq

deriving instance DecidableEq for DbVersion

/-- `DbVersion` with memtables named by numbers, and tables as metadata and entries. -/
abbrev Version := DbVersion Nat Nat Log Table

/-- Where a call of `apply_atomic_update` is. -/
inductive Update where
  | looping (loopCount : Nat)
  | snapped (loopCount : Nat) (snapshot : Manifest)
  | mutated (loopCount : Nat) (snapshot candidate : Manifest)
  | created (loopCount : Nat) (snapshot candidate : Manifest) (inode : Nat)
  | written (loopCount : Nat) (snapshot candidate : Manifest)

/-- The thread that writes and rotates. -/
inductive Writer where
  | idle
  | inserting (mem : Nat)
  | updating (u : Update)
  | committed (newManifest : Manifest)
  | opened (newWal : Log)
  | loaded (newWal : Log) (current : Version)

/-- What the compaction thread publishes: the tables of flushed memtables, or those of a merge. -/
inductive Job where
  | flush (memtables : List Nat) (walsToDelete : List UInt32) (newSstables : List Table)
  | compact (selection : Selection) (newFiles : List Table)

/-- The compaction thread. In a merge, `pieces` are the outputs that are not written, and `nextId`
the id that is reserved for the first one. While it reads manifests, `listed` are the names in the
directory, `kept` the versions that are still to be read, `obsolete` those that are deleted, and
`wals` and `ssts` the ids known to be referenced. -/
inductive Compactor where
  | idle
  | flushing (memtables : List Nat) (startSstId : UInt32) (walsToDelete : List UInt32)
      (written : List Table)
  | selected (selection : Selection)
  | merging (selection : Selection) (pieces : List (List Entry)) (written : List Table)
      (nextId : Option UInt32)
  | updating (job : Job) (u : Update)
  | committed (job : Job)
  | loaded (job : Job) (current : Version)
  | published
  | snapped (wals ssts : List UInt32)
  | reading (listed : List FileName) (kept obsolete wals ssts : List UInt32)
  | deleting (names : List FileName)

/-- The shared data and the two threads. The last three fields record the run: the memtables that
were put in place, in order, those whose tables were published, and the log of the last rotation. -/
structure Sys where
  manifest : Manifest
  current : Version
  mems : Nat → List Entry
  nextMem : Nat
  dir : Dir
  content : Nat → File
  writer : Writer
  compactor : Compactor
  used : List Nat
  flushed : List Nat
  latestWal : Log

namespace Sys

variable (s : Sys)

/-- A memtable by its number. -/
def memtable (mem : Nat) : Memtable .mutable := Memtable.new.putBatch (s.mems mem)

/-- The entries of a memtable, as a flush writes them. -/
def frozenEntries (mem : Nat) : List Entry := (s.memtable mem).freezeFromRef.iter

/-- Open a file for writing, or create it. -/
def openOrCreate (name : FileName) : Nat × Sys :=
  let (inode, dir) := s.dir.openOrCreate name
  (inode, { s with dir })

/-- Write a file. -/
def setFile (inode : Nat) (file : File) : Sys :=
  { s with content := Function.update s.content inode file }

/-- Write the file of a table. -/
def writeTable (id : UInt32) (file : File) : Sys :=
  let (inode, s) := s.openOrCreate (.sst id)
  s.setFile inode file

/-- The entries in the file of a table. -/
def readTable (id : UInt32) : Option (List Entry) :=
  match (s.dir.lookup (.sst id)).map s.content with
  | some (.table entries) => some entries
  | _ => none

/-- What a manifest file references; nothing when it cannot be read. -/
def referencedBy (version : UInt32) : List UInt32 × List UInt32 :=
  match (s.dir.lookup (.mf version)).map s.content with
  | some (.manifest m) => (m.wals, m.sstableIds)
  | _ => ([], [])

/-- Insert an entry into a memtable. -/
def insertEntry (mem : Nat) (e : Entry) : Sys :=
  { s with mems := Function.update s.mems mem (s.mems mem ++ [e]) }

/-- Store the version of a rotation, with a new memtable. -/
def storeRotation (newWal : Log) (current : Version) : Sys :=
  { s with
    current := rotateVersion id s.nextMem newWal current
    mems := Function.update s.mems s.nextMem []
    nextMem := s.nextMem + 1
    writer := .idle
    used := s.used ++ [s.nextMem]
    latestWal := newWal }

end Sys

/-- How the I/O of a step ends. A call that fails late has had its effect. -/
inductive Io where
  | ok
  | failed
  | failedLate
  deriving DecidableEq

/-! ## `apply_atomic_update` -/

/-- A closure handed to `apply_atomic_update`. It may touch the directory. -/
abbrev Closure := Manifest → Io → Sys → Except DbError Manifest × Sys

/-- How a step of `apply_atomic_update` ends. -/
inductive Progress where
  | goOn (u : Update)
  | returned (m : Manifest)
  | failed

/-- Where the writer goes on. -/
def Progress.writer : Progress → Writer
  | goOn u => .updating u
  | returned m => .committed m
  | failed => .idle

/-- Where the compaction thread goes on. -/
def Progress.compactor (job : Job) : Progress → Compactor
  | goOn u => .updating job u
  | returned _ => .committed job
  | failed => .idle

/-- The commit section: start over when the version has changed, else rename the temporary file and
install the candidate. -/
def Sys.commit (s : Sys) (loopCount : Nat) (snapshot candidate : Manifest) (io : Io) :
    Progress × Sys :=
  let tmpPath := FileName.mfTmp candidate.version
  let cleaned := if io = .failedLate then s else { s with dir := s.dir.unlink tmpPath }
  if s.manifest.version ≠ snapshot.version then (.goOn (.looping loopCount), cleaned)
  else
    match (if io = .ok then s.dir.rename tmpPath (.mf candidate.version) else none) with
    | none => (.failed, cleaned)
    | some dir => (.returned candidate, { s with dir, manifest := candidate })

/-- One step of `apply_atomic_update`. -/
def stepUpdate (closure : Closure) (io : Io) (s : Sys) : Update → Progress × Sys
  | .looping n =>
      if 3 < n + 1 then (.failed, s) else (.goOn (.snapped (n + 1) s.manifest), s)
  | .snapped n snapshot =>
      match closure snapshot io s with
      | (.error _, s) => (.failed, s)
      | (.ok m, s) => (.goOn (.mutated n snapshot { m with version := m.version + 1 }), s)
  | .mutated n snapshot candidate =>
      if io ≠ .ok then (.failed, s)
      else
        let (inode, s) := s.openOrCreate (.mfTmp candidate.version)
        (.goOn (.created n snapshot candidate inode), s.setFile inode .other)
  | .created n snapshot candidate inode =>
      match io with
      | .ok => (.goOn (.written n snapshot candidate), s.setFile inode (.manifest candidate))
      | .failed => (.failed, s.setFile inode .other)
      | .failedLate => (.failed, s.setFile inode (.manifest candidate))
  | .written n snapshot candidate => s.commit n snapshot candidate io

/-- The closure of `rotate_memtable`. It opens the log before it lists it. -/
def rotateClosure : Closure := fun candidate io s =>
  match io with
  | .ok => (rotateMutator candidate, (s.openOrCreate (.wal candidate.nextWalId)).2)
  | .failed => (.error (.io (.other "open")), s)
  | .failedLate =>
      (.error (.io (.other "open")), (s.openOrCreate (.wal candidate.nextWalId)).2)

namespace Job

/-- The manifest update of a job. -/
def mutator : Job → Manifest → Except DbError Manifest
  | flush _ walsToDelete newSstables => flushMutator (newSstables.map Table.meta') walsToDelete
  | compact sel newFiles =>
      compactMutator sel.sourceLevelIdx sel.fromSource sel.fromTarget (newFiles.map Table.meta')

/-- The closure of a job. -/
def closure (job : Job) : Closure := fun candidate _ s => (job.mutator candidate, s)

/-- The new version of a job. -/
def version : Job → Version → Version
  | flush _ _ newSstables, current => flushVersion newSstables.length newSstables current
  | compact sel newFiles, current =>
      compactVersion (fun t => t.meta'.fileId) (fun t => t.meta'.minKey) sel.sourceLevelIdx
        sel.fromSource sel.fromTarget newFiles current

/-- The memtables whose tables a job publishes. -/
def memtables : Job → List Nat
  | flush memtables _ _ => memtables
  | compact _ _ => []

end Job

/-! ## The steps -/

/-- Store the version of a job. -/
def Sys.storeJob (s : Sys) (job : Job) (current : Version) : Sys :=
  { s with
    current := job.version current
    compactor := .published
    flushed := s.flushed ++ job.memtables }

/-- The steps of the two threads. -/
inductive Label where
  | loadMemtable
  | insert (e : Entry)
  | finishInsert
  | rotate
  | updateRotation (io : Io)
  | openWal (io : Io)
  | loadVersion
  | storeVersion
  | flush
  | compact (k : Compaction)
  | openInputs (io : Io)
  | reserve
  | writeTable (io : Io)
  | openTables (io : Io)
  | updateJob (io : Io)
  | loadCurrent
  | storeCurrent
  | snapshot
  | list (io : Io)
  | readManifest (io : Io)
  | delete (io : Io)

/-- The steps of the memtable stage and of `rotate_memtable`. -/
def stepWriter (s : Sys) : Label → Option Sys
  | .loadMemtable =>
      match s.writer with
      | .idle => some { s with writer := .inserting s.current.mutableMemtable }
      | _ => none
  | .insert e =>
      match s.writer with
      | .inserting mem => some (s.insertEntry mem e)
      | _ => none
  | .finishInsert =>
      match s.writer with
      | .inserting _ => some { s with writer := .idle }
      | _ => none
  | .rotate =>
      match s.writer with
      | .idle => some { s with writer := .updating (.looping 0) }
      | _ => none
  | .updateRotation io =>
      match s.writer with
      | .updating u =>
          let (p, s) := stepUpdate rotateClosure io s u
          some { s with writer := p.writer }
      | _ => none
  | .openWal io =>
      match s.writer with
      | .committed m =>
          match m.wals.getLast? with
          | none => some { s with writer := .idle }
          | some newWalId =>
              let (inode, s') := s.openOrCreate (.wal newWalId)
              match io with
              | .ok => some { s' with writer := .opened ⟨newWalId, inode⟩ }
              | .failed => some { s with writer := .idle }
              | .failedLate => some { s' with writer := .idle }
      | _ => none
  | .loadVersion =>
      match s.writer with
      | .opened newWal => some { s with writer := .loaded newWal s.current }
      | _ => none
  | .storeVersion =>
      match s.writer with
      | .loaded newWal current => some (s.storeRotation newWal current)
      | _ => none
  | _ => none

/-- Take the next table id. -/
def Sys.reserve (s : Sys) : Sys :=
  { s with manifest := { s.manifest with nextSstableId := s.manifest.nextSstableId + 1 } }

/-- The id and the entries of the table that is written next. -/
def Sys.nextTable (s : Sys) : Option (UInt32 × List Entry) :=
  match s.compactor with
  | .flushing memtables startSstId _ written =>
      memtables[written.length]?.map fun mem =>
        (startSstId + UInt32.ofNat written.length, s.frozenEntries mem)
  | .merging _ (piece :: _) _ (some id) => some (id, piece)
  | _ => none

variable (c : Crates) (targetFileSize : UInt64)

/-- All the entries in key order. -/
def mergeEntries (inputs : List (List Entry)) : List Entry :=
  inputs.flatten.insertionSort fun a b => a.1 ≤ b.1

/-- The compaction thread when one more table is written. -/
def Compactor.written (t : Table) : Compactor → Compactor
  | .flushing memtables startSstId walsToDelete written =>
      .flushing memtables startSstId walsToDelete (written ++ [t])
  | .merging sel (_ :: pieces) written _ => .merging sel pieces (written ++ [t]) none
  | p => p

/-- The steps of `flush_memtables`, `compact_l0`, `compact_ln` and `execute_compaction` up to the
commit. -/
def stepBuild (s : Sys) : Label → Option Sys
  | .flush =>
      match s.compactor with
      | .idle =>
          let memtables := s.current.frozenMemtables
          let walsToDelete := s.manifest.wals.take memtables.length
          if memtables = [] then none
          else if walsToDelete.length ≠ memtables.length then some s.reserve
          else some { s.reserve with
            compactor := .flushing memtables s.manifest.nextSstableId walsToDelete [] }
      | _ => none
  | .compact k =>
      match s.compactor with
      | .idle => (k.select s.manifest).map fun sel => { s with compactor := .selected sel }
      | _ => none
  | .openInputs io =>
      match s.compactor with
      | .selected sel =>
          match (if io = .ok then sel.all.mapM fun f => s.readTable f.fileId else none) with
          | none => some { s with compactor := .idle }
          | some inputs =>
              let pieces := cutOutputs c targetFileSize (mergeEntries inputs)
              some { s with compactor := .merging sel pieces [] none }
      | _ => none
  | .reserve =>
      match s.compactor with
      | .merging sel (piece :: pieces) written none =>
          some { s.reserve with
            compactor := .merging sel (piece :: pieces) written (some s.manifest.nextSstableId) }
      | _ => none
  | .writeTable io =>
      match s.nextTable with
      | some (id, entries) =>
          match io with
          | .ok => some { s.writeTable id (.table entries) with
              compactor := s.compactor.written (writtenTable c id entries) }
          | .failed => some { s with compactor := .idle }
          | .failedLate => some { s.writeTable id .other with compactor := .idle }
      | none => none
  | .openTables io =>
      match s.compactor with
      | .flushing memtables _ walsToDelete written =>
          if written.length ≠ memtables.length then none
          else if io ≠ .ok ∨ ∃ t ∈ written, t.entries = [] then some { s with compactor := .idle }
          else some { s with
            compactor := .updating (.flush memtables walsToDelete written) (.looping 0) }
      | .merging sel [] written none =>
          if io ≠ .ok then some { s with compactor := .idle }
          else some { s with compactor := .updating (.compact sel written) (.looping 0) }
      | _ => none
  | _ => none

/-- The steps that commit and publish. -/
def stepPublish (s : Sys) : Label → Option Sys
  | .updateJob io =>
      match s.compactor with
      | .updating job u =>
          let (p, s) := stepUpdate job.closure io s u
          some { s with compactor := p.compactor job }
      | _ => none
  | .loadCurrent =>
      match s.compactor with
      | .committed job => some { s with compactor := .loaded job s.current }
      | _ => none
  | .storeCurrent =>
      match s.compactor with
      | .loaded job current => some (s.storeJob job current)
      | _ => none
  | _ => none

/-- The steps of `prepare_gc_snapshot` and `garbage_collect`. -/
def stepCollect (s : Sys) : Label → Option Sys
  | .snapshot =>
      match s.compactor with
      | .published =>
          let (wals, ssts) := prepareGcSnapshot s.manifest
          some { s with compactor := .snapped wals ssts }
      | _ => none
  | .list io =>
      match s.compactor with
      | .snapped wals ssts =>
          if io ≠ .ok then some { s with compactor := .idle }
          else
            let listed := s.dir.names.map Prod.fst
            let manifestFiles := (Dir.versions s.dir).insertionSort (· ≥ ·)
            let keepCount := 2
            some { s with
              compactor := .reading listed (manifestFiles.take keepCount)
                (manifestFiles.drop keepCount) wals ssts }
      | _ => none
  | .readManifest io =>
      match s.compactor with
      | .reading listed (version :: kept) obsolete wals ssts =>
          let refs := if io = .ok then s.referencedBy version else ([], [])
          some { s with
            compactor := .reading listed kept obsolete (wals ++ refs.1) (ssts ++ refs.2) }
      | .reading listed [] obsolete wals ssts =>
          let names := obsolete.map FileName.mf ++ listed.filter (isObsolete wals ssts)
          some { s with compactor := .deleting names }
      | _ => none
  | .delete io =>
      match s.compactor with
      | .deleting (name :: names) =>
          some { s with
            dir := if io = .ok then s.dir.unlink name else s.dir
            compactor := .deleting names }
      | .deleting [] => some { s with compactor := .idle }
      | _ => none
  | _ => none

/-- One step of the system. -/
def step (s : Sys) (l : Label) : Option Sys :=
  match l with
  | .loadMemtable | .insert _ | .finishInsert | .rotate | .updateRotation _ | .openWal _
  | .loadVersion | .storeVersion => stepWriter s l
  | .flush | .compact _ | .openInputs _ | .reserve | .writeTable _ | .openTables _ =>
      stepBuild c targetFileSize s l
  | .updateJob _ | .loadCurrent | .storeCurrent => stepPublish s l
  | .snapshot | .list _ | .readManifest _ | .delete _ => stepCollect s l

/-- A step is one of the four kinds. -/
theorem step_cases {c : Crates} {targetFileSize : UInt64} {s s' : Sys} {l : Label}
    (hs : step c targetFileSize s l = some s') :
    stepWriter s l = some s' ∨ stepBuild c targetFileSize s l = some s' ∨
      stepPublish s l = some s' ∨ stepCollect s l = some s' := by
  cases l with
  | loadMemtable | insert | finishInsert | rotate | updateRotation | openWal | loadVersion
    | storeVersion => exact .inl hs
  | flush | compact | openInputs | reserve | writeTable | openTables => exact .inr (.inl hs)
  | updateJob | loadCurrent | storeCurrent => exact .inr (.inr (.inl hs))
  | snapshot | list | readManifest | delete => exact .inr (.inr (.inr hs))

/-! ## Starts -/

/-- The tables of a version. -/
def tables (v : Version) : List Table := v.sstables.flatten

/-- The file of a table, if there is one, holds its entries. -/
def Sys.Filed (s : Sys) (t : Table) : Prop :=
  ∀ inode, (FileName.sst t.meta'.fileId, inode) ∈ s.dir.names → s.content inode = .table t.entries

/-- A state in which neither thread is at work: what the manifest lists is in the directory, its
file is the newest one, and the mutable log is behind those of the frozen memtables. -/
structure Start (s : Sys) : Prop where
  idle : s.writer = .idle ∧ s.compactor = .idle
  memtables : s.used = s.current.frozenMemtables ++ [s.current.mutableMemtable]
  distinct : s.used.Nodup
  allocated : ∀ mem ∈ s.used, mem < s.nextMem
  recorded : s.flushed = [] ∧ s.latestWal = s.current.mutableWal
  filed : ∀ t ∈ tables s.current, s.Filed t
  logs : ∀ id ∈ s.manifest.wals, ∃ i, (FileName.wal id, i) ∈ s.dir.names
  tables : ∀ id ∈ s.manifest.sstableIds, ∃ i, (FileName.sst id, i) ∈ s.dir.names
  manifestFile : ∃ i, (FileName.mf s.manifest.version, i) ∈ s.dir.names
  newest : ∀ v i, (FileName.mf v, i) ∈ s.dir.names → v ≤ s.manifest.version
  mutableWal : (FileName.wal s.current.mutableWal.id, s.current.mutableWal.inode) ∈ s.dir.names
  aligned : ∃ before behind, s.manifest.wals = before ++ s.current.mutableWal.id :: behind ∧
    s.current.frozenMemtables.length ≤ before.length

/-- A new database. -/
def pristine : Sys where
  manifest := Manifest.new 0
  current := ⟨1, 0, [], ⟨0, 0⟩, []⟩
  mems _ := []
  nextMem := 1
  dir := ((FileStore.empty.openOrCreate (.wal 0)).2.openOrCreate (.mf 0)).2
  content i := if i = 1 then .manifest (Manifest.new 0) else .other
  writer := .idle
  compactor := .idle
  used := [0]
  flushed := []
  latestWal := ⟨0, 0⟩

theorem start_pristine : Start pristine where
  idle := ⟨rfl, rfl⟩
  memtables := rfl
  distinct := List.nodup_singleton 0
  allocated mem h := by
    rw [List.mem_singleton.mp h]
    exact Nat.zero_lt_one
  recorded := ⟨rfl, rfl⟩
  filed t ht := absurd ht List.not_mem_nil
  logs id h := by
    rw [List.mem_singleton.mp h]
    exact ⟨0, by decide⟩
  tables id h := absurd h List.not_mem_nil
  manifestFile := ⟨1, by decide⟩
  newest v i h := by
    have hnames : pristine.dir.names = [(.mf 0, 1), (.wal 0, 0)] := by decide
    rw [hnames] at h
    rcases List.mem_cons.mp h with heq | h
    · cases heq
      exact UInt32.le_refl _
    · cases List.mem_singleton.mp h
  mutableWal := by decide
  aligned := ⟨[], [], rfl, Nat.le_refl _⟩

/-- The manifest of a database that was started with one frozen memtable. -/
def frozenManifest : Manifest where
  wals := [0, 1]
  levels := []
  nextWalId := 2
  nextSstableId := 1
  version := 1

/-- A database that was started with one frozen memtable. -/
def startedFrozen : Sys where
  manifest := frozenManifest
  current := ⟨1, 1, [0], ⟨1, 2⟩, []⟩
  mems mem := if mem = 0 then [(Key.new [97] 1, .bytes [1])] else []
  nextMem := 2
  dir := ((pristine.dir.openOrCreate (.wal 1)).2.openOrCreate (.mf 1)).2
  content i := if i = 1 then .manifest (Manifest.new 0)
    else if i = 3 then .manifest frozenManifest else .other
  writer := .idle
  compactor := .idle
  used := [0, 1]
  flushed := []
  latestWal := ⟨1, 2⟩

theorem start_startedFrozen : Start startedFrozen where
  idle := ⟨rfl, rfl⟩
  memtables := rfl
  distinct := by decide
  allocated := by decide
  recorded := ⟨rfl, rfl⟩
  filed t ht := absurd ht List.not_mem_nil
  logs id h := by
    rcases List.mem_cons.mp h with rfl | h
    · exact ⟨0, by decide⟩
    · rw [List.mem_singleton.mp h]
      exact ⟨2, by decide⟩
  tables id h := absurd h List.not_mem_nil
  manifestFile := ⟨3, by decide⟩
  newest v i h := by
    have hnames : startedFrozen.dir.names = [(.mf 1, 3), (.wal 1, 2), (.mf 0, 1), (.wal 0, 0)] := by
      decide
    rw [hnames] at h
    have hversion : v = 1 ∧ i = 3 ∨ v = 0 ∧ i = 1 := by simpa using h
    rcases hversion with ⟨rfl, _⟩ | ⟨rfl, _⟩
    · exact UInt32.le_refl _
    · exact UInt32.zero_le
  mutableWal := by decide
  aligned := ⟨[0], [], rfl, Nat.le_refl _⟩

/-- What a run ends in is reached when a check passes before every step. -/
theorem reached_of_run (ok : Sys → Label → Prop) [DecidableRel ok] {s : Sys} (hstart : Start s)
    (ls : List Label) {α : Type} (view : Sys → α) {last : α}
    (hrun : (run (fun s l => if decide (ok s l) then step crates 0 s l else none) s ls).map view =
      some last) : ∃ t, Reach (step crates 0) Start ok t ∧ view t = last := by
  obtain ⟨t, ht, hview⟩ := Option.map_eq_some_iff.mp hrun
  exact ⟨t, (Reach.start hstart).of_run_checked (fun _ _ => of_decide_eq_true) ht, hview⟩

end EasyLsm.Structural
