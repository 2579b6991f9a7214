import Mathlib.Data.List.Basic
import EasyLsm.DataStores.Memtable
import EasyLsm.DataStores.Sstable
import EasyLsm.DataStores.Wal
import EasyLsm.Lib.Prog
import EasyLsm.Updates

/-!
# The database as one thread sees it

The state that the operations of `lib.rs` and `compact.rs` work on when they run one after the
other: the directory, the in-memory manifest, the `DbVersion` and `next_lsn`. An operation is a
program over it.

Every call that does I/O takes the next element of `faults`: `none` when the call succeeds, and
otherwise how far it comes before it fails. When the list is used up, calls succeed. `trace` are
the directories between any two effects, so a crash leaves one of them.
-/

namespace EasyLsm.Db

open Lib

/-- How an I/O call fails: how much of its work it does, and the error. -/
structure Fault where
  taken : Nat
  kind : ErrorKind

/-- `Wal<Writable>`: the open file, and what its `BufWriter` holds back. -/
structure WalHandle where
  id : UInt32
  inode : Nat
  buf : Bytes

/-- An open `Sstable`. Its blocks are read from the file, whatever it holds by then. -/
structure TableHandle where
  sst : Sstable
  inode : Nat

/-- `DbVersion`. -/
abbrev Version := DbVersion (Memtable .mutable) (Memtable .immutable) WalHandle TableHandle

/-- The state of a database. -/
structure World where
  dir : Dir
  faults : List (Option Fault)
  trace : List Dir
  manifest : Manifest
  current : Version
  nextLsn : UInt64

/-- What does not change while the database is open. -/
structure Env where
  crates : Crates
  dbDir : String
  maxMemtableSize : Nat

/-- An operation of the database. -/
abbrev Op (α : Type) := Prog World DbError α

/-- The path of a file. -/
def Env.path (env : Env) (name : FileName) : String := env.dbDir ++ "/" ++ name.text

/-! ## I/O calls -/

/-- How the next I/O call ends. -/
def nextFault : Op (Option Fault) := fun w =>
  match w.faults with
  | [] => (.ok none, w)
  | fault :: faults => (.ok fault, { w with faults })

/-- The directory goes through a sequence of states. -/
def through (dirs : List Dir) : Op Unit :=
  Prog.modify fun w => { w with dir := dirs.getLastD w.dir, trace := w.trace ++ dirs }

/-- The states of a file that is written from its beginning. -/
def writeSteps (dir : Dir) (inode : Nat) (bytes : Bytes) : List Dir :=
  (List.range (bytes.length + 1)).map fun n => dir.setContent inode (bytes.take n)

/-- The states of a file that bytes are appended to. -/
def appendSteps (dir : Dir) (inode : Nat) (bytes : Bytes) : List Dir :=
  (List.range (bytes.length + 1)).map fun n => dir.append inode (bytes.take n)

/-- Write a file from its beginning, to the disk. -/
def writeFile (inode : Nat) (bytes : Bytes) : Op Unit := do
  let fault ← nextFault
  let dir ← Prog.read World.dir
  match fault with
  | none => through (writeSteps dir inode bytes)
  | some f => do
      through (writeSteps dir inode (bytes.take f.taken))
      Prog.fail (.io f.kind)

/-- `File::create`. -/
def createFile (name : FileName) : Op Nat := do
  let fault ← nextFault
  let dir ← Prog.read World.dir
  match fault with
  | none => do
      let (inode, dir) := dir.create name
      through [dir]
      return inode
  | some f => Prog.fail (.io f.kind)

/-- `File::open`, for reading. -/
def openFile (name : FileName) : Op Nat := do
  let fault ← nextFault
  let dir ← Prog.read World.dir
  match fault, dir.lookup name with
  | some f, _ => Prog.fail (.io f.kind)
  | none, none => Prog.fail (.io (.notFound "No such file or directory (os error 2)"))
  | none, some inode => return inode

/-- `fs::rename`. -/
def renameFile (old new : FileName) : Op Unit := do
  let fault ← nextFault
  let dir ← Prog.read World.dir
  match fault, dir.rename old new with
  | some f, _ => Prog.fail (.io f.kind)
  | none, none => Prog.fail (.io (.notFound "No such file or directory (os error 2)"))
  | none, some dir => through [dir]

/-- `fs::remove_file`. -/
def removeFile (name : FileName) : Op Unit := do
  let fault ← nextFault
  let dir ← Prog.read World.dir
  match fault, dir.lookup name with
  | some f, _ => Prog.fail (.io f.kind)
  | none, none => Prog.fail (.io (.notFound "No such file or directory (os error 2)"))
  | none, some _ => through [dir.unlink name]

/-! ## The log files -/

/-- `Wal<Writable>::open`. A fault comes when the file is opened, or after that, when an empty file
gets its magic number. -/
def openWal (id : UInt32) : Op WalHandle := do
  let fault ← nextFault
  let dir ← Prog.read World.dir
  let (inode, dir) := dir.openOrCreate (.wal id)
  match fault with
  | none =>
      match Wal.openWritable (dir.content inode) with
      | .error e => Prog.fail e
      | .ok bytes => do
          if (dir.content inode).length = 0 then through (writeSteps dir inode bytes)
          return ⟨id, inode, []⟩
  | some ⟨0, kind⟩ => Prog.fail (.io kind)
  | some ⟨taken + 1, kind⟩ => do
      if (dir.content inode).length = 0 then
        through (writeSteps dir inode (Wal.magicBytes.take taken))
      Prog.fail (.io kind)

/-- `Wal::write`. The handle keeps what the file did not take. -/
def WalHandle.write (wal : WalHandle) (bytes : Bytes) : Op Unit := do
  let fault ← nextFault
  let dir ← Prog.read World.dir
  let (result, writer) :=
    Wal.Writer.write ⟨dir.content wal.inode, wal.buf, fault.map Fault.taken⟩ bytes
  through (appendSteps dir wal.inode (writer.file.drop (dir.content wal.inode).length))
  Prog.modify fun w => { w with
    current := { w.current with mutableWal := { wal with buf := writer.buf } } }
  Prog.ofExcept result

/-- The drop of a `Wal<Writable>`. Its `BufWriter` tries once more to write what it holds back, and
nobody hears of an error. -/
def WalHandle.drop (wal : WalHandle) : Op Unit :=
  if wal.buf = [] then pure ()
  else do
    let fault ← nextFault
    let dir ← Prog.read World.dir
    through (appendSteps dir wal.inode (match fault with
      | none => wal.buf
      | some f => wal.buf.take f.taken))

/-! ## The manifest -/

/-- `Manifest::write_to_path`. -/
def writeToPath (env : Env) (m : Manifest) (name : FileName) : Op Unit := do
  let inode ← createFile name
  writeFile inode (m.encode env.crates.crc32)

/-- `apply_atomic_update`, with the number of attempts that are left. -/
def applyAtomicUpdate (env : Env) (mutator : Manifest → Op Manifest) : Nat → Op Manifest
  | 0 => Prog.fail (.io (.other "Manifest commit loop exceeded retry limit"))
  | attempts + 1 => do
      let guard ← Prog.read World.manifest
      let currentVersion := guard.version
      let candidate ← mutator guard
      let candidate := { candidate with version := candidate.version + 1 }
      let tmpPath := FileName.mfTmp candidate.version
      writeToPath env candidate tmpPath
      let guard ← Prog.read World.manifest
      if guard.version ≠ currentVersion then do
        let _ ← (removeFile tmpPath).attempt
        applyAtomicUpdate env mutator attempts
      else
        match ← (renameFile tmpPath (.mf candidate.version)).attempt with
        | .error e => do
            let _ ← (removeFile tmpPath).attempt
            Prog.fail e
        | .ok () => do
            Prog.modify fun w => { w with manifest := candidate }
            return candidate

/-- Take the next table id. -/
def reserveSstableId : Op UInt32 := do
  let guard ← Prog.read World.manifest
  Prog.modify fun w => { w with
    manifest := { w.manifest with nextSstableId := w.manifest.nextSstableId + 1 } }
  return guard.nextSstableId

/-! ## Tables -/

/-- An `SstableWriter` with its file. The file is empty until the table is finalized or the writer
is dropped; a write that fails leaves a part of it. -/
structure TableWriter where
  writer : SstableWriter
  inode : Nat

namespace TableWriter

/-- `SstableWriter::new`. -/
def new (name : FileName) : Op TableWriter := do
  let inode ← createFile name
  return ⟨SstableWriter.new, inode⟩

/-- `SstableWriter::write`. -/
def write (env : Env) (w : TableWriter) (key : Key) (value : Value) : Op TableWriter := do
  let writer := w.writer.write env.crates key value
  match ← nextFault with
  | none => return { w with writer }
  | some f => do
      let dir ← Prog.read World.dir
      through (writeSteps dir w.inode (writer.file.take f.taken))
      Prog.fail (.io f.kind)

/-- `SstableWriter::current_size`. It flushes the `BufWriter`, so a failure leaves a part of the
table. -/
def currentSize (w : TableWriter) : Op Nat := do
  match ← nextFault with
  | none => return w.writer.currentSize
  | some f => do
      let dir ← Prog.read World.dir
      through (writeSteps dir w.inode (w.writer.file.take f.taken))
      Prog.fail (.io f.kind)

/-- The drop of an `SstableWriter` that is not finalized. Its `BufWriter` writes what it holds back,
and nobody hears of an error. -/
def drop (w : TableWriter) : Op Unit :=
  if w.writer.file = [] then pure ()
  else do
    let fault ← nextFault
    let dir ← Prog.read World.dir
    through (writeSteps dir w.inode (match fault with
      | none => w.writer.file
      | some f => w.writer.file.take f.taken))

/-- `SstableWriter::finalize`. -/
def finalize (env : Env) (w : TableWriter) : Op FileMetadata := do
  let (bytes, meta') := w.writer.finalize env.crates
  writeFile w.inode bytes
  return meta'

end TableWriter

/-- `Sstable::new`. -/
def openTable (env : Env) (id : UInt32) : Op TableHandle := do
  let inode ← openFile (.sst id)
  let dir ← Prog.read World.dir
  let sst ← Prog.ofExcept (Sstable.new env.crates id (dir.content inode))
  return ⟨sst, inode⟩

/-- `Sstable::search`. -/
def TableHandle.search (env : Env) (t : TableHandle) (keyBytes : Bytes) : Op (Option Value) := do
  let fault ← nextFault
  let dir ← Prog.read World.dir
  match fault with
  | none => Prog.ofExcept ({ t.sst with file := dir.content t.inode }.search env.crates keyBytes)
  | some f => Prog.fail (.io f.kind)

end EasyLsm.Db
