import Mathlib.Data.List.Basic
import EasyLsm.DataStores.Decoded
import EasyLsm.Db.Flush
import EasyLsm.Lib.Merge

/-!
# Compaction

`SstableIterator`, `MergeIterator`, `execute_compaction`, `compact_l0` and `compact_ln`. The input
tables are merged by key, and the pairs are written to new tables, of which another one begins as
soon as the last one has reached the target size. The merge reads its tables while the new ones are
written, so the loop runs on the directory as it is at every step.
-/

namespace EasyLsm.Db

open Lib

/-! ## Iterators -/

/-- `SstableIterator`: what is left of the current block and of the index. `fault` says how many
more blocks can be read. -/
structure SstableIterator where
  inode : Nat
  index : List (Key × Key × UInt64)
  block : Bytes
  fault : Option Fault

namespace SstableIterator

/-- `BlockIterator::next` on the current block. -/
def nextInBlock (it : SstableIterator) : Option (Except DbError Entry) × SstableIterator :=
  if it.block.isEmpty then (none, it)
  else
    match Entry.decode it.block with
    | .error e => (some (.error e), it)
    | .ok (e, block) => (some (.ok e), { it with block })

/-- `SstableIterator::next`. -/
def next (c : Crates) (dir : Dir) (it : SstableIterator) :
    Option (Except DbError Entry) × SstableIterator :=
  if it.block.isEmpty then
    match it.index with
    | [] => (none, it)
    | (_, _, offset) :: index =>
        match it.fault with
        | some ⟨0, kind⟩ => (some (.error (.io kind)), it)
        | fault =>
            match Sstable.readBlockWithCrcAt c (dir.content it.inode) offset with
            | .error e => (some (.error e), it)
            | .ok block =>
                nextInBlock { it with
                  index, block, fault := fault.map fun f => { f with taken := f.taken - 1 } }
  else it.nextInBlock

/-- `SstableIterator::new`. -/
def new (t : TableHandle) (fault : Option Fault) : SstableIterator :=
  ⟨t.inode, t.sst.index, [], fault⟩

/-- A bound on the number of pairs that are left. A block is shorter than `2 ^ 32` bytes. -/
def size (it : SstableIterator) : Nat := it.index.length * 2 ^ 32 + it.block.length

end SstableIterator

/-- `MergeIterator`. -/
abbrev MergeIterator := Merge.State SstableIterator Key Value

namespace MergeIterator

/-- `MergeIterator::new`. -/
def new (c : Crates) (dir : Dir) (iters : List SstableIterator) : Except DbError MergeIterator :=
  Merge.new (SstableIterator.next c dir) iters

/-- `MergeIterator::next`. -/
def next (c : Crates) (dir : Dir) (m : MergeIterator) :
    Option (Except DbError Entry) × MergeIterator :=
  Merge.next (SstableIterator.next c dir) m

/-- A bound on the number of pairs that are left. -/
def size (m : MergeIterator) : Nat := Merge.State.size SstableIterator.size m

end MergeIterator

/-- A block that was read is shorter than `2 ^ 32` bytes. -/
theorem length_readBlockWithCrcAt {c : Crates} {file : Bytes} {offset : UInt64} {data : Bytes}
    (h : Sstable.readBlockWithCrcAt c file offset = .ok data) : data.length < 2 ^ 32 := by
  obtain ⟨⟨len, r⟩, _, h⟩ := bind_ok_iff.mp h
  obtain ⟨⟨crc, r'⟩, _, h⟩ := bind_ok_iff.mp h
  obtain ⟨⟨bs, r''⟩, hread, h⟩ := bind_ok_iff.mp h
  have hlen := (readExact_eq_ok hread).1
  simp only at h
  split at h
  · cases h
  · cases h
    exact hlen ▸ len.toNat_lt

namespace SstableIterator

/-- What is left of a block gets shorter with every pair. -/
theorem size_nextInBlock {it it' : SstableIterator} {res : Option (Except DbError Entry)}
    (h : it.nextInBlock = (res, it')) :
    it'.size ≤ it.size ∧ (∀ e, res = some (.ok e) → it'.size < it.size) := by
  unfold nextInBlock at h
  split at h
  · cases h
    exact ⟨Nat.le_refl _, fun e he => by cases he⟩
  · split at h
    · cases h
      exact ⟨Nat.le_refl _, fun e he => by cases he⟩
    · rename_i e block hdecode
      have hlt := (Entry.decode_eq_ok hdecode).2
      cases h
      have hsize : ({ it with block } : SstableIterator).size < it.size := by
        show it.index.length * 2 ^ 32 + block.length < it.index.length * 2 ^ 32 + it.block.length
        omega
      exact ⟨Nat.le_of_lt hsize, fun _ _ => hsize⟩

/-- An iterator gets smaller with every pair. -/
theorem size_next {c : Crates} {dir : Dir} {it it' : SstableIterator}
    {res : Option (Except DbError Entry)} (h : it.next c dir = (res, it')) :
    it'.size ≤ it.size ∧ (∀ e, res = some (.ok e) → it'.size < it.size) := by
  have hsame : it = it' → (∀ e, res ≠ some (.ok e)) →
      it'.size ≤ it.size ∧ (∀ e, res = some (.ok e) → it'.size < it.size) := by
    rintro rfl hne
    exact ⟨Nat.le_refl _, fun e he => absurd he (hne e)⟩
  unfold next at h
  split at h
  · split at h
    · cases h
      exact hsame rfl (by simp)
    · rename_i offset index hindex
      split at h
      · cases h
        exact hsame rfl (by simp)
      · split at h
        · cases h
          exact hsame rfl (by simp)
        · rename_i block hread
          have hlen := length_readBlockWithCrcAt hread
          obtain ⟨hle, -⟩ := size_nextInBlock h
          -- a block of the index is worth more than the bytes it holds
          have hloaded : it'.size < it.size := by
            refine Nat.lt_of_le_of_lt hle ?_
            show index.length * 2 ^ 32 + block.length < it.index.length * 2 ^ 32 + it.block.length
            rw [hindex, List.length_cons]
            omega
          exact ⟨Nat.le_of_lt hloaded, fun _ _ => hloaded⟩
  · exact size_nextInBlock h

end SstableIterator

/-- A merge gets smaller with every pair. -/
theorem MergeIterator.size_next_lt {c : Crates} {dir : Dir} {m m' : MergeIterator} {e : Entry}
    (h : m.next c dir = (some (.ok e), m')) : m'.size < m.size :=
  Merge.size_next_lt (fun hstep => (SstableIterator.size_next hstep).2 _ rfl)
    (fun hstep => (SstableIterator.size_next hstep).1) h

/-! ## The outputs -/

/-- The tables that are finished, and the writer of the current one with its id. -/
structure Outputs where
  newFiles : List FileMetadata
  currentWriter : Option (TableWriter × UInt32)

/-- Finish the current table. -/
def finishOutput (env : Env) (out : Outputs) : Op Outputs :=
  match out.currentWriter with
  | none => pure out
  | some (iterWriter, id) => do
      let meta' ← (iterWriter.finalize env).mapError (otherError "Finalize error")
      return ⟨out.newFiles ++ [{ meta' with fileId := id }], none⟩

/-- Has the current table reached the target size? There may be no table yet. -/
def shouldRotate (targetFileSize : UInt64) (out : Outputs) : Op Bool :=
  match out.currentWriter with
  | none => pure true
  | some (iterWriter, _) => do
      let size ← iterWriter.currentSize.mapError (otherError "Failed to get writer size")
      return targetFileSize.toNat ≤ size

/-- Finish the current table and begin the next one. -/
def rotateOutput (env : Env) (out : Outputs) : Op Outputs := do
  let out ← finishOutput env out
  let nextId ← reserveSstableId
  let w ← (TableWriter.new (.sst nextId)).mapError (otherError "Failed to create SST")
  return { out with currentWriter := some (w, nextId) }

/-- Write a pair to the current table. -/
def writeCurrent (env : Env) (out : Outputs) (key : Key) (val : Value) : Op Outputs :=
  match out.currentWriter with
  | none => pure out
  | some (iterWriter, id) => do
      let iterWriter ← (iterWriter.write env key val).mapError (otherError "Write error")
      return { out with currentWriter := some (iterWriter, id) }

/-- The body of the merge loop. -/
def writeOutput (env : Env) (targetFileSize : UInt64) (out : Outputs) (key : Key) (val : Value) :
    Op Outputs := do
  let rotate ← shouldRotate targetFileSize out
  let out ← (if rotate then rotateOutput env out else pure out)
  writeCurrent env out key val

/-- The drop of the outputs, with the writer of the current table. -/
def Outputs.drop (out : Outputs) : Op Unit :=
  match out.currentWriter with
  | none => pure ()
  | some (iterWriter, _) => iterWriter.drop

/-- The merge loop. -/
def mergeLoop (env : Env) (targetFileSize : UInt64) (mergeIter : MergeIterator) (out : Outputs)
    (w : World) : Except DbError Outputs × World :=
  match _h : mergeIter.next env.crates w.dir with
  | (none, _) => (.ok out, w)
  | (some (.error e), _) => (.error e, (out.drop w).2)
  | (some (.ok (key, val)), mergeIter') =>
      match writeOutput env targetFileSize out key val w with
      | (.error e, w) => (.error e, w)
      | (.ok out, w) => mergeLoop env targetFileSize mergeIter' out w
termination_by mergeIter.size
decreasing_by exact MergeIterator.size_next_lt _h

/-- The loop rule, with an invariant on the merge, the outputs and the state. -/
theorem mergeLoop_spec {env : Env} {targetFileSize : UInt64}
    {I : MergeIterator → Outputs → World → Prop} {Q : Outputs → World → Prop}
    {E : DbError → World → Prop}
    (hdone : ∀ {m m' out w}, I m out w → m.next env.crates w.dir = (none, m') → Q out w)
    (herror : ∀ {m m' out w e}, I m out w → m.next env.crates w.dir = (some (.error e), m') →
      E e (out.drop w).2)
    (hstep : ∀ {m m' out w key val}, I m out w →
      m.next env.crates w.dir = (some (.ok (key, val)), m') →
      Prog.Spec (· = w) (writeOutput env targetFileSize out key val) (fun out' => I m' out') E)
    (m : MergeIterator) (out : Outputs) :
    Prog.Spec (I m out) (mergeLoop env targetFileSize m out) Q E := by
  intro w hw
  induction m, out, w using mergeLoop.induct env targetFileSize with
  | case1 m out w m' hnext =>
      rw [mergeLoop, hnext]
      exact hdone hw hnext
  | case2 m out w e m' hnext =>
      rw [mergeLoop, hnext]
      exact herror hw hnext
  | case3 m out w key val m' hnext e w' hwrite =>
      rw [mergeLoop, hnext]
      simp only [hwrite]
      exact (hstep hw hnext).error rfl hwrite
  | case4 m out w key val m' hnext out' w' hwrite ih =>
      rw [mergeLoop, hnext]
      simp only [hwrite]
      exact ih ((hstep hw hnext).ok rfl hwrite)

/-! ## Compaction -/

/-- Open an input table and an iterator over it. -/
def openInput (env : Env) (meta' : FileMetadata) : Op SstableIterator := do
  let sst ← (openTable env meta'.fileId).mapError
    (otherError ("Failed to open SST " ++ env.path (.sst meta'.fileId)))
  let fault ← nextFault
  return SstableIterator.new sst fault

/-- The part of `execute_compaction` before the commit: merge the tables into new ones and open
these. -/
def mergeFiles (env : Env) (targetFileSize : UInt64) (allFilesToMerge : List FileMetadata) :
    Op (List FileMetadata × List TableHandle) := do
  let inputs ← Prog.forEach (openInput env) allFilesToMerge
  let dir ← Prog.read World.dir
  let mergeIter ← (Prog.ofExcept (MergeIterator.new env.crates dir inputs)).mapError
    (otherError "Failed to create merge iterator")
  let out ← mergeLoop env targetFileSize mergeIter ⟨[], none⟩
  let out ← finishOutput env out
  let newSstObjs ← openNewTables env "Failed to open new SST " out.newFiles
  return (out.newFiles, newSstObjs)

/-- `execute_compaction`. -/
def executeCompaction (env : Env) (sourceLevelIdx : Nat) (allFilesToMerge filesToRemoveFromSource
    filesToRemoveFromTarget : List FileMetadata) (targetFileSize : UInt64) : Op Unit := do
  let (newFiles, newSstObjs) ← mergeFiles env targetFileSize allFilesToMerge
  let _ ← applyAtomicUpdate env (fun candidate => Prog.ofExcept (compactMutator sourceLevelIdx
    filesToRemoveFromSource filesToRemoveFromTarget newFiles candidate)) 3
  Prog.modify fun w => { w with
    current := compactVersion (fun t => t.sst.id) (fun t => t.sst.minKey) sourceLevelIdx
      filesToRemoveFromSource filesToRemoveFromTarget newSstObjs w.current }
  collectGarbage env

/-- The files whose key range meets the one from `minKey` to `maxKey`. -/
def overlapping (minKey maxKey : Key) (files : List FileMetadata) : List FileMetadata :=
  files.filter fun f => f.maxKey ≥ minKey ∧ f.minKey ≤ maxKey

/-- The files of a level, none when there is no such level. -/
def levelFiles (m : Manifest) (levelIdx : Nat) : List FileMetadata :=
  (m.levels[levelIdx]?.getD default).files

/-- `compact_l0`. -/
def compactL0 (env : Env) (targetFileSize : UInt64) : Op Unit := do
  let manifest ← Prog.read World.manifest
  let filesL0 := levelFiles manifest 0
  match (filesL0.map FileMetadata.minKey).min?, (filesL0.map FileMetadata.maxKey).max? with
  | some minL0, some maxL0 =>
      let filesL1Overlap := overlapping minL0 maxL0 (levelFiles manifest 1)
      executeCompaction env 0 (filesL0 ++ filesL1Overlap) filesL0 filesL1Overlap targetFileSize
  | _, _ => return ()

/-- `compact_ln`. -/
def compactLn (env : Env) (levelIdx : Nat) (targetFileSize : UInt64) : Op Unit := do
  let manifest ← Prog.read World.manifest
  match levelFiles manifest levelIdx with
  | [] => return ()
  | candidate :: _ =>
      let overlaps :=
        overlapping candidate.minKey candidate.maxKey (levelFiles manifest (levelIdx + 1))
      executeCompaction env levelIdx (candidate :: overlaps) [candidate] overlaps targetFileSize

end EasyLsm.Db
