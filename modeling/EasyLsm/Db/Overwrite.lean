import Mathlib.Data.List.Basic
import EasyLsm.Db.Merging

/-!
# A table that is merged into its own file

The outputs of a merge get the next table ids, and their files are created over whatever has these
names. When a table with the next id is merged, the first output empties the file that is being
read. `mergeFiles_overwrites`: unless the table has been read to its end by then, the merge fails.
Its file holds what the dropped writer flushed, and its entries are lost.
-/

namespace EasyLsm.Db

open Lib Lib.FileStore

variable {env : Env} {w : World}

/-- An input table is opened, and nothing changes. -/
theorem openInput_run (env : Env) {f : FileMetadata} {inode : Nat} {sst : Sstable}
    (hfaults : w.faults = [])
    (hmem : (.sst f.fileId, inode) ∈ w.dir.names)
    (hnew : Sstable.new env.crates f.fileId (w.dir.content inode) = .ok sst) :
    openInput env f w = (.ok (SstableIterator.new ⟨sst, inode⟩ none), w) := by
  have hlookup : w.dir.lookup (.sst f.fileId) = some inode := lookup_eq_some.mpr hmem
  have hfault : nextFault w = (.ok none, w) := by
    rw [nextFault, hfaults]
  simp only [openInput, openTable, openFile, Prog.bind_apply, Prog.mapError, hfault, Prog.read,
    hlookup, Prog.ofExcept]
  simp only [pure, Prog.pure, hnew, hfault]

/-- A table whose file is not that of a table is not opened, and nothing changes. -/
theorem mergeFiles_unreadable (env : Env) {w : World} {f : FileMetadata} {bytes : Bytes}
    {e : DbError}
    (targetFileSize : UInt64) (hfaults : w.faults = [])
    (hread : w.dir.read (.sst f.fileId) = some bytes)
    (hnew : Sstable.new env.crates f.fileId bytes = .error e) :
    ∃ e, mergeFiles env targetFileSize [f] w = (.error e, w) := by
  obtain ⟨inode, hlookup, hcontent⟩ := Option.map_eq_some_iff.mp hread
  have hfault : nextFault w = (.ok none, w) := by
    rw [nextFault, hfaults]
  have hopen : ∃ e, openInput env f w = (.error e, w) := by
    simp only [openInput, openTable, openFile, Prog.bind_apply, Prog.mapError, hfault, Prog.read,
      hlookup, Prog.ofExcept]
    simp only [pure, Prog.pure, hcontent, hnew]
    exact ⟨_, rfl⟩
  obtain ⟨e, hopen⟩ := hopen
  refine ⟨e, ?_⟩
  rw [mergeFiles]
  exact Prog.bind_eq_error.mpr (.inl (Prog.bind_eq_error.mpr (.inl hopen)))

/-- The state after a new table was begun: a file that had its id is empty now. -/
def beginTable (w : World) : World :=
  let dir := (w.dir.create (.sst w.manifest.nextSstableId)).2
  { w with
    dir := dir
    trace := w.trace ++ [dir]
    manifest := { w.manifest with nextSstableId := w.manifest.nextSstableId + 1 } }

/-- The writer of a new table after its first entry. -/
def firstWriter (env : Env) (w : World) (e : Entry) : TableWriter where
  writer := SstableWriter.new.write env.crates e.1 e.2
  inode := (w.dir.create (.sst w.manifest.nextSstableId)).1

/-- The state after a new table was begun and dropped behind its first entry. -/
def dropFirst (env : Env) (w : World) (e : Entry) : World :=
  ((firstWriter env w e).drop (beginTable w)).2

/-- The first entry of a merge goes to a new table. -/
theorem writeOutput_first (env : Env) (targetFileSize : UInt64) (e : Entry)
    (hfaults : w.faults = []) :
    writeOutput env targetFileSize ⟨[], none⟩ e.1 e.2 w =
      (.ok ⟨[], some (firstWriter env w e, w.manifest.nextSstableId)⟩, beginTable w) := by
  obtain ⟨dir, faults, trace, manifest, current, nextLsn⟩ := w
  cases hfaults
  rfl

/-- A file is empty after its table was begun. -/
theorem beginTable_spec (w : World) :
    ((.sst w.manifest.nextSstableId, (w.dir.create (.sst w.manifest.nextSstableId)).1) ∈
      (beginTable w).dir.names) ∧
    (beginTable w).dir.content (w.dir.create (.sst w.manifest.nextSstableId)).1 = [] ∧
    ∀ inode, w.dir.lookup (.sst w.manifest.nextSstableId) = some inode →
      (beginTable w).dir.content inode = [] := by
  obtain ⟨hnames, -, hcontent, -⟩ := create_spec
    (Prod.mk.eta : (_, _) = w.dir.create (.sst w.manifest.nextSstableId)).symm
  have hnew := (hnames _ _).mpr (.inl ⟨rfl, rfl⟩)
  refine ⟨hnew, hcontent, fun inode hlookup => ?_⟩
  have hold := (hnames _ inode).mpr (.inr (lookup_eq_some.mp hlookup))
  rw [show inode = _ from (beginTable w).dir.inode_unique hold hnew]
  exact hcontent

/-- When the writer is dropped, the file holds the first block, if that was full. -/
theorem dropFirst_spec (env : Env) (e : Entry) (hfaults : w.faults = []) :
    (dropFirst env w e).faults = [] ∧ (dropFirst env w e).manifest = (beginTable w).manifest ∧
      (dropFirst env w e).dir.read (.sst w.manifest.nextSstableId) =
        some (SstableWriter.new.write env.crates e.1 e.2).file := by
  obtain ⟨hmem, hempty, -⟩ := beginTable_spec w
  have hbegun : (beginTable w).faults = [] := hfaults
  unfold dropFirst TableWriter.drop
  split
  · rename_i hnil
    exact ⟨hbegun, rfl, (read_of_mem hmem).trans (congrArg some (hempty.trans hnil.symm))⟩
  · have hdir :=
      getLastD_writeSteps (beginTable w).dir (beginTable w).dir (firstWriter env w e).inode
      (firstWriter env w e).writer.file
    simp only [Prog.bind_apply, nextFault_run, hbegun, Prog.read, List.headD_nil, List.tail_nil]
    refine ⟨rfl, rfl, ?_⟩
    show ((writeSteps (beginTable w).dir _ _).getLastD (beginTable w).dir).read _ = _
    rw [hdir]
    have hmem' : (.sst w.manifest.nextSstableId, (firstWriter env w e).inode) ∈
        ((beginTable w).dir.setContent (firstWriter env w e).inode
          (firstWriter env w e).writer.file).names := hmem
    exact (read_of_mem hmem').trans (congrArg some (content_setContent_self _ _ _))

/-- An iterator loads a block with one entry and returns this. -/
theorem next_oneEntry {c : Crates} {dir : Dir} {inode : Nat} {e : Entry} {before after : Bytes}
    {min max : Key} {index : List (Key × Key × UInt64)} (hfits : e.Fits)
    (hsize : (encodeEntries [e]).length < 2 ^ 32) (hbefore : before.length < 2 ^ 64)
    (hcontent : dir.content inode = before ++ (blockBytes c [e] ++ after)) :
    SstableIterator.next c dir ⟨inode, (min, max, UInt64.ofNat before.length) :: index, [], none⟩ =
      (some (.ok e), ⟨inode, index, [], none⟩) := by
  have hdata : encodeEntries [e] = e.encode := by simp [encodeEntries]
  have hread := readBlockWithCrcAt_frame (c := c) before after hsize hbefore
  have hdecode := (Entry.decodes hfits).reads []
  rw [List.append_nil] at hdecode
  have hnonempty : e.encode.isEmpty = false :=
    List.isEmpty_eq_false_iff.mpr (Entry.encode_ne_nil e)
  rw [show blockBytes c [e] = frame c (encodeEntries [e]) from rfl, hdata] at hcontent
  rw [hdata] at hread
  simp only [SstableIterator.next, SstableIterator.nextInBlock, List.isEmpty_nil, if_true, hcontent,
    hread, hnonempty, Bool.false_eq_true, if_false, hdecode, Option.map_none]

/-- No block can be read from an empty file. -/
theorem next_emptyFile {c : Crates} {dir : Dir} {inode : Nat} {entry : Key × Key × UInt64}
    {index : List (Key × Key × UInt64)} (hcontent : dir.content inode = []) :
    ∃ e it, SstableIterator.next c dir
      ⟨inode, entry :: index, [], none⟩ = (some (.error e), it) := by
  obtain ⟨min, max, offset⟩ := entry
  have hread : Sstable.readBlockWithCrcAt c [] offset = .error .unexpectedEof := by
    rw [Sstable.readBlockWithCrcAt, List.drop_nil]
    rfl
  simp only [SstableIterator.next, List.isEmpty_nil, if_true, hcontent, hread]
  exact ⟨_, _, rfl⟩

/-- An iterator over a table returns the entries of the first two blocks, if each holds one. -/
theorem next_twoBlocks {c : Crates} {dir : Dir} {inode : Nat} (id : UInt32) {es b : List Entry}
    {e₁ e₂ : Entry} {blocks : List (List Entry)} (hfits : TableFits c es)
    (hblocks : tableBlocks es = [e₁] :: [e₂] :: b :: blocks)
    (hcontent : dir.content inode = (writeTable c es).1) :
    ∃ it i₃ index,
      SstableIterator.next c dir (SstableIterator.new ⟨openedTable c id es, inode⟩ none) =
        (some (.ok e₁), it) ∧
      SstableIterator.next c dir it = (some (.ok e₂), ⟨inode, i₃ :: index, [], none⟩) := by
  have hentry : ∀ e, [e] ∈ tableBlocks es → e.Fits ∧ (encodeEntries [e]).length < 2 ^ 32 :=
    fun e he => ⟨hfits.entries e (mem_of_mem_tableBlocks he List.mem_cons_self), hfits.blocks _ he⟩
  rw [hblocks] at hentry
  obtain ⟨hfits₁, hdata₁⟩ := hentry e₁ (by simp)
  obtain ⟨hfits₂, hdata₂⟩ := hentry e₂ (by simp)
  have hindex : (openedTable c id es).index = (e₁.1, e₁.1, UInt64.ofNat 0) ::
      (e₂.1, e₂.1, UInt64.ofNat (0 + (blockBytes c [e₁]).length)) ::
      indexFrom c (0 + (blockBytes c [e₁]).length + (blockBytes c [e₂]).length) (b :: blocks) := by
    rw [openedTable, hblocks]
    rfl
  rw [Nat.zero_add] at hindex
  obtain ⟨rest, hfile⟩ : ∃ rest, dir.content inode =
      blockBytes c [e₁] ++ (blockBytes c [e₂] ++ rest) := by
    rw [hcontent, (writeTable_eq es).1, tableBody, hblocks]
    simp only [List.flatMap_cons, List.append_assoc]
    exact ⟨_, rfl⟩
  have hlen : (blockBytes c [e₁]).length < 2 ^ 64 := by
    rw [blockBytes, length_frame]
    omega
  rw [SstableIterator.new, hindex]
  exact ⟨_, _, _, @next_oneEntry _ _ _ _ [] _ _ _ _ hfits₁ hdata₁ (by simp) hfile,
    next_oneEntry hfits₂ hdata₂ hlen hfile⟩

/-- The merge of one iterator stops when the table is overwritten by what is merged, and the output
is dropped. -/
theorem mergeLoop_overwrites {it it' : SstableIterator} {e₂ : Entry} {e : DbError}
    (targetFileSize : UInt64) (e₁ : Entry) (hfaults : w.faults = [])
    (hnext : it.next env.crates w.dir = (some (.ok e₂), it'))
    (herror : ∃ it'', it'.next env.crates (beginTable w).dir = (some (.error e), it'')) :
    mergeLoop env targetFileSize ⟨[⟨e₁.1, e₁.2, 0⟩], [it]⟩ ⟨[], none⟩ w =
      (.error e, dropFirst env w e₁) := by
  obtain ⟨it'', herror⟩ := herror
  have hwrite := writeOutput_first env targetFileSize e₁ hfaults
  have hfirst : MergeIterator.next env.crates w.dir ⟨[⟨e₁.1, e₁.2, 0⟩], [it]⟩ =
      (some (.ok (e₁.1, e₁.2)), ⟨[⟨e₂.1, e₂.2, 0⟩], [it']⟩) := by
    simp only [MergeIterator.next, Merge.next, Merge.popMin, List.getElem?_cons_zero, hnext]
    rfl
  have hsecond : MergeIterator.next env.crates (beginTable w).dir ⟨[⟨e₂.1, e₂.2, 0⟩], [it']⟩ =
      (some (.error e), ⟨[], [it'']⟩) := by
    simp only [MergeIterator.next, Merge.next, Merge.popMin, List.getElem?_cons_zero, herror]
    rfl
  rw [mergeLoop, hfirst]
  simp only [hwrite]
  rw [mergeLoop, hsecond]
  rfl

/-- A table that is merged into a file with its own id is gone after the first entry. -/
theorem mergeFiles_overwrites (env : Env) {w : World} {f : FileMetadata} {es b : List Entry}
    {e₁ e₂ : Entry}
    {blocks : List (List Entry)} (targetFileSize : UInt64) (hfaults : w.faults = [])
    (hid : f.fileId = w.manifest.nextSstableId) (hfits : TableFits env.crates es)
    (hblocks : tableBlocks es = [e₁] :: [e₂] :: b :: blocks)
    (hread : w.dir.read (.sst f.fileId) = some (writeTable env.crates es).1) :
    ∃ e, mergeFiles env targetFileSize [f] w = (.error e, dropFirst env w e₁) := by
  obtain ⟨inode, hlookup, hcontent⟩ := Option.map_eq_some_iff.mp hread
  have hne : es ≠ [] := by
    intro hnil
    rw [hnil] at hblocks
    cases hblocks
  have hopen := openInput_run env hfaults (lookup_eq_some.mp hlookup)
    (hcontent ▸ new_writeTable hfits hne f.fileId)
  obtain ⟨it, i₃, index, hnext₁, hnext₂⟩ := next_twoBlocks f.fileId hfits hblocks hcontent
  have hnew : MergeIterator.new env.crates w.dir
      [SstableIterator.new ⟨openedTable env.crates f.fileId es, inode⟩ none] =
      .ok ⟨[⟨e₁.1, e₁.2, 0⟩], [it]⟩ := by
    simp only [MergeIterator.new, Merge.new, Merge.fill, hnext₁]
    rfl
  have hempty : (beginTable w).dir.content inode = [] := by
    rw [hid] at hlookup
    exact (beginTable_spec w).2.2 inode hlookup
  obtain ⟨e, it', herror⟩ := @next_emptyFile env.crates (beginTable w).dir inode i₃ index hempty
  refine ⟨e, ?_⟩
  have hloop := mergeLoop_overwrites targetFileSize e₁ hfaults hnext₂ ⟨it', herror⟩
  have hinputs : Prog.forEach (openInput env) [f] w =
      (.ok [SstableIterator.new ⟨openedTable env.crates f.fileId es, inode⟩ none], w) := by
    simp only [Prog.forEach, Prog.bind_apply, hopen]
    rfl
  have hiter : (Prog.ofExcept (MergeIterator.new env.crates w.dir
      [SstableIterator.new ⟨openedTable env.crates f.fileId es, inode⟩ none])).mapError
      (otherError "Failed to create merge iterator") w = (.ok ⟨[⟨e₁.1, e₁.2, 0⟩], [it]⟩, w) := by
    rw [hnew]
    rfl
  rw [mergeFiles]
  refine Prog.bind_eq_error.mpr (.inr ⟨_, w, hinputs, ?_⟩)
  refine Prog.bind_eq_error.mpr (.inr ⟨w.dir, w, rfl, ?_⟩)
  refine Prog.bind_eq_error.mpr (.inr ⟨_, w, hiter, ?_⟩)
  exact Prog.bind_eq_error.mpr (.inl hloop)

/-- When the merge fails, so does the compaction. -/
theorem executeCompaction_of_merge_error {files fromSource fromTarget : List FileMetadata}
    {targetFileSize : UInt64} {e : DbError} {w' : World} (sourceLevelIdx : Nat)
    (h : mergeFiles env targetFileSize files w = (.error e, w')) :
    executeCompaction env sourceLevelIdx files fromSource fromTarget targetFileSize w =
      (.error e, w') := by
  rw [executeCompaction]
  exact Prog.bind_eq_error.mpr (.inl h)

end EasyLsm.Db
