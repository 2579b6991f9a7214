import Mathlib.Data.DFinsupp.WellFounded
import Mathlib.Data.List.Basic
import Mathlib.Logic.Relation
import EasyLsm.Db.CompactCrash
import EasyLsm.Db.Mirror
import EasyLsm.Db.Overwrite

/-!
# The compaction thread

The loop of `run` in `compact.rs`, as one thread sees it while no one shuts the database down: it
looks for work, does it, and looks again, until there is none and it waits. `cascade_terminates`:
with no memtable to flush and tables that can be merged, it waits after finitely many compactions.
Each takes a file out of a level and leaves the levels before it alone, so the numbers of files,
level by level, get smaller in the lexicographic order.
-/

namespace EasyLsm.Db

open Lib Lib.FileStore

variable {env : Env} {w w' : World}

/-! ## Triggers -/

/-- `L0_SIZE_TRIGGER`. -/
def l0SizeTrigger : UInt64 := 128 * 1024 * 1024

/-- `TARGET_FILE_SIZE`. -/
def targetFileSize : UInt64 := 64 * 1024 * 1024

/-- `MAX_LEVELS`. -/
def maxLevels : Nat := 4

/-- The sizes that the metadata of files record. -/
def filesSize (files : List FileMetadata) : UInt64 :=
  files.foldl (fun size f => size + f.fileSize.toUInt64) 0

/-- The first level behind level 0 that has reached its target size. -/
def triggeredLevel (m : Manifest) : Option Nat :=
  (List.range' 1 (maxLevels - 1)).find? fun level =>
    level < m.levels.length && l0SizeTrigger * 10 ^ level ≤ filesSize (levelFiles m level)

/-- What the loop does with a manifest, if anything. -/
def dueTask (m : Manifest) : Option Structural :=
  if 4 < m.wals.length then some .flushMemtables
  else if l0SizeTrigger ≤ filesSize (levelFiles m 0) then some (.compactL0 targetFileSize)
  else (triggeredLevel m).map fun level => .compactLn level targetFileSize

/-- An iteration that does not wait. A task that fails is tried again in the next one. -/
def iteration (env : Env) (w : World) : Option World :=
  (dueTask w.manifest).map fun task => (task.run env w).2

/-- `run`, for at most a number of tasks: the state in which it waits. -/
def run (env : Env) : Nat → World → Option World
  | 0, w => if (iteration env w).isNone then some w else none
  | n + 1, w =>
      match iteration env w with
      | none => some w
      | some w => run env n w

/-- The states between the iterations. -/
def Iterates (env : Env) : World → World → Prop :=
  Relation.ReflTransGen fun w w' => iteration env w = some w'

/-- The task of a compaction. -/
def Compaction.task : Compaction → Structural
  | l0 => .compactL0 targetFileSize
  | ln levelIdx => .compactLn levelIdx targetFileSize

/-- The level that a compaction takes files out of. -/
def Compaction.level : Compaction → Nat
  | l0 => 0
  | ln levelIdx => levelIdx

/-- A level that has reached a size has files. -/
theorem files_ne_nil {files : List FileMetadata} {size : UInt64} (hpositive : 0 < size)
    (h : size ≤ filesSize files) : files ≠ [] := by
  intro hnil
  rw [hnil] at h
  exact absurd hpositive (UInt64.not_lt.mpr h)

/-- Without a memtable to flush, the task is a compaction of one of the first levels, which has
files. -/
theorem dueTask_eq_some {m : Manifest} {task : Structural} (hwals : m.wals.length ≤ 4)
    (h : dueTask m = some task) : ∃ k : Compaction, task = k.task ∧ k.level < maxLevels ∧
      levelFiles m k.level ≠ [] := by
  unfold dueTask at h
  rw [if_neg (by omega)] at h
  split at h
  · rename_i hsize
    cases h
    exact ⟨.l0, rfl, by decide, files_ne_nil (by decide) hsize⟩
  · obtain ⟨level, hlevel, rfl⟩ := Option.map_eq_some_iff.mp h
    have hmem := List.mem_of_find?_eq_some hlevel
    have hfound := List.find?_some hlevel
    obtain ⟨hfirst, hlast⟩ := List.mem_range'_1.mp hmem
    have hlast : level < 4 := hlast
    simp only [Bool.and_eq_true, decide_eq_true_eq] at hfound
    refine ⟨.ln level, rfl, hlast, files_ne_nil ?_ hfound.2⟩
    interval_cases level <;> decide

/-- A compaction of a level with files takes at least one of them. -/
theorem Compaction.exists_select {k : Compaction} {m : Manifest} (h : levelFiles m k.level ≠ []) :
    ∃ s, k.select m = some s ∧ s.sourceLevelIdx = k.level ∧ s.fromSource ≠ [] := by
  cases k with
  | l0 =>
      obtain ⟨f, files, hfiles⟩ := List.exists_cons_of_ne_nil h
      have hfiles : levelFiles m 0 = f :: files := hfiles
      simp only [Compaction.select, hfiles, List.map_cons, List.min?_cons, List.max?_cons]
      exact ⟨_, rfl, rfl, List.cons_ne_nil _ _⟩
  | ln levelIdx =>
      obtain ⟨f, files, hfiles⟩ := List.exists_cons_of_ne_nil h
      have hfiles : levelFiles m levelIdx = f :: files := hfiles
      simp only [Compaction.select, hfiles]
      exact ⟨_, rfl, rfl, List.cons_ne_nil _ _⟩

/-! ## One iteration -/

/-- A state in which the loop only compacts: no memtable is to be flushed, no I/O call fails, and
the listed tables have ids below the next one, can be read and are ordered. -/
structure Cascading (env : Env) (w : World) : Prop where
  faults : w.faults = []
  wals : w.manifest.wals.length ≤ 4
  ids : ∀ id ∈ w.manifest.sstableIds, id < w.manifest.nextSstableId
  ordered : ∀ id ∈ w.manifest.sstableIds,
    ∃ es, tableEntries env.crates w.dir id = some es ∧ KeyOrdered es

/-- The ids and the lengths of the tables that the next task writes are representable, and so is the
id behind them. -/
structure TaskRoom (env : Env) (w : World) : Prop where
  ids : ∀ k s, dueTask w.manifest = some (Compaction.task k) → k.select w.manifest = some s →
    ∀ merged, SortedMerge (allEntries (s.tables env.crates w.dir)) merged →
    w.manifest.nextSstableId.toNat + (cutOutputs env.crates targetFileSize merged).length < 2 ^ 32
  tables : ∀ k s, dueTask w.manifest = some (Compaction.task k) → k.select w.manifest = some s →
    ∀ merged, SortedMerge (allEntries (s.tables env.crates w.dir)) merged →
    ∀ es ∈ cutOutputs env.crates targetFileSize merged, TableFits env.crates es

/-- The selected tables can be read and are ordered. -/
theorem Cascading.selected {k : Compaction} {s : Selection} (h : Cascading env w)
    (hselect : k.select w.manifest = some s) :
    (∀ f ∈ s.all, (tableEntries env.crates w.dir f.fileId).isSome) ∧
      ∀ t ∈ s.tables env.crates w.dir, KeyOrdered t.entries := by
  refine ⟨fun f hf => ?_, fun t ht => ?_⟩
  · obtain ⟨es, hes, _⟩ := h.ordered f.fileId (selected_mem_sstableIds hselect hf)
    exact Option.isSome_of_eq_some hes
  · obtain ⟨f, hf, rfl⟩ := List.mem_map.mp ht
    obtain ⟨es, hes, hordered⟩ := h.ordered f.fileId (selected_mem_sstableIds hselect hf)
    show KeyOrdered ((tableEntries env.crates w.dir f.fileId).getD [])
    rw [hes]
    exact hordered

/-- A compaction succeeds when there is room for its tables. -/
theorem Cascading.executes {k : Compaction} {s : Selection} (h : Cascading env w)
    (hselect : k.select w.manifest = some s)
    (hids : ∀ merged, SortedMerge (allEntries (s.tables env.crates w.dir)) merged →
      w.manifest.nextSstableId.toNat +
        (cutOutputs env.crates targetFileSize merged).length ≤ 2 ^ 32)
    (htables : ∀ merged, SortedMerge (allEntries (s.tables env.crates w.dir)) merged →
      ∀ es ∈ cutOutputs env.crates targetFileSize merged, TableFits env.crates es) :
    ∃ w' merged w₁, k.task.run env w = (.ok (), w') ∧
      Compacted env (Kept w.manifest) w targetFileSize s merged w₁ w' := by
  obtain ⟨hstored, hordered⟩ := h.selected hselect
  have hspec := executeCompaction_spec hstored hordered
    (fun f hf => .inr (.inr ⟨_, selected_mem_sstableIds hselect hf, rfl⟩))
    (fun v hkept => by rcases hkept with ⟨v', hv⟩ | ⟨id, _, hid⟩ | ⟨id, _, hid⟩ <;> cases ‹_ = _›)
    ⟨fresh_of_below h.ids, fun merged hmerged => Nat.le_sub_of_add_le' (hids merged hmerged),
      htables⟩
  have hrun : k.task.run env w = executeCompaction env s.sourceLevelIdx s.all s.fromSource
      s.fromTarget targetFileSize w := by
    have hrun := k.run_eq env targetFileSize w
    rw [hselect] at hrun
    cases k <;> exact hrun
  rw [hrun]
  rcases hexec : executeCompaction env s.sourceLevelIdx s.all s.fromSource s.fromTarget
    targetFileSize w with ⟨e | _, w'⟩
  · exact absurd h.faults (hspec.error rfl hexec).2
  · obtain ⟨merged, w₁, hcompacted⟩ := hspec.ok rfl hexec
    exact ⟨w', merged, w₁, rfl, hcompacted⟩

namespace Compacted

variable {s : Selection} {merged : List Entry} {w₁ : World}

/-- The files of the tables that are still listed are what they were. -/
theorem read_listed {targetFileSize : UInt64}
    (h : Compacted env (Kept w.manifest) w targetFileSize s merged w₁ w') {id : UInt32}
    (hold : id ∈ w.manifest.sstableIds) (hid : id ∈ w'.manifest.sstableIds) :
    w'.dir.read (.sst id) = w.dir.read (.sst id) := by
  obtain ⟨newFiles, hs, hmerged, hpublished⟩ := h
  exact (hpublished.agree.read (.inr ⟨id, hid, rfl⟩)).trans
    (hmerged.built.quiet.dir.read (.inr (.inr ⟨id, hold, rfl⟩)))

end Compacted

/-- A compaction leaves a state in which the loop only compacts. -/
theorem Cascading.compacted {s : Selection} {merged : List Entry} {w₁ : World}
    (h : Cascading env w)
    (hcompacted : Compacted env (Kept w.manifest) w targetFileSize s merged w₁ w')
    (hids : w.manifest.nextSstableId.toNat +
      (cutOutputs env.crates targetFileSize merged).length < 2 ^ 32) : Cascading env w' where
  faults := hcompacted.faults h.faults
  wals := by
    rw [hcompacted.fileLists_eq.2]
    exact h.wals
  ids := hcompacted.below h.ids hids
  ordered := by
    intro id hid
    rcases hcompacted.mem_sstableIds hid with hold | ⟨t, ht, rfl⟩
    · obtain ⟨es, hes, hordered⟩ := h.ordered id hold
      exact ⟨es, (tableEntries_congr (hcompacted.read_listed hold hid)).trans hes, hordered⟩
    · exact ⟨t.entries, hcompacted.stored_outputs ht, (mem_outputs hcompacted.sorted.2 ht).1⟩

/-! ## The cascade -/

/-- The numbers of files in the levels that are compacted, in lexicographic order. -/
def levelCounts (m : Manifest) : Lex (Fin maxLevels → Nat) :=
  toLex fun i => (levelFiles m i).length

/-- The files of the levels behind a compaction. -/
theorem Compacted.levelFiles_eq {keep : FileName → Prop} {targetFileSize : UInt64} {s : Selection}
    {merged : List Entry} {w₁ : World} (h : Compacted env keep w targetFileSize s merged w₁ w')
    (i : Nat) : levelFiles w'.manifest i =
      if i = s.sourceLevelIdx then
        (levelFiles w.manifest s.sourceLevelIdx).filter fun f => !hasId s.fromSource f.fileId
      else if i = s.sourceLevelIdx + 1 then
        (((levelFiles w.manifest (s.sourceLevelIdx + 1)).filter
          fun f => !hasId s.fromTarget f.fileId) ++
          (outputs env w targetFileSize merged).map Table.meta').insertionSort
            fun a b => a.minKey ≤ b.minKey
      else levelFiles w.manifest i := by
  simp only [levelFiles, Db.levelFiles_eq, h.fileLists_eq.1, Levels.get_replace]

/-- A compaction makes a level smaller and leaves the levels before it alone. -/
theorem Compacted.levelCounts_lt {keep : FileName → Prop} {targetFileSize : UInt64} {s : Selection}
    {merged : List Entry} {w₁ : World} (h : Compacted env keep w targetFileSize s merged w₁ w')
    (hlevel : s.sourceLevelIdx < maxLevels) (hne : s.fromSource ≠ [])
    (hsource : s.fromSource.Sublist (levelFiles w.manifest s.sourceLevelIdx)) :
    levelCounts w'.manifest < levelCounts w.manifest := by
  refine ⟨⟨s.sourceLevelIdx, hlevel⟩, fun j hj => ?_, ?_⟩
  · have hless : (j : Nat) < s.sourceLevelIdx := hj
    show (levelFiles w'.manifest j).length = (levelFiles w.manifest j).length
    rw [h.levelFiles_eq, if_neg (by omega), if_neg (by omega)]
  · show (levelFiles w'.manifest s.sourceLevelIdx).length <
      (levelFiles w.manifest s.sourceLevelIdx).length
    rw [h.levelFiles_eq, if_pos rfl]
    -- the first of the files that are taken is not there any more
    obtain ⟨f, files, hselected⟩ := List.exists_cons_of_ne_nil hne
    have hf : f ∈ s.fromSource := hselected ▸ List.mem_cons_self
    refine List.length_filter_lt_length_iff_exists.mpr ⟨f, hsource.subset hf, ?_⟩
    simp [hasId_iff.mpr (List.mem_map_of_mem hf)]

/-- An iteration compacts: the loop can go on, and there is less to compact. -/
theorem Cascading.iteration (h : Cascading env w) (hroom : TaskRoom env w)
    (hiteration : iteration env w = some w') :
    Cascading env w' ∧ levelCounts w'.manifest < levelCounts w.manifest := by
  obtain ⟨task, hdue, rfl⟩ := Option.map_eq_some_iff.mp hiteration
  obtain ⟨k, rfl, hlevel, hfiles⟩ := dueTask_eq_some h.wals hdue
  obtain ⟨s, hselect, hsource, hne⟩ := k.exists_select hfiles
  obtain ⟨w', merged, w₁, hrun, hcompacted⟩ := h.executes hselect
    (fun merged hmerged => Nat.le_of_lt (hroom.ids k s hdue hselect merged hmerged))
    (hroom.tables k s hdue hselect)
  rw [hrun]
  refine ⟨h.compacted hcompacted (hroom.ids k s hdue hselect merged hcompacted.sorted), ?_⟩
  exact hcompacted.levelCounts_lt (hsource ▸ hlevel) hne (Compaction.select_sublist hselect).1

/-- The loop waits after finitely many compactions, as long as no table id and no length in a table
runs over. -/
theorem cascade_terminates (env : Env) (w : World) (hcascading : Cascading env w)
    (hroom : ∀ w', Iterates env w w' → TaskRoom env w') :
    ∃ n w', run env n w = some w' ∧ dueTask w'.manifest = none := by
  induction hcounts : levelCounts w.manifest using WellFoundedLT.induction generalizing w with
  | ind counts ih =>
      cases hnext : iteration env w with
      | none =>
          refine ⟨0, w, by simp [run, hnext], ?_⟩
          exact Option.map_eq_none_iff.mp hnext
      | some w₁ =>
          obtain ⟨hcascading₁, hless⟩ := hcascading.iteration (hroom w .refl) hnext
          obtain ⟨n, w', hrun, hwait⟩ := ih _ (hcounts ▸ hless) w₁ hcascading₁
            (fun w' hw' => hroom w' (.head hnext hw')) rfl
          exact ⟨n + 1, w', by simp only [run, hnext, hrun], hwait⟩

/-! ## Table ids -/

/-- The loop does not wait when it comes back to the same state. -/
theorem run_of_stuck (h : iteration env w = some w) (n : Nat) : run env n w = none := by
  induction n with
  | zero => simp [run, h]
  | succ n ih => simp only [run, h, ih]

theorem run_of_iteration (h : iteration env w = some w') (hrun : ∀ n, run env n w' = none)
    (n : Nat) :
    run env n w = none := by
  cases n with
  | zero => simp [run, h]
  | succ n => simp only [run, h, hrun]

theorem Compaction.task_inj {k k' : Compaction} (h : k.task = k'.task) : k = k' := by
  cases k <;> cases k' <;> cases h <;> rfl

/-- The iteration when level 1 is due. -/
theorem iteration_level1 (env : Env) {w : World} {f : FileMetadata} {files : List FileMetadata}
    (hwals : w.manifest.wals.length ≤ 4) (h0 : levelFiles w.manifest 0 = [])
    (h1 : levelFiles w.manifest 1 = f :: files)
    (hsize : l0SizeTrigger * 10 ≤ filesSize (f :: files))
    (h2 : overlapping f.minKey f.maxKey (levelFiles w.manifest 2) = []) :
    dueTask w.manifest = some (Compaction.ln 1).task ∧
      (Compaction.ln 1).select w.manifest = some ⟨1, [f], []⟩ ∧
      iteration env w = some (executeCompaction env 1 [f] [f] [] targetFileSize w).2 := by
  have hlevels : 1 < w.manifest.levels.length := by
    rw [levelFiles] at h1
    by_contra hshort
    rw [List.getElem?_eq_none (Nat.le_of_not_lt hshort)] at h1
    cases h1
  have hdue : dueTask w.manifest = some (Compaction.ln 1).task := by
    have htriggered : triggeredLevel w.manifest = some 1 := by
      have hsize : l0SizeTrigger * 10 ^ 1 ≤ filesSize (f :: files) := hsize
      rw [triggeredLevel, maxLevels]
      simp only [List.range', List.find?_cons, h1, hlevels, hsize, decide_true, Bool.and_self]
    rw [dueTask, if_neg (by omega), h0, if_neg (by decide), htriggered]
    rfl
  refine ⟨hdue, ?_, ?_⟩
  · simp only [Compaction.select, h1, h2]
  · rw [iteration, hdue]
    simp only [Option.map_some, Compaction.task, Structural.run, compactLn, Prog.bind_apply,
      Prog.read, h1, h2]

/-- A table whose first two blocks hold one large value each. -/
def threeBlocks (big : Bytes) : List Entry :=
  [(Key.new [97] 3, .bytes big), (Key.new [98] 2, .bytes big), (Key.new [99] 1, .bytes [])]

theorem length_encode_big {big : Bytes} (hbig : big.length = 4096) (b : UInt8) (lsn : UInt64) :
    (Entry.encode (Key.new [b] lsn, .bytes big)).length = 4112 := by
  rw [Entry.length_encode]
  show 10 + 1 + (5 + big.length) = 4112
  omega

theorem tableBlocks_threeBlocks {big : Bytes} (hbig : big.length = 4096) :
    tableBlocks (threeBlocks big) = [[(Key.new [97] 3, .bytes big)],
      [(Key.new [98] 2, .bytes big)], [(Key.new [99] 1, .bytes [])]] := by
  have hlast : (Entry.encode (Key.new [99] 1, .bytes [])).length = 16 := by decide
  simp [tableBlocks, threeBlocks, cutBlocks, encodeEntries, blockSize, length_encode_big hbig,
    hlast]

theorem tableFits_threeBlocks {c : Crates} {big : Bytes} (hbig : big.length = 4096) :
    TableFits c (threeBlocks big) where
  entries := by
    simp [threeBlocks, Entry.Fits, Key.Fits, Value.Fits, Value.payload, Key.new, hbig]
  blocks := by
    have hlast : (Entry.encode (Key.new [99] 1, .bytes [])).length = 16 := by decide
    rw [tableBlocks_threeBlocks hbig]
    simp [encodeEntries, length_encode_big hbig, hlast]
  index := by
    rw [tableIndex, tableBlocks_threeBlocks hbig]
    have hoffset : ∀ offset : UInt64, (Loggable.encode offset).length = 8 := fun _ => rfl
    have hkey : ∀ (b : UInt8) (lsn : UInt64), (Loggable.encode (Key.new [b] lsn)).length = 11 :=
      fun _ _ => rfl
    have hfirst : firstKey (threeBlocks big) = some (Key.new [97] 3) := rfl
    have hlast : lastKey (threeBlocks big) = some (Key.new [99] 1) := rfl
    simp only [hfirst, hlast]
    simp [indexData, indexFrom, firstKey, lastKey, encodeIndexEntry, hoffset, hkey]

/-- A large value. -/
def bigValue : Bytes := List.replicate 4096 0

/-- The table that is merged first. -/
def firstFile : FileMetadata := ⟨1, 0xffffffff, Key.new [65] 4, Key.new [65] 4⟩

/-- The table with the id 0. -/
def zeroFile : FileMetadata := ⟨0, 0xffffffff, Key.new [97] 3, Key.new [99] 1⟩

/-- A manifest with a level 1 that is due. -/
def dueLevels (files : List FileMetadata) (nextSstableId : UInt32) : Manifest where
  wals := [0]
  levels := [⟨[]⟩, ⟨firstFile :: files⟩]
  nextWalId := 1
  nextSstableId := nextSstableId
  version := 0

/-- Its files. -/
def dueDir : Dir := ofFiles [
  (.mf 0, (dueLevels [zeroFile] 2).encode crc32),
  (.wal 0, Wal.magicBytes),
  (.sst 1, (writeTable crates [(Key.new [65] 4, .bytes [])]).1),
  (.sst 0, (writeTable crates (threeBlocks bigValue)).1)] (by decide)

/-- The state of the database. -/
def dueWorld (files : List FileMetadata) (nextSstableId : UInt32) : World where
  dir := dueDir
  faults := []
  trace := []
  manifest := dueLevels files nextSstableId
  current := {
    nextLsn := 1
    mutableMemtable := Memtable.new
    frozenMemtables := []
    mutableWal := ⟨0, 1, []⟩
    sstables := [[], ⟨openedTable crates 1 [(Key.new [65] 4, .bytes [])], 2⟩ ::
      files.map fun f => ⟨openedTable crates f.fileId (threeBlocks bigValue), 3⟩] }
  nextLsn := 5

theorem read_dueDir :
    dueDir.read (.sst 0) = some (writeTable crates (threeBlocks bigValue)).1 :=
  read_ofFiles _ (i := 3) rfl

theorem tableEntries_dueDir :
    tableEntries crates dueDir 1 = some [(Key.new [65] 4, .bytes [])] ∧
    tableEntries crates dueDir 0 = some (threeBlocks bigValue) :=
  ⟨@stored_writtenTable crates dueDir 1 [(Key.new [65] 4, .bytes [])] (by decide) (by decide)
      (read_ofFiles _ (i := 2) rfl),
    @stored_writtenTable crates dueDir 0 (threeBlocks bigValue)
      (tableFits_threeBlocks List.length_replicate) (List.cons_ne_nil _ _) read_dueDir⟩

theorem keyOrdered_threeBlocks (big : Bytes) : KeyOrdered (threeBlocks big) := by
  have hkeys : (threeBlocks big).map Prod.fst = [Key.new [97] 3, Key.new [98] 2, Key.new [99] 1] :=
    rfl
  have hpairwise : List.Pairwise (· ≤ ·) ((threeBlocks big).map Prod.fst) := by
    rw [hkeys]
    decide
  exact List.pairwise_map.mp hpairwise

theorem cascading_dueWorld {files : List FileMetadata} {nextSstableId : UInt32}
    (hfiles : files = [] ∨ files = [zeroFile]) (h : 1 < nextSstableId) :
    Cascading defaultEnv (dueWorld files nextSstableId) := by
  have hids : ∀ id ∈ (dueLevels files nextSstableId).sstableIds, id = 1 ∨ id = 0 := by
    rcases hfiles with rfl | rfl
    · show ∀ id ∈ [(1 : UInt32)], id = 1 ∨ id = 0
      simp
    · show ∀ id ∈ [(1 : UInt32), 0], id = 1 ∨ id = 0
      simp
  refine ⟨rfl, show [(0 : UInt32)].length ≤ 4 by decide, fun id hid => ?_, fun id hid => ?_⟩
  · rcases hids id hid with rfl | rfl
    · exact h
    · show 0 < nextSstableId
      rw [UInt32.lt_iff_toNat_lt] at h ⊢
      exact Nat.lt_of_succ_lt h
  · rcases hids id hid with rfl | rfl
    · exact ⟨_, tableEntries_dueDir.1, by decide⟩
    · exact ⟨_, tableEntries_dueDir.2, keyOrdered_threeBlocks _⟩

theorem iteration_dueWorld {files : List FileMetadata} (nextSstableId : UInt32)
    (hfiles : files = [] ∨ files = [zeroFile]) :
    dueTask (dueLevels files nextSstableId) = some (Compaction.ln 1).task ∧
      (Compaction.ln 1).select (dueLevels files nextSstableId) = some ⟨1, [firstFile], []⟩ := by
  have h := @iteration_level1 defaultEnv (dueWorld files nextSstableId) firstFile files
    (show [(0 : UInt32)].length ≤ 4 by decide) rfl rfl
    (by rcases hfiles with rfl | rfl <;> decide) rfl
  exact ⟨h.1, h.2.1⟩

/-- A table with different keys is merged into itself. -/
theorem sortedMerge_single {c : Crates} {dir : Dir} {level : Nat} {f : FileMetadata}
    {es merged : List Entry} (hstored : tableEntries c dir f.fileId = some es)
    (hordered : KeyOrdered es) (hnodup : (es.map Prod.fst).Nodup)
    (h : SortedMerge (allEntries (Selection.tables ⟨level, [f], []⟩ c dir)) merged) :
    merged = es := by
  have hentries : allEntries (Selection.tables ⟨level, [f], []⟩ c dir) = es := by
    simp only [allEntries, Selection.tables, Selection.all, List.append_nil, List.map_cons,
      List.map_nil, tableOf, hstored, Option.getD_some, List.flatten_cons, List.flatten_nil]
  rw [hentries] at h
  exact SortedMerge.eq ⟨.refl _, hordered⟩ h hnodup

/-- The first table has one entry, and so has what it is merged into. -/
theorem sortedMerge_firstFile {merged : List Entry}
    (h : SortedMerge (allEntries (Selection.tables ⟨1, [firstFile], []⟩ crates dueDir)) merged) :
    merged = [(Key.new [65] 4, .bytes [])] ∧
      (cutOutputs crates targetFileSize merged).length = 1 ∧
      ∀ es ∈ cutOutputs crates targetFileSize merged, TableFits crates es := by
  obtain rfl := @sortedMerge_single crates dueDir 1 firstFile _ _ tableEntries_dueDir.1
    (List.pairwise_singleton _ _) (List.nodup_singleton _) h
  refine ⟨rfl, rfl, ?_⟩
  show ∀ es ∈ [[(Key.new [65] 4, Value.bytes [])]], TableFits crates es
  decide

/-- The table with three blocks is too small to be cut. -/
theorem cutOutputs_threeBlocks :
    cutOutputs crates targetFileSize (threeBlocks bigValue) = [threeBlocks bigValue] := by
  have hfree : ∀ n ≤ 2,
      reachedTarget crates targetFileSize ((threeBlocks bigValue).take n) = false := by
    decide +kernel
  have hone := hfree 1 (by omega)
  have htwo := hfree 2 (by omega)
  simp only [threeBlocks, List.take_succ_cons, List.take_zero] at hone htwo
  simp only [cutOutputs, Cut.cut, threeBlocks, List.foldl_cons, List.foldl_nil, Cut.step, Cut.close,
    List.isEmpty_nil, List.isEmpty_cons, List.cons_append, List.nil_append, Bool.true_or,
    Bool.false_or,
    hone, htwo, if_true, Bool.false_eq_true, if_false]

theorem compacted_dueWorld {files : List FileMetadata} {nextSstableId : UInt32}
    (hfiles : files = [] ∨ files = [zeroFile]) (h : 1 < nextSstableId) :
    ∃ w' w₁, iteration defaultEnv (dueWorld files nextSstableId) = some w' ∧
      Compacted defaultEnv (Kept (dueLevels files nextSstableId)) (dueWorld files nextSstableId)
        targetFileSize ⟨1, [firstFile], []⟩ [(Key.new [65] 4, .bytes [])] w₁ w' := by
  obtain ⟨hdue, hselect⟩ := iteration_dueWorld nextSstableId hfiles
  obtain ⟨w', merged, w₁, hrun, hcompacted⟩ := (cascading_dueWorld hfiles h).executes hselect
    (fun merged hmerged => by
      obtain ⟨-, hcount, -⟩ := sortedMerge_firstFile hmerged
      show nextSstableId.toNat + (cutOutputs crates targetFileSize merged).length ≤ 2 ^ 32
      rw [hcount]
      exact nextSstableId.toNat_lt)
    (fun merged hmerged => (sortedMerge_firstFile hmerged).2.2)
  obtain ⟨rfl, -⟩ := sortedMerge_firstFile hcompacted.sorted
  refine ⟨w', w₁, ?_, hcompacted⟩
  rw [iteration, show dueTask (dueWorld files nextSstableId).manifest = _ from hdue,
    Option.map_some,
    hrun]

/-- After that the rest of level 1 is left, and the output is in level 2. -/
theorem levelFiles_compacted {files : List FileMetadata} {nextSstableId : UInt32}
    (hfiles : files = [] ∨ files = [zeroFile]) {keep : FileName → Prop} {w₁ w' : World}
    (h : Compacted defaultEnv keep (dueWorld files nextSstableId) targetFileSize
      ⟨1, [firstFile], []⟩ [(Key.new [65] 4, .bytes [])] w₁ w') :
    levelFiles w'.manifest 0 = [] ∧ levelFiles w'.manifest 1 = files ∧
      levelFiles w'.manifest 2 =
        [(writtenTable crates nextSstableId [(Key.new [65] 4, .bytes [])]).meta'] ∧
      levelFiles w'.manifest 3 = [] := by
  have houtputs : (Compacted.outputs defaultEnv (dueWorld files nextSstableId) targetFileSize
      [(Key.new [65] 4, .bytes [])]).map Table.meta' =
      [(writtenTable crates nextSstableId [(Key.new [65] 4, .bytes [])]).meta'] := by
    show [(writtenTable crates (nextSstableId + 0) [(Key.new [65] 4, .bytes [])]).meta'] = _
    rw [UInt32.add_zero]
  simp only [h.levelFiles_eq, houtputs]
  refine ⟨rfl, ?_, rfl, rfl⟩
  rcases hfiles with rfl | rfl <;> rfl

/-- Level 2 has not reached its target size with two files. -/
theorem filesSize_two_lt (f g : FileMetadata) : filesSize [f, g] < l0SizeTrigger * 100 := by
  have hf := f.fileSize.toNat_lt
  have hg := g.fileSize.toNat_lt
  rw [UInt64.lt_iff_toNat_lt]
  show (0 + f.fileSize.toUInt64 + g.fileSize.toUInt64).toNat < 13421772800
  rw [UInt64.zero_add, UInt64.toNat_add, UInt32.toNat_toUInt64, UInt32.toNat_toUInt64]
  omega

/-- With two files in level 2 and none before them the loop waits. -/
theorem dueTask_two {m : Manifest} {f g : FileMetadata} (hwals : m.wals.length ≤ 4)
    (h0 : levelFiles m 0 = []) (h1 : levelFiles m 1 = []) (h2 : levelFiles m 2 = [f, g])
    (h3 : levelFiles m 3 = []) : dueTask m = none := by
  have htriggered : triggeredLevel m = none := by
    rw [triggeredLevel, List.find?_eq_none]
    intro level hlevel
    obtain ⟨hfirst, hlast⟩ := List.mem_range'_1.mp hlevel
    have hlast : level < 4 := hlast
    simp only [Bool.and_eq_true, decide_eq_true_eq, not_and, UInt64.not_le]
    intro _
    interval_cases level
    · rw [h1]
      decide
    · rw [h2]
      exact filesSize_two_lt f g
    · rw [h3]
      decide
  rw [dueTask, if_neg (by omega), h0, if_neg (by decide), htriggered]
  rfl

/-- The room of a state whose next task merges one file into itself. -/
theorem TaskRoom.of_single {k : Compaction} {s : Selection} {es : List Entry}
    (hdue : dueTask w.manifest = some k.task) (hselect : k.select w.manifest = some s)
    (hmerged : ∀ merged, SortedMerge (allEntries (s.tables env.crates w.dir)) merged → merged = es)
    (hpieces : cutOutputs env.crates targetFileSize es = [es]) (hfits : TableFits env.crates es)
    (hids : w.manifest.nextSstableId.toNat + 1 < 2 ^ 32) : TaskRoom env w := by
  have hsame : ∀ k' s', dueTask w.manifest = some (Compaction.task k') →
      k'.select w.manifest = some s' → s' = s := by
    intro k' s' hk hs
    obtain rfl := Compaction.task_inj (Option.some.inj (hk.symm.trans hdue))
    exact Option.some.inj (hs.symm.trans hselect)
  refine ⟨fun k' s' hk hs merged hsorted => ?_, fun k' s' hk hs merged hsorted => ?_⟩
  · obtain rfl := hsame k' s' hk hs
    obtain rfl := hmerged merged hsorted
    rw [hpieces]
    exact hids
  · obtain rfl := hsame k' s' hk hs
    obtain rfl := hmerged merged hsorted
    rw [hpieces]
    exact List.forall_mem_singleton.mpr hfits

/-- The room of a state in which the loop waits. -/
theorem TaskRoom.of_wait (hwait : dueTask w.manifest = none) : TaskRoom env w := by
  refine ⟨fun k s hk => ?_, fun k s hk => ?_⟩ <;> rw [hwait] at hk <;> cases hk

/-- Entries that are not cut give one table. -/
theorem length_outputs_single {targetFileSize : UInt64} {es : List Entry}
    (hpieces : cutOutputs env.crates targetFileSize es = [es]) :
    (Compacted.outputs env w targetFileSize es).length = 1 := by
  rw [Compacted.outputs, hpieces]
  rfl

theorem cascade_terminates_two_files : ∃ n w', run defaultEnv n (dueWorld [zeroFile] 2) = some w' ∧
    dueTask w'.manifest = none := by
  have hcascading := @cascading_dueWorld [zeroFile] 2 (.inr rfl) (by decide)
  obtain ⟨w₂, w₁, hfirst, hcompacted⟩ := @compacted_dueWorld [zeroFile] 2 (.inr rfl) (by decide)
  obtain ⟨hdue, hselect⟩ := @iteration_dueWorld [zeroFile] 2 (.inr rfl)
  obtain ⟨h0, h1, h2, h3⟩ := levelFiles_compacted (.inr rfl) hcompacted
  have hroom : TaskRoom defaultEnv (dueWorld [zeroFile] 2) :=
    .of_single hdue hselect (fun _ hsorted => (sortedMerge_firstFile hsorted).1) rfl (by decide)
      (by decide)
  have hcascading₂ := hcascading.compacted hcompacted
    (hroom.ids _ _ hdue hselect _ hcompacted.sorted)
  -- the other file is behind the first one in level 1, and merged into itself
  have hnext : w₂.manifest.nextSstableId = 3 := by
    rw [hcompacted.nextSstableId]
    rfl
  have hold : (0 : UInt32) ∈ (dueWorld [zeroFile] 2).manifest.sstableIds :=
    show (0 : UInt32) ∈ [1, 0] by decide
  have hlisted : zeroFile.fileId ∈ w₂.manifest.sstableIds :=
    fileId_mem_sstableIds (i := 1) (by rw [h1]; exact List.mem_cons_self)
  have hstored : tableEntries crates w₂.dir zeroFile.fileId = some (threeBlocks bigValue) :=
    (tableEntries_congr (hcompacted.read_listed hold hlisted)).trans tableEntries_dueDir.2
  have hkeys : ((threeBlocks bigValue).map Prod.fst).Nodup :=
    show [Key.new [97] 3, Key.new [98] 2, Key.new [99] 1].Nodup by decide
  have hmerged : ∀ merged, SortedMerge (allEntries
      (Selection.tables ⟨1, [zeroFile], []⟩ defaultEnv.crates w₂.dir)) merged →
      merged = threeBlocks bigValue := fun _ hsorted =>
    sortedMerge_single hstored (keyOrdered_threeBlocks _) hkeys hsorted
  obtain ⟨hdue₂, hselect₂, hsecond⟩ :=
    iteration_level1 defaultEnv hcascading₂.wals h0 h1 (by decide)
    (by rw [h2]; rfl)
  have hroom₂ : TaskRoom defaultEnv w₂ :=
    .of_single hdue₂ hselect₂ hmerged cutOutputs_threeBlocks
      (tableFits_threeBlocks List.length_replicate) (by rw [hnext]; decide)
  obtain ⟨w₃, merged, w₁', hrun, hcompacted₃⟩ := hcascading₂.executes hselect₂
    (fun merged hsorted => Nat.le_of_lt (hroom₂.ids _ _ hdue₂ hselect₂ merged hsorted))
    (hroom₂.tables _ _ hdue₂ hselect₂)
  obtain rfl := hmerged merged hcompacted₃.sorted
  have hiteration : iteration defaultEnv w₂ = some w₃ := by
    rw [iteration, hdue₂, Option.map_some, hrun]
  have hlevels := hcompacted₃.levelFiles_eq
  obtain ⟨f, g, htwo⟩ : ∃ f g, levelFiles w₃.manifest 2 = [f, g] := by
    refine List.length_eq_two.mp ?_
    have htarget := hlevels 2
    rw [if_neg (Nat.succ_ne_self 1), if_pos rfl, h2] at htarget
    have houtputs :
        (Compacted.outputs defaultEnv w₂ targetFileSize (threeBlocks bigValue)).length = 1 :=
      length_outputs_single cutOutputs_threeBlocks
    rw [htarget, List.length_insertionSort, List.length_append, List.length_map, houtputs]
    rfl
  have hwait : dueTask w₃.manifest = none :=
    dueTask_two (hcascading₂.compacted hcompacted₃
      (hroom₂.ids _ _ hdue₂ hselect₂ _ hcompacted₃.sorted)).wals
      ((hlevels 0).trans h0) (by rw [hlevels, if_pos rfl, h1]; rfl) htwo ((hlevels 3).trans h3)
  refine cascade_terminates defaultEnv (dueWorld [zeroFile] 2) hcascading fun w' hw' => ?_
  rcases hw'.cases_head with rfl | ⟨w, hw, hrest⟩
  · exact hroom
  obtain rfl := Option.some.inj (hfirst.symm.trans hw)
  rcases hrest.cases_head with rfl | ⟨w, hw, hrest⟩
  · exact hroom₂
  obtain rfl := Option.some.inj (hiteration.symm.trans hw)
  rcases hrest.cases_head with rfl | ⟨w, hw, hrest⟩
  · exact .of_wait hwait
  · rw [iteration, hwait] at hw
    cases hw

/-- The first entry of the table with three blocks. -/
def firstEntry : Entry := (Key.new [97] 3, .bytes bigValue)

/-- Its block is not a table. -/
theorem new_firstBlock : ∃ e, Sstable.new crates 0
    (SstableWriter.new.write crates firstEntry.1 firstEntry.2).file = .error e := by
  have hfails : (Sstable.new crates 0
      (SstableWriter.new.write crates firstEntry.1 firstEntry.2).file).isOk = false := by
    decide +kernel
  rcases hnew : Sstable.new crates 0
    (SstableWriter.new.write crates firstEntry.1 firstEntry.2).file with e | sst
  · exact ⟨e, rfl⟩
  · rw [hnew] at hfails
    cases hfails

/-- When the table ids run over, a table can be merged into its own file. Every iteration after that
tries to merge it again, and fails. -/
theorem cascade_runs_on : ¬ ∀ (env : Env) (w : World), Cascading env w →
    w.manifest.sstableIds.Nodup →
    (∀ id ∈ w.manifest.sstableIds, tableEntries env.crates w.dir id ≠ some []) →
    ∃ n w', run env n w = some w' := by
  intro hall
  have hless : (1 : UInt32) < 0xffffffff := by decide
  obtain ⟨w₂, w₁, hfirst, hcompacted⟩ := @compacted_dueWorld [zeroFile] _ (.inr rfl) hless
  obtain ⟨h0, h1, h2, -⟩ := levelFiles_compacted (.inr rfl) hcompacted
  have hwals : w₂.manifest.wals.length ≤ 4 := by
    rw [hcompacted.fileLists_eq.2]
    decide
  -- the output has got the largest id, and the next one is 0
  have hnext : w₂.manifest.nextSstableId = 0 := by
    rw [hcompacted.nextSstableId]
    rfl
  have hzero : zeroFile.fileId ∈ w₂.manifest.sstableIds :=
    fileId_mem_sstableIds (i := 1) (by rw [h1]; exact List.mem_cons_self)
  have hold : (0 : UInt32) ∈ (dueWorld [zeroFile] 0xffffffff).manifest.sstableIds :=
    show (0 : UInt32) ∈ [1, 0] by decide
  have hread :
      w₂.dir.read (.sst zeroFile.fileId) = some (writeTable crates (threeBlocks bigValue)).1 :=
    (hcompacted.read_listed hold hzero).trans read_dueDir
  have hfaults : w₂.faults = [] := hcompacted.faults rfl
  have hoverlap : overlapping zeroFile.minKey zeroFile.maxKey (levelFiles w₂.manifest 2) = [] := by
    rw [h2]
    rfl
  -- the second iteration merges the table with the id 0 into the file of that table
  have hlarge : bigValue.length = 4096 := List.length_replicate
  have hblocks : tableBlocks (threeBlocks bigValue) = [firstEntry] :: _ :=
    tableBlocks_threeBlocks hlarge
  obtain ⟨e, hmerge⟩ := mergeFiles_overwrites defaultEnv targetFileSize hfaults hnext.symm
    (tableFits_threeBlocks hlarge) hblocks hread
  have hsecond : iteration defaultEnv w₂ = some (dropFirst defaultEnv w₂ firstEntry) := by
    rw [(iteration_level1 defaultEnv hwals h0 h1 (by decide) hoverlap).2.2,
      executeCompaction_of_merge_error 1 hmerge]
  -- and every other one finds the first block there and no footer
  obtain ⟨hfaults', hmanifest, hblock⟩ := dropFirst_spec defaultEnv firstEntry hfaults
  rw [hnext] at hblock
  obtain ⟨_, hnew⟩ := new_firstBlock
  obtain ⟨e', hmerge'⟩ :=
    @mergeFiles_unreadable defaultEnv (dropFirst defaultEnv w₂ firstEntry) zeroFile
    _ _ targetFileSize hfaults' hblock hnew
  have hlevels :
      levelFiles (dropFirst defaultEnv w₂ firstEntry).manifest = levelFiles w₂.manifest := by
    rw [hmanifest]
    rfl
  have hthird : iteration defaultEnv (dropFirst defaultEnv w₂ firstEntry) =
      some (dropFirst defaultEnv w₂ firstEntry) := by
    rw [(@iteration_level1 defaultEnv (dropFirst defaultEnv w₂ firstEntry) zeroFile []
      (by rw [hmanifest]; exact hwals) (by rw [hlevels, h0]) (by rw [hlevels, h1]) (by decide)
      (by rw [hlevels]; exact hoverlap)).2.2, executeCompaction_of_merge_error 1 hmerge']
  obtain ⟨n, w', hrun⟩ := hall defaultEnv (dueWorld [zeroFile] 0xffffffff)
    (cascading_dueWorld (.inr rfl) hless) (show [(1 : UInt32), 0].Nodup by decide) (by
      show ∀ id ∈ [(1 : UInt32), 0], tableEntries crates dueDir id ≠ some []
      simp only [List.forall_mem_cons, tableEntries_dueDir, threeBlocks]
      simp)
  rw [run_of_iteration hfirst (run_of_iteration hsecond (run_of_stuck hthird))] at hrun
  cases hrun

end EasyLsm.Db
