import Mathlib.Data.List.Basic
import EasyLsm.Db.Put
import EasyLsm.Db.Shelf
import EasyLsm.Lib.Versions

/-!
# What a command does

The commands on an open database, and what each of them does when it succeeds (`Outcome`): a `put`
inserts an entry, a rotation adds a memtable, a flush turns the frozen memtables into tables of
level 0, and a compaction replaces tables of two levels. `Layout.step` says that nothing else
happens as long as a command has room for what it writes.
-/

namespace EasyLsm.Db

open Lib Lib.FileStore Lib.Versions

variable {env : Env} {w w' : World} {shelf shelf' : List (List (OpenTable env.crates))}

/-- An entry is a version of its user key. -/
instance : Versioned Entry Bytes where
  key e := e.1.bytes
  seq e := e.1.lsn.toNat

/-! ## Commands -/

/-- What is done to an open database. A `del` is a `put` of a tombstone. -/
inductive Command where
  | put (key : Bytes) (value : Value)
  | structural (op : Structural)

/-- Run a command. -/
def Command.run (env : Env) : Command → Op Unit
  | put key value => Db.put env key value
  | structural op => op.run env

/-- An operation that succeeds. -/
theorem run_of_ok {x : Op Unit} {w : World} (h : (x w).1 = .ok ()) : x w = (.ok (), (x w).2) :=
  Prod.ext h rfl

/-- The entry that a command writes. -/
def Command.written (w : World) : Command → List Entry
  | put key value => [(Key.new key w.nextLsn, value)]
  | structural _ => []

/-- The command of a compaction. -/
def Compaction.command (targetFileSize : UInt64) : Compaction → Command
  | l0 => .structural (.compactL0 targetFileSize)
  | ln levelIdx => .structural (.compactLn levelIdx targetFileSize)

/-- The pieces of a merge can be written, under ids that the manifest does not list. -/
def CompactionRoom (env : Env) (w : World) (targetFileSize : UInt64) (k : Compaction) : Prop :=
  ∀ s, k.select w.manifest = some s → ∃ count, MergeRoom env (Kept w.manifest) w targetFileSize
    (allEntries (s.tables env.crates w.dir)) count

/-- Nothing that a command writes is too large for its field, and new tables get ids that the
manifest does not list. -/
def Room (env : Env) (w : World) : Command → Prop
  | .put _ _ => w.nextLsn.toNat + 1 < 2 ^ 64
  | .structural .rotateMemtable => True
  | .structural .flushMemtables => FlushFits env.crates w ∧
      ∀ t ∈ flushTables env.crates w, t.meta'.fileId ∉ w.manifest.sstableIds
  | .structural (.compactL0 targetFileSize) => CompactionRoom env w targetFileSize .l0
  | .structural (.compactLn levelIdx targetFileSize) =>
      CompactionRoom env w targetFileSize (.ln levelIdx)

/-- What a command that succeeds has done to the database and to its tables. -/
inductive Outcome (env : Env) (w : World) (shelf : List (List (OpenTable env.crates))) :
    Command → World → List (List (OpenTable env.crates)) → Prop
  | put {key : Bytes} {value : Value}
      (free : (inserted env w (Key.new key w.nextLsn, value)).current.mutableMemtable.size <
        env.maxMemtableSize) :
      Outcome env w shelf (.put key value) (inserted env w (Key.new key w.nextLsn, value)) shelf
  | putRotated {key : Bytes} {value : Value} {w' : World}
      (full : env.maxMemtableSize ≤
        (inserted env w (Key.new key w.nextLsn, value)).current.mutableMemtable.size)
      (rotated : Rotated env (inserted env w (Key.new key w.nextLsn, value)) w') :
      Outcome env w shelf (.put key value) w' shelf
  | rotated {w' : World} (rotated : Rotated env w w') :
      Outcome env w shelf (.structural .rotateMemtable) w' shelf
  | notFlushed (empty : w.current.frozenMemtables = []) :
      Outcome env w shelf (.structural .flushMemtables) w shelf
  | flushed {w₁ w' : World} {hs : List TableHandle} {new : List (OpenTable env.crates)}
      (full : w.current.frozenMemtables ≠ [])
      (entries : new.map OpenTable.entries = w.current.frozenMemtables.map Memtable.iter)
      (metas : new.map OpenTable.meta' = (flushTables env.crates w).map Table.meta')
      (done : FlushDone env w w₁ hs w') :
      Outcome env w shelf (.structural .flushMemtables) w' (Levels.push new shelf)
  | notCompacted {k : Compaction} {targetFileSize : UInt64} (select : k.select w.manifest = none) :
      Outcome env w shelf (k.command targetFileSize) w shelf
  | compacted {k : Compaction} {s : Selection} {targetFileSize : UInt64} {merged : List Entry}
      {w₁ w' : World} {new : List (OpenTable env.crates)} (select : k.select w.manifest = some s)
      (entries : new.map OpenTable.entries = cutOutputs env.crates targetFileSize merged)
      (metas : new.map OpenTable.meta' =
        (Compacted.outputs env w targetFileSize merged).map Table.meta')
      (done : Compacted env (Kept w.manifest) w targetFileSize s merged w₁ w')
      (rewrites : Rewrites OpenTable.entries s.takesSource s.takesTarget s.sourceLevelIdx
        shelf new) :
      Outcome env w shelf (k.command targetFileSize) w' (s.replace new shelf)

/-! ## Memtables -/

/-- The entries of the memtables of a version, the oldest memtable first. -/
def memtableRuns (v : Version) : List (List Entry) :=
  v.frozenMemtables.map Memtable.iter ++ [v.mutableMemtable.store.entries]

theorem Rotated.memtableRuns (h : Rotated env w w') :
    memtableRuns w'.current = memtableRuns w.current ++ [[]] := by
  obtain ⟨v, hswitched, hdropped⟩ := h
  rw [hdropped.current]
  obtain ⟨_, _, _, _, _, _, _, _, _, _, rfl⟩ := hswitched.steps
  unfold Db.memtableRuns rotateVersion
  rw [List.map_append]
  rfl

theorem Rotated.nextLsn (h : Rotated env w w') : w'.nextLsn = w.nextLsn := by
  obtain ⟨v, hswitched, hdropped⟩ := h
  rw [hdropped.nextLsn]
  obtain ⟨_, _, _, _, hquiet, _, hcommitted, _, _, _, rfl⟩ := hswitched.steps
  exact hcommitted.nextLsn.trans hquiet.nextLsn

namespace FlushDone

variable {w₁ : World} {hs : List TableHandle}

theorem current (h : FlushDone env w w₁ hs w') :
    w'.current = flushVersion w.current.frozenMemtables.length hs w.current := by
  rw [h.published.current, h.built.quiet.current]

theorem nextLsn (h : FlushDone env w w₁ hs w') : w'.nextLsn = w.nextLsn :=
  h.published.nextLsn.trans h.built.quiet.nextLsn

/-- One table id is taken. -/
theorem nextSstableId (h : FlushDone env w w₁ hs w') :
    w'.manifest.nextSstableId = w.manifest.nextSstableId + 1 := by
  obtain ⟨c, hc, hw'⟩ := h.published.manifest
  rw [hw', (flushMutator_keepsCounters _ _).nextSstableId hc, h.reserved]

/-- Only the mutable memtable is left. -/
theorem memtableRuns (h : FlushDone env w w₁ hs w') :
    memtableRuns w'.current = [w.current.mutableMemtable.store.entries] := by
  rw [h.current]
  unfold Db.memtableRuns flushVersion
  simp only [List.drop_length, List.map_nil, List.nil_append]

end FlushDone

namespace Compacted

variable {keep : FileName → Prop} {targetFileSize : UInt64} {s : Selection} {merged : List Entry}
  {w₁ : World}

theorem memtableRuns (h : Compacted env keep w targetFileSize s merged w₁ w') :
    memtableRuns w'.current = memtableRuns w.current := by
  obtain ⟨hs, _, hcurrent⟩ := h.sstables_eq
  rw [hcurrent]
  rfl

theorem nextLsn (h : Compacted env keep w targetFileSize s merged w₁ w') :
    w'.nextLsn = w.nextLsn := by
  obtain ⟨_, _, hmerged, hpublished⟩ := h
  exact hpublished.nextLsn.trans hmerged.built.quiet.nextLsn

end Compacted

/-! ## The layout -/

/-- The tables are those of the shelf, the log of the mutable memtable is there, and it is listed
behind the logs of the frozen memtables. -/
structure Layout (env : Env) (w : World) (shelf : List (List (OpenTable env.crates))) : Prop where
  shelved : Shelved env w shelf
  log : (.wal w.current.mutableWal.id, w.current.mutableWal.inode) ∈ w.dir.names
  wals : ∃ ids, w.manifest.wals = ids ++ [w.current.mutableWal.id] ∧
    ids.length = w.current.frozenMemtables.length

namespace Layout

theorem start (env : Env) (faults : List (Option Fault)) (trace : List Dir) :
    Layout env { pristine env with faults, trace } [] where
  shelved := ⟨rfl, rfl, by simp, List.nodup_nil⟩
  log := by
    show (FileName.wal 0, 0) ∈ [(FileName.mf 0, 1), (FileName.wal 0, 0)]
    exact List.mem_cons_of_mem _ List.mem_cons_self
  wals := ⟨[], rfl, rfl⟩

/-- The log of the mutable memtable is listed. -/
theorem log_listed (h : Layout env w shelf) : w.current.mutableWal.id ∈ w.manifest.wals := by
  obtain ⟨ids, hids, _⟩ := h.wals
  rw [hids]
  exact List.mem_append_right _ (List.mem_singleton_self _)

/-- An entry is written to the log and inserted into the memtable. -/
theorem inserted (h : Layout env w shelf) (e : Entry) : Layout env (Db.inserted env w e) shelf where
  shelved := by
    refine h.shelved.frame rfl rfl (agree_setContent (free_of_mem ?_ h.log) _)
    rintro ⟨t, _, heq⟩
    cases heq
  log := h.log
  wals := h.wals

/-- A memtable is frozen. -/
theorem switched (h : Layout env w shelf) (hswitched : Switched env w w') :
    Layout env w' shelf := by
  obtain ⟨w₁, w₂, newWal, faults, hquiet, _, hcommitted, hid, _, hname, rfl⟩ := hswitched.steps
  have hmanifest := hcommitted.manifest
  refine ⟨h.shelved.frame ?_ rfl ?_, ?_, w.manifest.wals, ?_, ?_⟩
  · show fileLists w₂.manifest = _
    rw [hmanifest]
    rfl
  · have hsst : Agree (fun n => ∃ id, n = .sst id) w.dir w₂.dir := by
      refine (hquiet.dir.mono ?_).trans hcommitted.agree_sst
      rintro _ ⟨id, rfl⟩
      simp
    refine hsst.mono ?_
    rintro _ ⟨t, _, rfl⟩
    exact ⟨_, rfl⟩
  · show (FileName.wal newWal.id, newWal.inode) ∈ w₂.dir.names
    rw [hid]
    exact hname
  · show w₂.manifest.wals = w.manifest.wals ++ [newWal.id]
    rw [hmanifest, hid]
  · obtain ⟨ids, hwals, hlen⟩ := h.wals
    show _ = (w.current.frozenMemtables ++ [w.current.mutableMemtable.freezeFromRef]).length
    rw [hwals, List.length_append, List.length_append, hlen]
    rfl

/-- A memtable is frozen, and the old log dropped. -/
theorem rotated (h : Layout env w shelf) (hrotated : Rotated env w w') : Layout env w' shelf := by
  obtain ⟨v, hswitched, hdropped⟩ := hrotated
  have hlayout := h.switched hswitched
  have hfree : Free (fun n => ∃ t ∈ shelf.flatten, n = .sst t.fileId) v.dir
      w.current.mutableWal.inode := by
    refine hswitched.free h.log ?_ fun n ⟨t, _, hn⟩ => ⟨t.fileId, .inr hn⟩
    rintro ⟨t, _, heq⟩
    cases heq
  have hquiet := hdropped.quiet hfree
  refine ⟨hlayout.shelved.frame (by rw [hdropped.manifest]) (by rw [hdropped.current]) hquiet.dir,
    ?_, ?_⟩
  · rw [hdropped.current, hdropped.names]
    exact hlayout.log
  · rw [hdropped.manifest, hdropped.current]
    exact hlayout.wals

/-- After a flush only the log of the mutable memtable is listed. -/
theorem wals_flushed (h : Layout env w shelf) {w₁ : World} {hs : List TableHandle}
    (hdone : FlushDone env w w₁ hs w') : w'.manifest.wals = [w.current.mutableWal.id] := by
  obtain ⟨ids, hwals, hlen⟩ := h.wals
  rw [hdone.wals, hwals, ← hlen, List.drop_left]

/-- The frozen memtables are flushed. -/
theorem flushed (h : Layout env w shelf) (hfits : FlushFits env.crates w)
    (hfresh : ∀ t ∈ flushTables env.crates w, t.meta'.fileId ∉ w.manifest.sstableIds)
    (hne : w.current.frozenMemtables ≠ []) (hrun : flushMemtables env w = (.ok (), w')) :
    ∃ shelf', Outcome env w shelf (.structural .flushMemtables) w' shelf' ∧
      Layout env w' shelf' := by
  obtain ⟨new, w₁, hs, hentries, hmetas, hdone, hshelved⟩ :=
    h.shelved.flushed hfits hfresh hne hrun
  have hcurrent := hdone.current
  have hwals := h.wals_flushed hdone
  have hwal : w'.current.mutableWal = w.current.mutableWal := by
    rw [hcurrent]
    rfl
  refine ⟨_, .flushed hne hentries hmetas hdone, hshelved, ?_, [], ?_, ?_⟩
  · rw [hwal]
    refine (hdone.published.agree.names (.inl ⟨_, ?_, rfl⟩) _).mpr
      ((hdone.built.quiet.dir.names (fun t _ => by simp) _).mpr h.log)
    rw [hwals]
    exact List.mem_singleton_self _
  · rw [hwals, hwal]
    rfl
  · rw [hcurrent]
    simp [flushVersion]

/-- Tables are compacted. -/
theorem compacted (h : Layout env w shelf) {k : Compaction} {s : Selection}
    {targetFileSize : UInt64} {count : Nat} (hselect : k.select w.manifest = some s)
    (hroom : MergeRoom env (Kept w.manifest) w targetFileSize
      (allEntries (s.tables env.crates w.dir)) count) :
    Prog.Spec (· = w)
      (executeCompaction env s.sourceLevelIdx s.all s.fromSource s.fromTarget targetFileSize)
      (fun _ w' => ∃ shelf', Outcome env w shelf (k.command targetFileSize) w' shelf' ∧
        Layout env w' shelf')
      (fun _ => Failed (Kept w.manifest) w) := by
  refine (h.shelved.executes hselect hroom).weaken (fun _ hw => hw) (fun _ w' hw' => ?_)
    fun _ _ hfailed => hfailed
  obtain ⟨merged, new, w₁, hentries, hmetas, hcompacted, hshelved⟩ := hw'
  obtain ⟨_, hwals⟩ := hcompacted.fileLists_eq
  obtain ⟨hs, _, hcurrent⟩ := hcompacted.sstables_eq
  obtain ⟨_, _, hmerged, hpublished⟩ := id hcompacted
  have hwal : w'.current.mutableWal = w.current.mutableWal := by rw [hcurrent]
  have hrewrites : Rewrites OpenTable.entries s.takesSource s.takesTarget s.sourceLevelIdx shelf
      new := by
    intro t ht e he
    have hmerged' : e ∈ merged := by
      rw [← @Cut.flatten_cut _ (reachedTarget env.crates targetFileSize) merged, ← cutOutputs,
        ← hentries]
      exact List.mem_flatten.mpr ⟨_, List.mem_map_of_mem ht, he⟩
    obtain ⟨u, hu, he⟩ := List.mem_flatMap.mp
      ((h.shelved.allEntries_perm hselect).mem_iff.mp (hcompacted.sorted.1.mem_iff.mp hmerged'))
    rcases List.mem_append.mp hu with hu | hu
    · obtain ⟨hlevel, htaken⟩ := List.mem_filter.mp hu
      exact .inl ⟨u, hlevel, htaken, he⟩
    · obtain ⟨hlevel, htaken⟩ := List.mem_filter.mp hu
      exact .inr ⟨u, hlevel, htaken, he⟩
  refine ⟨_, .compacted hselect hentries hmetas hcompacted hrewrites, hshelved, ?_, ?_⟩
  · rw [hwal]
    refine (hpublished.agree.names (.inl ⟨_, ?_, rfl⟩) _).mpr
      ((hmerged.built.quiet.dir.names (.inr (.inl ⟨_, h.log_listed, rfl⟩)) _).mpr h.log)
    rw [hwals]
    exact h.log_listed
  · rw [hwals, hwal, hcurrent]
    exact h.wals

/-- A compaction that succeeds. -/
theorem compaction (h : Layout env w shelf) {k : Compaction} {targetFileSize : UInt64}
    (hroom : CompactionRoom env w targetFileSize k)
    (hrun : k.run env targetFileSize w = (.ok (), w')) :
    ∃ shelf', Outcome env w shelf (k.command targetFileSize) w' shelf' ∧ Layout env w' shelf' := by
  rw [k.run_eq] at hrun
  cases hselect : k.select w.manifest with
  | none =>
      rw [hselect] at hrun
      cases hrun
      exact ⟨shelf, .notCompacted hselect, h⟩
  | some s =>
      rw [hselect] at hrun
      obtain ⟨count, hroom⟩ := hroom s hselect
      exact (h.compacted hselect hroom).ok rfl hrun

/-- What a command does when it succeeds. -/
theorem step (h : Layout env w shelf) {command : Command} (hroom : Room env w command)
    (hrun : command.run env w = (.ok (), w')) :
    ∃ shelf', Outcome env w shelf command w' shelf' ∧ Layout env w' shelf' := by
  have hrotated : ∀ {w}, rotateMemtable env w = (.ok (), w') → Rotated env w w' := by
    intro w hrun
    exact ((@rotateMemtable_spec env (fun _ => False) w (by simp) (by simp)).ok rfl hrun).1
  cases command with
  | put key value =>
      have hinserted := h.inserted (Key.new key w.nextLsn, value)
      have hwrite := write_ok hrun
      simp only at hwrite
      split at hwrite
      · rename_i hfull
        exact ⟨shelf, .putRotated hfull (hrotated hwrite), hinserted.rotated (hrotated hwrite)⟩
      · rename_i hfree
        rw [hwrite]
        exact ⟨shelf, .put (Nat.not_le.mp hfree), hinserted⟩
  | structural op =>
      cases op with
      | rotateMemtable => exact ⟨shelf, .rotated (hrotated hrun), h.rotated (hrotated hrun)⟩
      | flushMemtables =>
          obtain ⟨hfits, hfresh⟩ := hroom
          by_cases hempty : w.current.frozenMemtables = []
          · have hsame := (flushMemtables_spec hfits).ok rfl hrun
            rw [if_pos hempty] at hsame
            rw [hsame]
            exact ⟨shelf, .notFlushed hempty, h⟩
          · exact h.flushed hfits hfresh hempty hrun
      | compactL0 targetFileSize => exact h.compaction (k := .l0) hroom hrun
      | compactLn levelIdx targetFileSize => exact h.compaction (k := .ln levelIdx) hroom hrun

end Layout

end EasyLsm.Db
