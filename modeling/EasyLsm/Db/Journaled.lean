import Mathlib.Data.List.Basic
import EasyLsm.Db.Tracked

/-!
# A database as a journal

`Journaled env w shelf j` says that the database is the journal `j`: its logs and its memtables are
those of `j` (`Tracked`), and its tables hold what was stored.
-/

namespace EasyLsm.Db

open Lib Lib.FileStore Lib.Versions

variable {env : Env} {w w' : World} {shelf shelf' : List (List (OpenTable env.crates))}
  {writes : List Entry} {r : Except DbError Unit}

/-- The database is the journal. -/
structure Journaled (env : Env) (w : World) (shelf : List (List (OpenTable env.crates)))
    (j : LogJournal) : Prop extends Tracked env w j where
  layout : Layout env w shelf
  onDisk : OnDisk env w.dir w.manifest
  stored : (shelf.flatten.flatMap OpenTable.entries).Perm j.stored

namespace Journaled

variable {j : LogJournal}

theorem start (env : Env) (faults : List (Option Fault)) (trace : List Dir) :
    Journaled env { pristine env with faults, trace } [] (.initial 0 1) where
  toTracked := .start env faults trace
  layout := .start env faults trace
  onDisk := onDisk_of_read (show (Manifest.new 0).Fits by decide) rfl rfl
  stored := .nil

/-- The record of an entry is appended to the active log. -/
theorem inserted (h : Journaled env w shelf j) {key : Bytes} {value : Value}
    (hfits : Entry.Fits (Key.new key w.nextLsn, value)) (hroom : w.nextLsn.toNat + 1 < 2 ^ 64) :
    Journaled env (Db.inserted env w (Key.new key w.nextLsn, value)) shelf
      (j.write (Key.new key w.nextLsn, value)) := by
  have htracked := h.toTracked.inserted hfits hroom
  have hfree : Free IsManifest w.dir w.current.mutableWal.inode :=
    free_of_mem (fun ⟨v, hv⟩ => by cases hv) h.name
  exact ⟨htracked, h.layout.inserted _, h.onDisk.of_agree (agree_setContent hfree _), h.stored⟩

/-- Only what is not listed, or the counter of table ids, has changed. -/
theorem quiet (h : Journaled env w shelf j) (hquiet : Quiet (Kept w.manifest) w w')
    (hunwritten : Unwritten j.active w') : Journaled env w' shelf j := by
  have htracked := h.toTracked.quiet (hquiet.mono fun _ hn => hn.imp_right .inl) hunwritten
  obtain ⟨id, hid⟩ := hquiet.manifest
  have hlists : fileLists w'.manifest = fileLists w.manifest := by rw [hid]; rfl
  have hwals : w'.manifest.wals = w.manifest.wals := by rw [hid]
  have hcurrent := hquiet.current
  refine ⟨htracked,
    ⟨h.layout.shelved.frame hlists (by rw [hcurrent]) (hquiet.dir.mono ?_), htracked.name,
    ?_⟩, ?_, h.stored⟩
  · rintro n ⟨t, ht, rfl⟩
    exact .inr (h.layout.shelved.listed_of_mem ht)
  · rw [hwals, hcurrent]
    exact h.layout.wals
  · have hdisk := h.onDisk.of_agree (hquiet.dir.mono fun _ hn => .inl hn)
    rw [hid]
    exact hdisk

/-- A rotation freezes the memtable. -/
theorem rotated (h : Journaled env w shelf j) (hroom : RotateRoom w)
    (hrun : rotateMemtable env w = (.ok (), w')) : Journaled env w' shelf j.rotate := by
  have htracked := h.toTracked.rotated hroom.1 hrun
  have hrotated := ((@rotateMemtable_spec env (fun _ => False) w (by simp) (by simp)).ok rfl hrun).1
  have hlayout := h.layout.rotated hrotated
  obtain ⟨w₁, w₂, newWal, faults, hquiet, _, hcommitted, _, _, _, rfl⟩ :=
    (hrotated.switched h.buf).steps
  refine ⟨htracked, hlayout, hcommitted.onDisk ?_ hroom.1 hroom.2, h.stored⟩
  rw [newestVersion_of_agree (hquiet.dir.mono (by rintro n ⟨v, rfl⟩; simp)), h.onDisk.newest]

/-- A flush stores what the frozen memtables hold. -/
theorem flushed (h : Journaled env w shelf j) (hroom : Room env w (.structural .flushMemtables))
    (hdisk : DiskRoom env w (.structural .flushMemtables))
    (hrun : flushMemtables env w = (.ok (), w')) : ∃ shelf', Journaled env w' shelf' j.flush := by
  have htracked := h.toTracked.flushed hdisk.1 hrun
  obtain ⟨shelf', houtcome, hlayout⟩ := h.layout.step hroom hrun
  have hentries : j.frozen.flatMap Buffer.entries =
      (w.current.frozenMemtables.map Memtable.iter).flatten := by
    rw [h.frozen, List.map_map, List.flatMap_def]
    rfl
  suffices hafter : OnDisk env w'.dir w'.manifest ∧
      (shelf'.flatten.flatMap OpenTable.entries).Perm j.flush.stored from
    ⟨shelf', htracked, hlayout, hafter.1, hafter.2⟩
  rcases houtcome.flush_cases with ⟨hempty, rfl, rfl⟩ | ⟨new, w₁, hs, rfl, hnew, hdone⟩
  · have hnone : j.frozen.flatMap Buffer.entries = [] := by
      rw [hentries, hempty]
      rfl
    refine ⟨h.onDisk, h.stored.trans ?_⟩
    show j.stored.Perm (j.stored ++ j.frozen.flatMap Buffer.entries)
    rw [hnone, List.append_nil]
  · refine ⟨(hdone.publication h.onDisk hdisk.1 hdisk.2).2.2, ?_⟩
    have hpush := (Levels.flatten_push new shelf).flatMap_right OpenTable.entries
    rw [List.flatMap_append, show new.flatMap OpenTable.entries = _ from List.flatMap_def .., hnew,
      ← hentries] at hpush
    exact hpush.trans (h.stored.append_right _)

/-- A compaction stores nothing else. -/
theorem compacted (h : Journaled env w shelf j) {k : Compaction} {targetFileSize : UInt64}
    (hroom : CompactionRoom env w targetFileSize k)
    (hdisk : ∀ s, k.select w.manifest = some s → CompactRoom env w targetFileSize s)
    (hrun : k.run env targetFileSize w = (.ok (), w')) : ∃ shelf', Journaled env w' shelf' j := by
  have htracked := h.toTracked.compacted (fun s hselect => (hdisk s hselect).version) hrun
  obtain ⟨shelf', houtcome, hlayout⟩ := h.layout.compaction hroom hrun
  suffices hafter : OnDisk env w'.dir w'.manifest ∧
      (shelf'.flatten.flatMap OpenTable.entries).Perm j.stored from
    ⟨shelf', htracked, hlayout, hafter.1, hafter.2⟩
  cases hselect : k.select w.manifest with
  | none =>
      rw [k.run_eq, hselect] at hrun
      cases hrun
      rw [houtcome.eq_of_select_none hselect]
      exact ⟨h.onDisk, h.stored⟩
  | some s =>
      obtain ⟨merged, new, w₁, rfl, hentries, hdone, _⟩ := houtcome.exists_compacted hselect
      have hstored := storedEntries_compacted h.layout.shelved hselect hentries hdone
      refine ⟨(hdone.publication h.onDisk (hdisk s hselect)).2.2, ?_⟩
      unfold storedEntries at hstored
      rw [hdone.memtableRuns] at hstored
      exact ((List.perm_append_left_iff _).mp hstored).trans h.stored

/-- A start replays the logs. -/
theorem restarted (h : Journaled env w shelf j) (hroom : RestartRoom w)
    (hrun : newDb env w = (.ok (), w')) :
    (∀ id ∈ j.ids, id < Manifest.maxId w.manifest.wals + 1) ∧
    Journaled env w' shelf (j.restart (Manifest.maxId w.manifest.wals + 1)) := by
  obtain ⟨hnext, htracked⟩ := h.toTracked.restarted h.onDisk hroom hrun
  obtain ⟨state, faults, hrecovered, rfl, _, hfrozen, _⟩ := h.recovered h.onDisk hrun
  refine ⟨hnext, htracked, ⟨h.layout.shelved.launched hrecovered, htracked.name, j.old, ?_, ?_⟩,
    h.onDisk.launched state faults, h.stored⟩
  · have hwals := htracked.wals
    rw [Journal.ids, ← htracked.active] at hwals
    exact hwals
  · show j.old.length = state.frozenMemtables.length
    rw [hfrozen, List.length_map, List.length_map]

end Journaled

/-! ## Commands -/

/-- The step of a command. -/
theorem Journaled.step {j : LogJournal} (h : Journaled env w shelf j) {command : Command}
    (hroom : LifeRoom env w command r) (hrun : command.run env w = (r, w')) :
    ∃ shelf' j', Follows env w j command r j' ∧ Journaled env w' shelf' j' := by
  obtain ⟨hroom, hdisk, hharmless⟩ := hroom
  cases command with
  | put key value =>
      have hinserted := h.inserted hdisk.1 hroom
      cases r with
      | ok =>
          have hwrite := write_ok hrun
          simp only at hwrite
          split at hwrite
          · rename_i hfull
            exact ⟨shelf, _, .putRotated hfull, hinserted.rotated (hdisk.2 hfull) hwrite⟩
          · rename_i hfree
            rw [hwrite]
            exact ⟨shelf, _, .put hfree, hinserted⟩
      | error e =>
          obtain ⟨hfault, hno⟩ := hharmless.resolve_left (by simp)
          obtain ⟨hfull, hrotate⟩ := put_harmless hfault hrun
          have hquiet := rotate_harmless (fun _ => hinserted.walFile_ne_nil) (hno hfull) hrotate
          have hunwritten :=
            (rotateMemtable_unwritten env hinserted.logUpTo hinserted.unwritten).error
            rfl hrotate
          exact ⟨shelf, _, .putFailed, hinserted.quiet hquiet hunwritten⟩
  | structural op =>
      cases r with
      | ok =>
          cases op with
          | rotateMemtable => exact ⟨shelf, _, .structural, h.rotated hdisk hrun⟩
          | flushMemtables =>
              obtain ⟨shelf', hflushed⟩ := h.flushed hroom hdisk hrun
              exact ⟨shelf', _, .structural, hflushed⟩
          | compactL0 targetFileSize =>
              obtain ⟨shelf', hcompacted⟩ := h.compacted (k := .l0) hroom hdisk hrun
              exact ⟨shelf', _, .structural, hcompacted⟩
          | compactLn levelIdx targetFileSize =>
              obtain ⟨shelf', hcompacted⟩ := h.compacted (k := .ln levelIdx) hroom hdisk hrun
              exact ⟨shelf', _, .structural, hcompacted⟩
      | error e =>
          have hharmless := hharmless.resolve_left (by simp)
          have hquiet := h.layout.failed hroom hharmless (fun _ => h.walFile_ne_nil) hrun
          have hunwritten := (Structural.unwritten env op h.logUpTo h.unwritten).error rfl hrun
          exact ⟨shelf, _, .structuralFailed, h.quiet hquiet hunwritten⟩

/-- What holds of the journal in every state of a run. -/
theorem Life.journaled {allowed : World → Command → Except DbError Unit → Prop}
    {restarts : World → Prop} {P : LogJournal → List Entry → Prop}
    (hroom : ∀ w command r, allowed w command r → LifeRoom env w command r)
    (hrestarts : ∀ w, restarts w → RestartRoom w) (hstart : P (.initial 0 1) [])
    (hstep : ∀ {w shelf j j' writes command r}, Journaled env w shelf j → P j writes →
      allowed w command r → Follows env w j command r j' → P j' (writes ++ command.written w))
    (hrestart : ∀ {w shelf j writes next}, Journaled env w shelf j → P j writes → restarts w →
      (∀ id ∈ j.ids, id < next) → P (j.restart next) writes)
    (h : Life env allowed restarts w writes) : ∃ shelf j, Journaled env w shelf j ∧ P j writes := by
  induction h with
  | start faults trace => exact ⟨[], _, .start env faults trace, hstart⟩
  | step command _ hallow hrun ih =>
      obtain ⟨shelf, j, hjournaled, hP⟩ := ih
      obtain ⟨shelf', j', hfollows, hjournaled'⟩ := hjournaled.step (hroom _ _ _ hallow) hrun
      exact ⟨shelf', j', hjournaled', hstep hjournaled hP hallow hfollows⟩
  | restart _ hallow hrun ih =>
      obtain ⟨shelf, j, hjournaled, hP⟩ := ih
      obtain ⟨hnext, hjournaled'⟩ := hjournaled.restarted (hrestarts _ hallow) hrun
      exact ⟨shelf, _, hjournaled', hrestart hjournaled hP hallow hnext⟩

end EasyLsm.Db
