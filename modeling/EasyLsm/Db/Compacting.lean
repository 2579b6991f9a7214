import Mathlib.Data.List.Basic
import EasyLsm.Db.Levels
import EasyLsm.Db.Merging
import EasyLsm.Db.Publish

/-!
# What a compaction does

A compaction selects files of a level and of the next one (`Selection`), merges them, and publishes
the outputs in their place (`Compacted`). Unless an I/O call fails it succeeds.
-/

namespace EasyLsm.Db

open Lib Lib.FileStore

variable {env : Env} {keep : FileName → Prop} {w₀ w w' : World}

/-- The two ways to compact. -/
inductive Compaction where
  | l0
  | ln (levelIdx : Nat)

/-- Run a compaction. -/
def Compaction.run (env : Env) (targetFileSize : UInt64) : Compaction → Op Unit
  | l0 => compactL0 env targetFileSize
  | ln levelIdx => compactLn env levelIdx targetFileSize

/-- The files that are merged: some of a level and some of the next one. -/
structure Selection where
  sourceLevelIdx : Nat
  fromSource : List FileMetadata
  fromTarget : List FileMetadata
  deriving DecidableEq

/-- The files of both levels. -/
def Selection.all (s : Selection) : List FileMetadata := s.fromSource ++ s.fromTarget

/-- What a compaction selects, if there is anything. -/
def Compaction.select (m : Manifest) : Compaction → Option Selection
  | l0 =>
      match ((levelFiles m 0).map FileMetadata.minKey).min?,
        ((levelFiles m 0).map FileMetadata.maxKey).max? with
      | some minL0, some maxL0 =>
          some ⟨0, levelFiles m 0, overlapping minL0 maxL0 (levelFiles m 1)⟩
      | _, _ => none
  | ln levelIdx =>
      match levelFiles m levelIdx with
      | [] => none
      | candidate :: _ => some ⟨levelIdx, [candidate],
          overlapping candidate.minKey candidate.maxKey (levelFiles m (levelIdx + 1))⟩

/-- A compaction executes what it selects. -/
theorem Compaction.run_eq (env : Env) (targetFileSize : UInt64) (k : Compaction) (w : World) :
    k.run env targetFileSize w = match k.select w.manifest with
      | none => (.ok (), w)
      | some s => executeCompaction env s.sourceLevelIdx s.all s.fromSource s.fromTarget
          targetFileSize w := by
  cases k with
  | l0 =>
      show compactL0 env targetFileSize w = _
      simp only [compactL0, Prog.bind_apply, Prog.read, Compaction.select]
      cases ((levelFiles w.manifest 0).map FileMetadata.minKey).min? <;>
        cases ((levelFiles w.manifest 0).map FileMetadata.maxKey).max? <;> rfl
  | ln levelIdx =>
      show compactLn env levelIdx targetFileSize w = _
      simp only [compactLn, Prog.bind_apply, Prog.read, Compaction.select]
      cases levelFiles w.manifest levelIdx <;> rfl

/-- The selected files are files of the two levels. -/
theorem Compaction.select_sublist {k : Compaction} {m : Manifest} {s : Selection}
    (h : k.select m = some s) :
    s.fromSource.Sublist (levelFiles m s.sourceLevelIdx) ∧
      s.fromTarget.Sublist (levelFiles m (s.sourceLevelIdx + 1)) := by
  cases k with
  | l0 =>
      simp only [Compaction.select] at h
      split at h
      · cases h
        exact ⟨List.Sublist.refl _, List.filter_sublist⟩
      · cases h
  | ln levelIdx =>
      simp only [Compaction.select] at h
      split at h
      · cases h
      · rename_i candidate rest hfiles
        cases h
        simp only
        rw [hfiles]
        exact ⟨(List.nil_sublist rest).cons_cons candidate, List.filter_sublist⟩

/-- A listed file with the entries that its table holds. -/
def tableOf (c : Crates) (dir : Dir) (f : FileMetadata) : Table :=
  ⟨f, (tableEntries c dir f.fileId).getD []⟩

/-- The tables that are merged. -/
def Selection.tables (s : Selection) (c : Crates) (dir : Dir) : List Table :=
  s.all.map (tableOf c dir)

theorem Selection.map_tables (s : Selection) (c : Crates) (dir : Dir) :
    (s.tables c dir).map Table.meta' = s.all := by
  unfold Selection.tables
  rw [List.map_map]
  exact List.map_id _

/-- What a compaction that has succeeded did. -/
def Compacted (env : Env) (keep : FileName → Prop) (w₀ : World) (targetFileSize : UInt64)
    (s : Selection) (merged : List Entry) (w₁ w : World) : Prop :=
  ∃ newFiles hs,
    Merged env keep w₀ targetFileSize (s.tables env.crates w₀.dir) merged newFiles hs w₁ ∧
    Published env (compactMutator s.sourceLevelIdx s.fromSource s.fromTarget newFiles)
      (compactVersion (fun t => t.sst.id) (fun t => t.sst.minKey) s.sourceLevelIdx s.fromSource
        s.fromTarget hs) w₁ w

/-- A compaction of tables that can be read succeeds, and its outputs are the files that it has
written, or an I/O call failed and it has changed nothing but files that are not in `keep`. -/
theorem executeCompaction_written {targetFileSize : UInt64} {s : Selection} {count : Nat}
    (hstored : ∀ f ∈ s.all, (tableEntries env.crates w₀.dir f.fileId).isSome)
    (hordered : ∀ t ∈ s.tables env.crates w₀.dir, KeyOrdered t.entries)
    (hkeep : ∀ f ∈ s.all, keep (.sst f.fileId)) (htmp : ∀ v, ¬ keep (.mfTmp v))
    (hroom : MergeRoom env keep w₀ targetFileSize (allEntries (s.tables env.crates w₀.dir)) count) :
    Prog.Spec (· = w₀)
      (executeCompaction env s.sourceLevelIdx s.all s.fromSource s.fromTarget targetFileSize)
      (fun _ w => ∃ merged w₁, Compacted env keep w₀ targetFileSize s merged w₁ w ∧
        ∀ t ∈ writtenTables env.crates w₀.manifest.nextSstableId
          (cutOutputs env.crates targetFileSize merged),
          w₁.dir.read (.sst t.meta'.fileId) = some (writeTable env.crates t.entries).1)
      (fun _ => Failed keep w₀) := by
  have htables : ∀ t ∈ s.tables env.crates w₀.dir,
      Stored env.crates w₀.dir t ∧ keep (.sst t.meta'.fileId) := by
    intro t ht
    obtain ⟨f, hf, rfl⟩ := List.mem_map.mp ht
    obtain ⟨es, hes⟩ := Option.isSome_iff_exists.mp (hstored f hf)
    refine ⟨?_, hkeep f hf⟩
    show tableEntries env.crates w₀.dir f.fileId = some ((tableEntries _ _ f.fileId).getD [])
    rw [hes, Option.getD_some]
  have hmerge := mergeFiles_spec (fun t ht => (htables t ht).1) hordered
    (fun t ht => (htables t ht).2) hroom
  rw [s.map_tables] at hmerge
  refine Prog.Spec.bind_forall hmerge fun r w₁ hmerged => ?_
  obtain ⟨newFiles, hs⟩ := r
  obtain ⟨merged, hmerged, hwritten⟩ := hmerged
  refine (publish_spec (compactMutator_keepsCounters _ _ _ _) _).weaken (fun _ h => h)
    (fun _ w hpublished => ⟨merged, w₁, ⟨newFiles, hs, hmerged, hpublished⟩, hwritten⟩) ?_
  rintro e w ⟨hsteady, hfail⟩
  refine ⟨hmerged.built.quiet.trans (hsteady.quiet.mono fun n hn v heq => htmp v (heq ▸ hn)),
    fun hnil => ?_⟩
  exact hfail (hmerged.built.quiet.faults hnil) _ rfl

/-- What is known of a compaction when the contents of its files do not matter. -/
theorem executeCompaction_spec {targetFileSize : UInt64} {s : Selection} {count : Nat}
    (hstored : ∀ f ∈ s.all, (tableEntries env.crates w₀.dir f.fileId).isSome)
    (hordered : ∀ t ∈ s.tables env.crates w₀.dir, KeyOrdered t.entries)
    (hkeep : ∀ f ∈ s.all, keep (.sst f.fileId)) (htmp : ∀ v, ¬ keep (.mfTmp v))
    (hroom : MergeRoom env keep w₀ targetFileSize (allEntries (s.tables env.crates w₀.dir)) count) :
    Prog.Spec (· = w₀)
      (executeCompaction env s.sourceLevelIdx s.all s.fromSource s.fromTarget targetFileSize)
      (fun _ w => ∃ merged w₁, Compacted env keep w₀ targetFileSize s merged w₁ w)
      (fun _ => Failed keep w₀) := by
  refine (executeCompaction_written hstored hordered hkeep htmp hroom).weaken (fun _ h => h) ?_
    fun _ _ h => h
  rintro _ w ⟨merged, w₁, hcompacted, _⟩
  exact ⟨merged, w₁, hcompacted⟩

namespace Compacted

variable {targetFileSize : UInt64} {s : Selection} {merged : List Entry} {w₁ : World}

/-- The tables that a compaction has written. -/
def outputs (env : Env) (w₀ : World) (targetFileSize : UInt64) (merged : List Entry) : List Table :=
  writtenTables env.crates w₀.manifest.nextSstableId (cutOutputs env.crates targetFileSize merged)

/-- The levels of the new manifest. -/
theorem fileLists_eq (h : Compacted env keep w₀ targetFileSize s merged w₁ w) :
    fileLists w.manifest = Levels.replace (fun f => hasId s.fromSource f.fileId)
      (fun f => hasId s.fromTarget f.fileId) (fun a b => a.minKey ≤ b.minKey) s.sourceLevelIdx
      ((outputs env w₀ targetFileSize merged).map Table.meta') (fileLists w₀.manifest) ∧
      w.manifest.wals = w₀.manifest.wals := by
  obtain ⟨newFiles, hs, hmerged, hpublished⟩ := h
  obtain ⟨c, hc, hw⟩ := hpublished.manifest
  obtain ⟨hlists, hwals⟩ := compactMutator_eq hc
  rw [hmerged.manifest] at hlists hwals
  rw [hw]
  refine ⟨hlists.trans ?_, hwals⟩
  rw [hmerged.newFiles]
  rfl

/-- The tables of the new version. -/
theorem sstables_eq (h : Compacted env keep w₀ targetFileSize s merged w₁ w) :
    ∃ hs, List.Forall₂ (Opened env.crates w₁.dir) (outputs env w₀ targetFileSize merged) hs ∧
      w.current = { w₀.current with
        sstables := Levels.replace (fun t => hasId s.fromSource t.sst.id)
          (fun t => hasId s.fromTarget t.sst.id) (fun a b => a.sst.minKey ≤ b.sst.minKey)
          s.sourceLevelIdx hs w₀.current.sstables } := by
  obtain ⟨newFiles, hs, hmerged, hpublished⟩ := h
  refine ⟨hs, hmerged.built.opened, ?_⟩
  rw [hpublished.current, hmerged.built.quiet.current, ← sstables_compactVersion]
  rfl

theorem faults (h : Compacted env keep w₀ targetFileSize s merged w₁ w) (hnil : w₀.faults = []) :
    w.faults = [] := by
  obtain ⟨newFiles, hs, hmerged, hpublished⟩ := h
  exact hpublished.faults (hmerged.built.quiet.faults hnil)

/-- The next table id after a compaction. -/
theorem nextSstableId (h : Compacted env keep w₀ targetFileSize s merged w₁ w) :
    w.manifest.nextSstableId = w₀.manifest.nextSstableId +
      UInt32.ofNat (cutOutputs env.crates targetFileSize merged).length := by
  obtain ⟨newFiles, hs, hmerged, hpublished⟩ := h
  obtain ⟨c, hc, hw⟩ := hpublished.manifest
  rw [hw, (compactMutator_keepsCounters _ _ _ _).nextSstableId hc, hmerged.manifest]

end Compacted

end EasyLsm.Db
