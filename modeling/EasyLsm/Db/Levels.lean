import Mathlib.Data.List.Basic
import EasyLsm.Lib.Levels
import EasyLsm.Updates

/-!
# The levels of manifests and versions

A flush pushes its tables to level 0 and a compaction replaces tables of two levels, in the manifest
and in the version alike: both updates are `Levels.push` and `Levels.replace` on lists of lists.
-/

namespace EasyLsm.Db

open Lib

/-- The files that a manifest lists, level by level. -/
def fileLists (m : Manifest) : List (List FileMetadata) := m.levels.map Level.files

theorem sstableIds_eq (m : Manifest) :
    m.sstableIds = (fileLists m).flatten.map FileMetadata.fileId := by
  unfold Manifest.sstableIds fileLists
  rw [List.map_flatten, List.flatMap_def, List.map_map]
  rfl

/-- Does a list of files have the id of this one? -/
def hasId (removed : List FileMetadata) (id : UInt32) : Bool :=
  removed.any fun rem => rem.fileId = id

theorem hasId_iff {removed : List FileMetadata} {id : UInt32} :
    hasId removed id ↔ id ∈ removed.map FileMetadata.fileId := by
  simp [hasId]

/-- A flush of several tables lists them one after the other. -/
theorem fileLists_foldl_pushL0 {metas : List FileMetadata} (hne : metas ≠ []) (m : Manifest) :
    fileLists (metas.foldl pushL0 m) = Levels.push metas (fileLists m) := by
  have hone : ∀ (m : Manifest) (f : FileMetadata),
      fileLists (pushL0 m f) = Levels.push [f] (fileLists m) := by
    intro m f
    unfold fileLists pushL0 Levels.push
    cases m.levels with
    | nil => rfl
    | cons level levels => rfl
  have htwo : ∀ (a b : List FileMetadata) levels,
      Levels.push b (Levels.push a levels) = Levels.push (a ++ b) levels := by
    intro a b levels
    cases levels with
    | nil => simp [Levels.push]
    | cons level levels => simp [Levels.push]
  induction metas generalizing m with
  | nil => exact absurd rfl hne
  | cons f metas ih =>
      rw [List.foldl_cons]
      by_cases hnil : metas = []
      · subst hnil
        exact hone m f
      · rw [ih hnil, hone, htwo, List.singleton_append]

/-- The logs after a flush. -/
theorem flushMutator_wals {metas : List FileMetadata} {wals : List UInt32} {m c : Manifest}
    (h : flushMutator metas wals m = .ok c) : c.wals = m.wals.drop wals.length := by
  obtain ⟨levels, hfold⟩ := foldl_pushL0_eq metas m
  simp only [flushMutator, hfold] at h
  split at h
  · cases h
  · cases h
    rfl

/-- The manifest after a flush. -/
theorem flushMutator_eq {metas : List FileMetadata} {wals : List UInt32} {m c : Manifest}
    (hne : metas ≠ []) (h : flushMutator metas wals m = .ok c) :
    fileLists c = Levels.push metas (fileLists m) ∧ c.wals = m.wals.drop wals.length := by
  refine ⟨?_, flushMutator_wals h⟩
  have hlists := fileLists_foldl_pushL0 hne m
  obtain ⟨levels, hfold⟩ := foldl_pushL0_eq metas m
  rw [hfold] at hlists
  simp only [flushMutator, hfold] at h
  split at h
  · cases h
  · cases h
    exact hlists

/-- The manifest after a compaction. -/
theorem compactMutator_eq {source : Nat} {removeFromSource removeFromTarget newFiles :
    List FileMetadata} {m c : Manifest}
    (h : compactMutator source removeFromSource removeFromTarget newFiles m = .ok c) :
    fileLists c = Levels.replace (fun f => hasId removeFromSource f.fileId)
      (fun f => hasId removeFromTarget f.fileId) (fun a b => a.minKey ≤ b.minKey) source newFiles
      (fileLists m) ∧ c.wals = m.wals := by
  cases h
  refine ⟨?_, rfl⟩
  have hmodify : ∀ (levels : List Level) (i : Nat) (g : Level → Level)
      (g' : List FileMetadata → List FileMetadata), (∀ level, (g level).files = g' level.files) →
      (levels.modify i g).map Level.files = (levels.map Level.files).modify i g' := by
    intro levels i g g' hg
    induction levels generalizing i with
    | nil => simp
    | cons level levels ih =>
        cases i with
        | zero => exact congrArg (· :: levels.map Level.files) (hg level)
        | succ i => exact congrArg (level.files :: ·) (ih i)
  have hgrow : (growTo default (source + 1) m.levels).map Level.files =
      Levels.padTo (source + 2) (fileLists m) := by
    unfold growTo Levels.padTo fileLists
    rw [List.map_append, List.map_replicate, List.length_map]
    rfl
  have hretain : ∀ (removed : List FileMetadata) (level : Level),
      (retainFiles removed level).files = level.files.filter fun f => !hasId removed f.fileId := by
    intro removed level
    unfold retainFiles hasId
    exact List.filter_congr fun f _ => by rw [decide_not, Bool.decide_eq_true]
  unfold fileLists Levels.replace
  rw [hmodify _ _ (extendLevel newFiles)
      (fun level => (level ++ newFiles).insertionSort fun a b => a.minKey ≤ b.minKey) fun _ => rfl,
    hmodify _ _ (retainFiles removeFromTarget) _ (hretain removeFromTarget),
    hmodify _ _ (retainFiles removeFromSource) _ (hretain removeFromSource), hgrow]
  rfl

/-- The files of a level. -/
theorem levelFiles_eq (m : Manifest) (i : Nat) :
    (m.levels[i]?.getD default).files = Levels.get (fileLists m) i := by
  unfold Levels.get fileLists
  rw [List.getElem?_map]
  cases m.levels[i]? <;> rfl

section Version

variable {Mem Frozen Wal Sst : Type}

/-- The tables of the version after a flush. -/
theorem sstables_flushVersion (numFlushed : Nat) (newSstObjs : List Sst)
    (v : DbVersion Mem Frozen Wal Sst) :
    (flushVersion numFlushed newSstObjs v).sstables = Levels.push newSstObjs v.sstables := rfl

/-- The tables of the version after a compaction. -/
theorem sstables_compactVersion (sstId : Sst → UInt32) (minKey : Sst → Key) (source : Nat)
    (removeFromSource removeFromTarget : List FileMetadata) (newSstObjs : List Sst)
    (v : DbVersion Mem Frozen Wal Sst) :
    (compactVersion sstId minKey source removeFromSource removeFromTarget newSstObjs v).sstables =
      Levels.replace (fun t => hasId removeFromSource (sstId t))
        (fun t => hasId removeFromTarget (sstId t))
          (fun a b => minKey a ≤ minKey b) source newSstObjs
        v.sstables := by
  have hretain : ∀ (removed : List FileMetadata) (level : List Sst),
      (level.filter fun sst => ¬ removed.any fun f => f.fileId = sstId sst) =
        level.filter fun sst => !hasId removed (sstId sst) := by
    intro removed level
    unfold hasId
    exact List.filter_congr fun f _ => by rw [decide_not, Bool.decide_eq_true]
  unfold compactVersion Levels.replace
  simp only [hretain]
  rfl

end Version

end EasyLsm.Db
