import Mathlib.Data.List.Basic
import EasyLsm.Db.Journaled
import EasyLsm.Structural.Published

/-!
# The collector and the rotations

`garbage_collect` keeps what the manifest in memory listed when the snapshot was taken, and what the
two newest manifest files list. A rotation creates its log before it lists it, so the collector can
meet a log that nothing lists yet. `listed_files_kept`: as long as the directory is not listed while
such a log waits for its manifest, no file that the manifest lists is ever deleted, whatever the
order of the steps.
-/

namespace EasyLsm.Structural

open Lib Lib.FileStore Db

variable {c : Crates} {targetFileSize : UInt64} {s s' s'' : Sys}

/-- The directory has a file with this name. -/
def Sys.Has (s : Sys) (name : FileName) : Prop := ∃ i, (name, i) ∈ s.dir.names

/-! ## What the threads hold -/

namespace Update

/-- The snapshot that an attempt is based on. -/
def snapshot : Update → Option Manifest
  | looping _ => none
  | snapped _ m | mutated _ m _ | created _ m _ _ | written _ m _ => some m

/-- The snapshot and the candidate of an attempt whose closure has run. -/
def attempt : Update → Option (Manifest × Manifest)
  | mutated _ m candidate | created _ m candidate _ | written _ m candidate => some (m, candidate)
  | _ => none

end Update

/-- The manifest update that the writer is at. -/
def Writer.update : Writer → Option Update
  | .updating u => some u
  | _ => none

/-- The log that a rotation is about to create. -/
def Writer.creating : Writer → List UInt32
  | .updating (.snapped _ m) => [m.nextWalId]
  | _ => []

/-- The log that a rotation has created and not yet listed. -/
def Writer.uncommitted : Writer → List UInt32
  | .updating u => u.attempt.toList.map fun a => a.1.nextWalId
  | _ => []

/-- The file that the writer has open for a manifest. -/
def Writer.handle : Writer → Option Nat
  | .updating (.created _ _ _ inode) => some inode
  | _ => none

/-- The files among which the collector deletes. -/
def Compactor.condemned : Compactor → List FileName
  | .reading listed _ _ _ _ => listed
  | .deleting names => names
  | _ => []

/-- The logs that the collector knows to be referenced. -/
def Compactor.known : Compactor → List UInt32
  | .reading _ _ _ wals _ => wals
  | _ => []

theorem handle_ne {w : Writer} {i : Nat} (h : w.handle = none) : w.handle ≠ some i := by
  rw [h]
  exact (Option.some_ne_none i).symm

/-- The condition on a step. A rotation does not create a log that the collector is about to delete,
the directory is not listed while a log waits for its manifest, and a manifest that cannot be read
would list nothing new. The version does not overflow. -/
def Careful (s : Sys) : Label → Prop
  | .updateRotation _ => s.manifest.version < s.manifest.version + 1 ∧ ∀ id ∈ s.writer.creating,
      id ∈ s.manifest.wals ∨ FileName.wal id ∉ s.compactor.condemned
  | .updateJob _ => s.manifest.version < s.manifest.version + 1
  | .list _ => ∀ id ∈ s.writer.uncommitted, id ∈ s.manifest.wals
  | .readManifest io => io = .ok ∨ ∀ id ∈ s.manifest.wals ++ s.writer.uncommitted,
      FileName.wal id ∉ s.compactor.condemned ∨ id ∈ s.compactor.known
  | _ => True

instance : DecidableRel Careful := fun _ l =>
  match l with
  | .updateRotation _ => @instDecidableAnd _ _ (UInt32.decLt _ _) (List.decidableBAll _ _)
  | .updateJob _ => UInt32.decLt _ _
  | .list _ => List.decidableBAll _ _
  | .readManifest _ => @instDecidableOr _ _ (instDecidableEqIo _ _) (List.decidableBAll _ _)
  | .loadMemtable | .insert _ | .finishInsert | .rotate | .openWal _ | .loadVersion | .storeVersion
  | .flush | .compact _ | .openInputs _ | .reserve | .writeTable _ | .openTables _ | .loadCurrent
  | .storeCurrent | .snapshot | .delete _ => .isTrue trivial

/-! ## The invariant -/

/-- A snapshot is not newer than the manifest, and lists the same when it has the same version. -/
structure SnapshotOk (guard m : Manifest) : Prop where
  le : m.version ≤ guard.version
  same : m.version = guard.version → m.wals = guard.wals ∧ m.levels = guard.levels

/-- The candidate of a rotation. -/
def rotated (m : Manifest) : Manifest :=
  { m with wals := m.wals ++ [m.nextWalId], version := m.version + 1 }

/-- The candidate of a rotation lists a log that exists. -/
def WriterFiles (s : Sys) : Writer → Prop
  | .updating u => (∀ m, u.snapshot = some m → SnapshotOk s.manifest m) ∧
      ∀ m candidate, u.attempt = some (m, candidate) →
        candidate = rotated m ∧ s.Has (.wal m.nextWalId)
  | _ => True

/-- The temporary file of a rotation that may still commit is its own. -/
def OwnTmpFile (s : Sys) : Writer → Prop
  | .updating (.created _ m candidate inode) => m.version = s.manifest.version →
      (FileName.mfTmp candidate.version, inode) ∈ s.dir.names
  | .updating (.written _ m candidate) => m.version = s.manifest.version →
      ∃ i, (FileName.mfTmp candidate.version, i) ∈ s.dir.names ∧ s.content i = .manifest candidate
  | _ => True

/-- A manifest file that the writer does not hold lists a log. -/
def Sys.Lists (s : Sys) (version : UInt32) (id : UInt32) : Prop :=
  ∃ i m, (FileName.mf version, i) ∈ s.dir.names ∧ s.content i = .manifest m ∧ id ∈ m.wals ∧
    s.writer.handle ≠ some i

/-- The tables of a job exist, and the collector knows what the manifest needs. -/
def CompactorFiles (s : Sys) : Compactor → Prop
  | .flushing _ _ _ written | .merging _ _ written _ => ∀ t ∈ written, s.Has (.sst t.meta'.fileId)
  | .updating job u => (∀ t ∈ job.newTables, s.Has (.sst t.meta'.fileId)) ∧
      (∀ m, u.snapshot = some m → SnapshotOk s.manifest m) ∧
      ∀ m candidate, u.attempt = some (m, candidate) →
        ∃ m', job.mutator m = .ok m' ∧ candidate = { m' with version := m'.version + 1 }
  | .committed _ | .loaded _ _ | .published => OwnTmpFile s s.writer
  | .snapped wals ssts => OwnTmpFile s s.writer ∧
      (s.manifest.wals ⊆ wals ∨ ∀ id ∈ s.manifest.wals, s.Lists s.manifest.version id) ∧
      s.manifest.sstableIds ⊆ ssts
  | .reading listed kept obsolete wals ssts => (∀ v ∈ kept, v ≤ s.manifest.version) ∧
      (∀ v ∈ obsolete, v < s.manifest.version) ∧
      (∀ id ∈ s.manifest.wals ++ s.writer.uncommitted, FileName.wal id ∈ listed →
        id ∈ wals ∨ ∃ v ∈ kept, s.Lists v id) ∧ s.manifest.sstableIds ⊆ ssts
  | .deleting names => (∀ v, FileName.mf v ∈ names → v < s.manifest.version) ∧
      (∀ id ∈ s.manifest.wals ++ s.writer.uncommitted, FileName.wal id ∉ names) ∧
        ∀ id ∈ s.manifest.sstableIds, FileName.sst id ∉ names
  | _ => True

/-- What the manifest lists exists, as does its own file. -/
structure FilesKept (s : Sys) : Prop where
  logs : ∀ id ∈ s.manifest.wals, s.Has (.wal id)
  tables : ∀ id ∈ s.manifest.sstableIds, s.Has (.sst id)
  manifestFile : s.Has (.mf s.manifest.version)

/-- The invariant. -/
structure FilesInv (s : Sys) : Prop where
  kept : FilesKept s
  newest : ∀ v i, (FileName.mf v, i) ∈ s.dir.names → v ≤ s.manifest.version
  writer : WriterFiles s s.writer
  compactor : CompactorFiles s s.compactor

section Begin

variable {job : Job} {n : Nat}

theorem WriterFiles.looping : WriterFiles s (.updating (.looping n)) := by
  refine ⟨fun m hm => ?_, fun m candidate hm => ?_⟩ <;> cases hm

theorem CompactorFiles.looping (htables : ∀ t ∈ job.newTables, s.Has (.sst t.meta'.fileId)) :
    CompactorFiles s (.updating job (.looping n)) := by
  refine ⟨htables, fun m hm => ?_, fun m candidate hm => ?_⟩ <;> cases hm

theorem SnapshotOk.refl (m : Manifest) : SnapshotOk m m := ⟨UInt32.le_refl _, fun _ => ⟨rfl, rfl⟩⟩

theorem WriterFiles.snapped : WriterFiles s (.updating (.snapped n s.manifest)) := by
  refine ⟨fun m hm => ?_, fun m candidate hm => ?_⟩ <;> cases hm
  exact .refl _

theorem CompactorFiles.snapped (htables : ∀ t ∈ job.newTables, s.Has (.sst t.meta'.fileId)) :
    CompactorFiles s (.updating job (.snapped n s.manifest)) := by
  refine ⟨htables, fun m hm => ?_, fun m candidate hm => ?_⟩ <;> cases hm
  exact .refl _

end Begin

namespace SnapshotOk

variable {guard guard' m : Manifest}

/-- A snapshot is out of date when another version is committed. -/
theorem next (h : SnapshotOk guard m) (hlt : guard.version < guard'.version) :
    SnapshotOk guard' m := by
  have hold : m.version < guard'.version := UInt32.lt_of_le_of_lt h.le hlt
  exact ⟨UInt32.le_of_lt hold, fun heq => absurd (heq ▸ hold) (UInt32.lt_irrefl _)⟩

theorem congr (h : SnapshotOk guard m) (hwals : guard'.wals = guard.wals)
    (hlevels : guard'.levels = guard.levels) (hversion : guard'.version = guard.version) :
    SnapshotOk guard' m := by
  refine ⟨hversion ▸ h.le, fun heq => ?_⟩
  rw [hwals, hlevels]
  exact h.same (heq.trans hversion)

end SnapshotOk

/-! ## Steps that remove no file -/

/-- Is this the file of a manifest? -/
def isManifest : FileName → Bool
  | .mf _ => true
  | _ => false

/-- Is this a temporary file? -/
def isTmp : FileName → Bool
  | .mfTmp _ => true
  | _ => false

/-- Every file is still there, temporary files apart, and there is no new manifest. -/
structure Keeps (s s' : Sys) : Prop where
  names : ∀ {name i}, isTmp name = false → (name, i) ∈ s.dir.names → (name, i) ∈ s'.dir.names
  manifests : ∀ v i, (FileName.mf v, i) ∈ s'.dir.names ↔ (FileName.mf v, i) ∈ s.dir.names

namespace Keeps

theorem has (h : Keeps s s') {name : FileName} (hname : isTmp name = false) (hhas : s.Has name) :
    s'.Has name :=
  hhas.imp fun _ hi => h.names hname hi

theorem of_dir (h : s'.dir = s.dir) : Keeps s s' := ⟨fun _ hi => h ▸ hi, fun _ _ => by rw [h]⟩

theorem trans (h : Keeps s s') (h' : Keeps s' s'') : Keeps s s'' :=
  ⟨fun hname hi => h'.names hname (h.names hname hi),
    fun v i => (h'.manifests v i).trans (h.manifests v i)⟩

theorem openOrCreate (s : Sys) (name : FileName) (hname : isManifest name = false) :
    Keeps s (s.openOrCreate name).2 := by
  obtain ⟨hnames, _⟩ := openOrCreate_spec (Prod.eta (s.dir.openOrCreate name)).symm
  refine ⟨fun _ hi => (hnames _ _).mpr (.inr hi), fun v i => ?_⟩
  refine ⟨fun h => ?_, fun h => (hnames _ _).mpr (.inr h)⟩
  rcases (hnames _ _).mp h with ⟨heq, _⟩ | hold
  · rw [← heq] at hname
    cases hname
  · exact hold

theorem ne_of_not_isTmp {name : FileName} {v : UInt32} (h : isTmp name = false) :
    name ≠ .mfTmp v := by
  intro heq
  rw [heq] at h
  cases h

theorem unlinkTmp (s : Sys) (version : UInt32) :
    Keeps s { s with dir := s.dir.unlink (.mfTmp version) } := by
  refine ⟨fun hname hi => mem_unlink.mpr ⟨hi, ne_of_not_isTmp hname⟩, fun v i => ?_⟩
  refine ⟨fun h => (mem_unlink.mp h).1, fun h => mem_unlink.mpr ⟨h, nofun⟩⟩

/-- The cleanup of an attempt that does not commit. -/
theorem cleaned (s : Sys) (version : UInt32) (io : Io) :
    Keeps s (if io = .failedLate then s else { s with dir := s.dir.unlink (.mfTmp version) }) := by
  split
  · exact .of_dir rfl
  · exact .unlinkTmp s version

end Keeps

/-- What is opened is there. -/
theorem mem_openOrCreate (s : Sys) (name : FileName) :
    (name, (s.openOrCreate name).1) ∈ (s.openOrCreate name).2.dir.names := by
  obtain ⟨hnames, _⟩ := openOrCreate_spec (Prod.eta (s.dir.openOrCreate name)).symm
  exact (hnames _ _).mpr (.inl ⟨rfl, rfl⟩)

theorem FilesKept.congr (h : FilesKept s) (hkeeps : Keeps s s')
    (hwals : s'.manifest.wals = s.manifest.wals) (hlevels : s'.manifest.levels = s.manifest.levels)
    (hversion : s'.manifest.version = s.manifest.version) : FilesKept s' := by
  refine ⟨fun id hid => ?_, fun id hid => ?_, ?_⟩
  · rw [hwals] at hid
    exact hkeeps.has rfl (h.logs id hid)
  · have hids : s'.manifest.sstableIds = s.manifest.sstableIds := by
      rw [Manifest.sstableIds, hlevels, Manifest.sstableIds]
    exact hkeeps.has rfl (h.tables id (hids ▸ hid))
  · rw [hversion]
    exact hkeeps.has rfl h.manifestFile

/-! ## Steps of the writer -/

/-- A step of the writer that commits nothing. -/
structure WriterStep (s s' : Sys) : Prop where
  manifest : s'.manifest = s.manifest
  compactor : s'.compactor = s.compactor
  keeps : Keeps s s'
  content : ∀ v i, (FileName.mf v, i) ∈ s.dir.names → s.writer.handle ≠ some i →
    s'.content i = s.content i ∧ s'.writer.handle ≠ some i
  uncommitted : ∀ id ∈ s'.writer.uncommitted, id ∈ s.writer.uncommitted ∨ id ∈ s.manifest.wals ∨
    FileName.wal id ∉ s.compactor.condemned
  own : OwnTmpFile s s.writer → OwnTmpFile s' s'.writer

namespace WriterStep

theorem lists (h : WriterStep s s') {version id : UInt32} (hlists : s.Lists version id) :
    s'.Lists version id := by
  obtain ⟨i, m, hmem, hcontent, hid, hhandle⟩ := hlists
  obtain ⟨hsame, hhandle'⟩ := h.content version i hmem hhandle
  exact ⟨i, m, (h.keeps.manifests version i).mpr hmem, hsame.trans hcontent, hid, hhandle'⟩

/-- What is needed after the step was needed before it, or is not about to be deleted. -/
theorem needed (h : WriterStep s s') {id : UInt32}
    (hid : id ∈ s.manifest.wals ++ s'.writer.uncommitted) :
    id ∈ s.manifest.wals ++ s.writer.uncommitted ∨ FileName.wal id ∉ s.compactor.condemned := by
  rcases List.mem_append.mp hid with hid | hid
  · exact .inl (List.mem_append_left _ hid)
  · rcases h.uncommitted id hid with hold | hlisted | hfree
    · exact .inl (List.mem_append_right _ hold)
    · exact .inl (List.mem_append_left _ hlisted)
    · exact .inr hfree

theorem compactorFiles (h : WriterStep s s') {p : Compactor} (hphase : s.compactor = p)
    (hp : CompactorFiles s p) : CompactorFiles s' p := by
  have hneeded := @needed s s' h
  rw [hphase] at hneeded
  cases p with
  | flushing memtables startSstId walsToDelete written =>
      exact fun t ht => h.keeps.has rfl (hp t ht)
  | merging sel pieces written nextId => exact fun t ht => h.keeps.has rfl (hp t ht)
  | updating job u =>
      obtain ⟨htables, hsnapshot, hattempt⟩ := hp
      refine ⟨fun t ht => h.keeps.has rfl (htables t ht), ?_, hattempt⟩
      rw [h.manifest]
      exact hsnapshot
  | committed job => exact h.own hp
  | loaded job v => exact h.own hp
  | published => exact h.own hp
  | snapped wals ssts =>
      obtain ⟨hown, hwals, hssts⟩ := hp
      unfold CompactorFiles
      rw [h.manifest]
      exact ⟨h.own hown, hwals.imp_right fun hlists id hid => h.lists (hlists id hid), hssts⟩
  | reading listed kept obsolete wals ssts =>
      obtain ⟨hkept, hobsolete, hwals, hssts⟩ := hp
      unfold CompactorFiles
      rw [h.manifest]
      refine ⟨hkept, hobsolete, fun id hid hlisted => ?_, hssts⟩
      rcases hneeded hid with hid | hfree
      · rcases hwals id hid hlisted with hknown | ⟨v, hv, hlists⟩
        · exact .inl hknown
        · exact .inr ⟨v, hv, h.lists hlists⟩
      · exact absurd hlisted hfree
  | deleting names =>
      obtain ⟨hmanifests, hwals, hssts⟩ := hp
      unfold CompactorFiles
      rw [h.manifest]
      refine ⟨hmanifests, fun id hid => ?_, hssts⟩
      rcases hneeded hid with hid | hfree
      · exact hwals id hid
      · exact hfree
  | idle => trivial
  | selected sel => trivial

end WriterStep

/-- A step of the writer that commits nothing keeps the invariant when it keeps the writer's own
part. -/
theorem FilesInv.writerStep (h : FilesInv s) (hstep : WriterStep s s')
    (hw : WriterFiles s' s'.writer) : FilesInv s' where
  kept := h.kept.congr hstep.keeps (by rw [hstep.manifest]) (by rw [hstep.manifest])
    (by rw [hstep.manifest])
  newest v i hmem := hstep.manifest ▸ h.newest v i ((hstep.keeps.manifests v i).mp hmem)
  writer := hw
  compactor := hstep.compactor ▸ hstep.compactorFiles rfl h.compactor

/-! ## Commits -/

/-- A commit renames a temporary file, and every other file is still there. -/
theorem has_of_rename {version : UInt32} {dir : Dir}
    (h : s.dir.rename (.mfTmp version) (.mf version) = some dir) {name : FileName}
    (hname : isTmp name = false) (hhas : s.Has name) : ∃ i, (name, i) ∈ dir.names := by
  obtain ⟨i, _, _, _, hnames⟩ := rename_spec h
  obtain ⟨j, hj⟩ := hhas
  by_cases hnew : name = .mf version
  · exact ⟨i, (hnames _ _).mpr (.inl ⟨hnew, rfl⟩)⟩
  · exact ⟨j, (hnames _ _).mpr (.inr ⟨hj, Keeps.ne_of_not_isTmp hname, hnew⟩)⟩

namespace FilesInv

/-- A commit keeps the invariant when the files of the candidate exist and both threads keep
theirs. -/
theorem committed (h : FilesInv s) {candidate : Manifest} {dir : Dir}
    (hversion : candidate.version = s.manifest.version + 1)
    (hroom : s.manifest.version < s.manifest.version + 1)
    (hrename : s.dir.rename (.mfTmp candidate.version) (.mf candidate.version) = some dir)
    (hlogs : ∀ id ∈ candidate.wals, s.Has (.wal id))
    (htables : ∀ id ∈ candidate.sstableIds, s.Has (.sst id))
    (hdir : s'.dir = dir) (hmanifest : s'.manifest = candidate) (hw : WriterFiles s' s'.writer)
    (hp : CompactorFiles s' s'.compactor) : FilesInv s' := by
  obtain ⟨i, _, _, _, hnames⟩ := rename_spec hrename
  subst hdir hmanifest
  refine ⟨⟨fun id hid => has_of_rename hrename rfl (hlogs id hid),
    fun id hid => has_of_rename hrename rfl (htables id hid),
    ⟨i, (hnames _ _).mpr (.inl ⟨rfl, rfl⟩)⟩⟩, fun v j hmem => ?_, hw, hp⟩
  rcases (hnames _ _).mp hmem with ⟨hnew, _⟩ | ⟨hold, _, _⟩
  · cases hnew
    exact UInt32.le_refl _
  · rw [hversion]
    exact UInt32.le_of_lt (UInt32.lt_of_le_of_lt (h.newest v j hold) hroom)

/-! ## The steps of the writer -/

/-- The writer goes on, and not with a manifest update. -/
theorem writerGoesOn (h : FilesInv s) (hmanifest : s'.manifest = s.manifest)
    (hcompactor : s'.compactor = s.compactor) (hkeeps : Keeps s s')
    (hcontent : ∀ i, s.writer.handle ≠ some i → s'.content i = s.content i)
    (hw : s'.writer.update = none) : FilesInv s' := by
  have hnone : s'.writer.handle = none ∧ s'.writer.uncommitted = [] ∧
      OwnTmpFile s' s'.writer ∧ WriterFiles s' s'.writer := by
    cases hphase : s'.writer with
    | updating u =>
        rw [hphase] at hw
        cases hw
    | _ => exact ⟨rfl, rfl, trivial, trivial⟩
  obtain ⟨hhandle, huncommitted, hown, hfiles⟩ := hnone
  refine h.writerStep ⟨hmanifest, hcompactor, hkeeps, fun v i _ hi => ⟨hcontent i hi, ?_⟩,
    fun id hid => ?_, fun _ => hown⟩ hfiles
  · exact handle_ne hhandle
  · rw [huncommitted] at hid
    exact absurd hid List.not_mem_nil

/-- The candidate of a rotation that may commit. -/
theorem rotation_candidate (h : FilesInv s) {n : Nat} {m candidate : Manifest}
    (hphase : s.writer = .updating (.written n m candidate))
    (hsame : s.manifest.version = m.version) :
    candidate.version = s.manifest.version + 1 ∧
      candidate.wals = s.manifest.wals ++ s.writer.uncommitted ∧
      candidate.sstableIds = s.manifest.sstableIds ∧ ∀ id ∈ s.writer.uncommitted, s.Has (.wal id) := by
  have hw := h.writer
  rw [hphase] at hw
  obtain ⟨hwals, hlevels⟩ := (hw.1 m rfl).same hsame.symm
  obtain ⟨hcandidate, hcreated⟩ := hw.2 m candidate rfl
  have huncommitted : s.writer.uncommitted = [m.nextWalId] := by
    rw [hphase]
    rfl
  rw [huncommitted]
  refine ⟨?_, ?_, ?_, fun id hid => ?_⟩
  · rw [hcandidate, hsame]
    rfl
  · rw [hcandidate, ← hwals]
    rfl
  · rw [hcandidate, Manifest.sstableIds, Manifest.sstableIds, ← hlevels]
    rfl
  · rw [List.mem_singleton.mp hid]
    exact hcreated

/-- The manifest files of before are still there, as the new one has another version. -/
theorem lists_of_commit {v : UInt32} (hv : v ≤ s.manifest.version) {candidate : Manifest}
    (hlt : s.manifest.version < candidate.version) {dir : Dir}
    (hrename : s.dir.rename (.mfTmp candidate.version) (.mf candidate.version) = some dir)
    {id : UInt32} (hlists : s.Lists v id) :
    Sys.Lists { s with dir, manifest := candidate, writer := .committed candidate } v id := by
  obtain ⟨_, _, _, _, hnames⟩ := rename_spec hrename
  obtain ⟨j, m', hmem, hcontent, hid, _⟩ := hlists
  refine ⟨j, m', (hnames _ _).mpr (.inr ⟨hmem, nofun, fun heq => ?_⟩), hcontent, hid, handle_ne rfl⟩
  cases heq
  exact UInt32.lt_irrefl _ (UInt32.lt_of_le_of_lt hv hlt)

/-- What the compaction thread knows behind the commit of a rotation. -/
theorem compactor_committed (h : FilesInv s) {n : Nat} {m candidate : Manifest} {dir : Dir}
    (hphase : s.writer = .updating (.written n m candidate))
    (hroom : s.manifest.version < s.manifest.version + 1) (hsame : s.manifest.version = m.version)
    (hrename : s.dir.rename (.mfTmp candidate.version) (.mf candidate.version) = some dir) :
    CompactorFiles { s with dir, manifest := candidate, writer := .committed candidate }
      s.compactor := by
  obtain ⟨hversion, hlisted, hids, _⟩ := h.rotation_candidate hphase hsame
  have hlt : s.manifest.version < candidate.version := hversion ▸ hroom
  have hp := h.compactor
  cases hcompactor : s.compactor with
  | flushing memtables startSstId walsToDelete written =>
      rw [hcompactor] at hp
      exact fun t ht => has_of_rename hrename rfl (hp t ht)
  | merging sel pieces written nextId =>
      rw [hcompactor] at hp
      exact fun t ht => has_of_rename hrename rfl (hp t ht)
  | updating job u =>
      rw [hcompactor] at hp
      exact ⟨fun t ht => has_of_rename hrename rfl (hp.1 t ht),
        fun m' hm' => (hp.2.1 m' hm').next hlt, hp.2.2⟩
  | committed job => trivial
  | loaded job v => trivial
  | published => trivial
  | snapped wals ssts =>
      -- the new manifest file lists what it should
      rw [hcompactor] at hp
      obtain ⟨hown, _, hssts⟩ := hp
      rw [hphase] at hown
      obtain ⟨i, htmp, _, _, hnames⟩ := rename_spec hrename
      obtain ⟨j, htmp', hcontent⟩ := hown hsame.symm
      have hfile : (FileName.mf candidate.version, j) ∈ dir.names :=
        (hnames _ _).mpr (.inl ⟨rfl, s.dir.inode_unique htmp' htmp⟩)
      exact ⟨trivial, .inr fun id hid => ⟨j, candidate, hfile, hcontent, hid, handle_ne rfl⟩,
        hids ▸ hssts⟩
  | reading listed kept obsolete wals ssts =>
      rw [hcompactor] at hp
      obtain ⟨hkept, hobsolete, hneeded, hssts⟩ := hp
      rw [← hlisted] at hneeded
      refine ⟨fun v hv => UInt32.le_of_lt (UInt32.lt_of_le_of_lt (hkept v hv) hlt),
        fun v hv => UInt32.lt_trans (hobsolete v hv) hlt, fun id hid hlisted' => ?_, hids ▸ hssts⟩
      have hid : id ∈ candidate.wals ++ [] := hid
      rw [List.append_nil] at hid
      rcases hneeded id hid hlisted' with hknown | ⟨v, hv, hv'⟩
      · exact .inl hknown
      · exact .inr ⟨v, hv, lists_of_commit (hkept v hv) hlt hrename hv'⟩
  | deleting names =>
      rw [hcompactor] at hp
      obtain ⟨hmanifests, hneeded, hssts⟩ := hp
      rw [← hlisted] at hneeded
      refine ⟨fun v hv => UInt32.lt_trans (hmanifests v hv) hlt, fun id hid => ?_, hids ▸ hssts⟩
      have hid : id ∈ candidate.wals ++ [] := hid
      rw [List.append_nil] at hid
      exact hneeded id hid
  | idle => trivial
  | selected sel => trivial

/-- The commit of a rotation. -/
theorem commitRotation (h : FilesInv s) {n : Nat} {m candidate : Manifest} {dir : Dir}
    (hphase : s.writer = .updating (.written n m candidate))
    (hroom : s.manifest.version < s.manifest.version + 1) (hsame : s.manifest.version = m.version)
    (hrename : s.dir.rename (.mfTmp candidate.version) (.mf candidate.version) = some dir) :
    FilesInv { s with dir, manifest := candidate, writer := .committed candidate } := by
  obtain ⟨hversion, hlisted, hids, hcreated⟩ := h.rotation_candidate hphase hsame
  refine h.committed hversion hroom hrename (fun id hid => ?_)
    (fun id hid => h.kept.tables id (hids ▸ hid)) rfl rfl trivial
    (h.compactor_committed hphase hroom hsame hrename)
  rw [hlisted] at hid
  rcases List.mem_append.mp hid with hold | hnew
  · exact h.kept.logs id hold
  · exact hcreated id hnew

/-- The closure of a rotation creates the new log. -/
theorem logCreated (h : FilesInv s) {io : Io} (hok : Careful s (.updateRotation io)) {n : Nat}
    {m : Manifest} (hphase : s.writer = .updating (.snapped n m)) {p : Progress}
    (hs : stepUpdate rotateClosure io s (.snapped n m) = (p, s')) :
    FilesInv { s' with writer := p.writer } := by
  have hw := h.writer
  rw [hphase] at hw
  have hopen := Keeps.openOrCreate s (.wal m.nextWalId) rfl
  cases io with
  | ok =>
      cases hs
      refine h.writerStep ⟨rfl, rfl, hopen.trans (.of_dir rfl), fun _ _ _ _ => ⟨rfl, handle_ne rfl⟩,
        fun id hid => ?_, fun _ => trivial⟩ ⟨fun m' hm' => ?_, fun m' candidate hm' => ?_⟩
      · rw [List.mem_singleton.mp hid]
        refine .inr (hok.2 m.nextWalId ?_)
        rw [hphase]
        exact List.mem_singleton_self _
      · cases hm'
        exact hw.1 m rfl
      · cases hm'
        exact ⟨rfl, _, mem_openOrCreate s _⟩
  | failed =>
      cases hs
      exact h.writerGoesOn rfl rfl (.of_dir rfl) (fun _ _ => rfl) rfl
  | failedLate =>
      cases hs
      exact h.writerGoesOn rfl rfl (hopen.trans (.of_dir rfl)) (fun _ _ => rfl) rfl

/-- The temporary file of the candidate is created. -/
theorem tmpCreated (h : FilesInv s) {io : Io} {n : Nat} {m candidate : Manifest}
    (hphase : s.writer = .updating (.mutated n m candidate)) {p : Progress}
    (hs : stepUpdate rotateClosure io s (.mutated n m candidate) = (p, s')) :
    FilesInv { s' with writer := p.writer } := by
  have hw := h.writer
  rw [hphase] at hw
  have hopen := Keeps.openOrCreate s (.mfTmp candidate.version) rfl
  have hmem := mem_openOrCreate s (.mfTmp candidate.version)
  have huncommitted : s.writer.uncommitted = [m.nextWalId] := by
    rw [hphase]
    rfl
  simp only [stepUpdate] at hs
  split at hs <;> cases hs
  · exact h.writerGoesOn rfl rfl (.of_dir rfl) (fun _ _ => rfl) rfl
  · refine h.writerStep ⟨rfl, rfl, hopen.trans (.of_dir rfl), fun v i hi _ => ?_,
      fun id hid => .inl (huncommitted ▸ hid), fun _ _ => hmem⟩
      ⟨fun m' hm' => hw.1 m' hm', fun m' candidate' hm' => ?_⟩
    · -- the inode of the temporary file is not that of a manifest
      have hne : i ≠ (s.openOrCreate (.mfTmp candidate.version)).1 := by
        intro heq
        have hmf := (hopen.manifests v i).mpr hi
        have hnames := (s.openOrCreate (.mfTmp candidate.version)).2.dir.name_unique hmf
          (heq ▸ hmem)
        cases hnames
      exact ⟨Function.update_of_ne hne _ _, fun heq => hne (Option.some.inj heq).symm⟩
    · obtain ⟨heq, hcreated⟩ := hw.2 m' candidate' hm'
      exact ⟨heq, hopen.has rfl hcreated⟩

/-- The candidate is written to its temporary file. -/
theorem tmpWritten (h : FilesInv s) {io : Io} {n inode : Nat} {m candidate : Manifest}
    (hphase : s.writer = .updating (.created n m candidate inode)) {p : Progress}
    (hs : stepUpdate rotateClosure io s (.created n m candidate inode) = (p, s')) :
    FilesInv { s' with writer := p.writer } := by
  have hw := h.writer
  rw [hphase] at hw
  have huncommitted : s.writer.uncommitted = [m.nextWalId] := by
    rw [hphase]
    rfl
  have hcontent : ∀ (file : File) i, s.writer.handle ≠ some i →
      (s.setFile inode file).content i = s.content i := by
    intro file i hi
    rw [hphase] at hi
    exact Function.update_of_ne (fun heq => hi (congrArg some heq.symm)) _ _
  cases io with
  | ok =>
      cases hs
      refine h.writerStep ⟨rfl, rfl, .of_dir rfl, fun v i _ hi => ⟨hcontent _ i hi, handle_ne rfl⟩,
        fun id hid => .inl (huncommitted ▸ hid), fun hown hversion => ?_⟩ hw
      rw [hphase] at hown
      exact ⟨inode, hown hversion, Function.update_self _ _ _⟩
  | failed =>
      cases hs
      exact h.writerGoesOn rfl rfl (.of_dir rfl) (hcontent _) rfl
  | failedLate =>
      cases hs
      exact h.writerGoesOn rfl rfl (.of_dir rfl) (hcontent _) rfl

/-- A step of `apply_atomic_update` in a rotation. -/
theorem updateRotation (h : FilesInv s) {io : Io} (hok : Careful s (.updateRotation io))
    {u : Update} (hphase : s.writer = .updating u) {p : Progress}
    (hs : stepUpdate rotateClosure io s u = (p, s')) : FilesInv { s' with writer := p.writer } := by
  cases u with
  | looping n =>
      simp only [stepUpdate] at hs
      split at hs <;> cases hs
      · exact h.writerGoesOn rfl rfl (.of_dir rfl) (fun _ _ => rfl) rfl
      · exact h.writerStep ⟨rfl, rfl, .of_dir rfl, fun _ _ _ _ => ⟨rfl, handle_ne rfl⟩,
          fun id hid => absurd hid List.not_mem_nil, fun _ => trivial⟩ .snapped
  | snapped n m => exact h.logCreated hok hphase hs
  | mutated n m candidate => exact h.tmpCreated hphase hs
  | created n m candidate inode => exact h.tmpWritten hphase hs
  | written n m candidate =>
      have hcleaned := Keeps.cleaned s candidate.version io
      simp only [stepUpdate, Sys.commit] at hs
      split at hs
      · cases hs
        refine h.writerStep ⟨?_, ?_, hcleaned.trans (.of_dir rfl), fun v i _ hi => ?_,
          fun id hid => absurd hid List.not_mem_nil, fun _ => trivial⟩ .looping
        · split <;> rfl
        · split <;> rfl
        · exact ⟨by split <;> rfl, handle_ne rfl⟩
      · rename_i hsame
        split at hs <;> cases hs
        · refine h.writerGoesOn ?_ ?_ (hcleaned.trans (.of_dir rfl)) (fun i _ => ?_) rfl
          · split <;> rfl
          · split <;> rfl
          · split <;> rfl
        · rename_i dir hrename
          split at hrename
          · exact h.commitRotation hphase hok.1 (Decidable.not_not.mp hsame) hrename
          · cases hrename

theorem stepWriter {l : Label} (h : FilesInv s) (hok : Careful s l)
    (hs : Structural.stepWriter s l = some s') : FilesInv s' := by
  cases l with
  | loadMemtable =>
      simp only [Structural.stepWriter] at hs
      split at hs <;> cases hs
      exact h.writerGoesOn rfl rfl (.of_dir rfl) (fun _ _ => rfl) rfl
  | insert e =>
      simp only [Structural.stepWriter] at hs
      split at hs <;> cases hs
      rename_i hphase
      refine h.writerGoesOn rfl rfl (.of_dir rfl) (fun _ _ => rfl) ?_
      show s.writer.update = none
      rw [hphase]
      rfl
  | finishInsert =>
      simp only [Structural.stepWriter] at hs
      split at hs <;> cases hs
      exact h.writerGoesOn rfl rfl (.of_dir rfl) (fun _ _ => rfl) rfl
  | rotate =>
      simp only [Structural.stepWriter] at hs
      split at hs <;> cases hs
      exact h.writerStep ⟨rfl, rfl, .of_dir rfl, fun _ _ _ _ => ⟨rfl, handle_ne rfl⟩,
        fun id hid => absurd hid List.not_mem_nil, fun _ => trivial⟩ .looping
  | updateRotation io =>
      simp only [Structural.stepWriter] at hs
      split at hs <;> cases hs
      rename_i u hphase
      exact h.updateRotation hok hphase (Prod.eta _).symm
  | openWal io =>
      simp only [Structural.stepWriter] at hs
      split at hs
      · split at hs
        · cases hs
          exact h.writerGoesOn rfl rfl (.of_dir rfl) (fun _ _ => rfl) rfl
        · rename_i newWalId hlast
          have hopen := Keeps.openOrCreate s (.wal newWalId) rfl
          cases io with
          | ok =>
              cases hs
              exact h.writerGoesOn rfl rfl (hopen.trans (.of_dir rfl)) (fun _ _ => rfl) rfl
          | failed =>
              cases hs
              exact h.writerGoesOn rfl rfl (.of_dir rfl) (fun _ _ => rfl) rfl
          | failedLate =>
              cases hs
              exact h.writerGoesOn rfl rfl (hopen.trans (.of_dir rfl)) (fun _ _ => rfl) rfl
      · cases hs
  | loadVersion =>
      simp only [Structural.stepWriter] at hs
      split at hs <;> cases hs
      exact h.writerGoesOn rfl rfl (.of_dir rfl) (fun _ _ => rfl) rfl
  | storeVersion =>
      simp only [Structural.stepWriter] at hs
      split at hs <;> cases hs
      exact h.writerGoesOn rfl rfl (.of_dir rfl) (fun _ _ => rfl) rfl
  | _ => cases hs

/-! ## The steps of the compaction thread -/

/-- A step of the compaction thread that commits nothing and removes no file. -/
theorem compactorGoesOn (h : FilesInv s) (hwals : s'.manifest.wals = s.manifest.wals)
    (hlevels : s'.manifest.levels = s.manifest.levels)
    (hversion : s'.manifest.version = s.manifest.version) (hkeeps : Keeps s s')
    (hwriter : s'.writer = s.writer) (hp : CompactorFiles s' s'.compactor) : FilesInv s' := by
  refine ⟨h.kept.congr hkeeps hwals hlevels hversion, fun v i hmem => ?_, ?_, hp⟩
  · rw [hversion]
    exact h.newest v i ((hkeeps.manifests v i).mp hmem)
  · rw [hwriter]
    cases hphase : s.writer with
    | updating u =>
        have hw := h.writer
        rw [hphase] at hw
        refine ⟨fun m hm => (hw.1 m hm).congr hwals hlevels hversion, fun m candidate hm => ?_⟩
        obtain ⟨heq, hcreated⟩ := hw.2 m candidate hm
        exact ⟨heq, hkeeps.has rfl hcreated⟩
    | _ => trivial

/-- The compaction thread goes on, and nothing else changes. -/
theorem compactorMoves (h : FilesInv s) {p : Compactor}
    (hp : CompactorFiles { s with compactor := p } p) : FilesInv { s with compactor := p } :=
  h.compactorGoesOn rfl rfl rfl (.of_dir rfl) rfl hp

/-- One more table is written. -/
theorem written (h : FilesInv s) {id : UInt32} {entries : List Entry} {file : File}
    (hnext : s.nextTable = some (id, entries)) :
    CompactorFiles (s.writeTable id file) (s.compactor.written (writtenTable c id entries)) := by
  have hkeeps : Keeps s (s.writeTable id file) :=
    (Keeps.openOrCreate s (.sst id) rfl).trans (.of_dir rfl)
  have hnew : (s.writeTable id file).Has (.sst id) := ⟨_, mem_openOrCreate s (.sst id)⟩
  have hid : (writtenTable c id entries).meta'.fileId = id := fileId_writtenTable id entries
  have hall : ∀ written, (∀ t ∈ written, s.Has (.sst t.meta'.fileId)) →
      ∀ t ∈ written ++ [writtenTable c id entries],
        (s.writeTable id file).Has (.sst t.meta'.fileId) := by
    intro written hwritten t ht
    rcases List.mem_append.mp ht with hold | ht
    · exact hkeeps.has rfl (hwritten t hold)
    · rw [List.mem_singleton.mp ht, hid]
      exact hnew
  have hp := h.compactor
  unfold Sys.nextTable at hnext
  split at hnext
  · rename_i memtables startSstId walsToDelete written hphase
    rw [hphase] at hp ⊢
    exact hall written hp
  · rename_i sel piece pieces written nextId hphase
    rw [hphase] at hp ⊢
    exact hall written hp
  · cases hnext

theorem stepBuild {l : Label} (h : FilesInv s)
    (hs : Structural.stepBuild c targetFileSize s l = some s') : FilesInv s' := by
  have hp := h.compactor
  cases l with
  | flush =>
      simp only [Structural.stepBuild] at hs
      split at hs
      · rename_i hphase
        split at hs
        · cases hs
        · split at hs <;> cases hs
          · refine h.compactorGoesOn rfl rfl rfl (.of_dir rfl) rfl ?_
            show CompactorFiles _ s.compactor
            rw [hphase]
            trivial
          · exact h.compactorGoesOn rfl rfl rfl (.of_dir rfl) rfl
              fun t ht => absurd ht List.not_mem_nil
      · cases hs
  | compact k =>
      simp only [Structural.stepBuild] at hs
      split at hs
      · obtain ⟨sel, _, rfl⟩ := Option.map_eq_some_iff.mp hs
        exact h.compactorMoves trivial
      · cases hs
  | openInputs io =>
      simp only [Structural.stepBuild] at hs
      split at hs
      · split at hs <;> cases hs
        · exact h.compactorMoves trivial
        · exact h.compactorMoves fun t ht => absurd ht List.not_mem_nil
      · cases hs
  | reserve =>
      simp only [Structural.stepBuild] at hs
      split at hs <;> cases hs
      rename_i hphase
      rw [hphase] at hp
      exact h.compactorGoesOn rfl rfl rfl (.of_dir rfl) rfl hp
  | writeTable io =>
      simp only [Structural.stepBuild] at hs
      split at hs
      · rename_i id entries hnext
        have hkeeps := Keeps.openOrCreate s (.sst id) rfl
        split at hs <;> cases hs
        · exact h.compactorGoesOn rfl rfl rfl (hkeeps.trans (.of_dir rfl)) rfl (h.written hnext)
        · exact h.compactorMoves trivial
        · exact h.compactorGoesOn rfl rfl rfl (hkeeps.trans (.of_dir rfl)) rfl trivial
      · cases hs
  | openTables io =>
      simp only [Structural.stepBuild] at hs
      split at hs
      · rename_i memtables startSstId walsToDelete written hphase
        rw [hphase] at hp
        split at hs
        · cases hs
        · split at hs <;> cases hs
          · exact h.compactorMoves trivial
          · exact h.compactorMoves (.looping hp)
      · rename_i sel written hphase
        rw [hphase] at hp
        split at hs <;> cases hs
        · exact h.compactorMoves trivial
        · exact h.compactorMoves (.looping hp)
      · cases hs
  | _ => cases hs

end FilesInv

/-- The logs that a job takes off the manifest. -/
def Job.walsToDelete : Job → List UInt32
  | flush _ walsToDelete _ => walsToDelete
  | compact _ _ => []

/-- What the manifest of a job lists: the logs behind those that are deleted, and no new tables but
its own. -/
theorem Job.mutator_spec {job : Job} {m m' : Manifest} (h : job.mutator m = .ok m') :
    m'.version = m.version ∧ m'.wals = m.wals.drop job.walsToDelete.length ∧
      ∀ id ∈ m'.sstableIds, id ∈ m.sstableIds ∨ ∃ t ∈ job.newTables, t.meta'.fileId = id := by
  have hspec : m'.version = m.version ∧ m'.wals = m.wals.drop job.walsToDelete.length ∧
      (fileLists m').flatten ⊆ (fileLists m).flatten ++ job.newTables.map Table.meta' := by
    cases job with
    | flush memtables walsToDelete newSstables =>
        refine ⟨(flushMutator_keepsCounters _ _).version h, ?_⟩
        by_cases hne : newSstables.map Table.meta' = []
        · simp only [mutator, flushMutator, hne, List.foldl_nil] at h
          split at h <;> cases h
          exact ⟨rfl, List.subset_append_left _ _⟩
        · obtain ⟨hlists, hwals⟩ := flushMutator_eq hne h
          rw [hlists, hwals]
          exact ⟨rfl, (Levels.flatten_push _ _).subset⟩
    | compact sel newFiles =>
        obtain ⟨hlists, hwals⟩ := compactMutator_eq h
        rw [hlists, hwals]
        exact ⟨(compactMutator_keepsCounters _ _ _ _).version h, rfl,
          fun f hf => (Levels.flatten_replace ..).subset (List.mem_append_left _ hf)⟩
  obtain ⟨hversion, hwals, hfiles⟩ := hspec
  refine ⟨hversion, hwals, fun id hid => ?_⟩
  rw [sstableIds_eq] at hid ⊢
  obtain ⟨f, hf, rfl⟩ := List.mem_map.mp hid
  rcases List.mem_append.mp (hfiles hf) with hold | hnew
  · exact .inl (List.mem_map_of_mem hold)
  · obtain ⟨t, ht, rfl⟩ := List.mem_map.mp hnew
    exact .inr ⟨t, ht, rfl⟩

namespace FilesInv

/-- The commit of a job. No snapshot of the writer can be committed any more. -/
theorem commitJob (h : FilesInv s) {job : Job} {n : Nat} {m candidate : Manifest} {dir : Dir}
    (hphase : s.compactor = .updating job (.written n m candidate))
    (hroom : s.manifest.version < s.manifest.version + 1) (hsame : s.manifest.version = m.version)
    (hrename : s.dir.rename (.mfTmp candidate.version) (.mf candidate.version) = some dir) :
    FilesInv { s with dir, manifest := candidate, compactor := .committed job } := by
  have hp := h.compactor
  rw [hphase] at hp
  obtain ⟨htables, hsnapshot, hattempt⟩ := hp
  obtain ⟨hwals, hlevels⟩ := (hsnapshot m rfl).same hsame.symm
  obtain ⟨m', hm', hcandidate⟩ := hattempt m candidate rfl
  obtain ⟨hkeeps, hlogs, hids⟩ := Job.mutator_spec hm'
  have hversion : candidate.version = s.manifest.version + 1 := by
    rw [hcandidate, hsame, ← hkeeps]
  have hlt : s.manifest.version < candidate.version := hversion ▸ hroom
  have hold : m.sstableIds = s.manifest.sstableIds := by
    rw [Manifest.sstableIds, Manifest.sstableIds, hlevels]
  have hstale : ∀ m, SnapshotOk s.manifest m → m.version ≠ candidate.version :=
    fun m hm heq => UInt32.lt_irrefl _ (UInt32.lt_of_le_of_lt hm.le (heq ▸ hlt))
  have hw := h.writer
  refine h.committed hversion hroom hrename (fun id hid => ?_) (fun id hid => ?_) rfl rfl ?_ ?_
  · have hid : id ∈ m'.wals := by
      rw [hcandidate] at hid
      exact hid
    rw [hlogs, hwals] at hid
    exact h.kept.logs id (List.mem_of_mem_drop hid)
  · rw [hcandidate] at hid
    rcases hids id hid with hid | ⟨t, ht, rfl⟩
    · exact h.kept.tables id (hold ▸ hid)
    · exact htables t ht
  · show WriterFiles _ s.writer
    cases hwriter : s.writer with
    | updating u =>
        rw [hwriter] at hw
        refine ⟨fun m hm => (hw.1 m hm).next hlt, fun m c hm => ?_⟩
        obtain ⟨heq, hcreated⟩ := hw.2 m c hm
        exact ⟨heq, has_of_rename hrename rfl hcreated⟩
    | _ => trivial
  · show OwnTmpFile _ s.writer
    cases hwriter : s.writer with
    | updating u =>
        rw [hwriter] at hw
        cases u with
        | created n m c inode => exact fun heq => absurd heq (hstale m (hw.1 m rfl))
        | written n m c => exact fun heq => absurd heq (hstale m (hw.1 m rfl))
        | _ => trivial
    | _ => trivial

/-- A step of `apply_atomic_update` in a job. -/
theorem updateJob (h : FilesInv s) {io : Io} (hroom : s.manifest.version < s.manifest.version + 1)
    {job : Job} {u : Update} (hphase : s.compactor = .updating job u) {p : Progress}
    (hs : stepUpdate job.closure io s u = (p, s')) :
    FilesInv { s' with compactor := p.compactor job } := by
  have hp := h.compactor
  rw [hphase] at hp
  obtain ⟨htables, hsnapshot, hattempt⟩ := hp
  cases u with
  | looping n =>
      simp only [stepUpdate] at hs
      split at hs <;> cases hs
      · exact h.compactorMoves trivial
      · exact h.compactorMoves (.snapped htables)
  | snapped n m =>
      simp only [stepUpdate] at hs
      split at hs
      · rename_i hmutator
        obtain ⟨_, rfl⟩ := Prod.mk.inj hmutator
        cases hs
        exact h.compactorMoves trivial
      · rename_i m' _ hmutator
        obtain ⟨hm', rfl⟩ := Prod.mk.inj hmutator
        cases hs
        refine h.compactorMoves ⟨htables, fun m hm => hsnapshot m hm, fun m₁ candidate hm₁ => ?_⟩
        cases hm₁
        exact ⟨m', hm', rfl⟩
  | mutated n m candidate =>
      have hopen := Keeps.openOrCreate s (.mfTmp candidate.version) rfl
      simp only [stepUpdate] at hs
      split at hs <;> cases hs
      · exact h.compactorMoves trivial
      · exact h.compactorGoesOn rfl rfl rfl (hopen.trans (.of_dir rfl)) rfl
          ⟨fun t ht => hopen.has rfl (htables t ht), hsnapshot, hattempt⟩
  | created n m candidate inode =>
      cases io with
      | ok =>
          cases hs
          exact h.compactorGoesOn rfl rfl rfl (.of_dir rfl) rfl ⟨htables, hsnapshot, hattempt⟩
      | failed =>
          cases hs
          exact h.compactorGoesOn rfl rfl rfl (.of_dir rfl) rfl trivial
      | failedLate =>
          cases hs
          exact h.compactorGoesOn rfl rfl rfl (.of_dir rfl) rfl trivial
  | written n m candidate =>
      have hcleaned := Keeps.cleaned s candidate.version io
      have hsame : ∀ {t : Sys}, t = (if io = .failedLate then s
          else { s with dir := s.dir.unlink (.mfTmp candidate.version) }) →
          t.manifest = s.manifest ∧ t.writer = s.writer := by
        intro t ht
        rw [ht]
        split <;> exact ⟨rfl, rfl⟩
      obtain ⟨hmanifest, hwriter⟩ := hsame rfl
      simp only [stepUpdate, Sys.commit] at hs
      split at hs
      · cases hs
        exact h.compactorGoesOn (congrArg _ hmanifest) (congrArg _ hmanifest)
          (congrArg _ hmanifest) (hcleaned.trans (.of_dir rfl)) hwriter
          (.looping fun t ht => hcleaned.has rfl (htables t ht))
      · rename_i hversion
        split at hs <;> cases hs
        · exact h.compactorGoesOn (congrArg _ hmanifest) (congrArg _ hmanifest)
            (congrArg _ hmanifest) (hcleaned.trans (.of_dir rfl)) hwriter trivial
        · rename_i dir hrename
          split at hrename
          · exact h.commitJob hphase hroom (Decidable.not_not.mp hversion) hrename
          · cases hrename

theorem stepPublish {l : Label} (h : FilesInv s) (hok : Careful s l)
    (hs : Structural.stepPublish s l = some s') : FilesInv s' := by
  have hp := h.compactor
  cases l with
  | updateJob io =>
      simp only [Structural.stepPublish] at hs
      split at hs <;> cases hs
      rename_i job u hphase
      exact h.updateJob hok hphase (Prod.eta _).symm
  | loadCurrent =>
      simp only [Structural.stepPublish] at hs
      split at hs <;> cases hs
      rename_i hphase
      rw [hphase] at hp
      exact h.compactorMoves hp
  | storeCurrent =>
      simp only [Structural.stepPublish] at hs
      split at hs <;> cases hs
      rename_i hphase
      rw [hphase] at hp
      exact h.compactorGoesOn rfl rfl rfl (.of_dir rfl) rfl hp
  | _ => cases hs

/-! ## The collector -/

/-- The version of the manifest is among the first two of those listed in descending order. -/
theorem mem_take_versions (h : FilesInv s) (hmem : s.Has (.mf s.manifest.version)) :
    s.manifest.version ∈ ((Dir.versions s.dir).insertionSort (· ≥ ·)).take 2 := by
  have hperm := List.perm_insertionSort (· ≥ ·) (Dir.versions s.dir)
  have hsorted := List.pairwise_insertionSort (r := (· ≥ ·)) (Dir.versions s.dir)
  have hmax : ∀ v ∈ (Dir.versions s.dir).insertionSort (· ≥ ·), v ≤ s.manifest.version := by
    intro v hv
    obtain ⟨i, hi⟩ := Dir.mem_versions.mp (hperm.mem_iff.mp hv)
    exact h.newest v i hi
  have hlisted := hperm.mem_iff.mpr (Dir.mem_versions.mpr hmem)
  cases hlist : (Dir.versions s.dir).insertionSort (· ≥ ·) with
  | nil =>
      rw [hlist] at hlisted
      cases hlisted
  | cons v rest =>
      rw [hlist] at hlisted hsorted hmax
      have hhead : s.manifest.version = v := by
        rcases List.mem_cons.mp hlisted with heq | hrest
        · exact heq
        · exact UInt32.le_antisymm ((List.pairwise_cons.mp hsorted).1 _ hrest)
            (hmax v List.mem_cons_self)
      rw [hhead, List.take_succ_cons]
      exact List.mem_cons_self

/-- The versions behind the first two are older than that of the manifest. -/
theorem lt_of_mem_drop (h : FilesInv s) {v : UInt32}
    (hv : v ∈ ((Dir.versions s.dir).insertionSort (· ≥ ·)).drop 2) : v < s.manifest.version := by
  have hperm := List.perm_insertionSort (· ≥ ·) (Dir.versions s.dir)
  have hnodup := hperm.nodup_iff.mpr (nodup_versions s.dir)
  obtain ⟨i, hi⟩ := Dir.mem_versions.mp (hperm.mem_iff.mp (List.mem_of_mem_drop hv))
  refine UInt32.lt_of_le_of_ne (h.newest v i hi) fun heq => ?_
  exact List.disjoint_take_drop hnodup (Nat.le_refl 2) (h.mem_take_versions h.kept.manifestFile)
    (heq ▸ hv)

/-- A file that is not needed is removed. -/
theorem removed (h : FilesInv s) {name : FileName} {names : List FileName}
    (hmanifest : .mf s.manifest.version ≠ name)
    (hlogs : ∀ id ∈ s.manifest.wals ++ s.writer.uncommitted, .wal id ≠ name)
    (htables : ∀ id ∈ s.manifest.sstableIds, .sst id ≠ name)
    (hp : CompactorFiles s (.deleting names)) :
    FilesInv { s with dir := s.dir.unlink name, compactor := .deleting names } := by
  have hstays : ∀ {n : FileName}, n ≠ name → s.Has n → ∃ i, (n, i) ∈ (s.dir.unlink name).names :=
    fun hne ⟨i, hi⟩ => ⟨i, mem_unlink.mpr ⟨hi, hne⟩⟩
  refine ⟨⟨fun id hid => ?_, fun id hid => ?_, ?_⟩, fun v i hmem => ?_, ?_, hp⟩
  · exact hstays (hlogs id (List.mem_append_left _ hid)) (h.kept.logs id hid)
  · exact hstays (htables id hid) (h.kept.tables id hid)
  · exact hstays hmanifest h.kept.manifestFile
  · exact h.newest v i (mem_unlink.mp hmem).1
  · show WriterFiles _ s.writer
    have hw := h.writer
    cases hphase : s.writer with
    | updating u =>
        rw [hphase] at hw
        refine ⟨hw.1, fun m candidate hm => ⟨(hw.2 m candidate hm).1, ?_⟩⟩
        refine hstays (hlogs _ (List.mem_append_right _ ?_)) (hw.2 m candidate hm).2
        rw [hphase, Writer.uncommitted, hm]
        exact List.mem_singleton_self _
    | _ => trivial

/-! ## The steps of a collection -/

section Names

variable {listed : List FileName} {obsolete wals ssts : List UInt32} {id : UInt32}

theorem mem_obsolete (h : FileName.mf id ∈ obsolete.map FileName.mf ++
    listed.filter (isObsolete wals ssts)) : id ∈ obsolete := by
  rcases List.mem_append.mp h with h | h
  · obtain ⟨v, hv, heq⟩ := List.mem_map.mp h
    cases heq
    exact hv
  · cases (List.mem_filter.mp h).2

theorem wal_obsolete (h : FileName.wal id ∈ obsolete.map FileName.mf ++
    listed.filter (isObsolete wals ssts)) : FileName.wal id ∈ listed ∧ id ∉ wals := by
  rcases List.mem_append.mp h with h | h
  · obtain ⟨_, _, heq⟩ := List.mem_map.mp h
    cases heq
  · obtain ⟨hlisted, hobsolete⟩ := List.mem_filter.mp h
    exact ⟨hlisted, by simpa [isObsolete] using hobsolete⟩

theorem sst_obsolete (h : FileName.sst id ∈ obsolete.map FileName.mf ++
    listed.filter (isObsolete wals ssts)) : id ∉ ssts := by
  rcases List.mem_append.mp h with h | h
  · obtain ⟨_, _, heq⟩ := List.mem_map.mp h
    cases heq
  · simpa [isObsolete] using (List.mem_filter.mp h).2

end Names

/-- The directory is listed. -/
theorem directoryListed (h : FilesInv s) (hok : Careful s (.list .ok)) {wals ssts : List UInt32}
    (hphase : s.compactor = .snapped wals ssts) :
    FilesInv { s with
      compactor := .reading (s.dir.names.map Prod.fst)
        (((Dir.versions s.dir).insertionSort (· ≥ ·)).take 2)
        (((Dir.versions s.dir).insertionSort (· ≥ ·)).drop 2) wals ssts } := by
  have hp := h.compactor
  rw [hphase] at hp
  obtain ⟨_, hwals, hssts⟩ := hp
  refine h.compactorMoves ⟨fun v hv => ?_, fun v hv => h.lt_of_mem_drop hv, fun id hid _ => ?_,
    hssts⟩
  · obtain ⟨i, hi⟩ := Dir.mem_versions.mp
      ((List.perm_insertionSort (· ≥ ·) _).mem_iff.mp (List.mem_of_mem_take hv))
    exact h.newest v i hi
  · -- a log that waits for its manifest is listed already, so it was snapped or is on disk
    have hlisted : id ∈ s.manifest.wals := by
      rcases List.mem_append.mp hid with hid | hid
      · exact hid
      · exact hok id hid
    rcases hwals with hwals | hlists
    · exact .inl (hwals hlisted)
    · obtain ⟨i, m, hmem, _⟩ := hlists id hlisted
      exact .inr ⟨_, h.mem_take_versions ⟨i, hmem⟩, hlists id hlisted⟩

/-- One of the manifests is read. -/
theorem manifestRead (h : FilesInv s) {io : Io} (hok : Careful s (.readManifest io))
    {listed : List FileName} {version : UInt32} {kept obsolete wals ssts : List UInt32}
    (hphase : s.compactor = .reading listed (version :: kept) obsolete wals ssts) :
    FilesInv { s with
      compactor := .reading listed kept obsolete
        (wals ++ (if io = .ok then s.referencedBy version else ([], [])).1)
        (ssts ++ (if io = .ok then s.referencedBy version else ([], [])).2) } := by
  have hp := h.compactor
  rw [hphase] at hp
  obtain ⟨hkept, hobsolete, hneeded, hssts⟩ := hp
  refine h.compactorMoves ⟨fun v hv => hkept v (List.mem_cons_of_mem _ hv), hobsolete,
    fun id hid hlisted => ?_, List.subset_append_of_subset_left _ hssts⟩
  rcases hneeded id hid hlisted with hknown | ⟨v, hv, hlists⟩
  · exact .inl (List.mem_append_left _ hknown)
  · rcases List.mem_cons.mp hv with rfl | hv
    · rcases hok with rfl | hunread
      · obtain ⟨i, m, hmem, hcontent, hid, _⟩ := hlists
        refine .inl (List.mem_append_right _ ?_)
        rw [if_pos rfl, Sys.referencedBy, lookup_eq_some.mpr hmem, Option.map_some, hcontent]
        exact hid
      · rw [hphase] at hunread
        exact .inl (List.mem_append_left _ ((hunread id hid).resolve_left (absurd hlisted)))
    · exact .inr ⟨v, hv, hlists⟩

theorem stepCollect {l : Label} (h : FilesInv s) (hok : Careful s l)
    (hs : Structural.stepCollect s l = some s') : FilesInv s' := by
  have hp := h.compactor
  cases l with
  | snapshot =>
      simp only [Structural.stepCollect] at hs
      split at hs <;> cases hs
      rename_i hphase
      rw [hphase] at hp
      exact h.compactorMoves ⟨hp, .inl (List.Subset.refl _), List.Subset.refl _⟩
  | list io =>
      simp only [Structural.stepCollect] at hs
      split at hs
      · rename_i hphase
        split at hs <;> cases hs
        · exact h.compactorMoves trivial
        · exact h.directoryListed hok hphase
      · cases hs
  | readManifest io =>
      simp only [Structural.stepCollect] at hs
      split at hs <;> cases hs
      · rename_i hphase
        exact h.manifestRead hok hphase
      · rename_i hphase
        rw [hphase] at hp
        obtain ⟨_, hobsolete, hneeded, hssts⟩ := hp
        refine h.compactorMoves ⟨fun v hmem => hobsolete v (mem_obsolete hmem),
          fun id hid hmem => ?_, fun id hid hmem => sst_obsolete hmem (hssts hid)⟩
        obtain ⟨hlisted, hunknown⟩ := wal_obsolete hmem
        rcases hneeded id hid hlisted with hknown | ⟨v, hv, _⟩
        · exact hunknown hknown
        · exact absurd hv List.not_mem_nil
  | delete io =>
      simp only [Structural.stepCollect] at hs
      split at hs <;> cases hs
      · rename_i name names hphase
        rw [hphase] at hp
        have hleft : CompactorFiles s (.deleting names) :=
          ⟨fun v hv => hp.1 v (List.mem_cons_of_mem _ hv),
            fun id hid hmem => hp.2.1 id hid (List.mem_cons_of_mem _ hmem),
            fun id hid hmem => hp.2.2 id hid (List.mem_cons_of_mem _ hmem)⟩
        split
        · exact h.removed (fun heq => UInt32.lt_irrefl _ (hp.1 _ (heq ▸ List.mem_cons_self)))
            (fun id hid heq => hp.2.1 id hid (heq ▸ List.mem_cons_self))
            (fun id hid heq => hp.2.2 id hid (heq ▸ List.mem_cons_self)) hleft
        · exact h.compactorMoves hleft
      · exact h.compactorMoves trivial
  | _ => cases hs

/-- One careful step keeps the invariant. -/
theorem step {l : Label} (h : FilesInv s) (hok : Careful s l)
    (hs : Structural.step c targetFileSize s l = some s') : FilesInv s' := by
  rcases step_cases hs with hs | hs | hs | hs
  · exact h.stepWriter hok hs
  · exact h.stepBuild hs
  · exact h.stepPublish hok hs
  · exact h.stepCollect hok hs

theorem of_start (h : Start s) : FilesInv s := by
  obtain ⟨hwriter, hcompactor⟩ := h.idle
  refine ⟨⟨h.logs, h.tables, h.manifestFile⟩, h.newest, ?_, ?_⟩
  · rw [hwriter]
    trivial
  · rw [hcompactor]
    trivial

theorem of_reach (h : Reach (Structural.step c targetFileSize) Start Careful s) : FilesInv s :=
  h.invariant (fun _ => of_start) fun _ _ _ hinv hok hs => hinv.step hok hs

end FilesInv

/-- In every careful run of the two threads the manifest file, the logs and the tables that the
manifest lists exist. -/
theorem listed_files_kept (c : Crates) (targetFileSize : UInt64) {s : Sys}
    (h : Reach (step c targetFileSize) Start Careful s) : FilesKept s := (FilesInv.of_reach h).kept

/-- A flush in which a rotation commits between the snapshot and the listing. -/
def collectOnce : List Label :=
  rotateOnce ++ flushOnce ++ [.snapshot, .updateRotation .ok, .updateRotation .ok,
    .updateRotation .ok, .updateRotation .ok, .list .ok, .readManifest .ok, .readManifest .ok,
    .readManifest .ok, .delete .ok, .delete .ok, .delete .ok]

/-- What the manifest lists, and what is in the directory. -/
def Sys.overview (s : Sys) : List UInt32 × List UInt32 × List FileName :=
  (s.manifest.wals, s.manifest.sstableIds, s.dir.names.map Prod.fst)

theorem listed_files_kept_collected : ∃ s, Reach (step crates 0) Start Careful s ∧
    s.manifest.wals = [1, 1] ∧ ¬ s.Has (.wal 0) ∧ s.Has (.wal 1) := by
  have hrun : (run (fun s l => if decide (Careful s l) then step crates 0 s l else none) pristine
      collectOnce).map Sys.overview = some ([1, 1], [0], [.mf 3, .mf 2, .sst 0, .wal 1]) := by
    decide +kernel
  obtain ⟨s, hreach, hend⟩ := reached_of_run Careful start_pristine _ _ hrun
  obtain ⟨hwals, hend⟩ := Prod.mk.inj hend
  refine ⟨s, hreach, hwals, fun ⟨i, hi⟩ => ?_,
    (listed_files_kept crates 0 hreach).logs 1 (hwals ▸ List.mem_cons_self)⟩
  have hmem : FileName.wal 0 ∈ s.dir.names.map Prod.fst := List.mem_map_of_mem hi
  rw [(Prod.mk.inj hend).2] at hmem
  simp at hmem

end EasyLsm.Structural
