import Mathlib.Data.List.Basic
import Mathlib.Data.List.Nodup
import EasyLsm.Db.Levels
import EasyLsm.Db.OnDisk
import EasyLsm.Structural.Machine

/-!
# No published version is lost

A rotation and a background job each build a new `DbVersion` from one they loaded, and store it
without a lock. `no_update_lost`: as long as every version is stored while the one it was built from
is still current, and every table is written under an id of its own, nothing that was published is
lost, whatever the order of the steps.
-/

namespace EasyLsm.Structural

open Lib Lib.FileStore Db

variable {c : Crates} {targetFileSize : UInt64} {s s' s'' : Sys}

/-- The entries in the tables of a version. -/
def stored (v : Version) : List Entry := (tables v).flatMap Table.entries

/-- Everything that can be read in a version. -/
def Sys.contents (s : Sys) (v : Version) : List Entry :=
  (v.frozenMemtables ++ [v.mutableMemtable]).flatMap s.frozenEntries ++ stored v

theorem Sys.mem_contents {v : Version} {e : Entry} : e ∈ s.contents v ↔
    (∃ mem ∈ v.frozenMemtables ++ [v.mutableMemtable], e ∈ s.frozenEntries mem) ∨ e ∈ stored v := by
  rw [Sys.contents, List.mem_append, List.mem_flatMap]

/-- Nothing that was put in place is lost: the memtables put in place are those whose tables were
published, the frozen ones and the mutable one, in this order; the mutable log is that of the last
rotation; and what was flushed is in a table. -/
structure NothingLost (s : Sys) : Prop where
  memtables : s.flushed ++ s.current.frozenMemtables ++ [s.current.mutableMemtable] = s.used
  log : s.current.mutableWal = s.latestWal
  flushed : ∀ mem ∈ s.flushed, s.frozenEntries mem ⊆ stored s.current

/-! ## The table files -/

/-- The inode is in use, and not that of a table. -/
def Sys.NoTable (s : Sys) (inode : Nat) : Prop :=
  inode < s.dir.next ∧ ∀ id, (FileName.sst id, inode) ∉ s.dir.names

/-- No table file is created or written. -/
structure Frame (s s' : Sys) : Prop where
  next : s.dir.next ≤ s'.dir.next
  names : ∀ id inode, (FileName.sst id, inode) ∈ s'.dir.names →
    (FileName.sst id, inode) ∈ s.dir.names
  content : ∀ id inode, (FileName.sst id, inode) ∈ s'.dir.names → s'.content inode = s.content inode

namespace Frame

theorem refl (s : Sys) : Frame s s := ⟨Nat.le_refl _, fun _ _ h => h, fun _ _ _ => rfl⟩

theorem trans (h : Frame s s') (h' : Frame s' s'') : Frame s s'' where
  next := Nat.le_trans h.next h'.next
  names id inode hmem := h.names id inode (h'.names id inode hmem)
  content id inode hmem :=
    (h'.content id inode hmem).trans (h.content id inode (h'.names id inode hmem))

theorem filed (h : Frame s s') {t : Table} (ht : s.Filed t) : s'.Filed t := by
  intro inode hmem
  rw [h.content _ inode hmem]
  exact ht inode (h.names _ inode hmem)

theorem noTable (h : Frame s s') {inode : Nat} (hinode : s.NoTable inode) : s'.NoTable inode :=
  ⟨Nat.lt_of_lt_of_le hinode.1 h.next, fun id hmem => hinode.2 id (h.names id inode hmem)⟩

/-- The directory and the contents are the same. -/
theorem of_same (hdir : s'.dir = s.dir) (hcontent : s'.content = s.content) : Frame s s' :=
  ⟨Nat.le_of_eq (congrArg FileStore.next hdir.symm), fun _ _ h => hdir ▸ h,
    fun _ _ _ => congrFun hcontent _⟩

/-- A file that is no table is opened. -/
theorem openOrCreate (s : Sys) (name : FileName) (hname : ∀ id, name ≠ .sst id) :
    Frame s (s.openOrCreate name).2 ∧ (s.openOrCreate name).2.NoTable (s.openOrCreate name).1 := by
  have hspec := openOrCreate_spec (Prod.eta (s.dir.openOrCreate name)).symm
  obtain ⟨hnames, hinode, hcontent, hnext⟩ := hspec
  have hmem := (hnames name (s.dir.openOrCreate name).1).mpr (.inl ⟨rfl, rfl⟩)
  refine ⟨⟨hnext, fun id inode h => ?_, fun _ _ _ => rfl⟩, ?_, fun id h => ?_⟩
  · rcases (hnames _ _).mp h with ⟨heq, _⟩ | hold
    · exact absurd heq.symm (hname id)
    · exact hold
  · exact (s.dir.openOrCreate name).2.allocated _ hmem
  · exact hname id ((s.dir.openOrCreate name).2.name_unique hmem h)

/-- An inode that is not that of a table is written. -/
theorem setFile {inode : Nat} (h : s.NoTable inode) (file : File) :
    Frame s (s.setFile inode file) where
  next := Nat.le_refl _
  names _ _ hmem := hmem
  content id i hmem := by
    have hne : i ≠ inode := fun heq => h.2 id (heq ▸ hmem)
    exact Function.update_of_ne hne _ _

/-- A file is removed. -/
theorem unlink (s : Sys) (name : FileName) : Frame s { s with dir := s.dir.unlink name } where
  next := Nat.le_refl _
  names _ _ hmem := (mem_unlink.mp hmem).1
  content _ _ _ := rfl

/-- A manifest is renamed. -/
theorem rename {old new : FileName} {dir : Dir} (h : s.dir.rename old new = some dir)
    (hnew : ∀ id, new ≠ .sst id) : Frame s { s with dir } := by
  obtain ⟨i, _, _, hnext, hnames⟩ := rename_spec h
  refine ⟨hnext, fun id inode hmem => ?_, fun _ _ _ => rfl⟩
  rcases (hnames _ _).mp hmem with ⟨heq, _⟩ | ⟨hold, _⟩
  · exact absurd heq.symm (hnew id)
  · exact hold

end Frame

/-! ## Manifest updates -/

/-- The temporary file that a call is writing is not that of a table. -/
def UpdateOk (s : Sys) : Update → Prop
  | .created _ _ _ inode => s.NoTable inode
  | _ => True

theorem UpdateOk.frame {u : Update} (hu : UpdateOk s u) (h : Frame s s') : UpdateOk s' u := by
  cases u with
  | created n snapshot candidate inode => exact h.noTable hu
  | _ => trivial

/-- Only the manifest and the directory change, and no table file. -/
structure Aside (s s' : Sys) : Prop where
  frame : Frame s s'
  same : ∃ manifest dir content, s' = { s with manifest, dir, content }

namespace Aside

theorem of_frame {manifest : Manifest} {dir : Dir} {content : Nat → File}
    (h : Frame s { s with manifest, dir, content }) : Aside s { s with manifest, dir, content } :=
  ⟨h, manifest, dir, content, rfl⟩

theorem refl (s : Sys) : Aside s s := ⟨.refl s, s.manifest, s.dir, s.content, rfl⟩

theorem openOrCreate (s : Sys) (name : FileName) (hname : ∀ id, name ≠ .sst id) :
    Aside s (s.openOrCreate name).2 := of_frame (Frame.openOrCreate s name hname).1

end Aside

theorem rotateClosure_aside {m : Manifest} {io : Io} {r : Except DbError Manifest}
    (h : rotateClosure m io s = (r, s')) : Aside s s' := by
  have hopen := Aside.openOrCreate s (.wal m.nextWalId) nofun
  unfold rotateClosure at h
  split at h <;> cases h
  · exact hopen
  · exact .refl s
  · exact hopen

theorem Job.closure_aside {job : Job} {m : Manifest} {io : Io} {r : Except DbError Manifest}
    (h : job.closure m io s = (r, s')) : Aside s s' := by
  cases h
  exact .refl s

/-- The commit section touches no table file. -/
theorem commit_aside {n : Nat} {snapshot candidate : Manifest} {io : Io} {p : Progress}
    (h : s.commit n snapshot candidate io = (p, s')) :
    Aside s s' ∧ ∀ u, p = .goOn u → UpdateOk s' u := by
  have hcleaned : Aside s (if io = .failedLate then s
      else { s with dir := s.dir.unlink (.mfTmp candidate.version) }) := by
    split
    · exact .refl s
    · exact .of_frame (.unlink s _)
  unfold Sys.commit at h
  simp only at h
  split at h
  · cases h
    exact ⟨hcleaned, fun u hu => by cases hu; trivial⟩
  · split at h <;> cases h
    · exact ⟨hcleaned, nofun⟩
    · rename_i hrename
      split at hrename
      · exact ⟨⟨Frame.rename hrename nofun |>.trans (.of_same rfl rfl), _, _, _, rfl⟩, nofun⟩
      · cases hrename

/-- A step of `apply_atomic_update` touches no table file. -/
theorem stepUpdate_aside {closure : Closure} {io : Io} {u : Update} {p : Progress}
    (hclosure : ∀ {m io s r s'}, closure m io s = (r, s') → Aside s s') (hu : UpdateOk s u)
    (h : stepUpdate closure io s u = (p, s')) :
    Aside s s' ∧ ∀ u', p = .goOn u' → UpdateOk s' u' := by
  cases u with
  | looping n =>
      simp only [stepUpdate] at h
      split at h <;> cases h
      · exact ⟨.refl s, nofun⟩
      · exact ⟨.refl s, fun u' hu' => by cases hu'; trivial⟩
  | snapped n snapshot =>
      simp only [stepUpdate] at h
      split at h <;> cases h
      · exact ⟨hclosure ‹_›, nofun⟩
      · exact ⟨hclosure ‹_›, fun u' hu' => by cases hu'; trivial⟩
  | mutated n snapshot candidate =>
      obtain ⟨hopen, hinode⟩ := Frame.openOrCreate s (.mfTmp candidate.version) nofun
      simp only [stepUpdate] at h
      split at h <;> cases h
      · exact ⟨.refl s, nofun⟩
      · have hset := Frame.setFile hinode .other
        refine ⟨⟨hopen.trans hset, _, _, _, rfl⟩, fun u' hu' => ?_⟩
        cases hu'
        exact hset.noTable hinode
  | created n snapshot candidate inode =>
      simp only [stepUpdate] at h
      split at h <;> cases h
      · exact ⟨.of_frame (.setFile hu _), fun u' hu' => by cases hu'; trivial⟩
      · exact ⟨.of_frame (.setFile hu _), nofun⟩
      · exact ⟨.of_frame (.setFile hu _), nofun⟩
  | written n snapshot candidate => exact commit_aside h

/-! ## What a job publishes -/

namespace Job

/-- The tables that a job adds. -/
def newTables : Job → List Table
  | flush _ _ newSstables => newSstables
  | compact _ newFiles => newFiles

/-- A compaction takes tables with the ids of its inputs out of two levels. -/
theorem tables_compact_perm (sel : Selection) (newFiles : List Table) (v : Version) :
    (tables ((compact sel newFiles).version v) ++
      ((Levels.get v.sstables sel.sourceLevelIdx).filter
          (fun t => hasId sel.fromSource t.meta'.fileId) ++
        (Levels.get v.sstables (sel.sourceLevelIdx + 1)).filter fun t =>
          hasId sel.fromTarget t.meta'.fileId)).Perm (tables v ++ newFiles) := by
  unfold tables version
  simp only
  rw [sstables_compactVersion]
  exact Levels.flatten_replace _ _ _ _ _ _

/-- The new version has the tables of the job, and no other ones that are new. -/
theorem mem_tables_version {job : Job} {v : Version} {t : Table} :
    (t ∈ job.newTables → t ∈ tables (job.version v)) ∧
      (t ∈ tables (job.version v) → t ∈ tables v ∨ t ∈ job.newTables) := by
  cases job with
  | flush memtables walsToDelete newSstables =>
      have hmem := (Levels.flatten_push newSstables v.sstables).mem_iff (a := t)
      rw [List.mem_append] at hmem
      exact ⟨fun ht => hmem.mpr (.inr ht), hmem.mp⟩
  | compact sel newFiles =>
      constructor
      · intro ht
        refine Levels.mem_flatten_iff.mpr ⟨sel.sourceLevelIdx + 1, ?_⟩
        rw [version, sstables_compactVersion, Levels.get_replace, if_neg (Nat.succ_ne_self _),
          if_pos rfl]
        exact (List.mem_insertionSort _).mpr (List.mem_append_right _ ht)
      · intro ht
        exact List.mem_append.mp
          ((tables_compact_perm sel newFiles v).mem_iff.mp (List.mem_append_left _ ht))

/-- A table that the new version no longer has was merged. -/
theorem mem_tables_or_merged {job : Job} {v : Version} {t : Table} (ht : t ∈ tables v) :
    t ∈ tables (job.version v) ∨
      ∃ sel newFiles, job = .compact sel newFiles ∧
        t.meta'.fileId ∈ sel.all.map FileMetadata.fileId := by
  cases job with
  | flush memtables walsToDelete newSstables =>
      exact .inl ((Levels.flatten_push newSstables v.sstables).mem_iff.mpr
        (List.mem_append_left _ ht))
  | compact sel newFiles =>
      have hmem := (tables_compact_perm sel newFiles v).mem_iff.mpr (List.mem_append_left _ ht)
      rcases List.mem_append.mp hmem with hmem | hgone
      · exact .inl hmem
      · refine .inr ⟨sel, newFiles, rfl, ?_⟩
        rw [Selection.all, List.map_append]
        rcases List.mem_append.mp hgone with hgone | hgone
        · exact List.mem_append_left _ (hasId_iff.mp (List.mem_filter.mp hgone).2)
        · exact List.mem_append_right _ (hasId_iff.mp (List.mem_filter.mp hgone).2)

/-- The memtables that a job leaves are those behind the ones it publishes. -/
theorem frozen_version {job : Job} {v : Version} (hfirst : job.memtables <+: v.frozenMemtables)
    (hlength : ∀ memtables walsToDelete newSstables,
      job = flush memtables walsToDelete newSstables → newSstables.length = memtables.length) :
    job.memtables ++ (job.version v).frozenMemtables = v.frozenMemtables := by
  cases job with
  | flush memtables walsToDelete newSstables =>
      obtain ⟨rest, hrest⟩ := hfirst
      show memtables ++ v.frozenMemtables.drop newSstables.length = _
      rw [hlength _ _ _ rfl, ← hrest]
      show memtables ++ (memtables ++ rest).drop memtables.length = _
      rw [List.drop_left]
      rfl
  | compact sel newFiles => rfl

end Job

/-! ## The invariant -/

/-- What a job will publish is filed, and holds what it takes away. -/
def JobOk (s : Sys) : Job → Prop
  | .flush memtables _ newSstables =>
      memtables <+: s.current.frozenMemtables ∧
        newSstables.map Table.entries = memtables.map s.frozenEntries ∧ ∀ t ∈ newSstables, s.Filed t
  | .compact sel newFiles =>
      (∀ t ∈ tables s.current, t.meta'.fileId ∈ sel.all.map FileMetadata.fileId →
        ∀ e ∈ t.entries, ∃ t' ∈ newFiles, e ∈ t'.entries) ∧ ∀ t ∈ newFiles, s.Filed t

/-- What the compaction thread has written so far is filed, and holds what it should. -/
def CompactorOk (s : Sys) : Compactor → Prop
  | .flushing memtables _ _ written =>
      memtables <+: s.current.frozenMemtables ∧
        written.map Table.entries = (memtables.take written.length).map s.frozenEntries ∧
        ∀ t ∈ written, s.Filed t
  | .merging sel pieces written _ =>
      (∀ t ∈ tables s.current, t.meta'.fileId ∈ sel.all.map FileMetadata.fileId →
        ∀ e ∈ t.entries, (∃ t' ∈ written, e ∈ t'.entries) ∨ ∃ p ∈ pieces, e ∈ p) ∧
        ∀ t ∈ written, s.Filed t
  | .updating job u => JobOk s job ∧ UpdateOk s u
  | .committed job | .loaded job _ => JobOk s job
  | _ => True

/-- The writer inserts into the mutable memtable, and its temporary file is not that of a table. -/
def WriterOk (s : Sys) : Writer → Prop
  | .inserting mem => mem = s.current.mutableMemtable
  | .updating u => UpdateOk s u
  | _ => True

/-- The invariant. -/
structure Inv (s : Sys) : Prop where
  kept : NothingLost s
  distinct : s.used.Nodup
  allocated : ∀ mem ∈ s.used, mem < s.nextMem
  filed : ∀ t ∈ tables s.current, s.Filed t
  writer : WriterOk s s.writer
  compactor : CompactorOk s s.compactor

/-- The tables that the compaction thread has written but not published. -/
def Compactor.newTables : Compactor → List Table
  | .flushing _ _ _ written | .merging _ _ written _ => written
  | _ => []

/-- The version that the writer builds on. -/
def Writer.base : Writer → Option Version
  | .loaded _ v => some v
  | _ => none

/-- The version that a job builds on. -/
def Compactor.base : Compactor → Option Version
  | .loaded _ v => some v
  | _ => none

/-- The condition on a step: a version is stored while the one it was built from is current, and a
table is written under an id that no other table has. -/
def Undisturbed (s : Sys) : Label → Prop
  | .storeVersion => ∀ v ∈ s.writer.base, v = s.current
  | .storeCurrent => ∀ v ∈ s.compactor.base, v = s.current
  | .writeTable _ => ∀ e ∈ s.nextTable,
      ∀ t ∈ tables s.current ++ s.compactor.newTables, t.meta'.fileId ≠ e.1
  | _ => True

instance : DecidableRel Undisturbed := fun s l =>
  match l with
  | .storeVersion => inferInstanceAs (Decidable (∀ v ∈ s.writer.base, _ = _))
  | .storeCurrent => inferInstanceAs (Decidable (∀ v ∈ s.compactor.base, _ = _))
  | .writeTable _ => inferInstanceAs (Decidable (∀ e ∈ s.nextTable, ∀ t ∈ _ ++ _, _ ≠ _))
  | .loadMemtable | .insert _ | .finishInsert | .rotate | .updateRotation _ | .openWal _
  | .loadVersion | .flush | .compact _ | .openInputs _ | .reserve | .openTables _ | .updateJob _
  | .loadCurrent | .snapshot | .list _ | .readManifest _ | .delete _ => .isTrue trivial

/-- The part of it about versions. -/
def StoredInOrder (s : Sys) : Label → Prop
  | .storeVersion => ∀ v ∈ s.writer.base, v = s.current
  | .storeCurrent => ∀ v ∈ s.compactor.base, v = s.current
  | _ => True

instance : DecidableRel StoredInOrder := fun s l =>
  match l with
  | .storeVersion => inferInstanceAs (Decidable (∀ v ∈ s.writer.base, _ = _))
  | .storeCurrent => inferInstanceAs (Decidable (∀ v ∈ s.compactor.base, _ = _))
  | .loadMemtable | .insert _ | .finishInsert | .rotate | .updateRotation _ | .openWal _
  | .loadVersion | .flush | .compact _ | .openInputs _ | .reserve | .writeTable _ | .openTables _
  | .updateJob _ | .loadCurrent | .snapshot | .list _ | .readManifest _ | .delete _ =>
      .isTrue trivial

theorem StoredInOrder.writer {newWal : Log} {v : Version} (h : StoredInOrder s .storeVersion)
    (hphase : s.writer = .loaded newWal v) : v = s.current :=
  h v (congrArg Writer.base hphase)

theorem StoredInOrder.compactor {job : Job} {v : Version} (h : StoredInOrder s .storeCurrent)
    (hphase : s.compactor = .loaded job v) : v = s.current :=
  h v (congrArg Compactor.base hphase)

theorem Undisturbed.stored {l : Label} (h : Undisturbed s l) : StoredInOrder s l := by
  cases l with
  | storeVersion | storeCurrent => exact h
  | _ => trivial

theorem Undisturbed.writer {newWal : Log} {v : Version} (h : Undisturbed s .storeVersion)
    (hphase : s.writer = .loaded newWal v) : v = s.current := h.stored.writer hphase

theorem Undisturbed.compactor {job : Job} {v : Version} (h : Undisturbed s .storeCurrent)
    (hphase : s.compactor = .loaded job v) : v = s.current := h.stored.compactor hphase

/-! ## Steps that touch no table file -/

theorem frozenEntries_congr {mem : Nat} (h : s'.mems mem = s.mems mem) :
    s'.frozenEntries mem = s.frozenEntries mem := by
  unfold Sys.frozenEntries Sys.memtable
  rw [h]

/-- Memtables are added at the end, and the frozen ones and the tables stay what they are. -/
structure Grows (s s' : Sys) : Prop where
  frame : Frame s s'
  frozen : s.current.frozenMemtables <+: s'.current.frozenMemtables
  tables : tables s'.current = tables s.current
  entries : ∀ mem ∈ s.current.frozenMemtables, s'.frozenEntries mem = s.frozenEntries mem

theorem Aside.grows (h : Aside s s') : Grows s s' := by
  obtain ⟨hframe, manifest, dir, content, rfl⟩ := h
  exact ⟨hframe, List.prefix_refl _, rfl, fun _ _ => rfl⟩

namespace Grows

/-- The frozen memtables of a prefix hold what they held. -/
theorem map_entries (h : Grows s s') {memtables : List Nat}
    (hinitial : memtables <+: s.current.frozenMemtables) :
    memtables.map s'.frozenEntries = memtables.map s.frozenEntries :=
  List.map_congr_left fun mem hmem => h.entries mem (hinitial.subset hmem)

theorem jobOk (h : Grows s s') {job : Job} (hjob : JobOk s job) : JobOk s' job := by
  cases job with
  | flush memtables walsToDelete newSstables =>
      obtain ⟨hinitial, hentries, hfiled⟩ := hjob
      refine ⟨hinitial.trans h.frozen, ?_, fun t ht => h.frame.filed (hfiled t ht)⟩
      rw [hentries, h.map_entries hinitial]
  | compact sel newFiles =>
      unfold JobOk
      rw [h.tables]
      exact ⟨hjob.1, fun t ht => h.frame.filed (hjob.2 t ht)⟩

theorem compactorOk (h : Grows s s') {p : Compactor} (hp : CompactorOk s p) : CompactorOk s' p := by
  cases p with
  | flushing memtables startSstId walsToDelete written =>
      obtain ⟨hinitial, hentries, hfiled⟩ := hp
      refine ⟨hinitial.trans h.frozen, ?_, fun t ht => h.frame.filed (hfiled t ht)⟩
      rw [hentries, h.map_entries ((List.take_prefix _ _).trans hinitial)]
  | merging sel pieces written nextId =>
      unfold CompactorOk
      rw [h.tables]
      exact ⟨hp.1, fun t ht => h.frame.filed (hp.2 t ht)⟩
  | updating job u => exact ⟨h.jobOk hp.1, hp.2.frame h.frame⟩
  | committed job => exact h.jobOk hp
  | loaded job v => exact h.jobOk hp
  | _ => trivial

end Grows

theorem WriterOk.congr {w : Writer} (hw : WriterOk s w)
    (hmutable : s'.current.mutableMemtable = s.current.mutableMemtable)
    (hinodes : ∀ inode, s.NoTable inode → s'.NoTable inode) : WriterOk s' w := by
  cases w with
  | updating u =>
      cases u with
      | created n snapshot candidate inode => exact hinodes inode hw
      | _ => trivial
  | inserting mem => exact Eq.trans hw hmutable.symm
  | _ => trivial

theorem WriterOk.aside {w : Writer} (hw : WriterOk s w) (h : Aside s s') : WriterOk s' w := by
  obtain ⟨hframe, manifest, dir, content, rfl⟩ := h
  exact hw.congr rfl fun _ => hframe.noTable

namespace Inv

/-- A thread goes on, and at most the manifest and files that are no tables change. -/
theorem aside (h : Inv s) (haside : Aside s s') {w : Writer} {p : Compactor} (hw : WriterOk s' w)
    (hp : CompactorOk s' p) : Inv { s' with writer := w, compactor := p } := by
  have hgrows : Grows s' { s' with writer := w, compactor := p } :=
    ⟨.of_same rfl rfl, List.prefix_refl _, rfl, fun _ _ => rfl⟩
  obtain ⟨hframe, manifest, dir, content, rfl⟩ := haside
  exact ⟨⟨h.kept.memtables, h.kept.log, h.kept.flushed⟩, h.distinct, h.allocated,
    fun t ht => hframe.filed (h.filed t ht), hw.congr rfl fun _ => hgrows.frame.noTable,
    hgrows.compactorOk hp⟩

theorem asideWriter (h : Inv s) (haside : Aside s s') {w : Writer} (hw : WriterOk s' w) :
    Inv { s' with writer := w } := by
  have hp := haside.grows.compactorOk h.compactor
  obtain ⟨hframe, manifest, dir, content, rfl⟩ := haside
  exact h.aside ⟨hframe, manifest, dir, content, rfl⟩ hw hp

theorem asideCompactor (h : Inv s) (haside : Aside s s') {p : Compactor} (hp : CompactorOk s' p) :
    Inv { s' with compactor := p } := by
  have hw := h.writer.aside haside
  obtain ⟨hframe, manifest, dir, content, rfl⟩ := haside
  exact h.aside ⟨hframe, manifest, dir, content, rfl⟩ hw hp

/-! ## The steps of the writer -/

/-- The mutable memtable is neither frozen nor flushed. -/
theorem ne_mutable (h : Inv s) {mem : Nat} (hmem : mem ∈ s.flushed ++ s.current.frozenMemtables) :
    mem ≠ s.current.mutableMemtable := by
  have hdistinct := h.distinct
  rw [← h.kept.memtables] at hdistinct
  exact (List.nodup_append.mp hdistinct).2.2 mem hmem _ (List.mem_singleton_self _)

/-- A frozen or flushed memtable was allocated. -/
theorem lt_nextMem (h : Inv s) {mem : Nat} (hmem : mem ∈ s.flushed ++ s.current.frozenMemtables) :
    mem < s.nextMem := by
  refine h.allocated mem ?_
  rw [← h.kept.memtables]
  exact List.mem_append_left _ hmem

/-- An entry is inserted into the mutable memtable. -/
theorem insertEntry (h : Inv s) (e : Entry) : Inv (s.insertEntry s.current.mutableMemtable e) := by
  have hentries : ∀ mem ∈ s.flushed ++ s.current.frozenMemtables,
      (s.insertEntry s.current.mutableMemtable e).frozenEntries mem = s.frozenEntries mem :=
    fun mem hmem => frozenEntries_congr (Function.update_of_ne (h.ne_mutable hmem) _ _)
  have hgrows : Grows s (s.insertEntry s.current.mutableMemtable e) :=
    ⟨.of_same rfl rfl, List.prefix_refl _, rfl, fun mem hmem =>
      hentries mem (List.mem_append_right _ hmem)⟩
  refine ⟨⟨h.kept.memtables, h.kept.log, fun mem hmem => ?_⟩, h.distinct, h.allocated, h.filed, ?_,
    hgrows.compactorOk h.compactor⟩
  · rw [hentries mem (List.mem_append_left _ hmem)]
    exact h.kept.flushed mem hmem
  · exact h.writer.congr rfl fun _ => hgrows.frame.noTable

/-- The mutable memtable is frozen and a new one is put in place. -/
theorem storeRotation (h : Inv s) (newWal : Log) : Inv (s.storeRotation newWal s.current) := by
  have hentries : ∀ mem ∈ s.flushed ++ s.current.frozenMemtables,
      (s.storeRotation newWal s.current).frozenEntries mem = s.frozenEntries mem :=
    fun mem hmem =>
      frozenEntries_congr (Function.update_of_ne (Nat.ne_of_lt (h.lt_nextMem hmem)) _ _)
  have hgrows : Grows s (s.storeRotation newWal s.current) :=
    ⟨.of_same rfl rfl, List.prefix_append _ _, rfl, fun mem hmem =>
      hentries mem (List.mem_append_right _ hmem)⟩
  refine ⟨⟨?_, rfl, fun mem hmem => ?_⟩, ?_, fun mem hmem => ?_, h.filed, trivial,
    hgrows.compactorOk h.compactor⟩
  · show s.flushed ++ (s.current.frozenMemtables ++ [s.current.mutableMemtable]) ++ [s.nextMem] = _
    rw [← List.append_assoc, h.kept.memtables]
    rfl
  · rw [hentries mem (List.mem_append_left _ hmem)]
    exact h.kept.flushed mem hmem
  · refine List.nodup_append.mpr ⟨h.distinct, List.nodup_singleton _, fun mem hmem mem' hnew => ?_⟩
    rw [List.mem_singleton.mp hnew]
    exact Nat.ne_of_lt (h.allocated mem hmem)
  · rcases List.mem_append.mp hmem with hmem | hnew
    · exact Nat.lt_succ_of_lt (h.allocated mem hmem)
    · rw [List.mem_singleton.mp hnew]
      exact Nat.lt_succ_self _

theorem stepWriter {l : Label} (h : Inv s) (hok : Undisturbed s l)
    (hs : Structural.stepWriter s l = some s') : Inv s' := by
  cases l with
  | loadMemtable =>
      simp only [Structural.stepWriter] at hs
      split at hs <;> cases hs
      exact h.asideWriter (.refl s) rfl
  | insert e =>
      simp only [Structural.stepWriter] at hs
      split at hs <;> cases hs
      rename_i mem hphase
      have hwriter := h.writer
      rw [hphase] at hwriter
      rw [show mem = s.current.mutableMemtable from hwriter]
      exact h.insertEntry e
  | finishInsert =>
      simp only [Structural.stepWriter] at hs
      split at hs <;> cases hs
      exact h.asideWriter (.refl s) trivial
  | rotate =>
      simp only [Structural.stepWriter] at hs
      split at hs <;> cases hs
      exact h.asideWriter (.refl s) trivial
  | updateRotation io =>
      simp only [Structural.stepWriter] at hs
      split at hs
      · rename_i u hphase
        have hu := h.writer
        rw [hphase] at hu
        rcases hstep : stepUpdate rotateClosure io s u with ⟨p, t⟩
        obtain ⟨haside, hnext⟩ := stepUpdate_aside rotateClosure_aside hu hstep
        rw [hstep] at hs
        cases hs
        refine h.asideWriter haside ?_
        cases p with
        | goOn u' => exact hnext u' rfl
        | _ => trivial
      · cases hs
  | openWal io =>
      simp only [Structural.stepWriter] at hs
      split at hs
      · split at hs
        · cases hs
          exact h.asideWriter (.refl s) trivial
        · rename_i newWalId _
          have hopen := Aside.openOrCreate s (.wal newWalId) nofun
          split at hs <;> cases hs
          · exact h.asideWriter hopen trivial
          · exact h.asideWriter (.refl s) trivial
          · exact h.asideWriter hopen trivial
      · cases hs
  | loadVersion =>
      simp only [Structural.stepWriter] at hs
      split at hs <;> cases hs
      exact h.asideWriter (.refl s) trivial
  | storeVersion =>
      simp only [Structural.stepWriter] at hs
      split at hs <;> cases hs
      rename_i newWal v hphase
      rw [Undisturbed.writer hok hphase]
      exact h.storeRotation newWal
  | _ => cases hs

end Inv

/-! ## The steps of the compaction thread -/

section WriteTable

variable {id : UInt32} {file : File}

/-- Writing a table creates its name and changes its content. -/
theorem writeTable_spec (s : Sys) (id : UInt32) (file : File) : ∃ inode,
    (∀ name i, (name, i) ∈ (s.writeTable id file).dir.names ↔
      (name = .sst id ∧ i = inode) ∨ (name, i) ∈ s.dir.names) ∧
    (s.writeTable id file).content = Function.update s.content inode file ∧
    ((FileName.sst id, inode) ∈ s.dir.names ∨ inode = s.dir.next) ∧
    s.dir.next ≤ (s.writeTable id file).dir.next := by
  obtain ⟨hnames, hinode, _, hnext⟩ :=
    openOrCreate_spec (Prod.eta (s.dir.openOrCreate (.sst id))).symm
  exact ⟨_, hnames, rfl, hinode.imp And.left And.left, hnext⟩

/-- The tables with other ids stay filed. -/
theorem Sys.Filed.writeTable {t : Table} (ht : s.Filed t) (hne : t.meta'.fileId ≠ id) :
    (s.writeTable id file).Filed t := by
  obtain ⟨inode, hnames, hcontent, _⟩ := writeTable_spec s id file
  intro i hi
  have hold : (FileName.sst t.meta'.fileId, i) ∈ s.dir.names := by
    rcases (hnames _ _).mp hi with ⟨heq, _⟩ | hold
    · exact absurd (FileName.sst.inj heq) hne
    · exact hold
  have hother : i ≠ inode := by
    intro heq
    have hnew := (hnames (.sst id) inode).mpr (.inl ⟨rfl, rfl⟩)
    rw [heq] at hi
    exact hne (FileName.sst.inj ((s.writeTable id file).dir.name_unique hi hnew))
  rw [hcontent, Function.update_of_ne hother]
  exact ht i hold

/-- The table that is written is filed. -/
theorem filed_writeTable {t : Table} (hid : t.meta'.fileId = id) :
    (s.writeTable id (.table t.entries)).Filed t := by
  obtain ⟨inode, hnames, hcontent, _⟩ := writeTable_spec s id (.table t.entries)
  intro i hi
  rw [hid] at hi
  have hnew := (hnames (.sst id) inode).mpr (.inl ⟨rfl, rfl⟩)
  rw [(s.writeTable id _).dir.inode_unique hi hnew, hcontent, Function.update_self]

theorem Sys.NoTable.writeTable {i : Nat} (hi : s.NoTable i) : (s.writeTable id file).NoTable i := by
  obtain ⟨inode, hnames, _, hinode, hnext⟩ := writeTable_spec s id file
  refine ⟨Nat.lt_of_lt_of_le hi.1 hnext, fun id' hmem => ?_⟩
  rcases (hnames _ _).mp hmem with ⟨_, rfl⟩ | hold
  · rcases hinode with hold | rfl
    · exact hi.2 id hold
    · exact absurd hi.1 (Nat.lt_irrefl _)
  · exact hi.2 id' hold

end WriteTable

namespace Inv

/-- A table is written under an id that no table of the version has. -/
theorem writeTable (h : Inv s) {id : UInt32} {file : File} {p : Compactor}
    (hfresh : ∀ t ∈ tables s.current, t.meta'.fileId ≠ id)
    (hp : CompactorOk (s.writeTable id file) p) :
    Inv { s.writeTable id file with compactor := p } := by
  have hgrows : Grows (s.writeTable id file) { s.writeTable id file with compactor := p } :=
    ⟨.of_same rfl rfl, List.prefix_refl _, rfl, fun _ _ => rfl⟩
  exact ⟨⟨h.kept.memtables, h.kept.log, h.kept.flushed⟩, h.distinct, h.allocated,
    fun t ht => (h.filed t ht).writeTable (hfresh t ht),
    h.writer.congr rfl fun i (hi : s.NoTable i) => hgrows.frame.noTable hi.writeTable,
    hgrows.compactorOk hp⟩

/-- The inputs of a merge are in the pieces. -/
theorem merging_of_inputs (h : Inv s) {sel : Selection} {inputs : List (List Entry)}
    (hinputs : sel.all.mapM (fun f => s.readTable f.fileId) = some inputs) :
    CompactorOk s (.merging sel (cutOutputs c targetFileSize (mergeEntries inputs)) [] none) := by
  obtain ⟨hread, rfl⟩ := mapM_eq_some.mp hinputs
  refine ⟨fun t ht hid e he => .inr ?_, fun t ht => absurd ht List.not_mem_nil⟩
  obtain ⟨f, hf, hfid⟩ := List.mem_map.mp hid
  -- the file of the table holds its entries
  have hentries : s.readTable f.fileId = some t.entries := by
    have hsome := hread f hf
    unfold Sys.readTable at hsome ⊢
    cases hlookup : s.dir.lookup (.sst f.fileId) with
    | none =>
        rw [hlookup] at hsome
        cases hsome
    | some inode =>
        have hmem := lookup_eq_some.mp hlookup
        rw [hfid] at hmem
        rw [Option.map_some, h.filed t ht inode hmem]
  have hmem : e ∈ (sel.all.map fun f => (s.readTable f.fileId).getD []).flatten := by
    refine List.mem_flatten.mpr ⟨t.entries, List.mem_map.mpr ⟨f, hf, ?_⟩, he⟩
    rw [hentries, Option.getD_some]
  have hmerged : e ∈ (cutOutputs c targetFileSize (mergeEntries
      (sel.all.map fun f => (s.readTable f.fileId).getD []))).flatten := by
    rw [cutOutputs, Cut.flatten_cut]
    exact (List.mem_insertionSort _).mpr hmem
  exact List.mem_flatten.mp hmerged

/-- One more table is written. -/
theorem written (h : Inv s) {id : UInt32} {entries : List Entry}
    (hnext : s.nextTable = some (id, entries))
    (hfresh : ∀ t ∈ tables s.current ++ s.compactor.newTables, t.meta'.fileId ≠ id) :
    CompactorOk (s.writeTable id (.table entries))
      (s.compactor.written (writtenTable c id entries)) := by
  have hnew : (s.writeTable id (.table entries)).Filed (writtenTable c id entries) :=
    filed_writeTable (fileId_writtenTable id entries)
  have hall : ∀ written, s.compactor.newTables = written → (∀ t ∈ written, s.Filed t) →
      ∀ t ∈ written ++ [writtenTable c id entries], (s.writeTable id (.table entries)).Filed t := by
    intro written hwritten hfiled t ht
    rcases List.mem_append.mp ht with ht | ht
    · exact (hfiled t ht).writeTable (hfresh t (List.mem_append_right _ (hwritten ▸ ht)))
    · rw [List.mem_singleton.mp ht]
      exact hnew
  have hp := h.compactor
  unfold Sys.nextTable at hnext
  split at hnext
  · rename_i memtables startSstId walsToDelete written hphase
    rw [hphase] at hp hall ⊢
    obtain ⟨mem, hmem, heq⟩ := Option.map_eq_some_iff.mp hnext
    cases heq
    obtain ⟨hinitial, hentries, hfiled⟩ := hp
    refine ⟨hinitial, ?_, hall written rfl hfiled⟩
    rw [List.map_append, hentries, List.length_append, List.length_singleton, List.take_add_one,
      hmem, List.map_append]
    rfl
  · rename_i sel piece pieces written nextId hphase
    rw [hphase] at hp hall ⊢
    cases hnext
    obtain ⟨hinputs, hfiled⟩ := hp
    refine ⟨fun t ht hid e he => ?_, hall written rfl hfiled⟩
    rcases hinputs t ht hid e he with ⟨t', ht', he'⟩ | ⟨p, hp, he'⟩
    · exact .inl ⟨t', List.mem_append_left _ ht', he'⟩
    · rcases List.mem_cons.mp hp with rfl | hp
      · exact .inl ⟨_, List.mem_append_right _ (List.mem_singleton_self _), he'⟩
      · exact .inr ⟨p, hp, he'⟩
  · cases hnext

theorem reserve_aside (s : Sys) : Aside s s.reserve := .of_frame (.of_same rfl rfl)

theorem stepBuild {l : Label} (h : Inv s) (hok : Undisturbed s l)
    (hs : Structural.stepBuild c targetFileSize s l = some s') : Inv s' := by
  cases l with
  | flush =>
      simp only [Structural.stepBuild] at hs
      split at hs
      · split at hs
        · cases hs
        · split at hs <;> cases hs
          · exact h.asideCompactor (reserve_aside s)
              ((reserve_aside s).grows.compactorOk h.compactor)
          · exact h.asideCompactor (reserve_aside s)
              ⟨List.prefix_refl _, rfl, fun t ht => absurd ht List.not_mem_nil⟩
      · cases hs
  | compact k =>
      simp only [Structural.stepBuild] at hs
      split at hs
      · obtain ⟨sel, _, rfl⟩ := Option.map_eq_some_iff.mp hs
        exact h.asideCompactor (.refl s) trivial
      · cases hs
  | openInputs io =>
      simp only [Structural.stepBuild] at hs
      split at hs
      · split at hs <;> cases hs
        · exact h.asideCompactor (.refl s) trivial
        · rename_i hread
          split at hread
          · exact h.asideCompactor (.refl s) (h.merging_of_inputs hread)
          · cases hread
      · cases hs
  | reserve =>
      simp only [Structural.stepBuild] at hs
      split at hs <;> cases hs
      rename_i hphase
      have hp := h.compactor
      rw [hphase] at hp
      exact h.asideCompactor (reserve_aside s)
        ((reserve_aside s).grows.compactorOk (p := .merging _ _ _ _) hp)
  | writeTable io =>
      simp only [Structural.stepBuild] at hs
      split at hs
      · rename_i id entries hnext
        have hfresh := hok (id, entries) hnext
        have hfresh' := fun t ht => hfresh t (List.mem_append_left _ ht)
        split at hs <;> cases hs
        · exact h.writeTable hfresh' (h.written hnext hfresh)
        · exact h.asideCompactor (.refl s) trivial
        · exact h.writeTable hfresh' trivial
      · cases hs
  | openTables io =>
      simp only [Structural.stepBuild] at hs
      have hp := h.compactor
      split at hs
      · rename_i memtables startSstId walsToDelete written hphase
        rw [hphase] at hp
        split at hs
        · cases hs
        · rename_i hlength
          split at hs <;> cases hs
          · exact h.asideCompactor (.refl s) trivial
          · obtain ⟨hinitial, hentries, hfiled⟩ := hp
            rw [Decidable.not_not.mp hlength, List.take_length] at hentries
            exact h.asideCompactor (.refl s) ⟨⟨hinitial, hentries, hfiled⟩, trivial⟩
      · rename_i sel written hphase
        rw [hphase] at hp
        split at hs <;> cases hs
        · exact h.asideCompactor (.refl s) trivial
        · obtain ⟨hinputs, hfiled⟩ := hp
          refine h.asideCompactor (.refl s) ⟨⟨fun t ht hid e he => ?_, hfiled⟩, trivial⟩
          rcases hinputs t ht hid e he with hwritten | ⟨p, hp, _⟩
          · exact hwritten
          · exact absurd hp List.not_mem_nil
      · cases hs
  | _ => cases hs

/-- What a job takes out of the tables is in its own. -/
theorem stored_subset {job : Job} (hjob : JobOk s job) :
    stored s.current ⊆ stored (job.version s.current) := by
  intro e he
  obtain ⟨t, ht, he⟩ := List.mem_flatMap.mp he
  have hgone : t ∈ tables (job.version s.current) ∨ _ := Job.mem_tables_or_merged ht
  rcases hgone with hkept | ⟨sel, newFiles, rfl, hid⟩
  · exact List.mem_flatMap.mpr ⟨t, hkept, he⟩
  · obtain ⟨t', ht', he'⟩ := hjob.1 t ht hid e he
    exact List.mem_flatMap.mpr ⟨t', Job.mem_tables_version.1 ht', he'⟩

/-- The memtables that a job publishes are in its tables. -/
theorem memtables_stored {job : Job} (hjob : JobOk s job) {mem : Nat} (hmem : mem ∈ job.memtables) :
    s.frozenEntries mem ⊆ stored (job.version s.current) := by
  cases job with
  | flush memtables walsToDelete newSstables =>
      intro e he
      have hentries : s.frozenEntries mem ∈ newSstables.map Table.entries :=
        hjob.2.1 ▸ List.mem_map_of_mem hmem
      obtain ⟨t, ht, heq⟩ := List.mem_map.mp hentries
      have htable : t ∈ (Job.flush memtables walsToDelete newSstables).newTables := ht
      exact List.mem_flatMap.mpr ⟨t, Job.mem_tables_version.1 htable, heq ▸ he⟩
  | compact sel newFiles => cases hmem

/-- The frozen memtables that a job leaves are those behind the ones it publishes. -/
theorem frozen_version {job : Job} (hjob : JobOk s job) :
    job.memtables ++ (job.version s.current).frozenMemtables = s.current.frozenMemtables := by
  cases job with
  | flush memtables walsToDelete newSstables =>
      obtain ⟨hfirst, hentries, _⟩ := hjob
      refine Job.frozen_version hfirst fun _ _ _ hjob => ?_
      cases hjob
      simpa using congrArg List.length hentries
  | compact sel newFiles => rfl

/-- The version of a job is built from the current one and stored. -/
theorem storeJob (h : Inv s) {job : Job} (hjob : JobOk s job) : Inv (s.storeJob job s.current) := by
  have hsame : (job.version s.current).mutableMemtable = s.current.mutableMemtable ∧
      (job.version s.current).mutableWal = s.current.mutableWal := by
    cases job <;> exact ⟨rfl, rfl⟩
  refine ⟨⟨?_, hsame.2.trans h.kept.log, fun mem hmem => ?_⟩, h.distinct, h.allocated,
    fun t ht => ?_, h.writer.congr hsame.1 fun _ hi => hi, trivial⟩
  · show s.flushed ++ job.memtables ++ (job.version s.current).frozenMemtables ++
      [(job.version s.current).mutableMemtable] = s.used
    rw [List.append_assoc s.flushed, frozen_version hjob, hsame.1]
    exact h.kept.memtables
  · rcases List.mem_append.mp hmem with hmem | hmem
    · exact List.Subset.trans (h.kept.flushed mem hmem) (stored_subset hjob)
    · exact memtables_stored hjob hmem
  · have hfiled : ∀ t ∈ job.newTables, s.Filed t := by
      cases job with
      | flush => exact hjob.2.2
      | compact => exact hjob.2
    rcases Job.mem_tables_version.2 ht with hold | hnew
    · exact h.filed t hold
    · exact hfiled t hnew

theorem stepPublish {l : Label} (h : Inv s) (hok : Undisturbed s l)
    (hs : Structural.stepPublish s l = some s') : Inv s' := by
  have hp := h.compactor
  cases l with
  | updateJob io =>
      simp only [Structural.stepPublish] at hs
      split at hs
      · rename_i job u hphase
        rw [hphase] at hp
        rcases hstep : stepUpdate job.closure io s u with ⟨p, t⟩
        obtain ⟨haside, hnext⟩ := stepUpdate_aside Job.closure_aside hp.2 hstep
        have hjob := haside.grows.jobOk hp.1
        rw [hstep] at hs
        cases hs
        refine h.asideCompactor haside ?_
        cases p with
        | goOn u' => exact ⟨hjob, hnext u' rfl⟩
        | returned m => exact hjob
        | failed => trivial
      · cases hs
  | loadCurrent =>
      simp only [Structural.stepPublish] at hs
      split at hs <;> cases hs
      rename_i hphase
      rw [hphase] at hp
      exact h.asideCompactor (.refl s) hp
  | storeCurrent =>
      simp only [Structural.stepPublish] at hs
      split at hs <;> cases hs
      rename_i job v hphase
      rw [hphase] at hp
      rw [Undisturbed.compactor hok hphase]
      exact h.storeJob hp
  | _ => cases hs

theorem stepCollect {l : Label} (h : Inv s) (hs : Structural.stepCollect s l = some s') :
    Inv s' := by
  cases l with
  | snapshot =>
      simp only [Structural.stepCollect] at hs
      split at hs <;> cases hs
      exact h.asideCompactor (.refl s) trivial
  | list io =>
      simp only [Structural.stepCollect] at hs
      split at hs
      · split at hs <;> cases hs <;> exact h.asideCompactor (.refl s) trivial
      · cases hs
  | readManifest io =>
      simp only [Structural.stepCollect] at hs
      split at hs <;> cases hs <;> exact h.asideCompactor (.refl s) trivial
  | delete io =>
      simp only [Structural.stepCollect] at hs
      split at hs <;> cases hs
      · split
        · exact h.asideCompactor (.of_frame (.unlink s _)) trivial
        · exact h.asideCompactor (.refl s) trivial
      · exact h.asideCompactor (.refl s) trivial
  | _ => cases hs

/-- One undisturbed step keeps the invariant. -/
theorem step {l : Label} (h : Inv s) (hok : Undisturbed s l)
    (hs : Structural.step c targetFileSize s l = some s') : Inv s' := by
  rcases step_cases hs with hs | hs | hs | hs
  · exact h.stepWriter hok hs
  · exact h.stepBuild hok hs
  · exact h.stepPublish hok hs
  · exact h.stepCollect hs

theorem of_start (h : Start s) : Inv s := by
  obtain ⟨hwriter, hcompactor⟩ := h.idle
  obtain ⟨hflushed, hwal⟩ := h.recorded
  refine ⟨⟨?_, hwal.symm, fun mem hmem => ?_⟩, h.distinct, h.allocated, h.filed, ?_, ?_⟩
  · rw [hflushed, List.nil_append, h.memtables]
  · rw [hflushed] at hmem
    exact absurd hmem List.not_mem_nil
  · rw [hwriter]
    trivial
  · rw [hcompactor]
    trivial

/-- The memtables of the current version were put in place. -/
theorem mem_used (h : Inv s) {mem : Nat}
    (hmem : mem ∈ s.current.frozenMemtables ++ [s.current.mutableMemtable]) : mem ∈ s.used := by
  rw [← h.kept.memtables, List.append_assoc]
  exact List.mem_append_right _ hmem

/-- The version that is stored next has everything that the one before it had. -/
theorem contents_subset {l : Label} (h : Inv s) (hl : l = .storeVersion ∨ l = .storeCurrent)
    (hok : Undisturbed s l) (hs : Structural.step c targetFileSize s l = some s') :
    s.contents s.current ⊆ s'.contents s'.current := by
  intro e he
  rcases hl with rfl | rfl
  · simp only [Structural.step, Structural.stepWriter] at hs
    split at hs <;> cases hs
    rename_i newWal v hphase
    rw [Undisturbed.writer hok hphase]
    rcases Sys.mem_contents.mp he with ⟨mem, hmem, he⟩ | he
    · refine Sys.mem_contents.mpr (.inl ⟨mem, List.mem_append_left _ hmem, ?_⟩)
      have hold := Nat.ne_of_lt (h.allocated mem (h.mem_used hmem))
      rwa [frozenEntries_congr (Function.update_of_ne hold _ _)]
    · exact Sys.mem_contents.mpr (.inr he)
  · simp only [Structural.step, Structural.stepPublish] at hs
    split at hs <;> cases hs
    rename_i job v hphase
    have hjob := h.compactor
    rw [hphase] at hjob
    rw [Undisturbed.compactor hok hphase]
    have hmutable : (job.version s.current).mutableMemtable = s.current.mutableMemtable := by
      cases job <;> rfl
    rcases Sys.mem_contents.mp he with ⟨mem, hmem, he⟩ | he
    · rw [← frozen_version hjob, List.append_assoc, List.mem_append] at hmem
      rcases hmem with hflushed | hleft
      · exact Sys.mem_contents.mpr (.inr (memtables_stored hjob hflushed he))
      · rw [← hmutable] at hleft
        exact Sys.mem_contents.mpr (.inl ⟨mem, hleft, he⟩)
    · exact Sys.mem_contents.mpr (.inr (stored_subset hjob he))

end Inv

/-- In every run of the two threads in which each version is stored while the one it was built from
is current, and each table is written under an id of its own, nothing that was put in place is lost,
and every version has everything that the one before it had. -/
theorem no_update_lost (c : Crates) (targetFileSize : UInt64) {s : Sys}
    (h : Reach (step c targetFileSize) Start Undisturbed s) : NothingLost s ∧
    ∀ l s', l = .storeVersion ∨ l = .storeCurrent → Undisturbed s l →
      step c targetFileSize s l = some s' → s.contents s.current ⊆ s'.contents s'.current := by
  have hinv := h.invariant (P := Inv) (fun _ => Inv.of_start) fun _ _ _ hinv hok hs =>
    hinv.step hok hs
  exact ⟨hinv.kept, fun l s' hl hok hs => hinv.contents_subset hl hok hs⟩

/-- An entry is inserted and the memtable rotated. -/
def rotateOnce : List Label :=
  [.loadMemtable, .insert (Key.new [97] 1, .bytes [1]), .finishInsert, .rotate, .updateRotation .ok,
    .updateRotation .ok, .updateRotation .ok, .updateRotation .ok, .updateRotation .ok,
    .openWal .ok,
    .loadVersion, .storeVersion]

/-- The memtable is flushed and published, while the next rotation begins. -/
def flushOnce : List Label :=
  [.flush, .writeTable .ok, .openTables .ok, .updateJob .ok, .rotate, .updateJob .ok,
  .updateJob .ok,
    .updateJob .ok, .updateJob .ok, .updateRotation .ok, .loadCurrent, .storeCurrent]

theorem no_update_lost_flushed : ∃ s, Reach (step crates 0) Start Undisturbed s ∧
    s.flushed = [0] ∧ (Key.new [97] 1, .bytes [1]) ∈ stored s.current := by
  have hrun :
    (run (fun s l => if decide (Undisturbed s l) then step crates 0 s l else none) pristine
      (rotateOnce ++ flushOnce)).map (fun s => (s.flushed, s.frozenEntries 0)) =
        some ([0], [(Key.new [97] 1, .bytes [1])]) := by
    decide +kernel
  obtain ⟨s, hreach, hend⟩ := reached_of_run Undisturbed start_pristine _ _ hrun
  obtain ⟨hflushed, hentries⟩ := Prod.mk.inj hend
  have hmem : 0 ∈ s.flushed := by
    rw [hflushed]
    exact List.mem_singleton_self 0
  refine ⟨s, hreach, hflushed, ?_⟩
  exact (no_update_lost crates 0 hreach).1.flushed 0 hmem (hentries ▸ List.mem_singleton_self _)

end EasyLsm.Structural
