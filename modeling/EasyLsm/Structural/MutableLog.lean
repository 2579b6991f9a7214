import Mathlib.Data.List.Basic
import EasyLsm.Structural.Collector
import EasyLsm.Structural.Overlap

/-!
# The log of the mutable memtable

A flush takes as many logs off the front of the manifest as it flushes memtables, and does so before
it publishes the version without them. `mutable_log_kept`: when the versions are stored in order and
no listed file is deleted, the log of the current version stays listed behind those of the frozen
memtables, and the file it was opened on stays in the directory. `needed_files_kept` says of both
what the collector may delete.
-/

namespace EasyLsm.Structural

open Lib Lib.FileStore Db

variable {c : Crates} {targetFileSize : UInt64} {s s' : Sys}

/-! ## A log behind others -/

/-- A log is listed behind at least `n` others. -/
def Behind (wals : List UInt32) (id : UInt32) (n : Nat) : Prop :=
  ∃ before behind, wals = before ++ id :: behind ∧ n ≤ before.length

namespace Behind

variable {wals : List UInt32} {id : UInt32} {n k : Nat}

theorem mem (h : Behind wals id n) : id ∈ wals := by
  obtain ⟨before, behind, rfl, _⟩ := h
  exact List.mem_append_right _ List.mem_cons_self

theorem length_lt (h : Behind wals id n) : n < wals.length := by
  obtain ⟨before, behind, rfl, hn⟩ := h
  rw [List.length_append, List.length_cons]
  omega

theorem mono (h : Behind wals id n) (hk : k ≤ n) : Behind wals id k := by
  obtain ⟨before, behind, hwals, hn⟩ := h
  exact ⟨before, behind, hwals, Nat.le_trans hk hn⟩

theorem append (h : Behind wals id n) (more : List UInt32) : Behind (wals ++ more) id n := by
  obtain ⟨before, behind, rfl, hn⟩ := h
  exact ⟨before, behind ++ more, List.append_assoc _ _ _, hn⟩

theorem last (h : n ≤ wals.length) : Behind (wals ++ [id]) id n := ⟨wals, [], rfl, h⟩

/-- Logs are taken off the front. -/
theorem drop (h : Behind wals id n) (hk : k ≤ n) : Behind (wals.drop k) id (n - k) := by
  obtain ⟨before, behind, rfl, hn⟩ := h
  refine ⟨before.drop k, behind, List.drop_append_of_le_length (Nat.le_trans hk hn), ?_⟩
  rw [List.length_drop]
  omega

end Behind

/-! ## The invariant -/

/-- How many memtables are still frozen though the manifest no longer lists their logs. -/
def Compactor.pending : Compactor → Nat
  | .committed job | .loaded job _ => job.memtables.length
  | _ => 0

/-- How many frozen memtables have a log in the manifest. -/
def Sys.logged (s : Sys) : Nat := s.current.frozenMemtables.length - s.compactor.pending

/-- The file of a log is the one that was opened. -/
def Sys.Linked (s : Sys) (wal : Log) : Prop := (FileName.wal wal.id, wal.inode) ∈ s.dir.names

/-- The log of a rotation is behind those of the memtables that will be frozen. -/
def WriterLog (s : Sys) : Writer → Prop
  | .committed m => ∀ id, m.wals.getLast? = some id → Behind s.manifest.wals id (s.logged + 1)
  | .opened newWal | .loaded newWal _ =>
      Behind s.manifest.wals newWal.id (s.logged + 1) ∧ s.Linked newWal
  | _ => True

/-- A flush publishes the first frozen memtables, one table for each of them, and deletes as many
logs. -/
def JobLogs (s : Sys) : Job → Prop
  | .flush memtables walsToDelete newSstables => memtables <+: s.current.frozenMemtables ∧
      newSstables.length = memtables.length ∧ walsToDelete.length = memtables.length
  | .compact _ _ => True

/-- What the compaction thread is at flushes the first frozen memtables. -/
def CompactorLogs (s : Sys) : Compactor → Prop
  | .flushing memtables _ walsToDelete _ => memtables <+: s.current.frozenMemtables ∧
      walsToDelete.length = memtables.length
  | .updating job _ | .committed job | .loaded job _ => JobLogs s job
  | _ => True

/-- The invariant. -/
structure LogInv (s : Sys) : Prop where
  mutable : Behind s.manifest.wals s.current.mutableWal.id s.logged
  linked : s.Linked s.current.mutableWal
  writer : WriterLog s s.writer
  compactor : CompactorLogs s s.compactor

namespace JobLogs

variable {job : Job}

theorem frozen_version (h : JobLogs s job) :
    job.memtables ++ (job.version s.current).frozenMemtables = s.current.frozenMemtables := by
  refine Job.frozen_version ?_ fun memtables walsToDelete newSstables hjob => ?_
  · cases job with
    | flush => exact h.1
    | compact => exact List.nil_prefix
  · subst hjob
    exact h.2.1

theorem walsToDelete_length (h : JobLogs s job) :
    job.walsToDelete.length = job.memtables.length := by
  cases job with
  | flush => exact h.2.2
  | compact => rfl

/-- More memtables are frozen. -/
theorem mono (h : JobLogs s job)
    (hfrozen : s.current.frozenMemtables <+: s'.current.frozenMemtables) : JobLogs s' job := by
  cases job with
  | flush => exact ⟨h.1.trans hfrozen, h.2⟩
  | compact => trivial

end JobLogs

theorem CompactorLogs.mono {p : Compactor} (h : CompactorLogs s p)
    (hfrozen : s.current.frozenMemtables <+: s'.current.frozenMemtables) : CompactorLogs s' p := by
  cases p with
  | flushing => exact ⟨h.1.trans hfrozen, h.2⟩
  | updating | committed | loaded => exact JobLogs.mono h hfrozen
  | _ => trivial

/-! ## What a step of `apply_atomic_update` does -/

/-- A step of `apply_atomic_update` goes on or fails, or commits its candidate. -/
theorem stepUpdate_spec {closure : Closure} {io : Io} {u : Update} {p : Progress}
    (hclosure : ∀ {m io s r s'}, closure m io s = (r, s') →
      Keeps s s' ∧ ∃ dir, s' = { s with dir })
    (h : stepUpdate closure io s u = (p, s')) :
    (Keeps s s' ∧ (∃ dir content, s' = { s with dir, content }) ∧ ∀ m, p ≠ .returned m) ∨
      ∃ n m candidate dir, u = .written n m candidate ∧ s.manifest.version = m.version ∧
        s.dir.rename (.mfTmp candidate.version) (.mf candidate.version) = some dir ∧
        p = .returned candidate ∧ s' = { s with dir, manifest := candidate } := by
  have hsame : ∃ dir content, s = { s with dir, content } := ⟨s.dir, s.content, rfl⟩
  cases u with
  | looping n =>
      simp only [stepUpdate] at h
      split at h <;> cases h <;> exact .inl ⟨.of_dir rfl, hsame, fun _ hp => by cases hp⟩
  | snapped n m =>
      simp only [stepUpdate] at h
      split at h
      · rename_i hrun
        obtain ⟨hkeeps, dir, rfl⟩ := hclosure hrun
        cases h
        exact .inl ⟨hkeeps, ⟨dir, s.content, rfl⟩, fun _ hp => by cases hp⟩
      · rename_i hrun
        obtain ⟨hkeeps, dir, rfl⟩ := hclosure hrun
        cases h
        exact .inl ⟨hkeeps, ⟨dir, s.content, rfl⟩, fun _ hp => by cases hp⟩
  | mutated n m candidate =>
      have hopen := Keeps.openOrCreate s (.mfTmp candidate.version) rfl
      simp only [stepUpdate] at h
      split at h <;> cases h
      · exact .inl ⟨.of_dir rfl, hsame, fun _ hp => by cases hp⟩
      · exact .inl ⟨hopen.trans (.of_dir rfl), ⟨_, _, rfl⟩, fun _ hp => by cases hp⟩
  | created n m candidate inode =>
      cases io <;> cases h <;> exact .inl ⟨.of_dir rfl, ⟨_, _, rfl⟩, fun _ hp => by cases hp⟩
  | written n m candidate =>
      have hcleaned := Keeps.cleaned s candidate.version io
      have hdir : ∃ dir content, (if io = .failedLate then s
          else { s with dir := s.dir.unlink (.mfTmp candidate.version) }) =
            { s with dir, content } := by
        split
        · exact hsame
        · exact ⟨_, _, rfl⟩
      simp only [stepUpdate, Sys.commit] at h
      split at h
      · cases h
        exact .inl ⟨hcleaned, hdir, fun _ hp => by cases hp⟩
      · rename_i hversion
        split at h <;> cases h
        · exact .inl ⟨hcleaned, hdir, fun _ hp => by cases hp⟩
        · rename_i dir hrename
          split at hrename
          · exact .inr ⟨n, m, candidate, dir, rfl, Decidable.not_not.mp hversion, hrename, rfl, rfl⟩
          · cases hrename

theorem rotateClosure_keeps {m : Manifest} {io : Io} {r : Except DbError Manifest}
    (h : rotateClosure m io s = (r, s')) : Keeps s s' ∧ ∃ dir, s' = { s with dir } := by
  have hopen := Keeps.openOrCreate s (.wal m.nextWalId) rfl
  unfold rotateClosure at h
  split at h <;> cases h
  · exact ⟨hopen, _, rfl⟩
  · exact ⟨.of_dir rfl, s.dir, rfl⟩
  · exact ⟨hopen, _, rfl⟩

theorem Job.closure_keeps {job : Job} {m : Manifest} {io : Io} {r : Except DbError Manifest}
    (h : job.closure m io s = (r, s')) : Keeps s s' ∧ ∃ dir, s' = { s with dir } := by
  cases h
  exact ⟨.of_dir rfl, s.dir, rfl⟩

/-- A commit renames a manifest, and no log. -/
theorem linked_of_rename {version : UInt32} {dir : Dir}
    (h : s.dir.rename (.mfTmp version) (.mf version) = some dir) {wal : Log}
    (hlinked : s.Linked wal) : (FileName.wal wal.id, wal.inode) ∈ dir.names := by
  obtain ⟨i, _, _, _, hnames⟩ := rename_spec h
  exact (hnames _ _).mpr (.inr ⟨hlinked, nofun, nofun⟩)

namespace LogInv

/-! ## Steps that leave the listed logs and the version alone -/

/-- The logs that are listed stay where they are, and so does the version. -/
structure Stays (s s' : Sys) : Prop where
  wals : s'.manifest.wals = s.manifest.wals
  current : s'.current = s.current
  pending : s'.compactor.pending = s.compactor.pending
  names : ∀ id ∈ s.manifest.wals, ∀ i, (FileName.wal id, i) ∈ s.dir.names →
    (FileName.wal id, i) ∈ s'.dir.names

theorem Stays.logged (h : Stays s s') : s'.logged = s.logged := by
  rw [Sys.logged, Sys.logged, h.current, h.pending]

theorem Stays.writerLog (h : Stays s s') {w : Writer} (hw : WriterLog s w) : WriterLog s' w := by
  cases w with
  | committed m =>
      intro id hid
      rw [h.wals, h.logged]
      exact hw id hid
  | opened newWal =>
      obtain ⟨hbehind, hlinked⟩ := hw
      refine ⟨?_, h.names _ hbehind.mem _ hlinked⟩
      rw [h.wals, h.logged]
      exact hbehind
  | loaded newWal v =>
      obtain ⟨hbehind, hlinked⟩ := hw
      refine ⟨?_, h.names _ hbehind.mem _ hlinked⟩
      rw [h.wals, h.logged]
      exact hbehind
  | _ => trivial

theorem Stays.compactorLogs (h : Stays s s') {p : Compactor} (hp : CompactorLogs s p) :
    CompactorLogs s' p := hp.mono (h.current ▸ List.prefix_refl _)

theorem goesOn (h : LogInv s) (hstays : Stays s s') (hw : WriterLog s' s'.writer)
    (hp : CompactorLogs s' s'.compactor) : LogInv s' := by
  refine ⟨?_, ?_, hw, hp⟩
  · rw [hstays.wals, hstays.current, hstays.logged]
    exact h.mutable
  · rw [hstays.current]
    exact hstays.names _ h.mutable.mem _ h.linked

/-- The writer goes on. -/
theorem writerGoesOn (h : LogInv s) (hstays : Stays s s') (hcompactor : s'.compactor = s.compactor)
    (hw : WriterLog s' s'.writer) : LogInv s' :=
  h.goesOn hstays hw (hcompactor ▸ hstays.compactorLogs h.compactor)

/-- The compaction thread goes on. -/
theorem compactorGoesOn (h : LogInv s) (hstays : Stays s s') (hwriter : s'.writer = s.writer)
    (hp : CompactorLogs s s'.compactor) : LogInv s' :=
  h.goesOn hstays (hwriter ▸ hstays.writerLog h.writer) (hstays.compactorLogs hp)

theorem Stays.of_keeps (hkeeps : Keeps s s') (hwals : s'.manifest.wals = s.manifest.wals)
    (hcurrent : s'.current = s.current) (hpending : s'.compactor.pending = s.compactor.pending) :
    Stays s s' :=
  ⟨hwals, hcurrent, hpending, fun _ _ _ hi => hkeeps.names rfl hi⟩

/-- The compaction thread goes on, and nothing else changes. -/
theorem compactorMoves (h : LogInv s) {p : Compactor} (hpending : p.pending = s.compactor.pending)
    (hp : CompactorLogs s p) : LogInv { s with compactor := p } :=
  h.compactorGoesOn (.of_keeps (.of_dir rfl) rfl rfl hpending) rfl hp

/-! ## The steps of the writer -/

/-- The commit of a rotation lists its log behind all others. -/
theorem commitRotation (h : LogInv s) (hfiles : FilesInv s) {n : Nat} {m candidate : Manifest}
    {dir : Dir} (hphase : s.writer = .updating (.written n m candidate))
    (hsame : s.manifest.version = m.version)
    (hrename : s.dir.rename (.mfTmp candidate.version) (.mf candidate.version) = some dir) :
    LogInv { s with dir, manifest := candidate, writer := .committed candidate } := by
  have hw := hfiles.writer
  rw [hphase] at hw
  obtain ⟨hwals, _⟩ := (hw.1 m rfl).same hsame.symm
  have hlisted : candidate.wals = s.manifest.wals ++ [m.nextWalId] := by
    rw [(hw.2 m candidate rfl).1, ← hwals]
    rfl
  refine ⟨?_, linked_of_rename hrename h.linked, fun id hid => ?_, h.compactor⟩
  · show Behind candidate.wals _ _
    rw [hlisted]
    exact h.mutable.append _
  · show Behind candidate.wals id _
    rw [hlisted, List.getLast?_concat] at hid
    rw [hlisted, ← Option.some.inj hid]
    exact .last h.mutable.length_lt

/-- The log of a rotation becomes the mutable one. -/
theorem storeRotation (h : LogInv s) {newWal : Log} {v : Version}
    (hphase : s.writer = .loaded newWal v) : LogInv (s.storeRotation newWal s.current) := by
  have hw := h.writer
  rw [hphase] at hw
  obtain ⟨hbehind, hlinked⟩ := hw
  refine ⟨hbehind.mono ?_, hlinked, trivial, h.compactor.mono (List.prefix_append _ _)⟩
  show (s.current.frozenMemtables ++ [s.current.mutableMemtable]).length - s.compactor.pending ≤
    s.current.frozenMemtables.length - s.compactor.pending + 1
  rw [List.length_append, List.length_singleton]
  omega

theorem stepWriter {l : Label} (h : LogInv s) (hfiles : FilesInv s) (hok : StoredInOrder s l)
    (hs : Structural.stepWriter s l = some s') : LogInv s' := by
  have hw := h.writer
  cases l with
  | loadMemtable =>
      simp only [Structural.stepWriter] at hs
      split at hs <;> cases hs
      exact h.writerGoesOn (.of_keeps (.of_dir rfl) rfl rfl rfl) rfl trivial
  | insert e =>
      simp only [Structural.stepWriter] at hs
      split at hs <;> cases hs
      rename_i hphase
      refine h.writerGoesOn (.of_keeps (.of_dir rfl) rfl rfl rfl) rfl ?_
      show WriterLog _ s.writer
      rw [hphase]
      trivial
  | finishInsert =>
      simp only [Structural.stepWriter] at hs
      split at hs <;> cases hs
      exact h.writerGoesOn (.of_keeps (.of_dir rfl) rfl rfl rfl) rfl trivial
  | rotate =>
      simp only [Structural.stepWriter] at hs
      split at hs <;> cases hs
      exact h.writerGoesOn (.of_keeps (.of_dir rfl) rfl rfl rfl) rfl trivial
  | updateRotation io =>
      simp only [Structural.stepWriter] at hs
      split at hs
      · rename_i u hphase
        rcases hrun : stepUpdate rotateClosure io s u with ⟨p, t⟩
        rw [hrun] at hs
        cases hs
        rcases stepUpdate_spec rotateClosure_keeps hrun with
          ⟨hkeeps, ⟨dir, content, rfl⟩, hp⟩ | ⟨n, m, candidate, dir, rfl, hsame, hrename, rfl, rfl⟩
        · refine h.writerGoesOn (.of_keeps (hkeeps.trans (.of_dir rfl)) rfl rfl rfl) rfl ?_
          cases p with
          | returned m => exact absurd rfl (hp m)
          | _ => trivial
        · exact h.commitRotation hfiles hphase hsame hrename
      · cases hs
  | openWal io =>
      simp only [Structural.stepWriter] at hs
      split at hs
      · rename_i m hphase
        rw [hphase] at hw
        split at hs
        · cases hs
          exact h.writerGoesOn (.of_keeps (.of_dir rfl) rfl rfl rfl) rfl trivial
        · rename_i newWalId hlast
          have hopen := Keeps.openOrCreate s (.wal newWalId) rfl
          cases io with
          | ok =>
              cases hs
              exact h.writerGoesOn (.of_keeps (hopen.trans (.of_dir rfl)) rfl rfl rfl) rfl
                ⟨hw newWalId hlast, mem_openOrCreate s _⟩
          | failed =>
              cases hs
              exact h.writerGoesOn (.of_keeps (.of_dir rfl) rfl rfl rfl) rfl trivial
          | failedLate =>
              cases hs
              exact h.writerGoesOn (.of_keeps (hopen.trans (.of_dir rfl)) rfl rfl rfl) rfl trivial
      · cases hs
  | loadVersion =>
      simp only [Structural.stepWriter] at hs
      split at hs <;> cases hs
      rename_i newWal hphase
      rw [hphase] at hw
      exact h.writerGoesOn (.of_keeps (.of_dir rfl) rfl rfl rfl) rfl hw
  | storeVersion =>
      simp only [Structural.stepWriter] at hs
      split at hs <;> cases hs
      rename_i newWal v hphase
      rw [StoredInOrder.writer hok hphase]
      exact h.storeRotation hphase
  | _ => cases hs

/-! ## The steps of the compaction thread -/

theorem stepBuild {l : Label} (h : LogInv s)
    (hs : Structural.stepBuild c targetFileSize s l = some s') : LogInv s' := by
  have hp := h.compactor
  cases l with
  | flush =>
      simp only [Structural.stepBuild] at hs
      split at hs
      · rename_i hphase
        rw [hphase] at hp
        split at hs
        · cases hs
        · split at hs <;> cases hs
          · exact h.compactorGoesOn (.of_keeps (.of_dir rfl) rfl rfl rfl) rfl h.compactor
          · rename_i hlength
            have hcount := Decidable.not_not.mp hlength
            exact h.compactorGoesOn (.of_keeps (.of_dir rfl) rfl rfl (by rw [hphase]; rfl)) rfl
              ⟨List.prefix_refl _, hcount⟩
      · cases hs
  | compact k =>
      simp only [Structural.stepBuild] at hs
      split at hs
      · rename_i hphase
        obtain ⟨sel, _, rfl⟩ := Option.map_eq_some_iff.mp hs
        exact h.compactorMoves (by rw [hphase]; rfl) trivial
      · cases hs
  | openInputs io =>
      simp only [Structural.stepBuild] at hs
      split at hs
      · rename_i hphase
        split at hs <;> cases hs
        · exact h.compactorMoves (by rw [hphase]; rfl) trivial
        · exact h.compactorMoves (by rw [hphase]; rfl) trivial
      · cases hs
  | reserve =>
      simp only [Structural.stepBuild] at hs
      split at hs <;> cases hs
      rename_i hphase
      exact h.compactorGoesOn (.of_keeps (.of_dir rfl) rfl rfl (by rw [hphase]; rfl)) rfl trivial
  | writeTable io =>
      simp only [Structural.stepBuild] at hs
      split at hs
      · rename_i id entries hnext
        have hopen := Keeps.openOrCreate s (.sst id) rfl
        have hphase : s.compactor.pending = 0 ∧
            ∀ t, (s.compactor.written t).pending = 0 ∧ CompactorLogs s (s.compactor.written t) := by
          unfold Sys.nextTable at hnext
          split at hnext
          · rename_i hphase
            rw [hphase] at hp ⊢
            exact ⟨rfl, fun t => ⟨rfl, hp⟩⟩
          · rename_i hphase
            rw [hphase]
            exact ⟨rfl, fun t => ⟨rfl, trivial⟩⟩
          · cases hnext
        obtain ⟨hpending, hwritten⟩ := hphase
        split at hs <;> cases hs
        · exact h.compactorGoesOn (.of_keeps (hopen.trans (.of_dir rfl)) rfl rfl
            ((hwritten _).1.trans hpending.symm)) rfl (hwritten _).2
        · exact h.compactorMoves hpending.symm trivial
        · exact h.compactorGoesOn (.of_keeps (hopen.trans (.of_dir rfl)) rfl rfl hpending.symm) rfl
            trivial
      · cases hs
  | openTables io =>
      simp only [Structural.stepBuild] at hs
      split at hs
      · rename_i memtables startSstId walsToDelete written hphase
        rw [hphase] at hp
        split at hs
        · cases hs
        · rename_i hwritten
          split at hs <;> cases hs
          · exact h.compactorMoves (by rw [hphase]; rfl) trivial
          · exact h.compactorMoves (by rw [hphase]; rfl)
              ⟨hp.1, Decidable.not_not.mp hwritten, hp.2⟩
      · rename_i sel written hphase
        split at hs <;> cases hs
        · exact h.compactorMoves (by rw [hphase]; rfl) trivial
        · exact h.compactorMoves (by rw [hphase]; rfl) trivial
      · cases hs
  | _ => cases hs

/-- The commit of a job takes off as many logs as the memtables that it publishes. -/
theorem commitJob (h : LogInv s) (hfiles : FilesInv s) {job : Job} {n : Nat}
    {m candidate : Manifest} {dir : Dir}
    (hphase : s.compactor = .updating job (.written n m candidate))
    (hsame : s.manifest.version = m.version)
    (hrename : s.dir.rename (.mfTmp candidate.version) (.mf candidate.version) = some dir) :
    LogInv { s with dir, manifest := candidate, compactor := .committed job } := by
  have hp := hfiles.compactor
  have hjob := h.compactor
  rw [hphase] at hp hjob
  obtain ⟨_, hsnapshot, hattempt⟩ := hp
  obtain ⟨hwals, _⟩ := (hsnapshot m rfl).same hsame.symm
  obtain ⟨m', hm', hcandidate⟩ := hattempt m candidate rfl
  have hdropped : candidate.wals = s.manifest.wals.drop job.memtables.length := by
    have hlogs : candidate.wals = m.wals.drop job.walsToDelete.length := by
      rw [hcandidate]
      exact (Job.mutator_spec hm').2.1
    rw [hlogs, hwals, JobLogs.walsToDelete_length hjob]
  have hbefore : s.logged = s.current.frozenMemtables.length := by
    rw [Sys.logged, hphase]
    rfl
  have hle : job.memtables.length ≤ s.logged := by
    rw [hbefore, ← JobLogs.frozen_version hjob, List.length_append]
    omega
  -- the log of the mutable memtable, or of a rotation, moves forward with the others
  have hdrop : ∀ {id k}, k ≤ 1 → Behind s.manifest.wals id (s.logged + k) →
      Behind candidate.wals id (s.current.frozenMemtables.length - job.memtables.length + k) := by
    intro id k hk hbehind
    rw [hdropped]
    refine (hbehind.drop (Nat.le_trans hle (Nat.le_add_right _ _))).mono ?_
    rw [hbefore] at hle ⊢
    omega
  refine ⟨hdrop (k := 0) (Nat.zero_le 1) h.mutable, linked_of_rename hrename h.linked, ?_, hjob⟩
  have hw := h.writer
  show WriterLog _ s.writer
  cases hwriter : s.writer with
  | committed m =>
      rw [hwriter] at hw
      exact fun id hid => hdrop (Nat.le_refl 1) (hw id hid)
  | opened newWal =>
      rw [hwriter] at hw
      exact ⟨hdrop (Nat.le_refl 1) hw.1, linked_of_rename hrename hw.2⟩
  | loaded newWal v =>
      rw [hwriter] at hw
      exact ⟨hdrop (Nat.le_refl 1) hw.1, linked_of_rename hrename hw.2⟩
  | _ => trivial

/-- The version of a job has as many memtables less as the manifest has logs. -/
theorem storeJob (h : LogInv s) {job : Job} {v : Version}
    (hphase : s.compactor = .loaded job v) : LogInv (s.storeJob job s.current) := by
  have hjob := h.compactor
  rw [hphase] at hjob
  have hlogged : (s.storeJob job s.current).logged = s.logged := by
    show (job.version s.current).frozenMemtables.length - 0 = _
    rw [Sys.logged, hphase, ← JobLogs.frozen_version hjob, List.length_append]
    show _ = _ - job.memtables.length
    omega
  have hwal : (job.version s.current).mutableWal = s.current.mutableWal := by
    cases job <;> rfl
  refine ⟨?_, ?_, ?_, trivial⟩
  · rw [hlogged]
    exact hwal ▸ h.mutable
  · exact hwal ▸ h.linked
  · have hw := h.writer
    show WriterLog _ s.writer
    cases hwriter : s.writer with
    | committed m =>
        rw [hwriter] at hw
        intro id hid
        rw [hlogged]
        exact hw id hid
    | opened newWal =>
        rw [hwriter] at hw
        exact ⟨hlogged ▸ hw.1, hw.2⟩
    | loaded newWal v =>
        rw [hwriter] at hw
        exact ⟨hlogged ▸ hw.1, hw.2⟩
    | _ => trivial

theorem stepPublish {l : Label} (h : LogInv s) (hfiles : FilesInv s)
    (hok : StoredInOrder s l) (hs : Structural.stepPublish s l = some s') : LogInv s' := by
  have hp := h.compactor
  cases l with
  | updateJob io =>
      simp only [Structural.stepPublish] at hs
      split at hs
      · rename_i job u hphase
        rw [hphase] at hp
        rcases hrun : stepUpdate job.closure io s u with ⟨p, t⟩
        rw [hrun] at hs
        cases hs
        rcases stepUpdate_spec Job.closure_keeps hrun with
          ⟨hkeeps, ⟨dir, content, rfl⟩, hreturned⟩ |
          ⟨n, m, candidate, dir, rfl, hsame, hrename, rfl, rfl⟩
        · have hgoes : (p.compactor job).pending = 0 ∧ CompactorLogs s (p.compactor job) := by
            cases p with
            | goOn u' => exact ⟨rfl, hp⟩
            | returned m => exact absurd rfl (hreturned m)
            | failed => exact ⟨rfl, trivial⟩
          exact h.compactorGoesOn (.of_keeps (hkeeps.trans (.of_dir rfl)) rfl rfl
            (by rw [hphase]; exact hgoes.1)) rfl hgoes.2
        · exact h.commitJob hfiles hphase hsame hrename
      · cases hs
  | loadCurrent =>
      simp only [Structural.stepPublish] at hs
      split at hs <;> cases hs
      rename_i hphase
      rw [hphase] at hp
      exact h.compactorMoves (by rw [hphase]; rfl) hp
  | storeCurrent =>
      simp only [Structural.stepPublish] at hs
      split at hs <;> cases hs
      rename_i job v hphase
      rw [StoredInOrder.compactor hok hphase]
      exact h.storeJob hphase
  | _ => cases hs

theorem stepCollect {l : Label} (h : LogInv s) (hfiles : FilesInv s)
    (hs : Structural.stepCollect s l = some s') : LogInv s' := by
  cases l with
  | snapshot =>
      simp only [Structural.stepCollect] at hs
      split at hs <;> cases hs
      rename_i hphase
      exact h.compactorMoves (by rw [hphase]; rfl) trivial
  | list io =>
      simp only [Structural.stepCollect] at hs
      split at hs
      · rename_i hphase
        split at hs <;> cases hs
        · exact h.compactorMoves (by rw [hphase]; rfl) trivial
        · exact h.compactorMoves (by rw [hphase]; rfl) trivial
      · cases hs
  | readManifest io =>
      simp only [Structural.stepCollect] at hs
      split at hs <;> cases hs
      · rename_i hphase
        exact h.compactorMoves (by rw [hphase]; rfl) trivial
      · rename_i hphase
        exact h.compactorMoves (by rw [hphase]; rfl) trivial
  | delete io =>
      simp only [Structural.stepCollect] at hs
      have hfiles := hfiles.compactor
      split at hs <;> cases hs
      · rename_i name names hphase
        rw [hphase] at hfiles
        refine h.compactorGoesOn ⟨rfl, rfl, by rw [hphase]; rfl, fun id hid i hi => ?_⟩ rfl trivial
        show _ ∈ (if io = .ok then s.dir.unlink name else s.dir).names
        split
        · refine mem_unlink.mpr ⟨hi, fun heq => ?_⟩
          exact hfiles.2.1 id (List.mem_append_left _ hid) (heq ▸ List.mem_cons_self)
        · exact hi
      · rename_i hphase
        exact h.compactorMoves (by rw [hphase]; rfl) trivial
  | _ => cases hs

/-- One step keeps the invariant. -/
theorem step {l : Label} (h : LogInv s) (hfiles : FilesInv s) (hok : StoredInOrder s l)
    (hs : Structural.step c targetFileSize s l = some s') : LogInv s' := by
  rcases step_cases hs with hs | hs | hs | hs
  · exact h.stepWriter hfiles hok hs
  · exact h.stepBuild hs
  · exact h.stepPublish hfiles hok hs
  · exact h.stepCollect hfiles hs

theorem of_start (h : Start s) : LogInv s := by
  obtain ⟨hwriter, hcompactor⟩ := h.idle
  have hlogged : s.logged = s.current.frozenMemtables.length := by
    rw [Sys.logged, hcompactor]
    rfl
  refine ⟨hlogged ▸ h.aligned, h.mutableWal, ?_, ?_⟩
  · rw [hwriter]
    trivial
  · rw [hcompactor]
    trivial

end LogInv

/-- In every careful run in which the versions are stored in order, the invariants hold. -/
theorem inv_of_reach (h : Reach (step c targetFileSize) Start
    (fun s l => StoredInOrder s l ∧ Careful s l) s) : FilesInv s ∧ LogInv s :=
  h.invariant (P := fun s => FilesInv s ∧ LogInv s)
    (fun _ hs => ⟨.of_start hs, .of_start hs⟩) fun _ _ _ ⟨hfiles, hlogs⟩ hok hs =>
      ⟨hfiles.step hok.2 hs, hlogs.step hfiles hok.1 hs⟩

/-- In every careful run in which the versions are stored in order, the log of the current version
is listed behind those of the frozen memtables, and the file it was opened on is in the
directory. -/
theorem mutable_log_kept (c : Crates) (targetFileSize : UInt64) {s : Sys}
    (h : Reach (step c targetFileSize) Start (fun s l => StoredInOrder s l ∧ Careful s l) s) :
    Behind s.manifest.wals s.current.mutableWal.id s.logged ∧ s.Linked s.current.mutableWal :=
  ⟨(inv_of_reach h).2.mutable, (inv_of_reach h).2.linked⟩

theorem mutable_log_kept_collected : ∃ s,
    Reach (step crates 0) Start (fun s l => StoredInOrder s l ∧ Careful s l) s ∧
      s.current.mutableWal = ⟨1, 2⟩ ∧ (FileName.wal 1, 2) ∈ s.dir.names ∧ 1 ∈ s.manifest.wals := by
  have hrun : (run (fun s l => if decide (StoredInOrder s l ∧ Careful s l) then step crates 0 s l
      else none) pristine collectOnce).map (fun s => s.current.mutableWal) = some ⟨1, 2⟩ := by
    decide +kernel
  obtain ⟨s, hreach, hwal⟩ := reached_of_run (fun s l => StoredInOrder s l ∧ Careful s l)
    start_pristine _ _ hrun
  obtain ⟨hbehind, hlinked⟩ := mutable_log_kept crates 0 hreach
  rw [Sys.Linked, hwal] at hlinked
  have hlisted := hbehind.mem
  rw [hwal] at hlisted
  exact ⟨s, hreach, hwal, hlinked, hlisted⟩

/-! ## What is needed -/

/-- In every careful run what the manifest lists is in the directory, and so is the file behind the
log of the current version when the versions are also stored in order. -/
theorem needed_files_kept (c : Crates) (targetFileSize : UInt64) :
    (∀ s, Reach (step c targetFileSize) Start Careful s → FilesKept s) ∧
    ∀ s, Reach (step c targetFileSize) Start (fun s l => StoredInOrder s l ∧ Careful s l) s →
      s.Linked s.current.mutableWal :=
  ⟨fun _ h => (FilesInv.of_reach h).kept, fun _ h => (inv_of_reach h).2.linked⟩

/-- A flush whose version is stored, up to the listing of the directory. -/
def flushStored : List Label := flushCommitted ++ [.loadCurrent, .storeCurrent, .snapshot]

/-- The manifests are read, three of them are in the directory. -/
def readManifests : List Label := [.readManifest .ok, .readManifest .ok, .readManifest .ok]

/-- A rotation that begins behind the listing. -/
def rotatedBehindListing : List Label :=
  flushStored ++ [.list .ok] ++ rotateLoaded ++ [.storeVersion] ++ readManifests ++ [.delete .ok]

/-- What the manifest lists, the mutable log, and what is in the directory. -/
def Sys.logNames (s : Sys) : List UInt32 × Log × List (FileName × Nat) :=
  (s.manifest.wals, s.current.mutableWal, s.dir.names)

/-- The oldest manifest is deleted, and the log of the rotation is kept. -/
theorem needed_files_kept_rotated : ∃ s,
    Reach (step crates 0) Start (fun s l => StoredInOrder s l ∧ Careful s l) s ∧
      s.manifest.wals = [1, 2] ∧ ¬ s.Has (.mf 0) ∧ FilesKept s ∧ s.Linked s.current.mutableWal := by
  have hrun : (run (fun s l => if decide (StoredInOrder s l ∧ Careful s l) then step crates 0 s l
      else none) startedFrozen rotatedBehindListing).map Sys.logNames =
      some ([1, 2], ⟨2, 6⟩, [(.mf 3, 7), (.wal 2, 6), (.mf 2, 5), (.sst 1, 4), (.mf 1, 3),
        (.wal 1, 2), (.wal 0, 0)]) := by
    decide +kernel
  obtain ⟨s, hreach, hend⟩ := reached_of_run (fun s l => StoredInOrder s l ∧ Careful s l)
    start_startedFrozen _ _ hrun
  simp only [Sys.logNames, Prod.mk.injEq] at hend
  obtain ⟨hwals, _, hnames⟩ := hend
  obtain ⟨hkept, hlinked⟩ := needed_files_kept crates 0
  refine ⟨s, hreach, hwals, fun ⟨i, hi⟩ => ?_, hkept s (hreach.mono fun _ _ hok => hok.2),
    hlinked s hreach⟩
  rw [hnames] at hi
  simp at hi

/-- A rotation that has created its log and not yet listed it when the directory is listed. -/
def rotatedAcrossListing : List Label :=
  flushStored ++ rotateLoaded.take 3 ++ [.list .ok] ++ readManifests ++ rotateLoaded.drop 3 ++
    [.storeVersion, .delete .ok, .delete .ok]

/-- The log that the rotation has listed and put in place is deleted. -/
theorem rotation_log_deleted : ∃ s, Reach (step crates 0) Start StoredInOrder s ∧
    s.manifest.wals = [1, 2] ∧ s.current.mutableWal.id = 2 ∧ ¬ FilesKept s ∧
      ¬ s.Linked s.current.mutableWal := by
  have hrun : (run (fun s l => if decide (StoredInOrder s l) then step crates 0 s l else none)
      startedFrozen rotatedAcrossListing).map Sys.logNames =
      some ([1, 2], ⟨2, 6⟩, [(.mf 3, 7), (.mf 2, 5), (.sst 1, 4), (.mf 1, 3), (.wal 1, 2),
        (.wal 0, 0)]) := by
    decide +kernel
  obtain ⟨s, hreach, hend⟩ := reached_of_run StoredInOrder start_startedFrozen _ _ hrun
  simp only [Sys.logNames, Prod.mk.injEq] at hend
  obtain ⟨hwals, hwal, hnames⟩ := hend
  refine ⟨s, hreach, hwals, by rw [hwal], fun hkept => ?_, fun hlinked => ?_⟩
  · obtain ⟨i, hi⟩ := hkept.logs 2 (by simp [hwals])
    rw [hnames] at hi
    simp at hi
  · rw [Sys.Linked, hwal, hnames] at hlinked
    simp at hlinked

end EasyLsm.Structural
