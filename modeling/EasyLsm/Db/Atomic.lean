import Mathlib.Data.List.Basic
import Mathlib.Tactic.IntervalCases
import EasyLsm.DataStores.Formats
import EasyLsm.Db.Commit

/-!
# Failed structural operations

A rotation, a flush or a compaction that fails before its commit has changed nothing that counts.
After the commit a flush and a compaction cannot fail any more; a rotation can, because it opens the
new log once more. `error_unchanged_iff` says that this is the only failure that leaves the manifest
and the version apart.
-/

namespace EasyLsm.Db

open Lib Lib.FileStore

variable {env : Env} {keep : FileName → Prop} {w₀ w w' : World}

/-! ## Before the commit -/

/-- The writer of a table stays with a file that no name of `keep` points to. -/
theorem writeAll_spec {t : TableWriter} (hfree : Free keep w₀.dir t.inode) (es : List Entry) :
    Prog.Spec (Quiet keep w₀) (t.writeAll env es)
      (fun t' w => Free keep w₀.dir t'.inode ∧ Quiet keep w₀ w) fun _ => Quiet keep w₀ := by
  induction es generalizing t with
  | nil => exact Prog.Spec.pure fun w hw => ⟨hfree, hw⟩
  | cons e es ih =>
      refine (writeTable_spec env hfree e.1 e.2).bind fun t' => ?_
      rintro w ⟨hfree', hw⟩
      exact ih hfree' w hw

theorem flushTable_calm (hsst : ∀ id, ¬ keep (.sst id)) (sstId : UInt32)
    (memtable : Memtable .immutable) : Calm keep w₀ (flushTable env sstId memtable) := by
  refine Calm.bind_of (Prog.Spec.mapError (newTable_spec (hsst sstId))) fun t hfree => ?_
  refine Calm.bind_of (Prog.Spec.mapError (writeAll_spec hfree _)) fun t' hfree' => ?_
  exact ((finalize_calm env hfree').mapError _).bind fun _ => Calm.pure _

theorem openNewTables_calm (text : String) (newSstables : List FileMetadata) :
    Calm keep w₀ (openNewTables env text newSstables) :=
  Calm.forEach fun _ _ => (openTable_calm env _).mapError _

/-- The file of the current output is not one of `keep`. -/
def OutputFree (keep : FileName → Prop) (w₀ : World) (out : Outputs) : Prop :=
  ∀ t id, out.currentWriter = some (t, id) → Free keep w₀.dir t.inode

theorem outputFree_none (newFiles : List FileMetadata) : OutputFree keep w₀ ⟨newFiles, none⟩ :=
  fun _ _ h => by cases h

theorem finishOutput_spec {out : Outputs} (hfree : OutputFree keep w₀ out) :
    Prog.Spec (Quiet keep w₀) (finishOutput env out)
      (fun out' w => out'.currentWriter = none ∧ Quiet keep w₀ w) fun _ => Quiet keep w₀ := by
  unfold finishOutput
  split
  · rename_i hnone
    exact Prog.Spec.pure fun w hw => ⟨hnone, hw⟩
  · rename_i t id hsome
    refine Prog.Spec.bind ((finalize_calm env (hfree t id hsome)).mapError _) fun _ => ?_
    exact Prog.Spec.pure fun w hw => ⟨rfl, hw⟩

theorem dropOutputs_calm {out : Outputs} (hfree : OutputFree keep w₀ out) :
    Calm keep w₀ out.drop := by
  unfold Outputs.drop
  split
  · exact Calm.pure _
  · rename_i t id hsome
    exact dropTable_calm (hfree t id hsome)

theorem writeOutput_spec (hsst : ∀ id, ¬ keep (.sst id)) (targetFileSize : UInt64) {out : Outputs}
    (hfree : OutputFree keep w₀ out) (key : Key) (val : Value) :
    Prog.Spec (Quiet keep w₀) (writeOutput env targetFileSize out key val)
      (fun out' w => OutputFree keep w₀ out' ∧ Quiet keep w₀ w) fun _ => Quiet keep w₀ := by
  have hshould : Calm keep w₀ (shouldRotate targetFileSize out) := by
    unfold shouldRotate
    split
    · exact Calm.pure _
    · rename_i t id hsome
      exact ((currentSize_calm (hfree t id hsome)).mapError _).bind fun _ => Calm.pure _
  have hrotate : Prog.Spec (Quiet keep w₀) (rotateOutput env out)
      (fun out' w => OutputFree keep w₀ out' ∧ Quiet keep w₀ w) fun _ => Quiet keep w₀ := by
    refine (finishOutput_spec hfree).bind fun out' => ?_
    rintro w ⟨_, hw⟩
    refine Prog.Spec.bind (reserveSstableId_calm) (fun nextId => ?_) w hw
    refine (Prog.Spec.mapError (newTable_spec (hsst nextId))).bind fun t => ?_
    refine Prog.Spec.pure fun w hw => ⟨fun t' id h => ?_, hw.2⟩
    cases h
    exact hw.1
  have hwrite : ∀ {out}, OutputFree keep w₀ out → Prog.Spec (Quiet keep w₀)
      (writeCurrent env out key val)
      (fun out' w => OutputFree keep w₀ out' ∧ Quiet keep w₀ w) fun _ => Quiet keep w₀ := by
    intro out hfree
    unfold writeCurrent
    split
    · exact Prog.Spec.pure fun w hw => ⟨hfree, hw⟩
    · rename_i t id hsome
      refine (Prog.Spec.mapError (writeTable_spec env (hfree t id hsome) key val)).bind fun t' => ?_
      refine Prog.Spec.pure fun w hw => ⟨fun t'' id' h => ?_, hw.2⟩
      cases h
      exact hw.1
  refine Prog.Spec.bind hshould fun rotate => ?_
  refine Prog.Spec.bind (Q := fun out' w => OutputFree keep w₀ out' ∧ Quiet keep w₀ w) ?_
    fun out' => ?_
  · split
    · exact hrotate
    · exact Prog.Spec.pure fun w hw => ⟨hfree, hw⟩
  · rintro w ⟨hfree', hw⟩
    exact hwrite hfree' w hw

theorem mergeFiles_calm (hsst : ∀ id, ¬ keep (.sst id)) (targetFileSize : UInt64)
    (allFilesToMerge : List FileMetadata) :
    Calm keep w₀ (mergeFiles env targetFileSize allFilesToMerge) := by
  have hopen : ∀ m, Calm keep w₀ (openInput env m) := fun m =>
    ((openTable_calm env _).mapError _).bind fun _ => nextFault_calm.bind fun _ => Calm.pure _
  refine (Calm.forEach fun m _ => hopen m).bind fun inputs => ?_
  refine (Calm.read World.dir).bind fun dir => ?_
  refine ((Calm.ofExcept _).mapError _).bind fun mergeIter => ?_
  refine Prog.Spec.bind (Q := fun out w => OutputFree keep w₀ out ∧ Quiet keep w₀ w) ?_
    fun out => ?_
  · refine (mergeLoop_spec (I := fun _ out w => OutputFree keep w₀ out ∧ Quiet keep w₀ w)
      (fun h _ => h) (fun h _ => (dropOutputs_calm h.1).quiet h.2) (fun h _ => ?_) mergeIter
      ⟨[], none⟩).weaken
      (fun w hw => ⟨outputFree_none [], hw⟩) (fun _ _ h => h) (fun _ _ h => h)
    exact (writeOutput_spec hsst targetFileSize h.1 _ _).weaken (fun _ hw => hw ▸ h.2)
      (fun _ _ h => h) (fun _ _ h => h)
  · rintro w ⟨hfree, hw⟩
    refine Prog.Spec.bind (finishOutput_spec hfree) (fun out' => ?_) w hw
    rintro w ⟨_, hw⟩
    exact Calm.bind (openNewTables_calm _ _) (fun _ => Calm.pure _) w hw

/-! ## After the commit -/

/-- The garbage collection does not fail. -/
theorem collectGarbage_succeeds {E : DbError → World → Prop} :
    Prog.Spec (fun _ => True) (collectGarbage env) (fun _ _ => True) E := by
  have hfault : Prog.Spec (fun _ => True) nextFault (fun _ _ => True) E := by
    intro w _
    rw [nextFault_run]
    trivial
  have hattempt : ∀ {α : Type} (x : Op α), Prog.Spec (fun _ => True) x.attempt
      (fun _ _ => True) E := fun x w _ => trivial
  have hdelete : ∀ name, Prog.Spec (fun _ => True) (deleteFile name) (fun _ _ => True) E :=
    fun name => (hattempt _).bind fun _ => Prog.Spec.pure fun _ _ => trivial
  have hreferenced : ∀ version, Prog.Spec (fun _ => True) (referencedBy env version)
      (fun _ _ => True) E := by
    intro version
    refine (hattempt _).bind fun res => ?_
    cases res with
    | error e => exact Prog.Spec.pure fun _ _ => trivial
    | ok inode =>
        refine Prog.Spec.bind (Q := fun _ _ => True) (Prog.Spec.read fun _ _ => trivial)
          fun dir => ?_
        split <;> exact Prog.Spec.pure fun _ _ => trivial
  refine Prog.Spec.bind (Q := fun _ _ => True) (Prog.Spec.read fun _ _ => trivial) fun guard => ?_
  refine hfault.bind fun fault => ?_
  cases fault with
  | some f => exact Prog.Spec.pure fun _ _ => trivial
  | none =>
      refine Prog.Spec.bind (Q := fun _ _ => True) (Prog.Spec.read fun _ _ => trivial) fun dir => ?_
      refine (Prog.Spec.forEach_const fun v _ => hreferenced v).bind fun kept => ?_
      refine (Prog.Spec.forEach_const fun v _ => hdelete _).bind fun _ => ?_
      refine (Prog.Spec.forEach_const fun n _ => hdelete n).bind fun _ => ?_
      exact Prog.Spec.pure fun _ _ => trivial

/-- What follows the commit of a flush or a compaction does not fail. -/
theorem publish_succeeds {P : World → Prop} {E : DbError → World → Prop} (f : World → World) :
    Prog.Spec P (Prog.modify f >>= fun _ => collectGarbage env) (fun _ _ => True) E :=
  (Prog.Spec.modify (R := fun _ _ => True) fun _ _ => trivial).bind fun _ =>
    collectGarbage_succeeds

/-- A commit with a closure that does no I/O. It fails when the closure does, or on a fault. -/
theorem commit_spec {f : Manifest → Except DbError Manifest} (hf : KeepsCounters f)
    (htmp : ∀ v, ¬ keep (.mfTmp v)) :
    Prog.Spec (· = w₀) (applyAtomicUpdate env (fun m => Prog.ofExcept (f m)) 3)
      (fun m w => m = w.manifest ∧ ∃ c, f w₀.manifest = .ok c ∧ Committed env w₀ c w)
      (fun _ w => Quiet keep w₀ w ∧ (w₀.faults = [] → ∀ c, f w₀.manifest ≠ .ok c)) := by
  refine (applyAtomicUpdate_spec (F := ∀ c, f w₀.manifest ≠ .ok c)
    (R := fun c w => f w₀.manifest = .ok c ∧ w = w₀) ?_ htmp ?_ 2).weaken (fun _ h => h) ?_ ?_
  · exact fun c w h => hf.version h.1
  · refine Prog.Spec.ofExcept (fun c s hc hs => ⟨⟨hc, hs⟩, hs ▸ Quiet.refl _ _⟩)
      fun e s he hs => ⟨fun c hc => ?_, hs ▸ Quiet.refl _ _⟩
    rw [he] at hc
    cases hc
  · rintro m w ⟨hm, c, w₁, ⟨⟨hc, rfl⟩, _⟩, _, hcommitted⟩
    exact ⟨hm, c, hc, hcommitted⟩
  · rintro e w ⟨hquiet, hfail⟩
    refine ⟨hquiet, fun hnil => ?_⟩
    rcases hfail with hfail | ⟨c, w₁, ⟨⟨_, rfl⟩, _⟩, hfault⟩
    · exact hfail
    · exact absurd (fun i _ => by rw [hnil]; rfl) hfault

/-- A flush that fails has changed no file of `keep`. -/
theorem flushMemtables_error (hsst : ∀ id, ¬ keep (.sst id)) (htmp : ∀ v, ¬ keep (.mfTmp v)) :
    Prog.Spec (Quiet keep w₀) (flushMemtables env) (fun _ _ => True) fun _ => Quiet keep w₀ := by
  refine Prog.Spec.bind (Calm.read World.current) fun currentVersion => ?_
  refine Prog.Spec.ite (fun _ => Prog.Spec.pure fun _ _ => trivial) fun _ => ?_
  refine Prog.Spec.bind reserveSstableId_calm fun startSstId => ?_
  refine Prog.Spec.bind (Calm.read World.manifest) fun manifestGuard => ?_
  refine Prog.Spec.ite (fun _ => Prog.Spec.fail fun _ h => h) fun _ => ?_
  refine Prog.Spec.bind (Calm.forEach fun p _ => flushTable_calm hsst _ _) fun newSstables => ?_
  refine Prog.Spec.bind (openNewTables_calm _ _) fun newSstObjs => ?_
  refine Prog.Spec.bind (Q := fun _ _ => True) ?_ fun _ => publish_succeeds _
  refine Prog.Spec.of_forall fun w hw => ?_
  exact (commit_spec (flushMutator_keepsCounters _ _) htmp).weaken (fun _ h => h)
    (fun _ _ _ => trivial) fun _ _ h => hw.trans h.1

/-- A compaction that fails has changed no file of `keep`. -/
theorem executeCompaction_error (hsst : ∀ id, ¬ keep (.sst id)) (htmp : ∀ v, ¬ keep (.mfTmp v))
    (sourceLevelIdx : Nat) (all source target : List FileMetadata) (targetFileSize : UInt64) :
    Prog.Spec (Quiet keep w₀)
      (executeCompaction env sourceLevelIdx all source target targetFileSize)
      (fun _ _ => True) fun _ => Quiet keep w₀ := by
  refine Prog.Spec.bind (mergeFiles_calm hsst targetFileSize all) fun p => ?_
  obtain ⟨newFiles, newSstObjs⟩ := p
  refine Prog.Spec.bind (Q := fun _ _ => True) ?_ fun _ => publish_succeeds _
  refine Prog.Spec.of_forall fun w hw => ?_
  exact (commit_spec (compactMutator_keepsCounters _ _ _ _) htmp).weaken (fun _ h => h)
    (fun _ _ _ => trivial) fun _ _ h => hw.trans h.1

/-! ## Rotation -/

/-- A log that was opened has the magic number, and opening it again changes nothing. -/
theorem openWritable_idem {file bytes : Bytes} (h : Wal.openWritable file = .ok bytes) :
    bytes ≠ [] ∧ Wal.openWritable bytes = .ok bytes := by
  unfold Wal.openWritable at h
  split at h
  · cases h
    have hmagic : Wal.openWritable (Wal.magicBytes ++ []) = .ok (Wal.magicBytes ++ []) := by
      have hiter := Wal.tryIter_magic []
      obtain ⟨⟨buf, r⟩, hread, hcheck⟩ := bind_ok_iff.mp hiter
      have hmatch : leNat buf = walMagic.toNat := by
        by_contra hne
        simp only [hne, ne_eq, not_false_eq_true, if_true] at hcheck
        cases hcheck
      have hlen : ¬ (Wal.magicBytes ++ []).length = 0 := by
        rw [List.append_nil, Wal.magicBytes, length_leBytes]
        omega
      unfold Wal.openWritable
      rw [if_neg hlen, hread]
      simp only [ok_bind, hmatch, ne_eq, not_true, if_false]
      rfl
    rw [List.append_nil] at hmagic
    refine ⟨fun hnil => ?_, hmagic⟩
    have hlen := congrArg List.length hnil
    rw [Wal.magicBytes, length_leBytes] at hlen
    cases hlen
  · rename_i hne
    obtain ⟨⟨buf, r⟩, hread, hcheck⟩ := bind_ok_iff.mp h
    simp only at hcheck
    split at hcheck
    · cases hcheck
    · rename_i hmatch
      cases hcheck
      refine ⟨fun hnil => hne (by rw [hnil]; rfl), ?_⟩
      unfold Wal.openWritable
      rw [if_neg hne, hread]
      simp only [ok_bind, hmatch, if_false]
      rfl

/-- The state after a commit still has the logs. -/
theorem Committed.agree_wal {c : Manifest} {w₁ : World} (h : Committed env w₁ c w) :
    Agree (fun n => ∃ id, n = .wal id) w₁.dir w.dir := by
  obtain ⟨w₂, hquiet, _, hrename, _⟩ := h.rename
  refine (hquiet.dir.mono ?_).trans (agree_rename ?_ ?_ hrename)
  · rintro _ ⟨id, rfl⟩
    simp
  · rintro ⟨id, h⟩
    cases h
  · rintro ⟨id, h⟩
    cases h

/-- The state after a commit still has the tables. -/
theorem Committed.agree_sst {c : Manifest} {w₁ : World} (h : Committed env w₁ c w) :
    Agree (fun n => ∃ id, n = .sst id) w₁.dir w.dir := by
  obtain ⟨w₂, hquiet, _, hrename, _⟩ := h.rename
  refine (hquiet.dir.mono ?_).trans (agree_rename ?_ ?_ hrename)
  · rintro _ ⟨id, rfl⟩
    simp
  · rintro ⟨id, h⟩
    cases h
  · rintro ⟨id, h⟩
    cases h

/-- The log was dropped: a part of what it held back, or all of it, is behind its file. -/
def Dropped (wal : WalHandle) (v w : World) : Prop :=
  (wal.buf = [] ∧ w = v) ∨ wal.buf ≠ [] ∧ ∃ n faults, (v.faults = [] → faults = []) ∧ w = { v with
    faults
    dir := v.dir.append wal.inode (wal.buf.take n)
    trace := v.trace ++ appendSteps v.dir wal.inode (wal.buf.take n) }

/-- Appending step by step ends with all the bytes appended. -/
theorem getLastD_appendSteps (dir dir' : Dir) (inode : Nat) (bytes : Bytes) :
    (appendSteps dir inode bytes).getLastD dir' = dir.append inode bytes := by
  unfold appendSteps
  rw [List.range_succ, List.map_append, List.getLastD_eq_getLast?, List.map_singleton,
    List.getLast?_concat, Option.getD_some, List.take_length]

theorem WalHandle.drop_spec (wal : WalHandle) (v : World) {E : DbError → World → Prop} :
    Prog.Spec (· = v) wal.drop (fun _ => Dropped wal v) E := by
  rintro v rfl
  by_cases hbuf : wal.buf = []
  · have hrun : wal.drop v = (.ok (), v) := by
      unfold WalHandle.drop
      rw [if_pos hbuf]
      rfl
    rw [hrun]
    exact .inl ⟨hbuf, rfl⟩
  · have hrun : ∃ n, wal.drop v = (.ok (), { v with
        faults := v.faults.tail
        dir := v.dir.append wal.inode (wal.buf.take n)
        trace := v.trace ++ appendSteps v.dir wal.inode (wal.buf.take n) }) := by
      unfold WalHandle.drop
      rw [if_neg hbuf]
      simp only [Prog.bind_apply, nextFault_run, Prog.read, through, Prog.modify,
        getLastD_appendSteps]
      cases v.faults.headD none with
      | none => exact ⟨wal.buf.length, by rw [List.take_length]⟩
      | some f => exact ⟨f.taken, rfl⟩
    obtain ⟨n, hrun⟩ := hrun
    rw [hrun]
    exact .inr ⟨hbuf, n, _, fun hnil => by rw [hnil]; rfl, rfl⟩

namespace Dropped

variable {wal : WalHandle} {v : World}

theorem of_nil (h : Dropped wal v w) (hbuf : wal.buf = []) : w = v := by
  rcases h with ⟨_, rfl⟩ | ⟨hne, _⟩
  · rfl
  · exact absurd hbuf hne

theorem manifest (h : Dropped wal v w) : w.manifest = v.manifest := by
  rcases h with ⟨_, rfl⟩ | ⟨_, _, _, _, rfl⟩ <;> rfl

theorem current (h : Dropped wal v w) : w.current = v.current := by
  rcases h with ⟨_, rfl⟩ | ⟨_, _, _, _, rfl⟩ <;> rfl

theorem nextLsn (h : Dropped wal v w) : w.nextLsn = v.nextLsn := by
  rcases h with ⟨_, rfl⟩ | ⟨_, _, _, _, rfl⟩ <;> rfl

theorem names (h : Dropped wal v w) : w.dir.names = v.dir.names := by
  rcases h with ⟨_, rfl⟩ | ⟨_, _, _, _, rfl⟩ <;> rfl

/-- No file gets shorter. -/
theorem content_ne_nil (h : Dropped wal v w) {i : Nat} (hne : v.dir.content i ≠ []) :
    w.dir.content i ≠ [] := by
  rcases h with ⟨_, rfl⟩ | ⟨_, n, faults, _, rfl⟩
  · exact hne
  · show (v.dir.setContent wal.inode _).content i ≠ []
    by_cases heq : i = wal.inode
    · rw [heq, content_setContent_self]
      exact List.append_ne_nil_of_left_ne_nil (heq ▸ hne) _
    · rw [content_setContent_of_ne _ heq]
      exact hne

/-- Other files are left alone. -/
theorem quiet (h : Dropped wal v w) (hfree : Free keep v.dir wal.inode) : Quiet keep v w := by
  rcases h with ⟨_, rfl⟩ | ⟨_, n, faults, hfaults, rfl⟩
  · exact .refl keep w
  · refine ⟨⟨_, rfl⟩, rfl, rfl, hfaults, agree_setContent hfree _, _, rfl, fun d hd => ?_⟩
    obtain ⟨k, _, rfl⟩ := List.mem_map.mp hd
    exact agree_setContent hfree _

end Dropped

/-- What a rotation that succeeds has done before its old log is dropped: created the log, committed
a manifest that lists it, and installed a version that writes to it. -/
structure Switched (env : Env) (w₀ w : World) : Prop where
  steps : ∃ w₁ w₂ newWal faults, Quiet (· ≠ .wal w₀.manifest.nextWalId) w₀ w₁ ∧
    Wal.openWritable (walFile w₀.dir w₀.manifest.nextWalId) =
      .ok (walFile w₁.dir w₀.manifest.nextWalId) ∧
    Committed env w₁ { w₀.manifest with wals := w₀.manifest.wals ++ [w₀.manifest.nextWalId] } w₂ ∧
    newWal.id = w₀.manifest.nextWalId ∧ newWal.buf = [] ∧
    (.wal w₀.manifest.nextWalId, newWal.inode) ∈ w₂.dir.names ∧
    w = { w₂ with
      faults
      current := rotateVersion Memtable.freezeFromRef Memtable.new newWal w₀.current }

/-- What a rotation that succeeds has done. -/
def Rotated (env : Env) (w₀ w : World) : Prop :=
  ∃ v, Switched env w₀ v ∧ Dropped w₀.current.mutableWal v w

/-- The inode of the old log belongs to no file of `keep`, as long as `keep` does not have the old
log. -/
theorem Switched.free {wal : WalHandle} (h : Switched env w₀ w)
    (hname : (.wal wal.id, wal.inode) ∈ w₀.dir.names) (hwal : ¬ keep (.wal wal.id))
    (hkeep : ∀ n, keep n → ∃ id, n = .wal id ∨ n = .sst id) : Free keep w.dir wal.inode := by
  obtain ⟨w₁, w₂, newWal, faults, hquiet, _, hcommitted, _, _, _, rfl⟩ := h.steps
  have hsame : ∀ {id}, id ≠ w₀.manifest.nextWalId → ∀ i,
      (FileName.wal id, i) ∈ w₂.dir.names ↔ (FileName.wal id, i) ∈ w₀.dir.names := fun hne i =>
    (hcommitted.agree_wal.names ⟨_, rfl⟩ i).trans
      (hquiet.dir.names (fun heq => hne (FileName.wal.inj heq)) i)
  intro n hn hmem
  have hmem : (n, wal.inode) ∈ w₂.dir.names := hmem
  obtain ⟨id, rfl | rfl⟩ := hkeep n hn
  · have hid : id ≠ wal.id := fun heq => hwal (heq ▸ hn)
    by_cases hnext : id = w₀.manifest.nextWalId
    · have hold := (hsame (fun heq => hid (hnext.trans heq.symm)) _).mpr hname
      exact hid (FileName.wal.inj (w₂.dir.name_unique hmem hold))
    · exact hid (FileName.wal.inj (w₀.dir.name_unique ((hsame hnext _).mp hmem) hname))
  · have hold : (FileName.sst id, wal.inode) ∈ w₀.dir.names :=
      (hquiet.dir.names (by simp) _).mp ((hcommitted.agree_sst.names ⟨id, rfl⟩ _).mp hmem)
    cases w₀.dir.name_unique hold hname

/-- When the log held nothing back, its drop does nothing. -/
theorem Rotated.switched (h : Rotated env w₀ w) (hbuf : w₀.current.mutableWal.buf = []) :
    Switched env w₀ w := by
  obtain ⟨v, hswitched, hdropped⟩ := h
  rw [hdropped.of_nil hbuf]
  exact hswitched

/-- The new log can be opened and the manifest committed, but then the log cannot be opened again:
the first four I/O calls of a rotation succeed, and the fifth fails. -/
def ReopenFails (w : World) : Prop :=
  NoFault w 4 ∧ w.faults.getD 4 none ≠ none ∧
    ∃ bytes, Wal.openWritable (walFile w.dir w.manifest.nextWalId) = .ok bytes

/-- Up to its last line a rotation succeeds, or it changes no file of `keep`, or it fails after the
commit. A log that is not empty is not changed either. -/
theorem switchMemtable_spec
    (hwal : keep (.wal w₀.manifest.nextWalId) → walFile w₀.dir w₀.manifest.nextWalId ≠ [])
    (htmp : ∀ v, ¬ keep (.mfTmp v)) :
    Prog.Spec (· = w₀) (switchMemtable env)
      (fun wal w => wal = w₀.current.mutableWal ∧ Switched env w₀ w ∧ ¬ ReopenFails w₀)
      (fun _ w => (Quiet keep w₀ w ∧ ¬ ReopenFails w₀) ∨
        (w.manifest.version = w₀.manifest.version + 1 ∧ ReopenFails w₀)) := by
  have hother : ∀ {w'}, Quiet (· ≠ .wal w₀.manifest.nextWalId) w₀ w' →
      (walFile w₀.dir w₀.manifest.nextWalId ≠ [] → w' = { w₀ with faults := w₀.faults.tail }) →
      Quiet keep w₀ w' := by
    intro w' hquiet hsame
    by_cases hkeep : keep (.wal w₀.manifest.nextWalId)
    · rw [hsame (hwal hkeep)]
      exact (Quiet.refl keep w₀).tail
    · exact hquiet.mono fun n hn heq => hkeep (heq ▸ hn)
  have hmutator : Prog.Spec (· = w₀)
      (openWal w₀.manifest.nextWalId >>= fun _ => Prog.ofExcept (rotateMutator w₀.manifest))
      (fun c w => (c = { w₀.manifest with wals := w₀.manifest.wals ++ [w₀.manifest.nextWalId] } ∧
        (w₀.faults.headD none = none ∧ w.faults = w₀.faults.tail) ∧
        Quiet (· ≠ .wal w₀.manifest.nextWalId) w₀ w ∧
        Wal.openWritable (walFile w₀.dir w₀.manifest.nextWalId) =
          .ok (walFile w.dir w₀.manifest.nextWalId)) ∧ Quiet keep w₀ w)
      (fun _ w => ¬ ReopenFails w₀ ∧ Quiet keep w₀ w) := by
    refine Prog.Spec.bind ((openWal_run w₀ _).weaken (fun _ h => h) (fun _ _ h => h) ?_)
      fun wal => Prog.Spec.ofExcept ?_ ?_
    · rintro e w ⟨hfail, hquiet, hsame⟩
      refine ⟨?_, hother hquiet fun hne => hsame.resolve_right fun hnew => hne hnew.1⟩
      rintro ⟨hno, _, bytes, hbytes⟩
      exact hfail (fun i hi => hno i (by omega)) bytes hbytes
    · rintro c w hc ⟨hfaults, _, ⟨hfile, hmem⟩, hquiet, hsame⟩
      cases hc
      refine ⟨⟨rfl, hfaults, hquiet, ?_⟩, hother hquiet hsame⟩
      rw [hfile, walFile, read_of_mem hmem, Option.getD_some]
    · intro e w he
      cases he
  refine Prog.Spec.bind_forall ((applyAtomicUpdate_spec (F := ¬ ReopenFails w₀)
    (fun c w h => by rw [h.1]) htmp hmutator 2).weaken (fun _ h => h) (fun _ _ h => h) ?_)
    fun m w₂ hcommit => ?_
  · rintro e w ⟨hquiet, hfail | ⟨c, w₁, ⟨⟨_, ⟨hhead, htail⟩, _⟩, _⟩, hno⟩⟩
    · exact .inl ⟨hquiet, hfail⟩
    · exact .inl ⟨hquiet, fun h => hno ((noFault_succ htail).mp h.1).2⟩
  · obtain ⟨rfl, c, w₁, ⟨⟨rfl, ⟨hhead, htail⟩, hquiet, hfile⟩, _⟩, ⟨hno, hdrop⟩, hcommitted⟩ :=
      hcommit
    have hfour : NoFault w₀ 4 := (noFault_succ htail).mpr ⟨hhead, hno⟩
    have hdrop' : w₂.faults = w₀.faults.drop 4 := by
      rw [hdrop, htail, ← List.drop_one, List.drop_drop]
    have hlast : w₂.manifest.wals.getLast? = some w₀.manifest.nextWalId := by
      rw [hcommitted.manifest]
      exact List.getLast?_concat
    obtain ⟨hne, hidem⟩ := openWritable_idem hfile
    have hwalFile : walFile w₂.dir w₀.manifest.nextWalId =
        walFile w₁.dir w₀.manifest.nextWalId := by
      unfold walFile
      rw [hcommitted.agree_wal.read ⟨_, rfl⟩]
    rw [hlast]
    refine Prog.Spec.bind_forall ((openWal_run w₂ _).weaken (fun _ h => h) (fun _ _ h => h) ?_)
      fun newWal w₃ hopen => ?_
    · -- the manifest is committed, and the file is a log: only a fault is left
      rintro e w ⟨hfail, hquiet', _⟩
      refine .inr ⟨?_, hfour, fun hnone => ?_, _, hfile⟩
      · obtain ⟨id, hid⟩ := hquiet'.manifest
        rw [hid, hcommitted.manifest]
      · refine hfail (fun i hi => ?_) _ (by rw [hwalFile]; exact hidem)
        obtain rfl : i = 0 := by omega
        rw [hdrop', List.getD_eq_getElem?_getD, List.getElem?_drop, ← List.getD_eq_getElem?_getD]
        exact hnone
    · obtain ⟨⟨hhead', _⟩, ⟨hid, hbuf⟩, ⟨_, hmem⟩, _, hsame⟩ := hopen
      have hfive : w₀.faults.getD 4 none = none := by
        rw [hdrop'] at hhead'
        rwa [List.headD_eq_head?_getD, List.head?_drop, ← List.getD_eq_getElem?_getD] at hhead'
      have hw₃ := hsame (by rw [hwalFile]; exact hne)
      have hcurrent : w₃.current = w₀.current := by
        rw [hw₃, ← hquiet.current, ← hcommitted.current]
      rw [hw₃] at hmem
      refine Prog.Spec.bind_forall (Q := fun v w => v = w₀.current ∧ w = w₃)
        (Prog.Spec.read fun w hw => ⟨hw ▸ hcurrent, hw⟩) fun v w hv => ?_
      obtain ⟨rfl, rfl⟩ := hv
      refine Prog.Spec.bind (Q := fun _ => Switched env w₀) (Prog.Spec.modify fun w hw => ?_)
        fun _ => Prog.Spec.pure fun w hw => ⟨rfl, hw, fun h => h.2.1 hfive⟩
      subst hw
      refine ⟨w₁, w₂, newWal, w₂.faults.tail, hquiet, hfile, hcommitted, hid, hbuf, hmem, ?_⟩
      rw [hcurrent, hw₃]

/-- A rotation succeeds, or it changes no file of `keep`, or it fails after the commit. -/
theorem rotateMemtable_spec
    (hwal : keep (.wal w₀.manifest.nextWalId) → walFile w₀.dir w₀.manifest.nextWalId ≠ [])
    (htmp : ∀ v, ¬ keep (.mfTmp v)) :
    Prog.Spec (· = w₀) (rotateMemtable env) (fun _ w => Rotated env w₀ w ∧ ¬ ReopenFails w₀)
      (fun _ w => (Quiet keep w₀ w ∧ ¬ ReopenFails w₀) ∨
        (w.manifest.version = w₀.manifest.version + 1 ∧ ReopenFails w₀)) := by
  refine Prog.Spec.bind_forall (switchMemtable_spec hwal htmp) fun wal v hv => ?_
  obtain ⟨rfl, hswitched, hno⟩ := hv
  exact (WalHandle.drop_spec _ v).weaken (fun _ h => h)
    (fun _ _ hdropped => ⟨⟨v, hswitched, hdropped⟩, hno⟩) fun _ _ h => h

/-! ## Structural operations -/

/-- The structural operations. -/
inductive Structural where
  | rotateMemtable
  | flushMemtables
  | compactL0 (targetFileSize : UInt64)
  | compactLn (levelIdx : Nat) (targetFileSize : UInt64)

/-- Run a structural operation. -/
def Structural.run (env : Env) : Structural → Op Unit
  | rotateMemtable => Db.rotateMemtable env
  | flushMemtables => Db.flushMemtables env
  | compactL0 targetFileSize => Db.compactL0 env targetFileSize
  | compactLn levelIdx targetFileSize => Db.compactLn env levelIdx targetFileSize

/-- The manifest in memory, the newest manifest file and the version are what they were. -/
structure Unchanged (w w' : World) : Prop where
  wals : w'.manifest.wals = w.manifest.wals
  levels : w'.manifest.levels = w.manifest.levels
  version : w'.manifest.version = w.manifest.version
  newest : Manifest.newestVersion w'.dir = Manifest.newestVersion w.dir
  file : ∀ v, Manifest.newestVersion w.dir = some v → w'.dir.read (.mf v) = w.dir.read (.mf v)
  current : w'.current = w.current

/-- The manifest files. -/
def IsManifest (n : FileName) : Prop := ∃ v, n = .mf v

/-- Directories with the same manifest files have the same newest one. -/
theorem newestVersion_of_agree {dir dir' : Dir} (h : Agree IsManifest dir dir') :
    Manifest.newestVersion dir' = Manifest.newestVersion dir := by
  have hmem : ∀ v, v ∈ Dir.versions dir' ↔ v ∈ Dir.versions dir := by
    intro v
    rw [Dir.mem_versions, Dir.mem_versions]
    exact exists_congr fun i => h.names ⟨v, rfl⟩ i
  by_cases hnil : Dir.versions dir = []
  · have hnil' : Dir.versions dir' = [] :=
      List.eq_nil_iff_forall_not_mem.mpr fun v hv => by
        have hv' := (hmem v).mp hv
        rw [hnil] at hv'
        cases hv'
    unfold Manifest.newestVersion
    rw [hnil, hnil']
  · have hmax : ∀ v ∈ Dir.versions dir, v ≤ Manifest.maxId (Dir.versions dir) :=
      fun v hv => Manifest.le_maxId hv
    have hlargest := Manifest.maxId_mem hnil
    rw [Manifest.newestVersion_eq hlargest hmax]
    exact Manifest.newestVersion_eq ((hmem _).mpr hlargest) fun v hv => hmax v ((hmem v).mp hv)

/-- A state in which only other files than the manifests differ. -/
theorem Quiet.unchanged (h : Quiet IsManifest w w') : Unchanged w w' := by
  obtain ⟨id, hid⟩ := h.manifest
  exact ⟨by rw [hid], by rw [hid], by rw [hid], newestVersion_of_agree h.dir,
    fun v _ => h.dir.read ⟨v, rfl⟩, h.current⟩

/-- An operation other than a rotation that fails has changed nothing. -/
theorem Structural.error_unchanged {op : Structural} (hop : op ≠ rotateMemtable) {e : DbError}
    (h : op.run env w = (.error e, w')) : Unchanged w w' := by
  have hsst : ∀ id, ¬ IsManifest (.sst id) := by
    rintro id ⟨v, hv⟩
    cases hv
  have htmp : ∀ v, ¬ IsManifest (.mfTmp v) := by
    rintro id ⟨v, hv⟩
    cases hv
  have hspec : Prog.Spec (Quiet IsManifest w) (op.run env) (fun _ _ => True)
      fun _ => Quiet IsManifest w := by
    cases op with
    | rotateMemtable => exact absurd rfl hop
    | flushMemtables => exact flushMemtables_error hsst htmp
    | compactL0 targetFileSize =>
        refine Prog.Spec.bind (Calm.read World.manifest) fun manifest => ?_
        simp only
        split
        · exact executeCompaction_error hsst htmp _ _ _ _ _
        · exact Prog.Spec.pure fun _ _ => trivial
    | compactLn levelIdx targetFileSize =>
        refine Prog.Spec.bind (Calm.read World.manifest) fun manifest => ?_
        split
        · exact Prog.Spec.pure fun _ _ => trivial
        · exact executeCompaction_error hsst htmp _ _ _ _ _
  exact (hspec.error (Quiet.refl _ w) h).unchanged

/-- A rotation whose new log cannot be opened again returns an error with the manifest changed. -/
theorem rotateMemtable_reopen_fails (env : Env) {w : World} (h : ReopenFails w) :
    ∃ e w', rotateMemtable env w = (.error e, w') ∧
      w'.manifest.version = w.manifest.version + 1 := by
  have hspec := @rotateMemtable_spec env (fun _ => False) w (by simp) (by simp)
  rcases hrun : rotateMemtable env w with ⟨e | _, w'⟩
  · rcases hspec.error rfl hrun with ⟨_, hno⟩ | ⟨hversion, _⟩
    · exact absurd h hno
    · exact ⟨e, w', rfl, hversion⟩
  · exact absurd h (hspec.ok rfl hrun).2

/-- A structural operation that fails has changed nothing, unless it is a rotation that fails when
it opens its new log again. -/
theorem error_unchanged_iff (env : Env) (op : Structural) (w w' : World) (e : DbError)
    (h : op.run env w = (.error e, w')) :
    Unchanged w w' ↔ ¬ (op = .rotateMemtable ∧ ReopenFails w) := by
  by_cases hop : op = .rotateMemtable
  · subst hop
    have hkeep : ∀ n, (∀ v, n ≠ .mf v) → ¬ IsManifest n := fun n hn ⟨v, hv⟩ => hn v hv
    have hrotate := (@rotateMemtable_spec env IsManifest w
      (fun hwal => absurd hwal (hkeep (.wal _) (by simp)))
        (fun v => hkeep (.mfTmp v) (by simp))).error rfl h
    rcases hrotate with ⟨hquiet, hno⟩ | ⟨hversion, hreopen⟩
    · exact iff_of_true hquiet.unchanged fun hboth => hno hboth.2
    · refine iff_of_false (fun hsame => ?_) fun hno => hno ⟨rfl, hreopen⟩
      have hnext := hversion.symm.trans hsame.version
      simp at hnext
  · exact iff_of_true (Structural.error_unchanged hop h) fun hboth => hop hboth.1

/-- A new database whose fifth I/O call from now on fails. -/
def fifthCallFails (env : Env) : World :=
  { pristine env with faults := [none, none, none, none, some ⟨0, .other "disk full"⟩] }

theorem reopenFails_fifthCallFails (env : Env) : ReopenFails (fifthCallFails env) := by
  refine ⟨fun i hi => ?_, by simp [fifthCallFails], _, rfl⟩
  interval_cases i <;> rfl

theorem error_unchanged_iff_first_rotation : ∃ e w',
    Structural.rotateMemtable.run ⟨crates, "db", 4194304⟩ (fifthCallFails ⟨crates, "db", 4194304⟩) =
      (.error e, w') ∧
    (Unchanged (fifthCallFails ⟨crates, "db", 4194304⟩) w' ↔
      ¬ (Structural.rotateMemtable = .rotateMemtable ∧
        ReopenFails (fifthCallFails ⟨crates, "db", 4194304⟩))) := by
  obtain ⟨e, w', hrun, _⟩ := rotateMemtable_reopen_fails ⟨crates, "db", 4194304⟩
    (reopenFails_fifthCallFails ⟨crates, "db", 4194304⟩)
  exact ⟨e, w', hrun, error_unchanged_iff _ _ _ _ _ hrun⟩

/-- The first rotation of a database, when the new log cannot be opened again: the manifest lists a
log that the version does not write to. -/
theorem failed_rotation_commits : ¬ ∀ (env : Env) (op : Structural) (w w' : World) (e : DbError),
    op.run env w = (.error e, w') → Unchanged w w' := by
  intro hall
  obtain ⟨e, w', hrun, hversion⟩ := rotateMemtable_reopen_fails ⟨crates, "db", 4194304⟩
    (reopenFails_fifthCallFails ⟨crates, "db", 4194304⟩)
  have hsame := (hall _ .rotateMemtable _ _ _ hrun).version
  have hnext := hversion.symm.trans hsame
  simp at hnext

end EasyLsm.Db
