import Mathlib.Data.List.Basic
import EasyLsm.Db.Recover
import EasyLsm.Db.Write
import EasyLsm.Db.Compact
import EasyLsm.Lib.FileFrame

/-!
# What an operation leaves alone

`Quiet keep w₀ w` says that of the state `w₀` everything is left that matters for a set `keep` of
files: the version, the manifest up to the counter of table ids, and these files, in every directory
on the way. `Calm keep w₀ x` says that the program `x` keeps it so, whether it fails or not. The
I/O calls are calm when they touch no file of `keep`, and so is what is built from them.
-/

namespace EasyLsm.Db

open Lib Lib.FileStore

/-- From `w₀` to `w` only files outside of `keep` and the counter of table ids changed. -/
structure Quiet (keep : FileName → Prop) (w₀ w : World) : Prop where
  manifest : ∃ id, w.manifest = { w₀.manifest with nextSstableId := id }
  current : w.current = w₀.current
  nextLsn : w.nextLsn = w₀.nextLsn
  faults : w₀.faults = [] → w.faults = []
  dir : Agree keep w₀.dir w.dir
  trace : ∃ dirs, w.trace = w₀.trace ++ dirs ∧ ∀ d ∈ dirs, Agree keep w₀.dir d

/-- The program changes only files outside of `keep` and the counter of table ids. -/
def Calm {α : Type} (keep : FileName → Prop) (w₀ : World) (x : Op α) : Prop :=
  Prog.Spec (Quiet keep w₀) x (fun _ => Quiet keep w₀) fun _ => Quiet keep w₀

variable {keep : FileName → Prop} {w₀ w w' : World} {α β : Type}

namespace Quiet

theorem refl (keep : FileName → Prop) (w : World) : Quiet keep w w :=
  ⟨⟨_, rfl⟩, rfl, rfl, id, Agree.refl keep w.dir, [], (List.append_nil _).symm, by simp⟩

theorem trans (h : Quiet keep w₀ w) (h' : Quiet keep w w') : Quiet keep w₀ w' where
  manifest := by
    obtain ⟨id, hid⟩ := h.manifest
    obtain ⟨id', hid'⟩ := h'.manifest
    exact ⟨id', by rw [hid', hid]⟩
  current := h'.current.trans h.current
  nextLsn := h'.nextLsn.trans h.nextLsn
  faults := h'.faults ∘ h.faults
  dir := h.dir.trans h'.dir
  trace := by
    obtain ⟨dirs, htrace, hdirs⟩ := h.trace
    obtain ⟨dirs', htrace', hdirs'⟩ := h'.trace
    refine ⟨dirs ++ dirs', by rw [htrace', htrace, List.append_assoc], fun d hd => ?_⟩
    rcases List.mem_append.mp hd with hd | hd
    · exact hdirs d hd
    · exact h.dir.trans (hdirs' d hd)

theorem mono {keep' : FileName → Prop} (h : Quiet keep w₀ w) (hkeep : ∀ n, keep' n → keep n) :
    Quiet keep' w₀ w where
  manifest := h.manifest
  current := h.current
  nextLsn := h.nextLsn
  faults := h.faults
  dir := h.dir.mono hkeep
  trace := by
    obtain ⟨dirs, htrace, hdirs⟩ := h.trace
    exact ⟨dirs, htrace, fun d hd => (hdirs d hd).mono hkeep⟩

/-- A call that only takes its fault. -/
theorem tail (h : Quiet keep w₀ w) : Quiet keep w₀ { w with faults := w.faults.tail } where
  manifest := h.manifest
  current := h.current
  nextLsn := h.nextLsn
  faults hnil := by
    show w.faults.tail = []
    rw [h.faults hnil]
    rfl
  dir := h.dir
  trace := h.trace

/-- The directory goes through states that agree. -/
theorem through (h : Quiet keep w₀ w) {dirs : List Dir}
    (hdirs : ∀ d ∈ dirs, Agree keep w₀.dir d) :
    Quiet keep w₀ { w with dir := dirs.getLastD w.dir, trace := w.trace ++ dirs } where
  manifest := h.manifest
  current := h.current
  nextLsn := h.nextLsn
  faults := h.faults
  dir := by
    rw [List.getLastD_eq_getLast?]
    cases hlast : dirs.getLast? with
    | none => exact h.dir
    | some d => exact hdirs d (List.mem_of_getLast? hlast)
  trace := by
    obtain ⟨before, htrace, hbefore⟩ := h.trace
    refine ⟨before ++ dirs, by rw [htrace, List.append_assoc], fun d hd => ?_⟩
    rcases List.mem_append.mp hd with hd | hd
    · exact hbefore d hd
    · exact hdirs d hd

end Quiet

/-! ## Rules -/

namespace Calm

theorem pure (a : α) : Calm keep w₀ (Pure.pure a : Op α) := Prog.Spec.pure fun _ h => h

theorem fail (e : DbError) : Calm keep w₀ (Prog.fail e : Op α) := Prog.Spec.fail fun _ h => h

theorem read (f : World → α) : Calm keep w₀ (Prog.read f) := Prog.Spec.read fun _ h => h

theorem ofExcept (x : Except DbError α) : Calm keep w₀ (Prog.ofExcept x) :=
  Prog.Spec.ofExcept (fun _ _ _ h => h) fun _ _ _ h => h

theorem bind {x : Op α} {f : α → Op β} (hx : Calm keep w₀ x) (hf : ∀ a, Calm keep w₀ (f a)) :
    Calm keep w₀ (x >>= f) := Prog.Spec.bind hx hf

theorem attempt {x : Op α} (h : Calm keep w₀ x) : Calm keep w₀ x.attempt := Prog.Spec.attempt h

theorem mapError {x : Op α} (h : Calm keep w₀ x) (g : DbError → DbError) :
    Calm keep w₀ (x.mapError g) := Prog.Spec.mapError h

theorem forEach {f : α → Op β} {l : List α} (h : ∀ a ∈ l, Calm keep w₀ (f a)) :
    Calm keep w₀ (Prog.forEach f l) := Prog.Spec.forEach_const h

/-- After a program that returns something with a property. -/
theorem bind_of {x : Op α} {f : α → Op β} {p : α → Prop}
    (hx : Prog.Spec (Quiet keep w₀) x (fun a w => p a ∧ Quiet keep w₀ w) fun _ => Quiet keep w₀)
    (hf : ∀ a, p a → Calm keep w₀ (f a)) : Calm keep w₀ (x >>= f) := by
  refine Prog.Spec.bind hx fun a => ?_
  rintro w ⟨ha, hw⟩
  exact hf a ha w hw

/-- The state after a calm program. -/
theorem quiet {x : Op α} (h : Calm keep w₀ x) {w : World} (hw : Quiet keep w₀ w) :
    Quiet keep w₀ (x w).2 := by
  have hx := h w hw
  rcases hrun : x w with ⟨e | a, w'⟩ <;> rw [hrun] at hx <;> exact hx

end Calm

/-! ## I/O calls -/

theorem nextFault_run (w : World) :
    nextFault w = (.ok (w.faults.headD none), { w with faults := w.faults.tail }) := by
  unfold nextFault
  cases hfaults : w.faults with
  | nil =>
      cases w
      cases hfaults
      rfl
  | cons fault faults => rfl

theorem nextFault_calm : Calm keep w₀ nextFault := by
  intro w hw
  rw [nextFault_run]
  exact hw.tail

theorem through_calm {dirs : List Dir} (hdirs : ∀ d ∈ dirs, Agree keep w₀.dir d) :
    Calm keep w₀ (through dirs) := Prog.Spec.modify fun _ hw => hw.through hdirs

/-- The current directory, which agrees with the first one. -/
theorem readDir_spec : Prog.Spec (Quiet keep w₀) (Prog.read World.dir : Op Dir)
    (fun d w => Agree keep w₀.dir d ∧ Quiet keep w₀ w) fun _ => Quiet keep w₀ :=
  Prog.Spec.read fun _ hw => ⟨hw.dir, hw⟩

theorem agree_writeSteps {dir : Dir} {inode : Nat} (hdir : Agree keep w₀.dir dir)
    (hfree : Free keep w₀.dir inode) (bytes : Bytes) :
    ∀ d ∈ writeSteps dir inode bytes, Agree keep w₀.dir d := by
  intro d hd
  obtain ⟨n, _, rfl⟩ := List.mem_map.mp hd
  exact hdir.trans (agree_setContent (hdir.free.mpr hfree) _)

/-- Writing to a file that no name of `keep` points to. -/
theorem writeFile_calm {inode : Nat} (hfree : Free keep w₀.dir inode) (bytes : Bytes) :
    Calm keep w₀ (writeFile inode bytes) := by
  refine nextFault_calm.bind fun fault => Calm.bind_of readDir_spec fun dir hdir => ?_
  cases fault with
  | none => exact through_calm (agree_writeSteps hdir hfree bytes)
  | some f => exact (through_calm (agree_writeSteps hdir hfree _)).bind fun _ => Calm.fail _

/-- Creating a file with a name outside of `keep`. -/
theorem createFile_spec {name : FileName} (hname : ¬ keep name) :
    Prog.Spec (Quiet keep w₀) (createFile name)
      (fun inode w => Free keep w₀.dir inode ∧ Quiet keep w₀ w) fun _ => Quiet keep w₀ := by
  refine Prog.Spec.bind nextFault_calm fun fault => Prog.Spec.bind readDir_spec fun dir => ?_
  rintro w ⟨hdir, hw⟩
  cases fault with
  | none =>
      rcases hcreate : dir.create name with ⟨inode, dir'⟩
      obtain ⟨hagree, hfree⟩ := agree_create hname hcreate
      refine ⟨hdir.free.mp hfree, hw.through fun d hd => ?_⟩
      rw [List.mem_singleton.mp hd]
      exact hdir.trans hagree
  | some f => exact hw

theorem openFile_calm (name : FileName) : Calm keep w₀ (openFile name) := by
  refine nextFault_calm.bind fun fault => (Calm.read World.dir).bind fun dir => ?_
  split
  · exact Calm.fail _
  · exact Calm.fail _
  · exact Calm.pure _

/-- Renaming a file, with both names outside of `keep`. -/
theorem renameFile_calm {old new : FileName} (hold : ¬ keep old) (hnew : ¬ keep new) :
    Calm keep w₀ (renameFile old new) := by
  refine nextFault_calm.bind fun fault => Calm.bind_of readDir_spec fun dir hdir => ?_
  split
  · exact Calm.fail _
  · exact Calm.fail _
  · rename_i dir' hrename
    refine through_calm fun d hd => ?_
    rw [List.mem_singleton.mp hd]
    exact hdir.trans (agree_rename hold hnew hrename)

/-- Removing a file whose name is outside of `keep`. -/
theorem removeFile_calm {name : FileName} (hname : ¬ keep name) :
    Calm keep w₀ (removeFile name) := by
  refine nextFault_calm.bind fun fault => Calm.bind_of readDir_spec fun dir hdir => ?_
  split
  · exact Calm.fail _
  · exact Calm.fail _
  · refine through_calm fun d hd => ?_
    rw [List.mem_singleton.mp hd]
    exact hdir.trans (agree_unlink hname)

/-! ## Logs and the manifest -/

/-- Opening a log whose name is outside of `keep`. -/
theorem openWal_calm {id : UInt32} (hname : ¬ keep (.wal id)) : Calm keep w₀ (openWal id) := by
  refine nextFault_calm.bind fun fault => Calm.bind_of readDir_spec fun dir hdir => ?_
  rcases hopen : dir.openOrCreate (.wal id) with ⟨inode, dir'⟩
  obtain ⟨hagree, hfree⟩ := agree_openOrCreate hname hopen
  have hdir' := hdir.trans hagree
  have hsteps := fun bytes => @agree_writeSteps keep w₀ _ _ hdir' (hdir.free.mp hfree) bytes
  simp only
  split
  · split
    · exact Calm.fail _
    · split
      · exact (through_calm (hsteps _)).bind fun _ => Calm.pure _
      · exact Calm.pure _
  · exact Calm.fail _
  · split
    · exact (through_calm (hsteps _)).bind fun _ => Calm.fail _
    · exact Calm.fail _

/-- Writing a manifest under a name outside of `keep`. -/
theorem writeToPath_calm (env : Env) (m : Manifest) {name : FileName} (hname : ¬ keep name) :
    Calm keep w₀ (writeToPath env m name) :=
  Calm.bind_of (createFile_spec hname) fun _ hfree => writeFile_calm hfree _

theorem reserveSstableId_calm : Calm keep w₀ reserveSstableId := by
  refine (Calm.read World.manifest).bind fun guard => ?_
  refine Calm.bind (Prog.Spec.modify fun w hw => ?_) fun _ => Calm.pure _
  obtain ⟨id, hid⟩ := hw.manifest
  exact ⟨⟨_, by rw [hid]⟩, hw.current, hw.nextLsn, hw.faults, hw.dir, hw.trace⟩

/-! ## Tables -/

theorem openTable_calm (env : Env) (id : UInt32) : Calm keep w₀ (openTable env id) :=
  (openFile_calm _).bind fun _ => (Calm.read World.dir).bind fun _ =>
    (Calm.ofExcept _).bind fun _ => Calm.pure _

/-- Creating a table with a name outside of `keep`. -/
theorem newTable_spec {name : FileName} (hname : ¬ keep name) :
    Prog.Spec (Quiet keep w₀) (TableWriter.new name)
      (fun t w => Free keep w₀.dir t.inode ∧ Quiet keep w₀ w) fun _ => Quiet keep w₀ :=
  (createFile_spec hname).bind fun _ => Prog.Spec.pure fun _ h => h

theorem writeTable_spec (env : Env) {t : TableWriter} (hfree : Free keep w₀.dir t.inode)
    (key : Key) (value : Value) : Prog.Spec (Quiet keep w₀) (t.write env key value)
      (fun t' w => Free keep w₀.dir t'.inode ∧ Quiet keep w₀ w) fun _ => Quiet keep w₀ := by
  refine Prog.Spec.bind nextFault_calm fun fault => ?_
  cases fault with
  | none => exact Prog.Spec.pure fun w hw => ⟨hfree, hw⟩
  | some f =>
      refine Prog.Spec.bind readDir_spec fun dir => ?_
      rintro w ⟨hdir, hw⟩
      exact hw.through (agree_writeSteps hdir hfree _)

theorem currentSize_calm {t : TableWriter} (hfree : Free keep w₀.dir t.inode) :
    Calm keep w₀ t.currentSize := by
  refine nextFault_calm.bind fun fault => ?_
  cases fault with
  | none => exact Calm.pure _
  | some f =>
      refine Calm.bind_of readDir_spec fun dir hdir => ?_
      exact (through_calm (agree_writeSteps hdir hfree _)).bind fun _ => Calm.fail _

theorem dropTable_calm {t : TableWriter} (hfree : Free keep w₀.dir t.inode) :
    Calm keep w₀ t.drop := by
  unfold TableWriter.drop
  split
  · exact Calm.pure _
  · exact nextFault_calm.bind fun fault => Calm.bind_of readDir_spec fun dir hdir =>
      through_calm (agree_writeSteps hdir hfree _)

theorem finalize_calm (env : Env) {t : TableWriter} (hfree : Free keep w₀.dir t.inode) :
    Calm keep w₀ (t.finalize env) := (writeFile_calm hfree _).bind fun _ => Calm.pure _

end EasyLsm.Db
