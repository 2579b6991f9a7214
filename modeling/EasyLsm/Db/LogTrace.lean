import Mathlib.Data.List.Basic
import EasyLsm.Db.LogFiles
import EasyLsm.Db.Publish

/-!
# Unwritten logs at every crash point

`Unwritten` speaks of the state behind an operation. `StaysUnwritten` speaks of every directory on
the way as well: whatever a crash leaves, the logs above the active one hold at most their magic
number.
-/

namespace EasyLsm.Db

open Lib Lib.FileStore

variable {env : Env} {w w' w₀ : World} {b : UInt32} {α β : Type}

/-- The logs above `b` hold at most their magic number. -/
def UnwrittenIn (b : UInt32) (dir : Dir) : Prop := ∀ id, b < id → walFile dir id <+: Wal.magicBytes

theorem UnwrittenIn.of_agree {dir dir' : Dir} (h : UnwrittenIn b dir)
    (hagree : Agree IsLog dir dir') :
    UnwrittenIn b dir' := fun id hid => walFile_congr (hagree.read ⟨id, rfl⟩) ▸ h id hid

/-- Bytes are appended to the log of the mutable memtable. -/
theorem UnwrittenIn.append (hlog : LogUpTo b w) (h : UnwrittenIn b w.dir) (bytes : Bytes) :
    UnwrittenIn b (w.dir.append w.current.mutableWal.inode bytes) := by
  intro id hid
  have hfree : Free (· ≠ .wal w.current.mutableWal.id) w.dir w.current.mutableWal.inode :=
    free_of_mem (by simp) hlog.1
  have hne : FileName.wal id ≠ .wal w.current.mutableWal.id := fun heq =>
    UInt32.not_lt.mpr hlog.2 (FileName.wal.inj heq ▸ hid)
  have hread :=
    (agree_setContent hfree (w.dir.content w.current.mutableWal.inode ++ bytes)).read hne
  exact (walFile_congr hread) ▸ h id hid

/-- The program keeps the logs unwritten, in every directory on the way. -/
def StaysUnwritten (b : UInt32) (w₀ : World) (x : Op α) : Prop :=
  Prog.Spec (Throughout (UnwrittenIn b) w₀) x (fun _ => Throughout (UnwrittenIn b) w₀)
    fun _ => Throughout (UnwrittenIn b) w₀

namespace StaysUnwritten

/-- From every state the directories on the way are unwritten. -/
theorem of_throughout {x : Op α} (h : ∀ w, UnwrittenIn b w.dir → Prog.Spec (· = w) x
    (fun _ => Throughout (UnwrittenIn b) w) fun _ => Throughout (UnwrittenIn b) w) :
    StaysUnwritten b w₀ x := by
  refine Prog.Spec.of_forall fun w hw => ?_
  exact (h w hw.2).weaken (fun _ heq => heq) (fun _ _ hafter => hw.trans hafter)
    fun _ _ hafter => hw.trans hafter

/-- A program that touches no log. -/
theorem of_calm {x : Op α} (h : ∀ w, Calm IsLog w x) : StaysUnwritten b w₀ x := by
  refine of_throughout fun w hw => (h w).weaken (fun _ heq => heq ▸ Quiet.refl _ _) ?_ ?_
  · exact fun _ _ hquiet => hquiet.throughout.mono fun _ hd => hw.of_agree hd
  · exact fun _ _ hquiet => hquiet.throughout.mono fun _ hd => hw.of_agree hd

theorem bind {x : Op α} {f : α → Op β} (hx : StaysUnwritten b w₀ x)
    (hf : ∀ a, StaysUnwritten b w₀ (f a)) : StaysUnwritten b w₀ (x >>= f) := Prog.Spec.bind hx hf

theorem pure (a : α) : StaysUnwritten b w₀ (Pure.pure a : Op α) := Prog.Spec.pure fun _ h => h

theorem fail (e : DbError) : StaysUnwritten b w₀ (Prog.fail e : Op α) := Prog.Spec.fail fun _ h => h

theorem read (f : World → α) : StaysUnwritten b w₀ (Prog.read f) := Prog.Spec.read fun _ h => h

theorem ofExcept (x : Except DbError α) : StaysUnwritten b w₀ (Prog.ofExcept x) :=
  Prog.Spec.ofExcept (fun _ _ _ h => h) fun _ _ _ h => h

theorem attempt {x : Op α} (h : StaysUnwritten b w₀ x) : StaysUnwritten b w₀ x.attempt :=
  Prog.Spec.attempt h

theorem forEach {f : α → Op β} {l : List α} (h : ∀ a ∈ l, StaysUnwritten b w₀ (f a)) :
    StaysUnwritten b w₀ (Prog.forEach f l) := Prog.Spec.forEach_const h

end StaysUnwritten

/-! ## I/O calls -/

/-- The directory goes through states that are unwritten. -/
theorem throughout_through {P : Dir → Prop} {dirs : List Dir} (hdirs : ∀ d ∈ dirs, P d)
    (hw : P w.dir) {faults : List (Option Fault)} :
    Throughout P w { w with faults, dir := dirs.getLastD w.dir, trace := w.trace ++ dirs } := by
  refine ⟨⟨dirs, rfl, hdirs⟩, ?_⟩
  show P (dirs.getLastD w.dir)
  rw [List.getLastD_eq_getLast?]
  cases hlast : dirs.getLast? with
  | none => exact hw
  | some d => exact hdirs d (List.mem_of_getLast? hlast)

theorem throughout_same {P : Dir → Prop} (hw : P w.dir) {faults : List (Option Fault)} :
    Throughout P w { w with faults } := ⟨⟨[], (List.append_nil _).symm, by simp⟩, hw⟩

/-- A log is opened; a new one gets its magic number step by step. -/
theorem openWal_staysUnwritten (id : UInt32) : StaysUnwritten b w₀ (openWal id) := by
  refine StaysUnwritten.of_throughout fun w hw => ?_
  rintro w rfl
  rcases hopen : w.dir.openOrCreate (.wal id) with ⟨inode, dir⟩
  have hcontent : dir.content inode = walFile w.dir id := content_openOrCreate hopen
  have hname : (FileName.wal id, inode) ∈ dir.names :=
    ((openOrCreate_spec hopen).1 _ _).mpr (.inl ⟨rfl, rfl⟩)
  have hagree : Agree (· ≠ .wal id) w.dir dir := (agree_openOrCreate (by simp) hopen).1
  have hfree : Free (· ≠ .wal id) dir inode := free_of_mem (by simp) hname
  have hsteps : ∀ bytes, bytes <+: Wal.magicBytes → ∀ d ∈ writeSteps dir inode bytes,
      UnwrittenIn b d := by
    intro bytes hbytes d hd id' hid'
    obtain ⟨n, _, rfl⟩ := List.mem_map.mp hd
    by_cases heq : id' = id
    · have hname' : (FileName.wal id', inode) ∈ (dir.setContent inode (bytes.take n)).names :=
        heq ▸ hname
      rw [walFile, read_of_mem hname', Option.getD_some, content_setContent_self]
      exact (List.take_prefix n bytes).trans hbytes
    · rw [walFile_congr
        ((hagree.trans (agree_setContent hfree _)).read fun hn => heq (FileName.wal.inj hn))]
      exact hw id' hid'
  simp only [openWal, Prog.bind_apply, nextFault_run, Prog.read, hopen, hcontent]
  cases w.faults.headD none with
  | none =>
      cases hfile : Wal.openWritable (walFile w.dir id) with
      | error e => exact throughout_same hw
      | ok bytes =>
          by_cases hnil : (walFile w.dir id).length = 0
          · have hbytes : bytes = Wal.magicBytes := by
              rw [List.length_eq_zero_iff.mp hnil] at hfile
              exact openWritable_prefix List.nil_prefix hfile
            simp only [if_pos hnil]
            exact throughout_through (hsteps bytes (hbytes ▸ List.prefix_refl _)) hw
          · simp only [if_neg hnil]
            exact throughout_same hw
  | some f =>
      obtain ⟨taken, kind⟩ := f
      cases taken with
      | zero => exact throughout_same hw
      | succ taken =>
          by_cases hnil : (walFile w.dir id).length = 0
          · simp only [if_pos hnil]
            exact throughout_through (hsteps _ (List.take_prefix taken _)) hw
          · simp only [if_neg hnil]
            exact throughout_same hw

/-- A file is removed. -/
theorem removeFile_staysUnwritten (name : FileName) : StaysUnwritten b w₀ (removeFile name) := by
  refine StaysUnwritten.of_throughout fun w hw => ?_
  rintro w rfl
  simp only [removeFile, Prog.bind_apply, nextFault_run, Prog.read]
  have hunlink : ∀ d ∈ [w.dir.unlink name], UnwrittenIn b d := by
    intro d hd id hid
    rw [List.mem_singleton.mp hd]
    by_cases heq : FileName.wal id = name
    · have hnone : (w.dir.unlink name).read (.wal id) = none := by
        refine Option.map_eq_none_iff.mpr (lookup_eq_none.mpr fun i hi => ?_)
        exact (mem_unlink.mp hi).2 heq
      rw [walFile, hnone]
      exact List.nil_prefix
    · have hagree : Agree (· ≠ name) w.dir (w.dir.unlink name) := agree_unlink (by simp)
      rw [walFile_congr (hagree.read heq)]
      exact hw id hid
  cases w.faults.headD none with
  | some f => exact throughout_same hw
  | none =>
      cases w.dir.lookup name with
      | none => exact throughout_same hw
      | some inode => exact throughout_through hunlink hw

/-! ## Operations -/

/-- A commit touches no log, unless its closure does. -/
theorem applyAtomicUpdate_staysUnwritten {mutator : Manifest → Op Manifest}
    (h : ∀ m, StaysUnwritten b w₀ (mutator m)) (attempts : Nat) :
    StaysUnwritten b w₀ (applyAtomicUpdate env mutator attempts) := by
  have htmp : ∀ v, ¬ IsLog (.mfTmp v) := fun v ⟨id, hid⟩ => by cases hid
  have hmf : ∀ v, ¬ IsLog (.mf v) := fun v ⟨id, hid⟩ => by cases hid
  induction attempts with
  | zero => exact StaysUnwritten.fail _
  | succ attempts ih =>
      refine (StaysUnwritten.read _).bind fun guard => (h guard).bind fun c => ?_
      refine (StaysUnwritten.of_calm fun _ => writeToPath_calm env _ (htmp _)).bind fun _ => ?_
      refine (StaysUnwritten.read _).bind fun guard' => Prog.Spec.ite (fun _ => ?_) fun _ => ?_
      · exact (removeFile_staysUnwritten _).attempt.bind fun _ => ih
      · refine (StaysUnwritten.of_calm fun _ => renameFile_calm (htmp _) (hmf _)).attempt.bind
          fun res => ?_
        cases res with
        | error e => exact (removeFile_staysUnwritten _).attempt.bind fun _ => StaysUnwritten.fail e
        | ok => exact Prog.Spec.bind (Prog.Spec.modify fun _ h => h) fun _ => StaysUnwritten.pure _

theorem switchMemtable_staysUnwritten (env : Env) : StaysUnwritten b w₀ (switchMemtable env) := by
  refine (applyAtomicUpdate_staysUnwritten (fun m => ?_) 3).bind fun m => ?_
  · exact (openWal_staysUnwritten _).bind fun _ => StaysUnwritten.ofExcept _
  · split
    · exact StaysUnwritten.fail _
    · refine (openWal_staysUnwritten _).bind fun wal => (StaysUnwritten.read _).bind fun current =>
        ?_
      exact Prog.Spec.bind (Prog.Spec.modify fun _ h => h) fun _ => StaysUnwritten.pure _

/-- The logs above `b` are unwritten in every directory from `w` on. -/
abbrev TraceUnwritten (b : UInt32) (w : World) (x : Op α) : Prop :=
  Prog.Spec (· = w) x (fun _ => Throughout (UnwrittenIn b) w) fun _ => Throughout (UnwrittenIn b) w

theorem StaysUnwritten.of_state {x : Op α} (hx : StaysUnwritten b w x) (h : Unwritten b w) :
    TraceUnwritten b w x := by
  refine hx.weaken (fun v hv => ?_) (fun _ _ h => h) fun _ _ h => h
  subst hv
  exact ⟨⟨[], (List.append_nil _).symm, by simp⟩, h⟩

/-- A rotation, which may drop what the old log held back. -/
theorem rotateMemtable_traceUnwritten (env : Env) (hlog : LogUpTo b w) (h : Unwritten b w) :
    TraceUnwritten b w (rotateMemtable env) := by
  have hswitch := (@switchMemtable_spec env (fun _ => False) w (by simp) (by simp)).and
    ((switchMemtable_staysUnwritten env).of_state h)
  refine Prog.Spec.bind_forall (hswitch.weaken (fun _ h => h) (fun _ _ h => h) fun _ _ h => h.2)
    fun wal v hv => ?_
  obtain ⟨⟨rfl, hswitched, _⟩, hunwritten⟩ := hv
  have hfree := hswitched.free_above hlog
  refine (WalHandle.drop_spec _ v).weaken (fun _ h => h) (fun _ w' hdropped => ?_) fun _ _ h => h
  refine hunwritten.trans ((hdropped.quiet hfree).throughout.mono fun d hd id hid => ?_)
  rw [walFile_congr (hd.read ⟨id, hid, rfl⟩)]
  exact hunwritten.2 id hid

theorem collectGarbage_staysUnwritten (env : Env) : StaysUnwritten b w₀ (collectGarbage env) := by
  have hdelete : ∀ name, StaysUnwritten b w₀ (deleteFile name) := fun name =>
    (removeFile_staysUnwritten name).attempt.bind fun _ => StaysUnwritten.pure _
  have hreferenced : ∀ version, StaysUnwritten b w₀ (referencedBy env version) := by
    intro version
    refine (StaysUnwritten.of_calm fun _ => openFile_calm _).attempt.bind fun res => ?_
    cases res with
    | error e => exact StaysUnwritten.pure _
    | ok inode =>
        refine (StaysUnwritten.read _).bind fun dir => ?_
        split <;> exact StaysUnwritten.pure _
  refine (StaysUnwritten.read _).bind fun m => ?_
  refine (StaysUnwritten.of_calm fun _ => nextFault_calm).bind fun fault => ?_
  cases fault with
  | some f => exact StaysUnwritten.pure _
  | none =>
      refine (StaysUnwritten.read _).bind fun dir => ?_
      refine (StaysUnwritten.forEach fun v _ => hreferenced v).bind fun kept => ?_
      refine (StaysUnwritten.forEach fun v _ => hdelete _).bind fun _ => ?_
      exact (StaysUnwritten.forEach fun n _ => hdelete n).bind fun _ => StaysUnwritten.pure _

/-- The last part of a flush and of a compaction. -/
theorem publish_staysUnwritten (env : Env) (f : Manifest → Except DbError Manifest)
    (g : Version → Version) : StaysUnwritten b w₀
      (applyAtomicUpdate env (fun m => Prog.ofExcept (f m)) 3 >>= fun _ =>
        (Prog.modify fun w => { w with current := g w.current }) >>= fun _ => collectGarbage env) :=
  (applyAtomicUpdate_staysUnwritten (fun _ => StaysUnwritten.ofExcept _) 3).bind fun _ =>
    Prog.Spec.bind (Prog.Spec.modify fun _ h => h) fun _ => collectGarbage_staysUnwritten env

theorem flushMemtables_staysUnwritten (env : Env) : StaysUnwritten b w₀ (flushMemtables env) := by
  refine (StaysUnwritten.read _).bind fun currentVersion => ?_
  refine Prog.Spec.ite (fun _ => StaysUnwritten.pure _) fun _ => ?_
  refine (StaysUnwritten.of_calm fun _ => reserveSstableId_calm).bind fun startSstId => ?_
  refine (StaysUnwritten.read _).bind fun m => Prog.Spec.ite (fun _ => StaysUnwritten.fail _)
    fun _ => ?_
  refine (StaysUnwritten.of_calm fun _ => Calm.forEach
    fun p _ => flushTable_calm isLog_sst _ _).bind
    fun newSstables => ?_
  refine (StaysUnwritten.of_calm fun _ => openNewTables_calm _ _).bind fun newSstObjs => ?_
  exact publish_staysUnwritten env _ _

theorem executeCompaction_staysUnwritten (env : Env) (sourceLevelIdx : Nat)
    (all source target : List FileMetadata) (targetFileSize : UInt64) : StaysUnwritten b w₀
      (executeCompaction env sourceLevelIdx all source target targetFileSize) := by
  refine (StaysUnwritten.of_calm fun _ => mergeFiles_calm isLog_sst targetFileSize all).bind
    fun p => ?_
  obtain ⟨newFiles, newSstObjs⟩ := p
  exact publish_staysUnwritten env _ _

/-- A structural operation, whether it fails or not. -/
theorem Structural.traceUnwritten (env : Env) (op : Structural) (hlog : LogUpTo b w)
    (h : Unwritten b w) : TraceUnwritten b w (op.run env) := by
  cases op with
  | rotateMemtable => exact rotateMemtable_traceUnwritten env hlog h
  | flushMemtables => exact (flushMemtables_staysUnwritten env).of_state h
  | compactL0 targetFileSize =>
      refine StaysUnwritten.of_state ((StaysUnwritten.read _).bind fun manifest => ?_) h
      simp only
      split
      · exact executeCompaction_staysUnwritten env _ _ _ _ _
      · exact StaysUnwritten.pure _
  | compactLn levelIdx targetFileSize =>
      refine StaysUnwritten.of_state ((StaysUnwritten.read _).bind fun manifest => ?_) h
      split
      · exact StaysUnwritten.pure _
      · exact executeCompaction_staysUnwritten env _ _ _ _ _

end EasyLsm.Db
