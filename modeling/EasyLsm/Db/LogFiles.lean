import Mathlib.Data.List.Basic
import EasyLsm.DataStores.WalRecovery
import EasyLsm.Db.Atomic
import EasyLsm.Db.Sweep

/-!
# Logs that nothing was written to

The log of a rotation that fails stays behind, with a part of its magic number, and the next
rotation finds it. `Unwritten b w` says that the logs above `b` have nothing else, and no operation
changes that: records go to the log of the mutable memtable only.
-/

namespace EasyLsm.Db

open Lib Lib.FileStore

variable {env : Env} {w w' w₀ : World} {b : UInt32} {α β : Type}

/-- The logs above `b` hold at most their magic number. -/
def Unwritten (b : UInt32) (w : World) : Prop := ∀ id, b < id → walFile w.dir id <+: Wal.magicBytes

/-- The log files. -/
def IsLog (n : FileName) : Prop := ∃ id, n = .wal id

theorem walFile_congr {dir dir' : Dir} {id : UInt32}
    (h : dir'.read (.wal id) = dir.read (.wal id)) : walFile dir' id = walFile dir id := by
  rw [walFile, h, walFile]

/-- A log with a part of the magic number that can be opened gets all of it. -/
theorem openWritable_prefix {file bytes : Bytes} (hfile : file <+: Wal.magicBytes)
    (h : Wal.openWritable file = .ok bytes) : bytes = Wal.magicBytes := by
  unfold Wal.openWritable at h
  split at h
  · exact (Except.ok.inj h).symm
  · obtain ⟨⟨magicBuf, r⟩, hread, hcheck⟩ := bind_ok_iff.mp h
    simp only at hcheck
    split at hcheck
    · cases hcheck
    · have hlen : 4 ≤ file.length := by
        by_contra hless
        rw [readExact, if_neg hless] at hread
        cases hread
      rw [← Except.ok.inj hcheck]
      refine hfile.eq_of_length_le ?_
      rw [Wal.magicBytes, length_leBytes]
      exact hlen

namespace Unwritten

/-- The logs above `b` are what they were. -/
theorem of_agree (h : Unwritten b w) (hagree : Agree IsLog w.dir w'.dir) : Unwritten b w' :=
  fun id hid => walFile_congr (hagree.read ⟨id, rfl⟩) ▸ h id hid

/-- The logs above `b` are what they were, except one. -/
theorem of_quiet {id : UInt32} (h : Unwritten b w) (hquiet : Quiet (· ≠ .wal id) w w')
    (hid : b < id → walFile w'.dir id <+: Wal.magicBytes) : Unwritten b w' := by
  intro id' hless
  by_cases heq : id' = id
  · exact heq ▸ hid (heq ▸ hless)
  · rw [walFile_congr (hquiet.dir.read fun hname => heq (FileName.wal.inj hname))]
    exact h id' hless

theorem mono {b' : UInt32} (h : Unwritten b w) (hle : b ≤ b') : Unwritten b' w :=
  fun id hid => h id (UInt32.lt_of_le_of_lt hle hid)

end Unwritten

/-- The program keeps logs unwritten. -/
def KeepsUnwritten (b : UInt32) (x : Op α) : Prop :=
  Prog.Spec (Unwritten b) x (fun _ => Unwritten b) fun _ => Unwritten b

namespace KeepsUnwritten

/-- A program that touches no log. -/
theorem of_calm {x : Op α} (h : ∀ w₀, Calm IsLog w₀ x) : KeepsUnwritten b x := by
  refine Prog.Spec.of_forall fun w hw => ?_
  exact (h w).weaken (fun _ heq => heq ▸ Quiet.refl _ _) (fun _ _ hquiet => hw.of_agree hquiet.dir)
    fun _ _ hquiet => hw.of_agree hquiet.dir

theorem bind {x : Op α} {f : α → Op β} (hx : KeepsUnwritten b x)
    (hf : ∀ a, KeepsUnwritten b (f a)) :
    KeepsUnwritten b (x >>= f) := Prog.Spec.bind hx hf

theorem pure (a : α) : KeepsUnwritten b (Pure.pure a : Op α) := Prog.Spec.pure fun _ h => h

theorem fail (e : DbError) : KeepsUnwritten b (Prog.fail e : Op α) := Prog.Spec.fail fun _ h => h

theorem read (f : World → α) : KeepsUnwritten b (Prog.read f) := Prog.Spec.read fun _ h => h

theorem ofExcept (x : Except DbError α) : KeepsUnwritten b (Prog.ofExcept x) :=
  Prog.Spec.ofExcept (fun _ _ _ h => h) fun _ _ _ h => h

theorem attempt {x : Op α} (h : KeepsUnwritten b x) : KeepsUnwritten b x.attempt :=
  Prog.Spec.attempt h

theorem forEach {f : α → Op β} {l : List α} (h : ∀ a ∈ l, KeepsUnwritten b (f a)) :
    KeepsUnwritten b (Prog.forEach f l) := Prog.Spec.forEach_const h

/-- From one state. -/
theorem of_state {x : Op α} (hx : KeepsUnwritten b x) (h : Unwritten b w) :
    Prog.Spec (· = w) x (fun _ => Unwritten b) fun _ => Unwritten b :=
  hx.weaken (fun _ hw => hw ▸ h) (fun _ _ h => h) fun _ _ h => h

end KeepsUnwritten

/-! ## I/O calls -/

/-- A log is opened; a new one gets its magic number, or a part of it. -/
theorem openWal_keepsUnwritten (id : UInt32) : KeepsUnwritten b (openWal id) := by
  refine Prog.Spec.of_forall fun w hw => ?_
  refine (openWal_run w id).weaken (fun _ heq => heq) ?_ ?_
  · rintro wal w' ⟨_, _, ⟨hfile, hmem⟩, hquiet, _⟩
    refine hw.of_quiet hquiet fun hless => ?_
    rw [walFile, read_of_mem hmem, Option.getD_some, openWritable_prefix (hw id hless) hfile]
  · rintro e w' ⟨_, hquiet, hsame⟩
    refine hw.of_quiet hquiet fun hless => ?_
    rcases hsame with rfl | ⟨_, hprefix⟩
    · exact hw id hless
    · exact hprefix

/-- A file is removed. -/
theorem removeFile_keepsUnwritten (name : FileName) : KeepsUnwritten b (removeFile name) := by
  refine (KeepsUnwritten.of_calm fun _ => nextFault_calm).bind fun fault => ?_
  refine Prog.Spec.bind_forall (Q := fun d w => d = w.dir ∧ Unwritten b w)
    (Prog.Spec.read fun _ h => ⟨rfl, h⟩) fun dir w hw => ?_
  obtain ⟨rfl, hw⟩ := hw
  split
  · exact Prog.Spec.fail fun _ h => h ▸ hw
  · exact Prog.Spec.fail fun _ h => h ▸ hw
  · refine Prog.Spec.modify fun _ _ id hid => ?_
    show walFile (w.dir.unlink name) id <+: Wal.magicBytes
    by_cases heq : FileName.wal id = name
    · have hnone : (w.dir.unlink name).read (.wal id) = none := by
        refine Option.map_eq_none_iff.mpr (lookup_eq_none.mpr fun i hi => ?_)
        exact (mem_unlink.mp hi).2 heq
      rw [walFile, hnone]
      exact List.nil_prefix
    · have hagree : Agree (· ≠ name) w.dir (w.dir.unlink name) := agree_unlink (by simp)
      rw [walFile_congr (hagree.read heq)]
      exact hw id hid

/-! ## Operations -/

/-- A commit touches no log, unless its closure does. -/
theorem applyAtomicUpdate_keepsUnwritten {mutator : Manifest → Op Manifest}
    (h : ∀ m, KeepsUnwritten b (mutator m)) (attempts : Nat) :
    KeepsUnwritten b (applyAtomicUpdate env mutator attempts) := by
  have htmp : ∀ v, ¬ IsLog (.mfTmp v) := fun v ⟨id, hid⟩ => by cases hid
  have hmf : ∀ v, ¬ IsLog (.mf v) := fun v ⟨id, hid⟩ => by cases hid
  induction attempts with
  | zero => exact KeepsUnwritten.fail _
  | succ attempts ih =>
      refine (KeepsUnwritten.read _).bind fun guard => (h guard).bind fun c => ?_
      refine (KeepsUnwritten.of_calm fun _ => writeToPath_calm env _ (htmp _)).bind fun _ => ?_
      refine (KeepsUnwritten.read _).bind fun guard' => Prog.Spec.ite (fun _ => ?_) fun _ => ?_
      · exact (removeFile_keepsUnwritten _).attempt.bind fun _ => ih
      · refine (KeepsUnwritten.of_calm fun _ => renameFile_calm (htmp _) (hmf _)).attempt.bind
          fun res => ?_
        cases res with
        | error e => exact (removeFile_keepsUnwritten _).attempt.bind fun _ => KeepsUnwritten.fail e
        | ok => exact Prog.Spec.bind (Prog.Spec.modify fun _ h => h) fun _ => KeepsUnwritten.pure _

theorem switchMemtable_keepsUnwritten (env : Env) : KeepsUnwritten b (switchMemtable env) := by
  refine (applyAtomicUpdate_keepsUnwritten (fun m => ?_) 3).bind fun m => ?_
  · exact (openWal_keepsUnwritten _).bind fun _ => KeepsUnwritten.ofExcept _
  · split
    · exact KeepsUnwritten.fail _
    · refine (openWal_keepsUnwritten _).bind fun wal => (KeepsUnwritten.read _).bind fun current =>
        ?_
      exact Prog.Spec.bind (Prog.Spec.modify fun _ h => h) fun _ => KeepsUnwritten.pure _

/-- The log of the mutable memtable is one of those up to `b`. -/
def LogUpTo (b : UInt32) (w : World) : Prop :=
  (.wal w.current.mutableWal.id, w.current.mutableWal.inode) ∈ w.dir.names ∧
    w.current.mutableWal.id ≤ b

/-- The inode of the old log is that of no log above `b`. -/
theorem Switched.free_above (h : Switched env w w') (hlog : LogUpTo b w) :
    Free (fun n => ∃ id, b < id ∧ n = .wal id) w'.dir w.current.mutableWal.inode := by
  refine h.free hlog.1 ?_ fun n ⟨id, _, hn⟩ => ⟨id, .inl hn⟩
  intro ⟨id, hless, hid⟩
  rw [← FileName.wal.inj hid] at hless
  exact UInt32.not_lt.mpr hlog.2 hless

/-- A rotation, which may drop what the old log held back. -/
theorem rotateMemtable_unwritten (env : Env) (hlog : LogUpTo b w) (h : Unwritten b w) :
    Prog.Spec (· = w) (rotateMemtable env) (fun _ => Unwritten b) fun _ => Unwritten b := by
  have hswitch := (@switchMemtable_spec env (fun _ => False) w (by simp) (by simp)).and
    ((switchMemtable_keepsUnwritten env).of_state h)
  refine Prog.Spec.bind_forall (hswitch.weaken (fun _ h => h) (fun _ _ h => h) fun _ _ h => h.2)
    fun wal v hv => ?_
  obtain ⟨⟨rfl, hswitched, _⟩, hunwritten⟩ := hv
  have hfree := hswitched.free_above hlog
  refine (WalHandle.drop_spec _ v).weaken (fun _ h => h) (fun _ w' hdropped id hid => ?_)
    fun _ _ h => h
  rw [walFile_congr ((hdropped.quiet hfree).dir.read ⟨id, hid, rfl⟩)]
  exact hunwritten id hid

theorem collectGarbage_keepsUnwritten (env : Env) : KeepsUnwritten b (collectGarbage env) := by
  have hdelete : ∀ name, KeepsUnwritten b (deleteFile name) := fun name =>
    (removeFile_keepsUnwritten name).attempt.bind fun _ => KeepsUnwritten.pure _
  have hreferenced : ∀ version, KeepsUnwritten b (referencedBy env version) := by
    intro version
    refine (KeepsUnwritten.of_calm fun _ => openFile_calm _).attempt.bind fun res => ?_
    cases res with
    | error e => exact KeepsUnwritten.pure _
    | ok inode =>
        refine (KeepsUnwritten.read _).bind fun dir => ?_
        split <;> exact KeepsUnwritten.pure _
  refine (KeepsUnwritten.read _).bind fun m => ?_
  refine (KeepsUnwritten.of_calm fun _ => nextFault_calm).bind fun fault => ?_
  cases fault with
  | some f => exact KeepsUnwritten.pure _
  | none =>
      refine (KeepsUnwritten.read _).bind fun dir => ?_
      refine (KeepsUnwritten.forEach fun v _ => hreferenced v).bind fun kept => ?_
      refine (KeepsUnwritten.forEach fun v _ => hdelete _).bind fun _ => ?_
      exact (KeepsUnwritten.forEach fun n _ => hdelete n).bind fun _ => KeepsUnwritten.pure _

/-- The last part of a flush and of a compaction. -/
theorem publish_keepsUnwritten (env : Env) (f : Manifest → Except DbError Manifest)
    (g : Version → Version) : KeepsUnwritten b
      (applyAtomicUpdate env (fun m => Prog.ofExcept (f m)) 3 >>= fun _ =>
        (Prog.modify fun w => { w with current := g w.current }) >>= fun _ => collectGarbage env) :=
  (applyAtomicUpdate_keepsUnwritten (fun _ => KeepsUnwritten.ofExcept _) 3).bind fun _ =>
    Prog.Spec.bind (Prog.Spec.modify fun _ h => h) fun _ => collectGarbage_keepsUnwritten env

theorem isLog_sst (id : UInt32) : ¬ IsLog (.sst id) := fun ⟨_, h⟩ => by cases h

theorem flushMemtables_keepsUnwritten (env : Env) : KeepsUnwritten b (flushMemtables env) := by
  refine (KeepsUnwritten.read _).bind fun currentVersion => ?_
  refine Prog.Spec.ite (fun _ => KeepsUnwritten.pure _) fun _ => ?_
  refine (KeepsUnwritten.of_calm fun _ => reserveSstableId_calm).bind fun startSstId => ?_
  refine (KeepsUnwritten.read _).bind fun m => Prog.Spec.ite (fun _ => KeepsUnwritten.fail _)
    fun _ => ?_
  refine (KeepsUnwritten.of_calm fun _ => Calm.forEach
    fun p _ => flushTable_calm isLog_sst _ _).bind
    fun newSstables => ?_
  refine (KeepsUnwritten.of_calm fun _ => openNewTables_calm _ _).bind fun newSstObjs => ?_
  exact publish_keepsUnwritten env _ _

theorem executeCompaction_keepsUnwritten (env : Env) (sourceLevelIdx : Nat)
    (all source target : List FileMetadata) (targetFileSize : UInt64) : KeepsUnwritten b
      (executeCompaction env sourceLevelIdx all source target targetFileSize) := by
  refine (KeepsUnwritten.of_calm fun _ => mergeFiles_calm isLog_sst targetFileSize all).bind
    fun p => ?_
  obtain ⟨newFiles, newSstObjs⟩ := p
  exact publish_keepsUnwritten env _ _

/-- A structural operation, whether it fails or not. -/
theorem Structural.unwritten (env : Env) (op : Structural) (hlog : LogUpTo b w)
    (h : Unwritten b w) :
    Prog.Spec (· = w) (op.run env) (fun _ => Unwritten b) fun _ => Unwritten b := by
  cases op with
  | rotateMemtable => exact rotateMemtable_unwritten env hlog h
  | flushMemtables => exact (flushMemtables_keepsUnwritten env).of_state h
  | compactL0 targetFileSize =>
      refine KeepsUnwritten.of_state ((KeepsUnwritten.read _).bind fun manifest => ?_) h
      simp only
      split
      · exact executeCompaction_keepsUnwritten env _ _ _ _ _
      · exact KeepsUnwritten.pure _
  | compactLn levelIdx targetFileSize =>
      refine KeepsUnwritten.of_state ((KeepsUnwritten.read _).bind fun manifest => ?_) h
      split
      · exact KeepsUnwritten.pure _
      · exact executeCompaction_keepsUnwritten env _ _ _ _ _

end EasyLsm.Db
