import Mathlib.Data.List.Basic
import EasyLsm.Db.Mirror
import EasyLsm.Db.Shelf

/-!
# Starting again

`Db::new` on a directory that holds the manifest and its tables (`Recovered`): the listed logs are
replayed, the last one into the mutable memtable, the listed tables are opened, and the next LSN is
the one behind the last entry of the last log. The directory stays as it is.
-/

namespace EasyLsm.Db

open Lib Lib.FileStore

variable {env : Env} {w w' w₀ : World} {shelf : List (List (OpenTable env.crates))}

/-- Replaying the log gives the entries. -/
def Replays (env : Env) (dir : Dir) (id : UInt32) (es : List Entry) : Prop :=
  ∃ file, dir.read (.wal id) = some file ∧ Wal.replay env.crates.crc32 file = .ok es

/-- A log is replayed to one list of entries. -/
theorem Replays.unique {dir : Dir} {id : UInt32} {es es' : List Entry} (h : Replays env dir id es)
    (h' : Replays env dir id es') : es' = es := by
  obtain ⟨file, hread, hreplay⟩ := h
  obtain ⟨file', hread', hreplay'⟩ := h'
  cases hread.symm.trans hread'
  exact Except.ok.inj (hreplay'.symm.trans hreplay)

/-- A log that can be replayed is not empty. -/
theorem Replays.walFile_ne_nil {dir : Dir} {id : UInt32} {es : List Entry}
    (h : Replays env dir id es) : walFile dir id ≠ [] := by
  obtain ⟨file, hread, hreplay⟩ := h
  rw [walFile, hread, Option.getD_some]
  rintro rfl
  cases hreplay

theorem replayWal_reads (env : Env) (w₀ : World) (walId : UInt32) :
    Prog.Spec (Reads w₀) (replayWal env walId)
      (fun es w => Replays env w₀.dir walId es ∧ Reads w₀ w) (fun _ _ => True) := by
  refine Prog.Spec.bind nextFault_reads fun fault => ?_
  intro w hw
  obtain ⟨_, hreads⟩ := hw
  obtain ⟨_, rfl, _⟩ := id hreads
  simp only [Prog.bind_apply, Prog.read]
  cases hread : w₀.dir.read (.wal walId) with
  | none => trivial
  | some file =>
      cases fault with
      | some f => trivial
      | none =>
          simp only [Prog.ofExcept]
          cases hreplay : Wal.replay env.crates.crc32 file with
          | error e => trivial
          | ok es => exact ⟨⟨file, hread, hreplay⟩, hreads⟩

/-- The manifest that is on the disk is opened. -/
theorem recoverOrInit_reads (h : OnDisk env w.dir w.manifest) :
    Prog.Spec (· = w) (recoverOrInit env) (fun m w' => m = reopened w.manifest ∧ Reads w w')
      (fun _ _ => True) := by
  refine Prog.Spec.bind_forall (Q := fun d w' => d = w.dir ∧ w' = w)
    (Prog.Spec.read fun _ hw => ⟨by rw [hw], hw⟩) fun d w' hd => ?_
  obtain ⟨rfl, rfl⟩ := hd
  rw [show Manifest.recover env.crates.crc32 env.dbDir w'.dir = _ from h]
  refine Prog.Spec.bind nextFault_from fun fault => ?_
  cases fault with
  | none =>
      refine Prog.Spec.ofExcept (fun m w'' hm hw => ?_) fun _ _ _ _ => trivial
      exact ⟨(Except.ok.inj hm).symm, hw.2⟩
  | some f => exact Prog.Spec.fail fun _ _ => trivial

/-- What is recovered: the listed logs and the listed tables. -/
structure Recovered (env : Env) (dir : Dir) (m : Manifest) (state : RecoveredState) : Prop where
  frozen : ∃ logs, List.Forall₂ (Replays env dir) m.wals.dropLast logs ∧
    state.frozenMemtables = logs.map fun es => (Memtable.new.putBatch es).freeze
  mutable : ∃ id inode es, m.wals.getLast? = some id ∧ Replays env dir id es ∧
    (.wal id, inode) ∈ dir.names ∧ state.mutableWal = ⟨id, inode, []⟩ ∧
    state.mutableMemtable = Memtable.new.putBatch es ∧ state.nextLsn = lastLsn es + 1
  tables : List.Forall₂ (List.Forall₂ (OpenedFile env.crates dir)) (fileLists m) state.sstables

/-- Recovery reads and changes nothing. -/
theorem recoverState_reads (env : Env) (w₀ : World) (m : Manifest) :
    Prog.Spec (Reads w₀) (recoverState env m)
      (fun state w => Recovered env w₀.dir m state ∧ Reads w₀ w) (fun _ _ => True) := by
  unfold recoverState
  cases hlast : m.wals.getLast? with
  | none => exact Prog.Spec.fail fun _ _ => trivial
  | some walId =>
  have hfrozen : ∀ id, Prog.Spec (Reads w₀) (replayImmutableWal env id)
      (fun mt w => (∃ es, Replays env w₀.dir id es ∧ mt = (Memtable.new.putBatch es).freeze) ∧
        Reads w₀ w) fun _ _ => True :=
    fun id => (replayWal_reads env w₀ id).bind fun es => Prog.Spec.pure fun w hw =>
      ⟨⟨es, hw.1, rfl⟩, hw.2⟩
  refine Prog.Spec.bind_forall (Prog.Spec.forEach_related fun id _ => hfrozen id)
    fun frozen w hw => ?_
  obtain ⟨hfrozen, hreads⟩ := hw
  have hmutable : Prog.Spec (Reads w₀) (replayMutableWal env walId)
      (fun r w => (∃ es, Replays env w₀.dir walId es ∧ r = (Memtable.new.putBatch es, lastLsn es)) ∧
        Reads w₀ w) fun _ _ => True :=
    (replayWal_reads env w₀ walId).bind fun es => Prog.Spec.pure fun w hw => ⟨⟨es, hw.1, rfl⟩, hw.2⟩
  refine Prog.Spec.bind_forall (hmutable.weaken (fun _ hw => hw ▸ hreads) (fun _ _ h => h)
    fun _ _ h => h) fun r w hw => ?_
  obtain ⟨⟨es, hreplays, rfl⟩, hreads⟩ := hw
  -- the log has a header, so opening it does not change the file
  refine Prog.Spec.bind_forall ((openWal_run w walId).weaken (fun _ h => h) (fun _ _ h => h)
    fun _ _ _ => trivial) fun wal w₁ hopen => ?_
  obtain ⟨_, ⟨hid, hbuf⟩, ⟨_, hname⟩, _, hsame⟩ := hopen
  have hdir : w.dir = w₀.dir := by
    obtain ⟨_, rfl, _⟩ := hreads
    rfl
  have hw₁ := hsame (by rw [hdir]; exact hreplays.walFile_ne_nil)
  have hreads₁ : Reads w₀ w₁ := by
    obtain ⟨faults, rfl, hnil⟩ := hreads
    exact ⟨_, hw₁, fun hempty => by rw [hnil hempty]; rfl⟩
  have hname₀ : (.wal walId, wal.inode) ∈ w₀.dir.names := by
    rw [hw₁, hdir] at hname
    exact hname
  have hlevel : ∀ level : Level, Prog.Spec (Reads w₀)
      (Prog.forEach (fun f => openTable env f.fileId) level.files)
      (fun hs w => List.Forall₂ (OpenedFile env.crates w₀.dir) level.files hs ∧ Reads w₀ w)
      fun _ _ => True := fun level => Prog.Spec.forEach_related fun f _ =>
    (openTable_opened f.fileId).weaken (fun _ h => h) (fun _ _ h => h) fun _ _ _ => trivial
  refine Prog.Spec.bind ((Prog.Spec.forEach_related fun level _ => hlevel level).weaken
    (fun _ hw => hw ▸ hreads₁) (fun _ _ h => h) fun _ _ h => h) fun sstables =>
    Prog.Spec.pure fun w₂ hw₂ => ⟨⟨?_, ?_, ?_⟩, hw₂.2⟩
  · generalize m.wals.dropLast = ids at hfrozen
    clear hmutable hsame hw₁
    induction hfrozen with
    | nil => exact ⟨[], .nil, rfl⟩
    | cons hfirst _ ih =>
        obtain ⟨es, hreplays, rfl⟩ := hfirst
        obtain ⟨logs, hlogs, rfl⟩ := ih
        exact ⟨es :: logs, .cons hreplays hlogs, rfl⟩
  · refine ⟨walId, wal.inode, es, hlast, hreplays, hname₀, ?_, rfl, rfl⟩
    obtain ⟨id, inode, buf⟩ := wal
    cases hid
    cases hbuf
    rfl
  · rw [fileLists, List.forall₂_map_left_iff]
    exact hw₂.1

/-- The state after a start. -/
def launched (w : World) (m : Manifest) (state : RecoveredState) : World := { w with
  manifest := m
  current := {
    nextLsn := state.nextLsn
    mutableMemtable := state.mutableMemtable
    frozenMemtables := state.frozenMemtables
    mutableWal := state.mutableWal
    sstables := state.sstables }
  nextLsn := state.nextLsn }

/-- A start that succeeds on a directory that holds the manifest. -/
theorem newDb_recovered (h : OnDisk env w.dir w.manifest) (hrun : newDb env w = (.ok (), w')) :
    ∃ state faults, Recovered env w.dir w.manifest state ∧
      w' = launched { w with faults } (reopened w.manifest) state := by
  obtain ⟨m, w₁, hrecover, hrun⟩ := Prog.bind_eq_ok.mp hrun
  obtain ⟨rfl, hreads⟩ := (recoverOrInit_reads h).ok rfl hrecover
  obtain ⟨state, w₂, hstate, hrun⟩ := Prog.bind_eq_ok.mp hrun
  obtain ⟨hrecovered, faults, rfl, _⟩ := (recoverState_reads env w _).ok hreads hstate
  exact ⟨state, faults, ⟨hrecovered.frozen, hrecovered.mutable, hrecovered.tables⟩,
    (congrArg Prod.snd hrun).symm⟩

/-- An open that succeeds returns the table. -/
theorem OpenTable.handle_eq {t : OpenTable env.crates} {dir : Dir} {h : TableHandle}
    (hfiled : t.Filed dir) (hopened : OpenedFile env.crates dir t.meta' h) : h = t.handle := by
  obtain ⟨hmem, hnew⟩ := hopened
  obtain ⟨sst, inode⟩ := h
  have hinode : inode = t.inode := dir.inode_unique hmem hfiled.1
  simp only [hinode, hfiled.2, t.fileId_meta, new_writeTable t.fits t.ne_nil] at hnew
  rw [hinode, ← Except.ok.inj hnew]
  rfl

/-- A list that is related to another one by a function. -/
theorem eq_map_of_forall₂ {α β : Type} {R : α → β → Prop} {f : α → β} {as : List α} {bs : List β}
    (h : List.Forall₂ R as bs) (hR : ∀ a ∈ as, ∀ b, R a b → b = f a) : bs = as.map f := by
  induction h with
  | nil => rfl
  | @cons a b _ _ hfirst _ ih =>
      rw [List.map_cons, hR a List.mem_cons_self b hfirst,
        ih fun a' ha' => hR a' (List.mem_cons_of_mem a ha')]

/-- The tables of the shelf are opened again. -/
theorem Shelved.launched (h : Shelved env w shelf) {state : RecoveredState}
    {faults : List (Option Fault)} (hrecovered : Recovered env w.dir w.manifest state) :
    Shelved env (launched { w with faults } (reopened w.manifest) state) shelf where
  listed := h.listed
  presented := by
    have hlevel : ∀ {i hs}, List.Forall₂ (OpenedFile env.crates w.dir)
        ((Levels.get shelf i).map OpenTable.meta') hs →
        hs = (Levels.get shelf i).map OpenTable.handle :=
      fun hopened => eq_map_of_forall₂ (List.forall₂_map_left_iff.mp hopened)
        fun t ht _ => t.handle_eq (h.filed t (mem_flatten ht))
    have htables := hrecovered.tables
    rw [h.listed] at htables
    refine eq_map_of_forall₂ (List.forall₂_map_left_iff.mp htables) fun level hmem hs hopened => ?_
    obtain ⟨i, hi, rfl⟩ := List.mem_iff_getElem.mp hmem
    rw [← Levels.get_eq_getElem hi] at hopened ⊢
    exact hlevel hopened
  filed := h.filed
  nodup := h.nodup

/-- The manifest is still the one on the disk. -/
theorem OnDisk.launched (h : OnDisk env w.dir w.manifest) (state : RecoveredState)
    (faults : List (Option Fault)) :
    OnDisk env (launched { w with faults } (reopened w.manifest) state).dir
      (launched { w with faults } (reopened w.manifest) state).manifest := h

end EasyLsm.Db
