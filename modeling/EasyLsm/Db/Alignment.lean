import Mathlib.Data.List.Basic
import EasyLsm.Db.LastLogged

/-!
# Logs and memtables by position

The manifest lists a log for every frozen memtable and one for the mutable memtable, in this order,
and replaying the log gives the memtable (`LogsAligned`). A rotation lists the log with the next id
and leaves the next id alone; only a start advances it. `logs_aligned`: the logs stay aligned as
long as no second rotation comes before a start, and from the first one on the next id is in use,
whatever the ids of the tables are.
-/

namespace EasyLsm.Db

open Lib Lib.FileStore

variable {env : Env} {w w' : World} {j j' : LogJournal}

/-- The listed logs have increasing ids, there is one for every frozen memtable and then that of the
mutable one, and they hold what is in the memtables. -/
structure LogsAligned (env : Env) (w : World) : Prop where
  increasing : w.manifest.wals.Pairwise (· < ·)
  length : w.manifest.wals.length = w.current.frozenMemtables.length + 1
  last : w.manifest.wals.getLast? = some w.current.mutableWal.id
  contents : List.Forall₂ (fun id run => ∃ es, Replays env w.dir id es ∧
    (Memtable.new.putBatch es).store.entries = run) w.manifest.wals (memtableRuns w.current)

/-- All listed logs are below the next id. -/
def IdsBelow (w : World) : Prop := ∀ id ∈ w.manifest.wals, id < w.manifest.nextWalId

namespace Tracked

theorem idsBelow_iff (h : Tracked env w j) : IdsBelow w ↔ j.Below := by
  unfold IdsBelow
  rw [h.wals, h.next]
  rfl

theorem logsAligned (h : Tracked env w j) (haligned : j.Aligned) : LogsAligned env w where
  increasing := by
    rw [h.wals]
    exact haligned.increasing
  length := by
    rw [h.wals, h.frozen, List.length_map, Journal.ids, List.length_append, h.bounded.length]
    rfl
  last := by rw [h.wals, h.active, Journal.ids, List.getLast?_concat]
  contents := by
    have hruns : memtableRuns w.current = j.memories.map fun m => m.store.entries := by
      unfold memtableRuns
      rw [h.frozen, h.memory, List.map_map, Journal.memories, List.map_append]
      rfl
    rw [hruns, haligned.memories, h.wals, List.map_map, List.forall₂_map_right_iff,
      List.forall₂_same]
    exact fun id hid => ⟨_, h.replays hid, rfl⟩

end Tracked

namespace Follows

variable {command : Command} {r : Except DbError Unit}

/-- A step keeps the logs aligned, except a rotation to an id that is in use. -/
theorem aligned (h : Follows env w j command r j') (hbounded : j.Bounded) (haligned : j.Aligned)
    (hbelow : Rotates env w command → j.Below) : j'.Aligned := by
  cases h with
  | put => exact haligned.write hbounded _
  | putRotated hfull =>
      exact (haligned.write hbounded _).rotate (hbounded.write _) (hbelow hfull)
  | putFailed => exact haligned.write hbounded _
  | @structural op =>
      cases op with
      | rotateMemtable => exact haligned.rotate hbounded (hbelow trivial)
      | flushMemtables => exact haligned.flush hbounded
      | compactL0 | compactLn => exact haligned
  | structuralFailed => exact haligned

/-- The ids increase behind a rotation only when the next one was not in use. -/
theorem below_of_increasing (h : Follows env w j command (.ok ()) j')
    (hincreasing : j'.ids.Pairwise (· < ·)) (hrotates : Rotates env w command) : j.Below := by
  cases h with
  | put hfree => exact absurd hrotates hfree
  | putRotated => exact Journal.Aligned.below_of_increasing hincreasing
  | @structural op =>
      cases op with
      | rotateMemtable => exact Journal.Aligned.below_of_increasing hincreasing
      | flushMemtables | compactL0 | compactLn => exact hrotates.elim

/-- The next id is in use behind a rotation. -/
theorem below_iff (h : Follows env w j command (.ok ()) j') (hbounded : j.Bounded) :
    j'.Below ↔ j.Below ∧ ¬ Rotates env w command := by
  cases h with
  | put hfree => exact (and_iff_left hfree).symm
  | putRotated hfull =>
      exact iff_of_false (Journal.not_below_rotate _) fun hboth => hboth.2 hfull
  | @structural op =>
      cases op with
      | rotateMemtable =>
          exact iff_of_false (Journal.not_below_rotate _) fun hboth => hboth.2 trivial
      | flushMemtables => exact (Journal.below_flush_iff hbounded).trans (and_iff_left id).symm
      | compactL0 | compactLn => exact (and_iff_left id).symm

/-- A command that fails brings no id into use. -/
theorem below_iff_of_error {e : DbError} (h : Follows env w j command (.error e) j') :
    j'.Below ↔ j.Below := by
  cases h with
  | putFailed => exact Iff.rfl
  | structuralFailed => exact Iff.rfl

end Follows

/-- What a start has to find: a manifest that its file can represent, and room for the next log
id. -/
def ReopenRoom (w : World) : Prop := RestartRoom w ∧ w.manifest.Fits

/-- The states of a run in which no rotation comes behind another one without a start in between,
and whether a rotation has come since the last start. Commands may fail when that is harmless. -/
inductive AlignedRun (env : Env) : World → Bool → Prop
  | start (faults : List (Option Fault)) (trace : List Dir) :
      AlignedRun env { pristine env with faults, trace } false
  | step {w w' : World} {rotated : Bool} {r : Except DbError Unit} (command : Command) :
      AlignedRun env w rotated → LogRoom env w command → (r = .ok () → ¬ Rotates env w command) →
      (r = .ok () ∨ Harmless env w command) → command.run env w = (r, w') →
        AlignedRun env w' rotated
  | rotate {w w' : World} (command : Command) :
      AlignedRun env w false → LogRoom env w command → Rotates env w command →
      command.run env w = (.ok (), w') → AlignedRun env w' true
  | restart {w w' : World} {rotated : Bool} :
      AlignedRun env w rotated → ReopenRoom w → newDb env w = (.ok (), w') → AlignedRun env w' false

/-- A start replays the logs and continues behind their ids. -/
theorem Tracked.reopened (h : Tracked env w j) (hroom : ReopenRoom w)
    (hrun : newDb env w = (.ok (), w')) : ∃ next, (∀ id ∈ j.ids, id < next) ∧
      Tracked env w' (j.restart next) :=
  ⟨_, h.restarted (h.saved.onDisk hroom.2) hroom.1 hrun⟩

/-- In every state of the run the database is an aligned journal, and its ids are below the next one
as long as there was no rotation. -/
theorem AlignedRun.tracked {rotated : Bool} (h : AlignedRun env w rotated) :
    ∃ j, Tracked env w j ∧ j.Aligned ∧ (j.Below ↔ rotated = false) := by
  induction h with
  | start faults trace =>
      refine ⟨_, .start env faults trace, .initial, iff_of_true (fun id hid => ?_) rfl⟩
      rw [List.mem_singleton.mp hid]
      decide
  | @step w w' rotated r command _ hroom hno hharmless hrun ih =>
      obtain ⟨j, htracked, haligned, hbelow⟩ := ih
      obtain ⟨j', hfollows, htracked'⟩ := htracked.step hroom hharmless hrun
      cases r with
      | ok =>
          have hno := hno rfl
          refine ⟨j', htracked', hfollows.aligned htracked.bounded haligned
            fun hrotates => absurd hrotates hno, ?_⟩
          rw [hfollows.below_iff htracked.bounded, and_iff_left hno, hbelow]
      | error e =>
          refine ⟨j', htracked', ?_, hfollows.below_iff_of_error.trans hbelow⟩
          cases hfollows with
          | putFailed => exact haligned.write htracked.bounded _
          | structuralFailed => exact haligned
  | rotate command _ hroom hrotates hrun ih =>
      obtain ⟨j, htracked, haligned, hbelow⟩ := ih
      obtain ⟨j', hfollows, htracked'⟩ := htracked.step hroom (.inl rfl) hrun
      refine ⟨j', htracked', hfollows.aligned htracked.bounded haligned fun _ => hbelow.mpr rfl,
        iff_of_false (fun hnext => ?_) (by simp)⟩
      exact ((hfollows.below_iff htracked.bounded).mp hnext).2 hrotates
  | restart _ hroom hrun ih =>
      obtain ⟨j, htracked, haligned, _⟩ := ih
      obtain ⟨next, hnext, htracked'⟩ := htracked.reopened hroom hrun
      exact ⟨_, htracked', haligned.restart next, iff_of_true hnext rfl⟩

/-- In a run in which no rotation comes behind another one without a start in between, the logs are
aligned, and all ids are below the next one exactly as long as no rotation has come since the last
start. Of the steps from there, exactly a second rotation breaks the first, and any rotation the
second. -/
theorem logs_aligned (env : Env) (w : World) (rotated : Bool) (h : AlignedRun env w rotated) :
    LogsAligned env w ∧ (IdsBelow w ↔ rotated = false) ∧
    (∀ command w', LogRoom env w command → command.run env w = (.ok (), w') →
      (LogsAligned env w' ↔ (Rotates env w command → rotated = false)) ∧
      (IdsBelow w' ↔ rotated = false ∧ ¬ Rotates env w command)) ∧
    ∀ w', ReopenRoom w → newDb env w = (.ok (), w') → LogsAligned env w' ∧ IdsBelow w' := by
  obtain ⟨j, htracked, haligned, hbelow⟩ := h.tracked
  refine ⟨htracked.logsAligned haligned, htracked.idsBelow_iff.trans hbelow,
    fun command w' hroom hrun => ?_, fun w' hroom hrun => ?_⟩
  · obtain ⟨j', hfollows, htracked'⟩ := htracked.step hroom (.inl rfl) hrun
    rw [htracked'.idsBelow_iff, ← hbelow]
    refine ⟨⟨fun haligned' => ?_, fun hfree => ?_⟩, hfollows.below_iff htracked.bounded⟩
    · exact hfollows.below_of_increasing (htracked'.wals ▸ haligned'.increasing)
    · exact htracked'.logsAligned (hfollows.aligned htracked.bounded haligned hfree)
  · obtain ⟨next, hnext, htracked'⟩ := htracked.reopened hroom hrun
    exact ⟨htracked'.logsAligned (haligned.restart next), htracked'.idsBelow_iff.mpr hnext⟩

/-- A key is put and the memtable rotated, then the database is started again and the memtable
rotated once more. -/
def rotatedAgain : World := (rotateMemtable defaultEnv (newDb defaultEnv oneFrozen).2).2

theorem logRoom_onePut : LogRoom defaultEnv (pristine defaultEnv) (.put [97] (.bytes [1])) :=
  ⟨⟨show (1 : UInt64).toNat + 1 < 2 ^ 64 by decide, by decide⟩, fun _ => by decide⟩

theorem logs_aligned_rotated_again :
    (LogsAligned defaultEnv rotatedAgain ∧ ¬ IdsBelow rotatedAgain) ∧
      rotatedAgain.manifest.wals = [0, 1, 2] := by
  have hstart : AlignedRun defaultEnv (pristine defaultEnv) false := .start [] []
  have hput : AlignedRun defaultEnv onePut false :=
    hstart.step (.put [97] (.bytes [1])) logRoom_onePut (fun _ => by decide) (.inl rfl)
      (run_of_ok rfl)
  have hrotated : AlignedRun defaultEnv oneFrozen true :=
    hput.rotate (.structural .rotateMemtable) (by unfold LogRoom; decide +kernel) trivial
      (run_of_ok (by decide +kernel))
  have hroom : ReopenRoom oneFrozen := by
    unfold ReopenRoom RestartRoom
    decide +kernel
  have hrestarted : AlignedRun defaultEnv (newDb defaultEnv oneFrozen).2 false :=
    hrotated.restart hroom (run_of_ok (by decide +kernel))
  have hagain : AlignedRun defaultEnv rotatedAgain true :=
    hrestarted.rotate (.structural .rotateMemtable) (by unfold LogRoom; decide +kernel) trivial
      (run_of_ok (by decide +kernel))
  obtain ⟨haligned, hbelow, _⟩ := logs_aligned defaultEnv rotatedAgain true hagain
  exact ⟨⟨haligned, fun h => Bool.noConfusion (hbelow.mp h)⟩, by decide +kernel⟩

/-- A key is put and the memtable rotated, twice. -/
def twiceRotated : World :=
  (rotateMemtable defaultEnv (put defaultEnv [98] (.bytes [2]) oneFrozen).2).2

/-- The id of the second log is listed twice. -/
theorem second_rotation_reuses_log : ¬ ∀ (env : Env) (w : World) (writes : List Entry),
    Life env (fun w command r => LogRoom env w command ∧ r = .ok ()) ReopenRoom w writes →
      LogsAligned env w ∧ IdsBelow w := by
  let allowed : World → Command → Except DbError Unit → Prop := fun w command r =>
    LogRoom defaultEnv w command ∧ r = .ok ()
  intro hall
  have hput : Life defaultEnv allowed ReopenRoom onePut [(Key.new [97] 1, .bytes [1])] :=
    life_onePut ⟨logRoom_onePut, rfl⟩
  have hrotated : Life defaultEnv allowed ReopenRoom oneFrozen _ :=
    hput.step (.structural .rotateMemtable) ⟨by unfold LogRoom; decide +kernel, rfl⟩
      (run_of_ok (by decide +kernel))
  have hnext : oneFrozen.nextLsn = 2 := by decide +kernel
  have hroom : LogRoom defaultEnv oneFrozen (.put [98] (.bytes [2])) := by
    unfold LogRoom
    rw [hnext]
    exact ⟨⟨by decide, by decide⟩, fun _ => by decide +kernel⟩
  have hputAgain : Life defaultEnv allowed ReopenRoom
      (put defaultEnv [98] (.bytes [2]) oneFrozen).2 _ :=
    hrotated.step (.put [98] (.bytes [2])) ⟨hroom, rfl⟩ (run_of_ok (by decide +kernel))
  have hlife : Life defaultEnv allowed ReopenRoom twiceRotated _ :=
    hputAgain.step (.structural .rotateMemtable) ⟨by unfold LogRoom; decide +kernel, rfl⟩
      (run_of_ok (by decide +kernel))
  have hwals : twiceRotated.manifest.wals = [0, 1, 1] := by decide +kernel
  have hincreasing := (hall defaultEnv twiceRotated _ hlife).1.increasing
  rw [hwals] at hincreasing
  exact absurd hincreasing (by decide)

end EasyLsm.Db
