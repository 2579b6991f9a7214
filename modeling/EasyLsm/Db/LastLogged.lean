import Mathlib.Data.List.Basic
import EasyLsm.Db.Journaled

/-!
# What the last log says

`recover_state` takes the next LSN from the last entry of the last log. `LastLogged` is the
condition that this log has an entry, or nothing is listed that has one. A rotation and a flush
leave an empty log behind.
-/

namespace EasyLsm.Db

open Lib Lib.FileStore Lib.Versions

variable {env : Env} {w w' : World} {shelf : List (List (OpenTable env.crates))}
  {writes : List Entry} {j : LogJournal}

/-- The entry is in a log or in a table that the manifest lists. -/
def ListedEntry (env : Env) (w : World) (e : Entry) : Prop :=
  (∃ id ∈ w.manifest.wals, ∃ es, Replays env w.dir id es ∧ e ∈ es) ∨
    ∃ id ∈ w.manifest.sstableIds, ∃ es, tableEntries env.crates w.dir id = some es ∧ e ∈ es

/-- The last log has an entry, or there is none in any log or table. -/
def LastLogged (env : Env) (w : World) : Prop :=
  (∃ id es, w.manifest.wals.getLast? = some id ∧ Replays env w.dir id es ∧ es ≠ []) ∨
    ∀ e, ¬ ListedEntry env w e

namespace Journaled

theorem listedEntry_iff (h : Journaled env w shelf j) {e : Entry} :
    ListedEntry env w e ↔ j.Recorded e := by
  have hstored : e ∈ j.stored ↔ ∃ t ∈ shelf.flatten, e ∈ t.entries := by
    rw [← h.stored.mem_iff, List.mem_flatMap]
  constructor
  · rintro (⟨id, hid, es, hreplays, he⟩ | ⟨id, hid, es, hes, he⟩)
    · rw [h.wals] at hid
      rw [(h.replays hid).unique hreplays] at he
      exact .inl ⟨id, hid, he⟩
    · rw [h.layout.shelved.sstableIds] at hid
      obtain ⟨t, ht, rfl⟩ := List.mem_map.mp hid
      rw [(h.layout.shelved.filed t ht).tableEntries] at hes
      exact .inr (hstored.mpr ⟨t, ht, Option.some.inj hes ▸ he⟩)
  · rintro (⟨id, hid, he⟩ | he)
    · exact .inl ⟨id, h.wals.symm ▸ hid, _, h.replays hid, he⟩
    · obtain ⟨t, ht, he⟩ := hstored.mp he
      refine .inr ⟨t.fileId, ?_, t.entries, (h.layout.shelved.filed t ht).tableEntries, he⟩
      rw [h.layout.shelved.sstableIds]
      exact List.mem_map_of_mem ht

theorem lastLogged_iff (h : Journaled env w shelf j) : LastLogged env w ↔ j.LastRecorded := by
  have hlast : w.manifest.wals.getLast? = some j.active := by
    rw [h.wals, Journal.ids, List.getLast?_concat]
  have hnone : (∀ e, ¬ ListedEntry env w e) ↔ ∀ e, ¬ j.Recorded e :=
    forall_congr' fun e => not_congr h.listedEntry_iff
  refine or_congr ⟨?_, fun hne => ?_⟩ hnone
  · rintro ⟨id, es, hid, hreplays, hne⟩
    rw [hlast] at hid
    obtain rfl := Option.some.inj hid
    rwa [← (h.replays j.active_mem).unique hreplays]
  · exact ⟨_, _, hlast, h.replays j.active_mem, hne⟩

/-- A step keeps the LSNs increasing. -/
theorem sequenced (h : Journaled env w shelf j) (hsequenced : j.Sequenced writes)
    {command : Command} {r : Except DbError Unit} {j' : LogJournal}
    (hfollows : Follows env w j command r j') :
    j'.Sequenced (writes ++ command.written w) := by
  have hwrite : ∀ key value, (j.write (Key.new key w.nextLsn, value)).Sequenced
      (writes ++ [(Key.new key w.nextLsn, value)]) := fun key value => hsequenced.write h.seq
  have hstructural : ∀ op, writes ++ (Command.structural op).written w = writes :=
    fun op => List.append_nil writes
  cases hfollows with
  | put => exact hwrite _ _
  | putRotated => exact (hwrite _ _).rotate (h.bounded.write _)
  | putFailed => exact hwrite _ _
  | @structural op =>
      rw [hstructural]
      cases op with
      | rotateMemtable => exact hsequenced.rotate h.bounded
      | flushMemtables => exact hsequenced.flush
      | compactL0 | compactLn => exact hsequenced
  | structuralFailed =>
      rw [hstructural]
      exact hsequenced

end Journaled

/-- A new database after a put. -/
def onePut : World := (put defaultEnv [97] (.bytes [1]) (pristine defaultEnv)).2

theorem lifeRoom_onePut :
    LifeRoom defaultEnv (pristine defaultEnv) (.put [97] (.bytes [1])) (.ok ()) := by
  refine ⟨?_, ⟨by decide, fun hfull => ?_⟩, .inl rfl⟩
  · show (1 : UInt64).toNat + 1 < 2 ^ 64
    decide
  · exact absurd hfull (by decide)

theorem life_onePut {allowed : World → Command → Except DbError Unit → Prop}
    {restarts : World → Prop}
    (hallowed : allowed (pristine defaultEnv) (.put [97] (.bytes [1])) (.ok ())) :
    Life defaultEnv allowed restarts onePut [(Key.new [97] 1, .bytes [1])] := by
  have hstart : Life defaultEnv allowed restarts (pristine defaultEnv) [] := .start [] []
  exact hstart.step (.put [97] (.bytes [1])) hallowed (run_of_ok rfl)

theorem lifeRoom_oneFrozen :
    LifeRoom defaultEnv onePut (.structural .rotateMemtable) (.ok ()) :=
  ⟨trivial, ⟨by decide +kernel, by decide +kernel⟩, .inl rfl⟩

end EasyLsm.Db
