import Mathlib.Data.List.Basic
import EasyLsm.Db.AscendingSteps
import EasyLsm.Db.Survival

/-!
# The LSN behind a start

A run goes on through failures, crashes at any point, closes and starts. `next_lsn_above`: the
acknowledged writes have increasing LSNs, and the next LSN is above those of all listed entries, as
long as no record comes behind a torn one and every start finds an entry in the last log, or none at
all. Behind a start it is so only then: a rotation and a flush leave an empty log behind, and a
start after them gives LSNs again.
-/

namespace EasyLsm.Db

open Lib Lib.FileStore Lib.Versions

variable {env : Env} {v w w' : World} {shelf : List (List (OpenTable env.crates))}
  {acked durable records : List Entry} {top : Nat}

/-! ## Starts -/

/-- What is in a memtable behind a start was in a listed log. -/
theorem Recovered.replayed {state : RecoveredState} {faults : List (Option Fault)}
    (h : Recovered env w.dir w.manifest state) {run : List Entry}
    (hrun : run ∈ memtableRuns (launched { w with faults } (reopened w.manifest) state).current)
    {e : Entry} (he : e ∈ run) : ListedEntry env w e := by
  obtain ⟨id, inode, es, hlast, hreplays, _, _, hmutable, _⟩ := h.mutable
  obtain ⟨logs, hlogs, hfrozen⟩ := h.frozen
  have hmem : ∀ {es : List Entry}, e ∈ (Memtable.new.putBatch es).store.entries → e ∈ es :=
    fun he => Journal.mem_of_mem_replay (M := Memtable .mutable) he
  rcases List.mem_append.mp hrun with hrun | hrun
  · obtain ⟨m, hm, rfl⟩ := List.mem_map.mp hrun
    have hm : m ∈ state.frozenMemtables := hm
    rw [hfrozen] at hm
    obtain ⟨es, hes, rfl⟩ := List.mem_map.mp hm
    obtain ⟨i, hi, rfl⟩ := List.mem_iff_getElem.mp hes
    have hi' : i < w.manifest.wals.dropLast.length := hlogs.length_eq ▸ hi
    exact .inl ⟨_, List.dropLast_subset _ (List.getElem_mem hi'), _, hlogs.get hi' hi, hmem he⟩
  · obtain rfl := List.mem_singleton.mp hrun
    have he : e ∈ state.mutableMemtable.store.entries := he
    rw [hmutable] at he
    exact .inl ⟨id, List.mem_of_getLast? hlast, es, hreplays, hmem he⟩

namespace Ascending

/-- A start from a last log with the records `es` keeps the LSNs increasing when the next LSN is
above everything that is listed. -/
theorem launched (h : Ascending env w shelf acked durable records top) {state : RecoveredState}
    {faults : List (Option Fault)} (hrecovered : Recovered env w.dir w.manifest state)
    (hroom : RestartRoom w) {es : List Entry} {top' : Nat}
    (hfile : LogHolds env w.dir state.mutableWal.id es)
    (habove : Above es es top' state.nextLsn.toNat)
    (hlisted : ∀ e, ListedEntry env w e → UpTo top' e)
    (hbounded : ∀ e ∈ acked, e.1.lsn.toNat ≤ top') :
    Ascending env
      (Db.launched { w with faults } (reopened w.manifest) state) shelf acked es es top' := by
  obtain ⟨id, inode, _, hlast, _, hname, hwal, _⟩ := hrecovered.mutable
  have hid : state.mutableWal.id = id := by rw [hwal]
  refine ⟨h.onDisk.launched state faults, h.shelved.launched hrecovered, hrecovered.logged, ?_,
    fun id' hid' => ?_, hfile, ?_, habove, fun id' hid' _ => ?_, fun e he => hlisted e ?_, hbounded,
    h.increasing, h.kept⟩
  · show state.mutableWal.id ≤ Manifest.maxId w.manifest.wals + 1
    rw [hid]
    exact UInt32.le_of_lt (lt_maxId_succ hroom (List.mem_of_getLast? hlast))
  · have heq : id' = state.mutableWal.id := by
      rw [hid]
      exact Option.some.inj (hid'.symm.trans hlast)
    exact ⟨heq ▸ UInt32.le_refl _, fun hne => absurd heq hne⟩
  · show Wal.Records _ (walFile w.dir state.mutableWal.id ++ state.mutableWal.buf) es
    rw [show state.mutableWal.buf = [] by rw [hwal], List.append_nil]
    exact hfile
  · obtain ⟨es', hes', _⟩ := h.logHolds hid'
    exact ⟨es', hes',
      fun e he => hlisted e (h.listedEntry_iff.mpr (.inl ⟨id', hid', es', hes', he⟩))⟩
  · rcases mem_storedEntries.mp he with ⟨run, hrun, he⟩ | ht
    · exact hrecovered.replayed hrun he
    · exact h.listedEntry_iff.mpr (.inr ht)

/-- Behind a start the next LSN is above what is listed exactly when the last log has an entry or
nothing is listed, and then the LSNs go on increasing. -/
theorem relaunched (h : Ascending env w shelf acked durable records top) {state : RecoveredState}
    (faults : List (Option Fault)) (hrecovered : Recovered env w.dir w.manifest state) :
    ((∀ e, ListedEntry env w e → e.1.lsn < state.nextLsn) ↔ LastLogged env w) ∧
    w.current.mutableWal.id ≤ state.mutableWal.id ∧
    (RestartRoom w → LastLogged env w →
      Ascends env acked (Db.launched { w with faults } (reopened w.manifest) state)) := by
  obtain ⟨id, inode, es, hlast, hreplays, hname, hwal, _, hlsn⟩ := hrecovered.mutable
  have hid : state.mutableWal.id = id := by rw [hwal]
  obtain ⟨hle, hidle⟩ := h.last id hlast
  have hle : w.current.mutableWal.id ≤ state.mutableWal.id := hid ▸ hle
  by_cases hes : es = []
  · -- the next LSN is 1, and no entry has a smaller one
    have hnext : state.nextLsn = 1 := by
      rw [hlsn, hes]
      rfl
    have hiff : LastLogged env w ↔ ∀ e, ¬ ListedEntry env w e := by
      refine or_iff_right fun hlogged => ?_
      obtain ⟨id', es', hlast', hreplays', hne⟩ := hlogged
      refine hne ?_
      obtain rfl := Option.some.inj (hlast.symm.trans hlast')
      rw [hreplays.unique hreplays', hes]
    refine ⟨?_, hle, fun hroom hlogged => ?_⟩
    · rw [hiff, hnext]
      constructor
      · intro hall e he
        have hless := UInt64.lt_iff_toNat_lt.mp (hall e he)
        have hpos := (h.lsn_bounds he).1
        have hone : (1 : UInt64).toNat = 1 := rfl
        omega
      · exact fun hnone e he => absurd he (hnone e)
    · have hnone := hiff.mp hlogged
      have hacked : acked = [] := by
        by_contra hne
        obtain ⟨e, he⟩ := h.hasRecord_iff.mp (h.kept hne)
        exact hnone e he
      obtain ⟨es', hes', _⟩ := h.logHolds (List.mem_of_getLast? hlast)
      have hfile : LogHolds env w.dir state.mutableWal.id [] := by
        rw [hid, ← hes, hes'.replays.unique hreplays]
        exact hes'
      exact ⟨shelf, [], [], 0, h.launched hrecovered hroom hfile (.fresh (by rw [hnext]; decide))
        (fun e he => absurd he (hnone e)) (by simp [hacked])⟩
  · -- only the mutable log can be the last one
    have hmutable : id = w.current.mutableWal.id := by
      by_contra hne
      exact hes ((hidle hne).replays.unique hreplays)
    obtain rfl : es = durable := by
      rw [hmutable] at hreplays
      exact h.file.replays.unique hreplays
    obtain ⟨hless, hdurable, habove⟩ := h.above.recovered hes
    have hbelow : ∀ e, ListedEntry env w e → UpTo (Journal.lastSeq es) e := by
      intro e he
      rcases h.upTo_or_durable he with he | he
      · exact he.mono hless
      · exact ⟨(habove.bounds e he).1, hdurable e he⟩
    have hnext : state.nextLsn.toNat = Journal.lastSeq es + 1 := by
      obtain ⟨e, he, hseq⟩ : ∃ e ∈ es, Versioned.seq e = Journal.lastSeq es := by
        refine ⟨es.getLast hes, List.getLast_mem hes, ?_⟩
        rw [Journal.lastSeq, List.getLast?_eq_some_getLast hes]
        rfl
      have hbound := (h.above.bounds e (h.above.begins.subset he)).2
      have hsize := w.nextLsn.toNat_lt
      rw [hlsn, UInt64.toNat_add, Tracked.toNat_lastLsn]
      exact Nat.mod_eq_of_lt (show Journal.lastSeq es + 1 < 2 ^ 64 by omega)
    refine ⟨iff_of_true (fun e he => ?_) (.inl ⟨id, es, hlast, hreplays, hes⟩), hle,
      fun hroom _ => ?_⟩
    · rw [UInt64.lt_iff_toNat_lt, hnext]
      exact Nat.lt_succ_of_le (hbelow e he).2
    · have hfile : LogHolds env w.dir state.mutableWal.id es := by
        rw [hid, hmutable]
        exact h.file
      exact ⟨shelf, es, es, _,
        h.launched hrecovered hroom hfile (by rw [hnext]; exact habove) hbelow
        fun e he => Nat.le_trans (h.bounded e he) hless⟩

end Ascending

/-- A start from a directory that was left, whatever is in memory. -/
theorem Remains.started (h : Remains env acked v.dir) (hrun : newDb env v = (.ok (), w')) :
    ((∀ e, ListedEntry env w' e → e.1.lsn < w'.nextLsn) ↔ LastLogged env w') ∧
    (RestartRoom w' → LastLogged env w' → Ongoing env acked w') := by
  obtain ⟨w, hdir, ⟨shelf, durable, records, top, hascending⟩, hunwritten⟩ := h
  let w₀ := v.remember w.manifest w.current w.nextLsn
  have h₀ : Ascending env w₀ shelf acked durable records top :=
    hascending.congr hdir.symm ⟨_, rfl⟩ rfl rfl
  obtain ⟨state, faults, hrecovered, rfl⟩ := newDb_recovered h₀.onDisk (newDb_remember _ _ hrun)
  obtain ⟨hiff, hle, hascends⟩ := h₀.relaunched faults hrecovered
  refine ⟨hiff, fun hroom hlast => ⟨hascends hroom hlast, fun id hid => ?_⟩⟩
  show walFile v.dir id <+: _
  rw [← hdir]
  exact hunwritten id (UInt32.lt_of_le_of_lt hle hid)

/-! ## Runs -/

/-- A directory that is left when the database stops: at once, in the middle of a command, or while
it is closed and its log takes what it held back. -/
inductive Stops (env : Env) (allowed : World → Command → Prop) (w : World) : Dir → Prop
  | idle : Stops env allowed w w.dir
  | during {w₁ : World} {r : Except DbError Unit} {d : Dir} (command : Command) :
      allowed w command → command.run env w = (r, w₁) → Leaves w w₁ d → Stops env allowed w d
  | closing {w₁ : World} {r : Except DbError Unit} {d : Dir} :
      w.current.mutableWal.drop w = (r, w₁) → d = w₁.dir ∨ Leaves w w₁ d → Stops env allowed w d

/-- The states of a run, with the entries whose `put` has returned `Ok`, the oldest first. Any I/O
calls may fail, the database may stop at any point, and a start may find anything in memory. -/
inductive Course (env : Env) (allowed : World → Command → Prop) (starts : World → Prop) :
    World → List Entry → Prop
  | start (faults : List (Option Fault)) (trace : List Dir) :
      Course env allowed starts { pristine env with faults, trace } []
  | step {w w' : World} {acked : List Entry} {r : Except DbError Unit} (command : Command) :
      Course env allowed starts w acked → allowed w command → command.run env w = (r, w') →
      Course env allowed starts w' (acked ++ acknowledged w command r)
  | restart {v w w' : World} {acked : List Entry} :
      Course env allowed starts w acked → Stops env allowed w v.dir → newDb env v = (.ok (), w') →
      starts w' → Course env allowed starts w' acked

/-- What is left when the database stops. -/
theorem Ongoing.stops (h : Ongoing env acked w) {d : Dir}
    (hstops : Stops env (AscendRoom env) w d) :
    Remains env acked d := by
  cases hstops with
  | idle => exact h.remains
  | during command hroom hrun hleaves => exact (h.step hroom hrun).1.of_leaves hleaves
  | closing hrun hd =>
      have hthrough := h.closed hrun
      rcases hd with rfl | hleaves
      · exact hthrough.2
      · exact hthrough.of_leaves hleaves

theorem Course.ongoing
    (h : Course env (AscendRoom env) (fun w' => RestartRoom w' ∧ LastLogged env w') w
    acked) : Ongoing env acked w := by
  induction h with
  | start faults trace => exact .start env faults trace
  | step command _ hroom hrun ih => exact (ih.step hroom hrun).2
  | restart _ hstops hrun hlast ih => exact ((ih.stops hstops).started hrun).2 hlast.1 hlast.2

/-- In a run in which records come behind whole records, and the last log has an entry behind every
start, or nothing that the manifest lists has one, the LSNs of the acknowledged writes increase, and
the next LSN is above those of all entries in the listed logs and tables. After a start, wherever
the database has stopped before, it is so only then. -/
theorem next_lsn_above (env : Env) (w : World) (acked : List Entry)
    (h : Course env (AscendRoom env) (fun w' => RestartRoom w' ∧ LastLogged env w') w acked) :
    (acked.Pairwise fun a b => a.1.lsn < b.1.lsn) ∧
    (∀ e, ListedEntry env w e → e.1.lsn < w.nextLsn) ∧
    ∀ v w', Stops env (AscendRoom env) w v.dir → newDb env v = (.ok (), w') →
      ((∀ e, ListedEntry env w' e → e.1.lsn < w'.nextLsn) ↔ LastLogged env w') := by
  have hongoing := h.ongoing
  obtain ⟨shelf, durable, records, top, hascending⟩ := hongoing.ascends
  refine ⟨hascending.increasing.imp UInt64.lt_iff_toNat_lt.mpr, fun e he => ?_,
    fun v w' hstops hrun => ((hongoing.stops hstops).started hrun).1⟩
  exact UInt64.lt_iff_toNat_lt.mpr (hascending.lsn_bounds he).2

theorem ascendRoom_onePut : AscendRoom defaultEnv (pristine defaultEnv) (.put [97] (.bytes [1])) :=
  ⟨lifeRoom_onePut.room, lifeRoom_onePut.disk, fun _ => ⟨[], by simp, rfl⟩⟩

theorem course_onePut {starts : World → Prop} :
    Course defaultEnv (AscendRoom defaultEnv) starts onePut [(Key.new [97] 1, .bytes [1])] := by
  have hstart : Course defaultEnv (AscendRoom defaultEnv) starts (pristine defaultEnv) [] :=
    .start [] []
  exact hstart.step (.put [97] (.bytes [1])) ascendRoom_onePut (run_of_ok rfl)

/-- A key is put, and three bytes of the next record are in the log when the database is started
again. -/
def startedTorn : World := (newDb defaultEnv tornPut).2

/-- Then the memtable is rotated and another key is put. -/
def putBehindTorn : World :=
  (put defaultEnv [99] (.bytes [3]) (rotateMemtable defaultEnv startedTorn).2).2

theorem lastLogged_startedTorn : LastLogged defaultEnv startedTorn := by
  have hfile : startedTorn.dir.read (.wal 0) = some (Wal.magicBytes ++
      Wal.encodeGroup crc32 [(Key.new [97] 1, .bytes [1])] ++
        (Wal.encodeEntry crc32 (Key.new [97] 2, .bytes [2])).take 3) := by decide +kernel
  exact .inl ⟨0, [(Key.new [97] 1, .bytes [1])], by decide +kernel,
    ⟨_, hfile, by decide +kernel⟩, by simp⟩

theorem course_putBehindTorn :
    Course defaultEnv (AscendRoom defaultEnv) (fun w' => RestartRoom w' ∧ LastLogged defaultEnv w')
      putBehindTorn [(Key.new [97] 1, .bytes [1]), (Key.new [99] 2, .bytes [3])] := by
  have hcrash : Stops defaultEnv (AscendRoom defaultEnv) onePut tornPut.dir := by
    refine .during (.put [97] (.bytes [2])) ⟨show (2 : UInt64).toNat + 1 < 2 ^ 64 by decide,
      ⟨by decide, fun hfull => absurd hfull (by decide)⟩,
        fun _ => ?_⟩ (run_of_ok rfl) leaves_tornPut
    exact ⟨[(Key.new [97] 1, .bytes [1])], by decide, by decide +kernel⟩
  have hroom : RestartRoom startedTorn := by
    unfold RestartRoom
    decide +kernel
  have hone : Course defaultEnv (AscendRoom defaultEnv) (fun w' => RestartRoom w' ∧
      LastLogged defaultEnv w') onePut _ := course_onePut
  have hstarted := hone.restart hcrash (run_of_ok (by decide +kernel))
    ⟨hroom, lastLogged_startedTorn⟩
  have hrotate : AscendRoom defaultEnv startedTorn (.structural .rotateMemtable) :=
    ⟨trivial, ⟨by decide +kernel, by decide +kernel⟩, fun hne => absurd rfl hne⟩
  have hrotated :
    Course defaultEnv (AscendRoom defaultEnv) _ (rotateMemtable defaultEnv startedTorn).2
      ([(Key.new [97] 1, .bytes [1])] ++ []) :=
    hstarted.step (.structural .rotateMemtable) hrotate (run_of_ok (by decide +kernel))
  have hnext : (rotateMemtable defaultEnv startedTorn).2.nextLsn = 2 := by decide +kernel
  have hput : AscendRoom defaultEnv (rotateMemtable defaultEnv startedTorn).2
      (.put [99] (.bytes [3])) := by
    refine ⟨?_, ⟨?_, fun hfull => absurd hfull (by decide +kernel)⟩, fun _ => ⟨[], by simp, ?_⟩⟩
    · show (rotateMemtable defaultEnv startedTorn).2.nextLsn.toNat + 1 < 2 ^ 64
      rw [hnext]
      decide
    · rw [hnext]
      decide
    · decide +kernel
  have hrun : put defaultEnv [99] (.bytes [3]) (rotateMemtable defaultEnv startedTorn).2 =
      (.ok (), putBehindTorn) := run_of_ok (by decide +kernel)
  have hboth := hrotated.step (.put [99] (.bytes [3])) hput hrun
  simp only [acknowledged, Command.written, hnext] at hboth
  exact hboth

theorem next_lsn_above_torn :
    ([(Key.new [97] 1, Value.bytes [1]), (Key.new [99] 2, .bytes [3])] : List Entry).Pairwise
      (fun a b => a.1.lsn < b.1.lsn) ∧
    (∀ e, ListedEntry defaultEnv putBehindTorn e → e.1.lsn < putBehindTorn.nextLsn) ∧
    putBehindTorn.nextLsn = 3 := by
  obtain ⟨hincreasing, hlisted, _⟩ := next_lsn_above defaultEnv putBehindTorn _ course_putBehindTorn
  exact ⟨hincreasing, hlisted, by decide +kernel⟩

/-- A key is put, the memtable is rotated, and the database is started again: the next LSN is the
one of the put. -/
theorem restart_reissues_lsn : ¬ ∀ (env : Env) (w : World) (acked : List Entry),
    Course env (AscendRoom env) RestartRoom w acked →
      ∀ e, ListedEntry env w e → e.1.lsn < w.nextLsn := by
  intro hall
  have hone : Course defaultEnv (AscendRoom defaultEnv) RestartRoom onePut _ := course_onePut
  have hrotated := hone.step (.structural .rotateMemtable)
    ⟨lifeRoom_oneFrozen.room, lifeRoom_oneFrozen.disk, fun hne => absurd rfl hne⟩
    (run_of_ok (by decide +kernel))
  have hroom : RestartRoom (newDb defaultEnv oneFrozen).2 := by
    unfold RestartRoom
    decide +kernel
  have hcourse := hrotated.restart .idle (run_of_ok (by decide +kernel)) hroom
  have hreplays : Replays defaultEnv (newDb defaultEnv oneFrozen).2.dir 0
      [(Key.new [97] 1, .bytes [1])] :=
    ⟨Wal.magicBytes ++ Wal.encodeGroup crc32 [(Key.new [97] 1, .bytes [1])], by decide +kernel,
      by decide +kernel⟩
  have hless :=
    hall defaultEnv (newDb defaultEnv oneFrozen).2 _ hcourse (Key.new [97] 1, .bytes [1])
    (.inl ⟨0, by decide +kernel, _, hreplays, List.mem_singleton_self _⟩)
  have hnext : (newDb defaultEnv oneFrozen).2.nextLsn = 1 := by decide +kernel
  rw [hnext] at hless
  exact absurd hless (by decide)

end EasyLsm.Db
