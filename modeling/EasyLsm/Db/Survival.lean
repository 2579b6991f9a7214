import Mathlib.Data.List.Basic
import EasyLsm.Db.Launch
import EasyLsm.Db.LastLogged

/-!
# Runs with crashes

A run goes on through any number of crashes, each at any point of a command, and starts.
`acknowledged_survive`: an entry whose `put` has returned `Ok` stays in the database, and there is
nothing in it that no `put` was called for. `start_after_crash`: without an I/O error a start from
whatever a crash leaves succeeds. What a run needs is that a crash leaves no torn record behind
which something is written later, and that a start finds the last LSN in the last log.
-/

namespace EasyLsm.Db

open Lib Lib.FileStore Lib.Versions

variable {env : Env} {v w w' w₁ : World} {shelf : List (List (OpenTable env.crates))}
    {j j' : LogJournal}
  {writes acked tried : List Entry} {command : Command} {r : Except DbError Unit} {d : Dir}

/-- Every listed log is its magic number and whole records. -/
def Whole (env : Env) (w : World) : Prop := ∀ id ∈ w.manifest.wals, ∃ es : List Entry,
  w.dir.read (.wal id) = some (Wal.magicBytes ++ Wal.encodeGroup env.crates.crc32 es) ∧
    ∀ e ∈ es, e.Fits

/-- The states of a run with crashes, the entries whose `put` has returned `Ok`, and those for which
it was called. A start may find anything in memory. -/
inductive Survival (env : Env) : World → List Entry → List Entry → Prop
  | start (faults : List (Option Fault)) (trace : List Dir) :
      Survival env { pristine env with faults, trace } [] []
  | step {w w' : World} {acked tried : List Entry} {r : Except DbError Unit} (command : Command) :
      Survival env w acked tried → LifeRoom env w command r → command.run env w = (r, w') →
      Survival env w' (acked ++ acknowledged w command r) (tried ++ command.written w)
  | restart {v w w' : World} {acked tried : List Entry} :
      Survival env w acked tried → v.dir = w.dir → newDb env v = (.ok (), w') →
      RestartRoom w' ∧ LastLogged env w' → Survival env w' acked tried
  | crash {v w w' w₁ : World} {acked tried : List Entry} {r : Except DbError Unit}
    (command : Command) :
      Survival env w acked tried → LifeRoom env w command r → command.run env w = (r, w₁) →
      Leaves w w₁ v.dir → newDb env v = (.ok (), w') →
      (RestartRoom w' ∧ LastLogged env w') ∧ Whole env w' →
      Survival env w' acked (tried ++ command.written w)

/-! ## Torn records -/

/-- A start leaves the directory as it is, with the manifest that was on the disk. -/
theorem newDb_disk {m : Manifest} (h : OnDisk env w.dir m) (hrun : newDb env w = (.ok (), w')) :
    w'.dir = w.dir ∧ w'.manifest = reopened m := by
  obtain ⟨state, faults, _, hw'⟩ := newDb_recovered (w := w.remember m w.current w.nextLsn) h
    (newDb_remember _ _ hrun)
  rw [hw']
  exact ⟨rfl, rfl⟩

/-- A log with a torn record is not whole. -/
theorem TornRecord.not_whole {e : Entry} (htorn : TornRecord env w e v.dir)
    (h : Journaled env w shelf j) (hfits : e.Fits) (hrun : newDb env v = (.ok (), w')) :
    ¬ Whole env w' := by
  intro hwhole
  obtain ⟨es', hes', hopens⟩ := h.opens_torn hfits htorn
  obtain ⟨hdir, hmanifest⟩ := newDb_disk hopens.onDisk hrun
  have hlisted : j.active ∈ w'.manifest.wals := by
    rw [hmanifest]
    show j.active ∈ w.manifest.wals
    rw [h.wals]
    exact j.active_mem
  obtain ⟨es, hread, hall⟩ := hwhole _ hlisted
  have hreplays : Replays env v.dir j.active (j.log j.active ++ es') := by
    have hlog := hopens.logs j.active (h.wals ▸ j.active_mem)
    rwa [Function.update_self] at hlog
  -- the whole records are those that are replayed
  obtain ⟨file, hfile, hreplay⟩ := hreplays
  rw [hdir, hfile] at hread
  obtain ⟨es'', hes'', hsame⟩ := @Wal.replay_truncated env.crates.crc32 es [] [] hall (by simp)
    (List.prefix_refl _)
  rw [List.prefix_nil.mp hes'', List.append_nil, List.append_nil, ← Option.some.inj hread,
    hreplay] at hsame
  obtain ⟨n, hpos, hless, hd⟩ := htorn
  have hname : (FileName.wal j.active, w.current.mutableWal.inode) ∈ w.dir.names := by
    rw [← h.active]
    exact h.layout.log
  have hold := h.logs _ j.active_mem
  rw [read_of_mem hname] at hold
  have hname' : (FileName.wal j.active, w.current.mutableWal.inode) ∈ v.dir.names := hd ▸ hname
  rw [read_of_mem hname', hd, FileStore.append, content_setContent_self,
    Option.some.inj hold] at hfile
  have hlengths := congrArg List.length ((Option.some.inj hfile).trans (Option.some.inj hread))
  rw [← Except.ok.inj hsame, Wal.encodeGroup, Wal.encodeGroup, List.flatMap_append] at hlengths
  simp only [List.length_append, List.length_take] at hlengths
  rcases List.prefix_cons_iff.mp hes' with rfl | ⟨rest, rfl, hrest⟩
  · simp only [List.flatMap_nil, List.length_nil] at hlengths
    omega
  · rw [List.prefix_nil.mp hrest, List.flatMap_singleton] at hlengths
    omega

/-! ## The invariant -/

/-- What was written is recorded and the other way round; the acknowledged entries are among it, and
it is among what was tried. -/
structure Accounted (j : LogJournal) (acked tried writes : List Entry) : Prop where
  sequenced : j.Sequenced writes
  complete : ∀ e, j.Recorded e → e ∈ writes
  acked : acked.Sublist writes
  tried : writes.Sublist tried

/-- A command records nothing but its entry. -/
theorem Follows.recorded (h : Follows env w j command r j') (hsequenced : j.Sequenced writes)
    {x : Entry}
    (hx : j'.Recorded x) : j.Recorded x ∨ x ∈ command.written w := by
  have hwrite : ∀ {key value}, (j.write (Key.new key w.nextLsn, value)).Recorded x →
      j.Recorded x ∨ x ∈ (Command.put key value).written w := fun hx =>
    (Journal.recorded_write hx).imp_right List.mem_singleton.mpr
  cases h with
  | put => exact hwrite hx
  | putRotated => exact hwrite (Journal.recorded_rotate hx)
  | putFailed => exact hwrite hx
  | @structural op =>
      cases op with
      | rotateMemtable => exact .inl (Journal.recorded_rotate hx)
      | flushMemtables => exact .inl (Journal.recorded_flush hsequenced hx)
      | compactL0 | compactLn => exact .inl hx
  | structuralFailed => exact .inl hx

namespace Accounted

theorem follows (h : Accounted j acked tried writes) (hjournaled : Journaled env w shelf j)
    (hfollows : Follows env w j command r j') (more : List Entry)
    (hmore : more.Sublist (command.written w)) :
    Accounted j' (acked ++ more) (tried ++ command.written w) (writes ++ command.written w) where
  sequenced := hjournaled.sequenced h.sequenced hfollows
  complete e he := by
    rcases hfollows.recorded h.sequenced he with he | he
    · exact List.mem_append_left _ (h.complete e he)
    · exact List.mem_append_right _ he
  acked := h.acked.append hmore
  tried := h.tried.append (List.Sublist.refl _)

theorem restart (h : Accounted j acked tried writes) (hlast : j.LastRecorded) (next : UInt32) :
    Accounted (j.restart next) acked tried writes :=
  ⟨h.sequenced.restart hlast next, h.complete, h.acked, h.tried⟩

theorem more (h : Accounted j acked tried writes) (es : List Entry) :
    Accounted j acked (tried ++ es) writes :=
  ⟨h.sequenced, h.complete, h.acked, h.tried.trans (List.sublist_append_left _ _)⟩

end Accounted

/-- The database behind a start. -/
theorem Holds.restarted (h : Holds env v.dir j) (haccounted : Accounted j acked tried writes)
    (hrun : newDb env v = (.ok (), w')) (hroom : RestartRoom w' ∧ LastLogged env w') :
    ∃ shelf j', Journaled env w' shelf j' ∧ Accounted j' acked tried writes := by
  obtain ⟨shelf, next, _, hjournaled⟩ := h.started hrun hroom.1
  exact ⟨shelf, _, hjournaled, haccounted.restart (hjournaled.lastLogged_iff.mp hroom.2) next⟩

/-- In every state of a run the database is a journal that accounts for the entries. -/
theorem Survival.journaled (h : Survival env w acked tried) :
    ∃ shelf j writes, Journaled env w shelf j ∧ Accounted j acked tried writes := by
  induction h with
  | start faults trace =>
      refine ⟨[], _, [], .start env faults trace, .initial, fun e he => ?_, .refl _, .refl _⟩
      rcases he with ⟨_, _, he⟩ | he <;> exact absurd he List.not_mem_nil
  | @step w w' acked tried r command _ hroom hrun ih =>
      obtain ⟨shelf, j, writes, hjournaled, haccounted⟩ := ih
      obtain ⟨shelf', j', hfollows, hjournaled'⟩ := hjournaled.step hroom hrun
      refine ⟨shelf', j', _, hjournaled', haccounted.follows hjournaled hfollows _ ?_⟩
      cases r with
      | ok => exact .refl _
      | error e => exact List.nil_sublist _
  | @restart v w w' acked tried _ hdir hrun hroom ih =>
      obtain ⟨shelf, j, writes, hjournaled, haccounted⟩ := ih
      have hholds : Holds env v.dir j := hdir ▸ hjournaled.holds
      obtain ⟨shelf', j', hjournaled', haccounted'⟩ := hholds.restarted haccounted hrun hroom
      exact ⟨shelf', j', writes, hjournaled', haccounted'⟩
  | @crash v w w' w₁ acked tried r command _ hroom hrun hleaves hstart hopen ih =>
      obtain ⟨shelf, j, writes, hjournaled, haccounted⟩ := ih
      rcases hjournaled.left hroom hrun hleaves with ⟨key, value, rfl, htorn⟩ | ⟨j', hj', hholds⟩
      · exact absurd hopen.2 (htorn.not_whole hjournaled hroom.disk.1 hstart)
      · rcases hj' with rfl | ⟨r', hfollows⟩
        · obtain ⟨shelf', j'', hjournaled', haccounted'⟩ :=
            hholds.restarted (haccounted.more (command.written w)) hstart hopen.1
          exact ⟨shelf', j'', writes, hjournaled', haccounted'⟩
        · have hfollowed := haccounted.follows hjournaled hfollows [] (List.nil_sublist _)
          rw [List.append_nil] at hfollowed
          obtain ⟨shelf', j'', hjournaled', haccounted'⟩ :=
            hholds.restarted hfollowed hstart hopen.1
          exact ⟨shelf', j'', _, hjournaled', haccounted'⟩

/-- In every run with any number of crashes and starts the memtables and the tables hold every entry
whose `put` has returned `Ok`, and no entry that was never put; the acknowledged entries have
increasing LSNs. -/
theorem acknowledged_survive (env : Env) (w : World) (acked tried : List Entry)
    (h : Survival env w acked tried) :
    (∃ vs, versionEntries env.crates w = some vs ∧ (∀ e ∈ acked, e ∈ vs) ∧ ∀ e ∈ vs, e ∈ tried) ∧
    acked.Pairwise fun a b => a.1.lsn < b.1.lsn := by
  obtain ⟨shelf, j, writes, hjournaled, haccounted⟩ := h.journaled
  obtain ⟨vs, hvs, hmem⟩ := hjournaled.versionEntries
  refine ⟨⟨vs, hvs, fun e he => ?_, fun e he => ?_⟩, ?_⟩
  · exact (hmem e).mpr (haccounted.sequenced.kept e (haccounted.acked.subset he))
  · refine haccounted.tried.subset (haccounted.complete e ?_)
    rcases (hmem e).mp he with ⟨m, hm, he⟩ | he
    · exact haccounted.sequenced.recorded_of_mem hm he
    · exact .inr he
  · exact (haccounted.sequenced.increasing.sublist haccounted.acked).imp UInt64.lt_iff_toNat_lt.mpr

/-- A key is put, the database is started again, and the key is put once more. -/
def putAgain : World := (put defaultEnv [97] (.bytes [2]) (newDb defaultEnv onePut).2).2

/-- A crash leaves any part of a record that is written. -/
theorem leaves_inserted {e : Entry} {n : Nat} (hn : n ≤ (w.pendingBytes env e).length) :
    Leaves w (inserted env w e)
      (w.dir.append w.current.mutableWal.inode ((w.pendingBytes env e).take n)) :=
  ⟨_, rfl, List.mem_map.mpr ⟨n, List.mem_range.mpr (Nat.lt_succ_of_le hn), rfl⟩⟩

theorem lifeRoom_putAgain : LifeRoom defaultEnv (newDb defaultEnv onePut).2 (.put [97] (.bytes [2]))
    (.ok ()) := by
  have hnext : (newDb defaultEnv onePut).2.nextLsn = 2 := by decide +kernel
  refine ⟨?_, ⟨?_, fun hfull => absurd hfull (by decide +kernel)⟩, .inl rfl⟩
  · show (newDb defaultEnv onePut).2.nextLsn.toNat + 1 < 2 ^ 64
    rw [hnext]
    decide
  · rw [hnext]
    decide

/-- The first `put` is in the log but has not returned, the database is started again, and the key
is put once more. -/
theorem acknowledged_survive_put_again : ∃ vs, versionEntries crates putAgain = some vs ∧
    (Key.new [97] 2, .bytes [2]) ∈ vs ∧
    ∀ e ∈ vs, e ∈ [(Key.new [97] 1, .bytes [1]), (Key.new [97] 2, .bytes [2])] := by
  have hstart : Survival defaultEnv (pristine defaultEnv) [] [] := .start [] []
  have hleaves : Leaves (pristine defaultEnv) onePut onePut.dir := by
    have hone : onePut = inserted defaultEnv (pristine defaultEnv) (Key.new [97] 1, .bytes [1]) :=
      congrArg Prod.snd (write_inserted rfl (by decide))
    rw [hone]
    exact leaves_inserted (Nat.le_refl _)
  have hfile : (newDb defaultEnv onePut).2.dir.read (.wal 0) = some (Wal.magicBytes ++
      Wal.encodeGroup crc32 [(Key.new [97] 1, .bytes [1])]) := by decide +kernel
  have hwals : (newDb defaultEnv onePut).2.manifest.wals = [0] := by decide +kernel
  have hroom : RestartRoom (newDb defaultEnv onePut).2 := by
    unfold RestartRoom
    decide +kernel
  have hlast : LastLogged defaultEnv (newDb defaultEnv onePut).2 :=
    .inl ⟨0, [(Key.new [97] 1, .bytes [1])], by rw [hwals]; rfl,
      ⟨_, hfile, by decide +kernel⟩, by simp⟩
  have hwhole : Whole defaultEnv (newDb defaultEnv onePut).2 := by
    unfold Whole
    rw [hwals]
    exact List.forall_mem_singleton.mpr ⟨_, hfile, by decide⟩
  have hcrash := hstart.crash (.put [97] (.bytes [1])) lifeRoom_onePut (run_of_ok rfl) hleaves
    (run_of_ok (by decide +kernel)) ⟨⟨hroom, hlast⟩, hwhole⟩
  have hagain :=
    hcrash.step (.put [97] (.bytes [2])) lifeRoom_putAgain (run_of_ok (by decide +kernel))
  have hnext : (newDb defaultEnv onePut).2.nextLsn = 2 := by decide +kernel
  simp only [acknowledged, Command.written, hnext] at hagain
  obtain ⟨⟨vs, hvs, hacked, htried⟩, _⟩ := acknowledged_survive defaultEnv putAgain _ _ hagain
  exact ⟨vs, hvs, hacked _ (List.mem_singleton_self _), htried⟩

/-! ## Starts -/

/-- A start on the directory of a journal, without an I/O error, finds what the journal accounts
for. -/
theorem Opens.accounted {m : Manifest} (h : Opens env v.dir m j.log shelf) (hwals : m.wals = j.ids)
    (hstored : (shelf.flatten.flatMap OpenTable.entries).Perm j.stored)
    (haccounted : Accounted j acked tried writes) (hfaults : v.faults = []) :
    ∃ w' vs, newDb env v = (.ok (), w') ∧ versionEntries env.crates w' = some vs ∧
      (∀ e ∈ acked, e ∈ vs) ∧ ∀ e ∈ vs, e ∈ tried := by
  obtain ⟨w', vs, hrun, hvs, hmem⟩ := h.newDb_run hfaults
  have hrecorded : ∀ e, e ∈ vs ↔ j.Recorded e := by
    intro e
    have hlisted : (∃ t ∈ shelf.flatten, e ∈ t.entries) ↔ e ∈ j.stored := by
      rw [← hstored.mem_iff, List.mem_flatMap]
    rw [hmem, hlisted, hwals]
    refine or_congr (exists_congr fun id => and_congr_right fun hid => ?_) Iff.rfl
    exact mem_replayed ((haccounted.sequenced.logs id hid).imp UInt64.lt_iff_toNat_lt.mpr)
  refine ⟨w', vs, hrun, hvs, fun e he => ?_, fun e he => ?_⟩
  · exact (hrecorded e).mpr (haccounted.sequenced.recorded_write (haccounted.acked.subset he))
  · exact haccounted.tried.subset (haccounted.complete e ((hrecorded e).mp he))

theorem Holds.opened (h : Holds env v.dir j) (haccounted : Accounted j acked tried writes)
    (hfaults : v.faults = []) : ∃ w' vs, newDb env v = (.ok (), w') ∧
      versionEntries env.crates w' = some vs ∧ (∀ e ∈ acked, e ∈ vs) ∧ ∀ e ∈ vs, e ∈ tried := by
  obtain ⟨v', shelf, hdir, hjournaled⟩ := h
  have hopens := hjournaled.opens
  rw [hdir] at hopens
  exact hopens.accounted hjournaled.wals hjournaled.stored haccounted hfaults

/-- Whatever a crash leaves of a command, also a torn record, a start without an I/O error succeeds:
it finds every entry whose `put` has returned `Ok`, and no entry that was never put. -/
theorem start_after_crash (env : Env) (w w₁ v : World) (acked tried : List Entry)
    (command : Command)
    (r : Except DbError Unit) (h : Survival env w acked tried) (hroom : LifeRoom env w command r)
    (hrun : command.run env w = (r, w₁)) (hleaves : v.dir = w.dir ∨ Leaves w w₁ v.dir)
    (hfaults : v.faults = []) :
    ∃ w' vs, newDb env v = (.ok (), w') ∧ versionEntries env.crates w' = some vs ∧
      (∀ e ∈ acked, e ∈ vs) ∧ ∀ e ∈ vs, e ∈ tried ++ command.written w := by
  obtain ⟨shelf, j, writes, hjournaled, haccounted⟩ := h.journaled
  have hmore := haccounted.more (command.written w)
  rcases hleaves with hdir | hleaves
  · have hholds : Holds env v.dir j := hdir ▸ hjournaled.holds
    exact hholds.opened hmore hfaults
  have hfollowed : ∀ {j' r'}, Follows env w j command r' j' →
      Accounted j' acked (tried ++ command.written w) (writes ++ command.written w) := by
    intro j' r' hfollows
    have hafter := haccounted.follows hjournaled hfollows [] (List.nil_sublist _)
    rwa [List.append_nil] at hafter
  rcases hjournaled.left hroom hrun hleaves with ⟨key, value, rfl, htorn⟩ | ⟨j', hj', hholds⟩
  · obtain ⟨es, hes, hopens⟩ := hjournaled.opens_torn hroom.disk.1 htorn
    rcases List.prefix_cons_iff.mp hes with rfl | ⟨rest, rfl, hrest⟩
    · rw [List.append_nil, Function.update_eq_self] at hopens
      exact hopens.accounted hjournaled.wals hjournaled.stored hmore hfaults
    · rw [List.prefix_nil.mp hrest] at hopens
      have hwritten := hfollowed (.putFailed (e := .writerPanic))
      exact Opens.accounted (j := j.write (Key.new key w.nextLsn, value)) hopens hjournaled.wals
        hjournaled.stored hwritten hfaults
  · rcases hj' with rfl | ⟨r', hfollows⟩
    · exact hholds.opened hmore hfaults
    · exact hholds.opened (hfollowed hfollows) hfaults

/-- A crash while the second record is written: three bytes of it are in the log. -/
def tornPut : World := { pristine defaultEnv with
  dir := onePut.dir.append onePut.current.mutableWal.inode
    ((onePut.pendingBytes defaultEnv (Key.new [97] 2, .bytes [2])).take 3) }

theorem leaves_tornPut : Leaves onePut (put defaultEnv [97] (.bytes [2]) onePut).2 tornPut.dir := by
  have hkey : (Key.new [97] 0).updateLsn onePut.nextLsn = Key.new [97] 2 := by decide +kernel
  have hsize : (inserted defaultEnv onePut ((Key.new [97] 0).updateLsn onePut.nextLsn,
      .bytes [2])).current.mutableMemtable.size < defaultEnv.maxMemtableSize := by decide +kernel
  have hlength : 3 ≤ (onePut.pendingBytes defaultEnv (Key.new [97] 2, .bytes [2])).length := by
    decide +kernel
  have htwo : write defaultEnv (Key.new [97] 0) (.bytes [2]) onePut = _ := write_inserted rfl hsize
  show Leaves onePut (write defaultEnv (Key.new [97] 0) (.bytes [2]) onePut).2 _
  rw [htwo, hkey]
  exact leaves_inserted hlength

theorem start_after_crash_torn : ∃ w' vs, newDb defaultEnv tornPut = (.ok (), w') ∧
    versionEntries crates w' = some vs ∧ (Key.new [97] 1, .bytes [1]) ∈ vs := by
  have hstart : Survival defaultEnv (pristine defaultEnv) [] [] := .start [] []
  have hput : Survival defaultEnv onePut [(Key.new [97] 1, .bytes [1])]
      [(Key.new [97] 1, .bytes [1])] :=
    hstart.step (.put [97] (.bytes [1])) lifeRoom_onePut (run_of_ok rfl)
  have hroom : LifeRoom defaultEnv onePut (.put [97] (.bytes [2])) (.ok ()) :=
    ⟨show (2 : UInt64).toNat + 1 < 2 ^ 64 by decide,
    ⟨by decide, fun hfull => absurd hfull (by decide)⟩,
      .inl rfl⟩
  obtain ⟨w', vs, hrun, hvs, hacked, _⟩ :=
    start_after_crash defaultEnv onePut _ tornPut _ _ _ _ hput
    hroom (run_of_ok rfl) (.inr leaves_tornPut) rfl
  exact ⟨w', vs, hrun, hvs, hacked _ (List.mem_singleton_self _)⟩

end EasyLsm.Db
