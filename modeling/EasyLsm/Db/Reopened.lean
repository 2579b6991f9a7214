import Mathlib.Data.List.Basic
import EasyLsm.Db.Alignment
import EasyLsm.Db.Reading

/-!
# Reading in runs with restarts

A start that finds every memtable in its log opens the database that was closed: the same memtables,
the same tables, and `get` returns what it returned before (`start_keeps_reads`). In a run with such
starts, and with failures that are harmless, `get` returns the value of the last `put`
(`get_returns_newest_restarted`), in the order of the LSNs that are given across the starts.
-/

namespace EasyLsm.Db

open Lib Lib.FileStore Lib.Versions

variable {env : Env} {w w' : World} {shelf : List (List (OpenTable env.crates))}
  {writes : List Entry} {k : Bytes}

/-- Every listed log is replayed to the memtable at its position. -/
def LogsReplayed (env : Env) (w : World) : Prop :=
  List.Forall₂ (fun id run => ∃ es, Replays env w.dir id es ∧
    (Memtable.new.putBatch es).store.entries = run) w.manifest.wals (memtableRuns w.current)

/-! ## A start -/

/-- What `get` finds depends on the entries of the memtables only. -/
theorem found_congr (hruns : memtableRuns w'.current = memtableRuns w.current) (k : Bytes) :
    found w' shelf k = found w shelf k := by
  obtain ⟨hfrozen, hmutable⟩ := List.append_inj' hruns rfl
  have hget : ∀ {st} (m m' : Memtable st), m'.store.entries = m.store.entries →
      m'.get k = m.get k := by
    intro st m m' heq
    rw [get_eq_firstValue, get_eq_firstValue, heq]
  have hall : ∀ ms ms' : List (Memtable .immutable), ms'.map Memtable.iter = ms.map Memtable.iter →
      ms'.findSome? (·.get k) = ms.findSome? (·.get k) := by
    intro ms
    induction ms with
    | nil =>
        intro ms' heq
        rw [List.map_eq_nil_iff.mp heq]
    | cons m ms ih =>
        intro ms' heq
        obtain ⟨m', rest, rfl, hm, hrest⟩ := List.map_eq_cons_iff.mp heq
        rw [List.findSome?_cons, List.findSome?_cons, hget m m' hm, ih rest hrest]
  unfold found
  rw [hget _ _ (List.head_eq_of_cons_eq hmutable), hall w.current.frozenMemtables.reverse
    w'.current.frozenMemtables.reverse (by rw [List.map_reverse, List.map_reverse, hfrozen])]

namespace Journaled

variable {j : LogJournal}

/-- The memtables behind a start are what is replayed from the listed logs. -/
theorem memtableRuns_started (h : Journaled env w shelf j) (hrun : newDb env w = (.ok (), w')) :
    memtableRuns w'.current =
      w.manifest.wals.map fun id => (Memtable.new.putBatch (j.log id)).store.entries := by
  obtain ⟨state, faults, _, rfl, _, hfrozen, hmutable, _⟩ := h.recovered h.onDisk hrun
  rw [h.wals, Journal.ids, List.map_append, memtableRuns]
  refine congrArg₂ (· ++ ·) ?_ ?_
  · show state.frozenMemtables.map Memtable.iter = _
    rw [hfrozen, List.map_map, List.map_map]
    rfl
  · show [state.mutableMemtable.store.entries] = _
    rw [hmutable]
    rfl

/-- A start leaves the memtables as they are exactly when they were in their logs. -/
theorem started_iff (h : Journaled env w shelf j) (hrun : newDb env w = (.ok (), w')) :
    memtableRuns w'.current = memtableRuns w.current ↔ LogsReplayed env w := by
  rw [h.memtableRuns_started hrun, LogsReplayed, ← List.forall₂_eq_eq_eq, List.forall₂_map_left_iff]
  have hiff : ∀ id ∈ w.manifest.wals, ∀ run,
    (Memtable.new.putBatch (j.log id)).store.entries = run ↔
      ∃ es, Replays env w.dir id es ∧ (Memtable.new.putBatch es).store.entries = run := by
    intro id hid run
    have hreplays := h.replays (h.wals ▸ hid)
    constructor
    · exact fun heq => ⟨_, hreplays, heq⟩
    · intro ⟨es, hes, heq⟩
      rw [← hreplays.unique hes]
      exact heq
  generalize w.manifest.wals = ids at hiff
  generalize memtableRuns w.current = runs
  induction ids generalizing runs with
  | nil => rw [List.forall₂_nil_left_iff, List.forall₂_nil_left_iff]
  | cons id ids ih =>
      cases runs with
      | nil => exact iff_of_false (fun h => nomatch h) fun h => nomatch h
      | cons run runs =>
          rw [List.forall₂_cons, List.forall₂_cons]
          exact and_congr (hiff id List.mem_cons_self run)
            (ih (fun id' hid' => hiff id' (List.mem_cons_of_mem id hid')) runs)

/-- The tables are those that were listed. -/
theorem shelved_started (h : Journaled env w shelf j) (hrun : newDb env w = (.ok (), w')) :
    Shelved env w' shelf := by
  obtain ⟨state, faults, hrecovered, rfl, _⟩ := h.recovered h.onDisk hrun
  exact h.layout.shelved.launched hrecovered

end Journaled

/-- In every run with restarts, a start leaves the memtables as they are exactly when every listed
log is replayed to the memtable at its position, and then `get` returns behind the start what it
returned before, a value, a tombstone or nothing. -/
theorem start_keeps_reads (env : Env) (w w' : World) (writes : List Entry)
    (h : Life env (LifeRoom env) RestartRoom w writes) (hrun : newDb env w = (.ok (), w')) :
    (memtableRuns w'.current = memtableRuns w.current ↔ LogsReplayed env w) ∧
    (LogsReplayed env w → searchOrder env w' = searchOrder env w ∧
      ∀ k value, Gets env w' k value ↔ Gets env w k value) := by
  obtain ⟨shelf, j, hjournaled, _⟩ := h.journaled (P := fun _ _ => True) (fun _ _ _ hroom => hroom)
    (fun _ hroom => hroom) trivial (fun _ _ _ _ => trivial) fun _ _ _ _ => trivial
  have hiff := hjournaled.started_iff hrun
  refine ⟨hiff, fun hreplayed => ?_⟩
  have hruns := hiff.mpr hreplayed
  have hshelved := hjournaled.layout.shelved
  have hshelved' := hjournaled.shelved_started hrun
  constructor
  · rw [searchOrder_eq hshelved, searchOrder_eq hshelved', hruns]
  · intro k value
    rw [gets_iff hshelved, gets_iff hshelved', found_congr hruns]

/-- A frozen memtable with one entry, and another entry behind it. -/
def frozenAndMutable : World := (put defaultEnv [98] (.bytes [2]) oneFrozen).2

/-- The second entry can be of the same key or of another one. -/
theorem lifeRoom_secondPut {key : Bytes} (hkey : key = [97] ∨ key = [98]) :
    LifeRoom defaultEnv oneFrozen (.put key (.bytes [2])) (.ok ()) := by
  have hnext : oneFrozen.nextLsn = 2 := rfl
  refine ⟨?_, ⟨?_, fun hfull => absurd hfull ?_⟩, .inl rfl⟩
  · show oneFrozen.nextLsn.toNat + 1 < 2 ^ 64
    rw [hnext]
    decide
  · rw [hnext]
    rcases hkey with rfl | rfl <;> decide
  · rcases hkey with rfl | rfl <;> decide +kernel

theorem logsReplayed_frozenAndMutable : LogsReplayed defaultEnv frozenAndMutable :=
  .cons ⟨[(Key.new [97] 1, .bytes [1])], ⟨_, rfl, by decide +kernel⟩, rfl⟩
    (.cons ⟨[(Key.new [98] 2, .bytes [2])], ⟨_, rfl, by decide +kernel⟩, rfl⟩ .nil)

theorem start_keeps_reads_frozenAndMutable :
    Gets defaultEnv (newDb defaultEnv frozenAndMutable).2 [97] (some (.bytes [1])) ∧
    Gets defaultEnv (newDb defaultEnv frozenAndMutable).2 [98] (some (.bytes [2])) := by
  have hput : Life defaultEnv (LifeRoom defaultEnv) RestartRoom onePut _ :=
    life_onePut lifeRoom_onePut
  have hrotate := hput.step (.structural .rotateMemtable) lifeRoom_oneFrozen (run_of_ok rfl)
  have hlife :=
    hrotate.step (.put [98] (.bytes [2])) (lifeRoom_secondPut (.inr rfl)) (run_of_ok rfl)
  obtain ⟨_, hkeeps⟩ := start_keeps_reads defaultEnv frozenAndMutable _ _ hlife
    (run_of_ok (by decide +kernel))
  have hgets := (hkeeps logsReplayed_frozenAndMutable).2
  have hshelved : Shelved defaultEnv frozenAndMutable [] := ⟨rfl, rfl, by simp, List.nodup_nil⟩
  exact ⟨(hgets [97] _).mpr ((gets_iff hshelved).mpr rfl),
    (hgets [98] _).mpr ((gets_iff hshelved).mpr rfl)⟩

/-! ## Runs with restarts -/

/-- Only what is not listed, or the counter of table ids, has changed. -/
theorem Layout.quiet (h : Layout env w shelf) (hquiet : Quiet (Kept w.manifest) w w') :
    Layout env w' shelf := by
  obtain ⟨id, hid⟩ := hquiet.manifest
  have hlists : fileLists w'.manifest = fileLists w.manifest := by rw [hid]; rfl
  have hwals : w'.manifest.wals = w.manifest.wals := by rw [hid]
  have hcurrent := hquiet.current
  refine ⟨h.shelved.frame hlists (by rw [hcurrent]) (hquiet.dir.mono ?_), ?_, ?_⟩
  · intro n ⟨t, ht, hn⟩
    rw [hn]
    exact .inr (h.shelved.listed_of_mem ht)
  · rw [hcurrent]
    exact (hquiet.dir.names (.inr (.inl ⟨_, h.log_listed, rfl⟩)) _).mpr h.log
  · rw [hwals, hcurrent]
    exact h.wals

namespace Arranged

/-- The memtables, the next LSN and the tables are the same. -/
theorem transfer (h : Arranged env w shelf writes) (hlayout : Layout env w' shelf)
    (hruns : memtableRuns w'.current = memtableRuns w.current)
    (hlsns : ∀ e ∈ writes, e.1.lsn < w'.nextLsn) : Arranged env w' shelf writes where
  layout := hlayout
  stored := by
    unfold storedEntries
    rw [hruns]
    exact h.stored
  lsns := hlsns
  increasing := h.increasing
  memtables := by
    rw [hruns]
    exact h.memtables
  level0 := h.level0
  tables := by
    rw [hruns]
    exact h.tables

/-- A failure before a commit. -/
theorem quiet (h : Arranged env w shelf writes) (hquiet : Quiet (Kept w.manifest) w w') :
    Arranged env w' shelf writes := by
  refine h.transfer (h.layout.quiet hquiet) (by rw [hquiet.current]) ?_
  rw [hquiet.nextLsn]
  exact h.lsns

end Arranged

/-- The database as a journal with increasing sequence numbers, in a run with restarts behind which
LSNs go on. -/
theorem Life.sequenced {allowed : World → Command → Except DbError Unit → Prop}
    {restarts : World → Prop}
    (hroom : ∀ w command r, allowed w command r → LifeRoom env w command r)
    (hrestarts : ∀ w, restarts w → RestartRoom w ∧ LastLogged env w)
    (h : Life env allowed restarts w writes) :
    ∃ shelf j, Journaled env w shelf j ∧ j.Sequenced writes :=
  h.journaled hroom (fun w hallow => (hrestarts w hallow).1) .initial
    (fun hjournaled hsequenced _ hfollows => hjournaled.sequenced hsequenced hfollows)
    fun hjournaled hsequenced hallow _ =>
      hsequenced.restart (hjournaled.lastLogged_iff.mp (hrestarts _ hallow).2) _

/-- What holds of the tables in every state of a run with restarts that find the memtables in their
logs. -/
theorem Life.arranged {allowed : World → Command → Except DbError Unit → Prop}
    {restarts : World → Prop} {P : List (List (OpenTable env.crates)) → Prop}
    (hroom : ∀ w command r, allowed w command r → LifeRoom env w command r)
    (hrestarts : ∀ w, restarts w → (RestartRoom w ∧ LastLogged env w) ∧ LogsReplayed env w)
    (hstart : P [])
    (hstep : ∀ {w w' shelf shelf' writes command}, Arranged env w shelf writes → P shelf →
      allowed w command (.ok ()) → Outcome env w shelf command w' shelf' → P shelf')
    (h : Life env allowed restarts w writes) : ∃ shelf, Arranged env w shelf writes ∧ P shelf := by
  have hrest : ∀ w, restarts w → RestartRoom w ∧ LastLogged env w := fun w hw => (hrestarts w hw).1
  induction h with
  | start faults trace => exact ⟨[], .start env faults trace, hstart⟩
  | @step w w' writes r command hlife hallow hrun ih =>
      obtain ⟨shelf, harranged, hP⟩ := ih
      obtain ⟨shelf₁, j, hjournaled, _⟩ := hlife.sequenced hroom hrest
      obtain ⟨hcommand, hdisk, hharmless⟩ := hroom _ _ _ hallow
      cases r with
      | ok =>
          obtain ⟨shelf', houtcome, hlayout⟩ := harranged.layout.step hcommand hrun
          exact ⟨shelf', harranged.step hcommand houtcome hlayout,
            hstep harranged hP hallow houtcome⟩
      | error e =>
          have hharmless := hharmless.resolve_left (by simp)
          cases command with
          | put key value =>
              obtain ⟨hfault, hno⟩ := hharmless
              obtain ⟨hfull, hrotate⟩ := put_harmless hfault hrun
              have hinserted := hjournaled.inserted hdisk.1 hcommand
              have hquiet := rotate_harmless (fun _ => hinserted.walFile_ne_nil) (hno hfull) hrotate
              exact ⟨shelf, (harranged.inserted key value hcommand).quiet hquiet, hP⟩
          | structural op =>
              have hquiet := harranged.layout.failed hcommand hharmless
                (fun _ => hjournaled.walFile_ne_nil) hrun
              refine ⟨shelf, ?_, hP⟩
              rw [show writes ++ (Command.structural op).written w = writes from List.append_nil _]
              exact harranged.quiet hquiet
  | @restart w w' writes hlife hallow hrun ih =>
      obtain ⟨shelf, harranged, hP⟩ := ih
      obtain ⟨shelf₁, j, hjournaled, hsequenced⟩ := hlife.sequenced hroom hrest
      obtain ⟨⟨hrestartRoom, hlast⟩, hreplayed⟩ := hrestarts _ hallow
      have hruns := (hjournaled.started_iff hrun).mpr hreplayed
      have hsequenced' := hsequenced.restart (hjournaled.lastLogged_iff.mp hlast)
        (Manifest.maxId w.manifest.wals + 1)
      obtain ⟨_, hjournaled'⟩ := hjournaled.restarted hrestartRoom hrun
      refine ⟨shelf, harranged.transfer ?_ hruns fun e he => ?_, hP⟩
      · obtain ⟨state, faults, hrecovered, rfl, _⟩ := hjournaled.recovered hjournaled.onDisk hrun
        exact ⟨harranged.layout.shelved.launched hrecovered, hjournaled'.layout.log,
          hjournaled'.layout.wals⟩
      · rw [UInt64.lt_iff_toNat_lt, hjournaled'.seq]
        exact (hsequenced'.recorded e (hsequenced'.recorded_write he)).2

/-- The commands of a run in which `get` returns the newest value. -/
def ReadRoom (env : Env) (w : World) (command : Command) (r : Except DbError Unit) : Prop :=
  LifeRoom env w command r ∧ PutsValue command ∧ KeepsOrder env w command

/-- A start finds every memtable in its log, and behind it the LSNs go on. -/
def RereadRoom (env : Env) (w : World) : Prop :=
  (RestartRoom w ∧ LastLogged env w) ∧ LogsReplayed env w

/-- The entries of a run meet what is allowed to be written. -/
theorem Life.forall_written {allowed : World → Command → Except DbError Unit → Prop}
    {restarts : World → Prop} {P : Entry → Prop} (h : Life env allowed restarts w writes)
    (hallowed : ∀ w command r, allowed w command r → ∀ e ∈ command.written w, P e) :
    ∀ e ∈ writes, P e := by
  induction h with
  | start => exact fun e he => absurd he List.not_mem_nil
  | restart _ _ _ ih => exact ih
  | step command _ hallow _ ih =>
      intro e he
      rcases List.mem_append.mp he with he | he
      · exact ih e he
      · exact hallowed _ _ _ hallow e he

/-- In every run of commands, failures that are harmless, and starts that find every memtable in its
log, `get` returns the value of the last `put` of the key, whatever was flushed, compacted and
replayed in between. -/
theorem get_returns_newest_restarted (env : Env) (w : World) (writes : List Entry)
    (h : Life env (ReadRoom env) (RereadRoom env) w writes) :
    (∀ k, Gets env w k (lastValue k writes)) ∧ NewestFirst (searchOrder env w) ∧
    (searchOrder env w).Perm writes := by
  obtain ⟨shelf, harranged, ⟨hdescending, hapart⟩, hordered⟩ := h.arranged
    (P := fun shelf => (Descending OpenTable.entries shelf ∧ Level0Apart shelf) ∧
      LevelsOrdered shelf)
    (fun _ _ _ hallowed => hallowed.1) (fun _ hallowed => hallowed)
    ⟨⟨fun _ _ _ _ ha => absurd ha List.not_mem_nil, .nil⟩, fun _ _ => .nil⟩
    fun harranged hinv hallowed houtcome =>
      ⟨⟨harranged.descending_step hinv.1.1 hallowed.2.2.1 houtcome,
        (harranged.level0Apart_step_iff hinv.1.2 houtcome).mpr hallowed.2.2.2⟩,
        harranged.levelsOrdered_step hinv.2 houtcome⟩
  have hfirst := (harranged.newestFirst_iff hordered).mpr ⟨hdescending, hapart⟩
  have hshelved := harranged.layout.shelved
  have hperm := (searchOrder_perm hshelved).trans harranged.stored
  refine ⟨fun k => (gets_iff hshelved).mpr ?_, hfirst, hperm⟩
  have hvalues : ∀ e ∈ writes, e.2 ≠ .tombstone :=
    h.forall_written fun w command r hallowed e he => by
    cases command with
    | put key value =>
        rw [List.mem_singleton.mp he]
        exact hallowed.2.1
    | structural op => cases he
  rw [found_eq_firstValue hshelved fun e he => hvalues e (harranged.stored.mem_iff.mp he)]
  have hsame := hfirst.find?_eq k harranged.newestFirst_writes
    (hperm.trans (List.reverse_perm writes).symm) fun a ha b hb => harranged.unique a
      ((searchOrder_perm hshelved).mem_iff.mp ha) b ((searchOrder_perm hshelved).mem_iff.mp hb)
  exact congrArg (Option.map Prod.snd) hsame

/-- A key is put, the memtable is rotated, and the key is put again. -/
def overwritten : World := (put defaultEnv [97] (.bytes [2]) oneFrozen).2

theorem logsReplayed_overwritten : LogsReplayed defaultEnv overwritten := by
  refine .cons ⟨[(Key.new [97] 1, .bytes [1])], ⟨Wal.magicBytes ++ Wal.encodeGroup crc32
    [(Key.new [97] 1, .bytes [1])], by decide +kernel, by decide +kernel⟩, by decide +kernel⟩
    (.cons ⟨[(Key.new [97] 2, .bytes [2])], ⟨Wal.magicBytes ++ Wal.encodeGroup crc32
      [(Key.new [97] 2, .bytes [2])], by decide +kernel, by decide +kernel⟩, by decide +kernel⟩
        .nil)

theorem get_returns_newest_overwritten :
    Gets defaultEnv (newDb defaultEnv overwritten).2 [97] (some (.bytes [2])) := by
  have hput : Life defaultEnv (ReadRoom defaultEnv) (RereadRoom defaultEnv) onePut
      [(Key.new [97] 1, .bytes [1])] :=
    life_onePut ⟨lifeRoom_onePut, show Value.bytes [1] ≠ .tombstone by decide, trivial, trivial⟩
  have hrotated := hput.step (.structural .rotateMemtable)
    ⟨lifeRoom_oneFrozen, trivial, trivial, trivial⟩ (run_of_ok (by decide +kernel))
  have hagain := hrotated.step (.put [97] (.bytes [2]))
    ⟨lifeRoom_secondPut (.inl rfl), show Value.bytes [2] ≠ .tombstone by decide, trivial, trivial⟩
    (run_of_ok (by decide +kernel))
  have hlast : LastLogged defaultEnv overwritten :=
    .inl ⟨1, [(Key.new [97] 2, .bytes [2])], by decide +kernel, ⟨Wal.magicBytes ++
      Wal.encodeGroup crc32 [(Key.new [97] 2, .bytes [2])], by decide +kernel, by decide +kernel⟩,
      by simp⟩
  have hrestart : RestartRoom overwritten := by
    unfold RestartRoom
    decide +kernel
  have hlife := hagain.restart ⟨⟨hrestart, hlast⟩, logsReplayed_overwritten⟩
    (run_of_ok (by decide +kernel))
  exact (get_returns_newest_restarted defaultEnv _ _ hlife).1 [97]

end EasyLsm.Db
