import Mathlib.Data.List.Basic
import EasyLsm.Db.Crash
import EasyLsm.Db.FlushCrash

/-!
# Starting from what a crash leaves

`Db::new` reads the directory only: what was in memory does not matter (`newDb_remember`). It
succeeds when no I/O call fails, the newest manifest can be read, every listed log is replayed and
every listed table is there (`Opens.newDb_run`), and then the memtables and the tables hold what was
found.
-/

namespace EasyLsm.Db

open Lib Lib.FileStore

variable {env : Env} {w w' : World} {shelf : List (List (OpenTable env.crates))} {j : LogJournal}
  {d : Dir} {m : Manifest} {log : UInt32 → List Entry} {α β : Type}

/-! ## What a start forgets -/

/-- The state with other things in memory. -/
def World.remember (w : World) (m : Manifest) (v : Version) (lsn : UInt64) : World :=
  { w with manifest := m, current := v, nextLsn := lsn }

/-- The program does not look at the memory, and it does not change it. -/
def Forgets (x : Op α) : Prop :=
  ∀ w m v lsn, x (w.remember m v lsn) = ((x w).1, (x w).2.remember m v lsn)

namespace Forgets

theorem pure (a : α) : Forgets (Pure.pure a : Op α) := fun _ _ _ _ => rfl

theorem fail (e : DbError) : Forgets (Prog.fail e : Op α) := fun _ _ _ _ => rfl

theorem ofExcept (x : Except DbError α) : Forgets (Prog.ofExcept x) := fun _ _ _ _ => rfl

theorem bind {x : Op α} {f : α → Op β} (hx : Forgets x) (hf : ∀ a, Forgets (f a)) :
    Forgets (x >>= f) := by
  intro w m v lsn
  rw [Prog.bind_apply, Prog.bind_apply, hx]
  rcases x w with ⟨e | a, w₁⟩
  · rfl
  · exact hf a w₁ m v lsn

theorem readDir : Forgets (Prog.read World.dir) := fun _ _ _ _ => rfl

theorem through (dirs : List Dir) : Forgets (Db.through dirs) := fun _ _ _ _ => rfl

theorem nextFault : Forgets Db.nextFault := by
  intro w m v lsn
  rw [nextFault_run, nextFault_run]
  rfl

theorem forEach {f : α → Op β} (hf : ∀ a, Forgets (f a)) (l : List α) :
    Forgets (Prog.forEach f l) := by
  induction l with
  | nil => exact pure []
  | cons a l ih => exact (hf a).bind fun _ => ih.bind fun _ => pure _

theorem writeFile (inode : Nat) (bytes : Bytes) : Forgets (Db.writeFile inode bytes) := by
  refine nextFault.bind fun fault => readDir.bind fun dir => ?_
  cases fault with
  | none => exact through _
  | some f => exact (through _).bind fun _ => fail _

theorem createFile (name : FileName) : Forgets (Db.createFile name) := by
  refine nextFault.bind fun fault => readDir.bind fun dir => ?_
  cases fault with
  | none => exact (through _).bind fun _ => pure _
  | some f => exact fail _

theorem openFile (name : FileName) : Forgets (Db.openFile name) := by
  refine nextFault.bind fun fault => readDir.bind fun dir => ?_
  split
  · exact fail _
  · exact fail _
  · exact pure _

theorem openWal (id : UInt32) : Forgets (Db.openWal id) := by
  refine nextFault.bind fun fault => readDir.bind fun dir => ?_
  simp only
  split
  · split
    · exact fail _
    · split
      · exact (through _).bind fun _ => pure _
      · exact pure _
  · exact fail _
  · split
    · exact (through _).bind fun _ => fail _
    · exact fail _

theorem openTable (env : Env) (id : UInt32) : Forgets (Db.openTable env id) :=
  (openFile _).bind fun _ => readDir.bind fun _ => (ofExcept _).bind fun _ => pure _

theorem replayWal (env : Env) (id : UInt32) : Forgets (Db.replayWal env id) := by
  refine nextFault.bind fun fault => readDir.bind fun dir => ?_
  split
  · exact fail _
  · exact fail _
  · exact ofExcept _

theorem recoverOrInit (env : Env) : Forgets (Db.recoverOrInit env) := by
  refine readDir.bind fun dir => ?_
  split
  · exact (openWal 0).bind fun wal => ((createFile _).bind fun _ => writeFile _ _).bind fun _ =>
      pure _
  · refine nextFault.bind fun fault => ?_
    cases fault with
    | none => exact ofExcept _
    | some f => exact fail _

theorem recoverState (env : Env) (m : Manifest) : Forgets (Db.recoverState env m) := by
  have hfrozen : ∀ id, Forgets (replayImmutableWal env id) :=
    fun id => (replayWal env id).bind fun _ => pure _
  have hmutable : ∀ id, Forgets (replayMutableWal env id) :=
    fun id => (replayWal env id).bind fun _ => pure _
  have hlevel : ∀ level : Level,
      Forgets (Prog.forEach (fun fileMeta => Db.openTable env fileMeta.fileId) level.files) :=
    fun level => forEach (fun fileMeta => openTable env fileMeta.fileId) level.files
  unfold Db.recoverState
  split
  · exact fail _
  · refine (forEach hfrozen _).bind fun frozen => (hmutable _).bind fun p => ?_
    exact (openWal _).bind fun wal => (forEach hlevel _).bind fun _ => pure _

end Forgets

/-- A start does not depend on what was in memory. -/
theorem newDb_remember (v : Version) (lsn : UInt64) (hrun : newDb env w = (.ok (), w')) :
    newDb env (w.remember m v lsn) = (.ok (), w') := by
  obtain ⟨m', w₁, hrecover, hrun⟩ := Prog.bind_eq_ok.mp hrun
  obtain ⟨state, w₂, hstate, hrun⟩ := Prog.bind_eq_ok.mp hrun
  refine Prog.bind_eq_ok.mpr ⟨m', w₁.remember m v lsn, ?_, Prog.bind_eq_ok.mpr
    ⟨state, w₂.remember m v lsn, ?_, hrun⟩⟩
  · rw [Forgets.recoverOrInit, hrecover]
  · rw [Forgets.recoverState, hstate]

/-! ## A start that succeeds -/

/-- The newest manifest lists logs that are replayed and tables that are there. -/
structure Opens (env : Env) (d : Dir) (m : Manifest) (log : UInt32 → List Entry)
    (shelf : List (List (OpenTable env.crates))) : Prop where
  onDisk : OnDisk env d m
  wals : m.wals ≠ []
  logs : ∀ id ∈ m.wals, Replays env d id (log id)
  listed : fileLists m = shelf.map (List.map OpenTable.meta')
  filed : ∀ t ∈ shelf.flatten, t.Filed d

theorem nextFault_nil (hfaults : w.faults = []) : nextFault w = (.ok none, w) := by
  unfold nextFault
  rw [hfaults]

/-- A loop whose every turn only reads. -/
theorem forEach_reads {f : α → Op β} {l : List α} {bs : List β}
    (h : List.Forall₂ (fun a b => f a w = (.ok b, w)) l bs) : Prog.forEach f l w = (.ok bs, w) := by
  induction h with
  | nil => rfl
  | cons hfirst _ ih =>
      simp only [Prog.forEach, Prog.bind_apply, hfirst, ih]
      rfl

theorem replayWal_run {id : UInt32} {es : List Entry} (hfaults : w.faults = [])
    (h : Replays env w.dir id es) : replayWal env id w = (.ok es, w) := by
  obtain ⟨file, hread, hreplay⟩ := h
  simp only [replayWal, Prog.bind_apply, nextFault_nil hfaults, Prog.read, hread, Prog.ofExcept,
    hreplay]

/-- A log that is replayed is opened without a change. -/
theorem openWal_reads {id : UInt32} {es : List Entry} (hfaults : w.faults = [])
    (h : Replays env w.dir id es) : ∃ inode, (.wal id, inode) ∈ w.dir.names ∧
      openWal id w = (.ok ⟨id, inode, []⟩, w) := by
  have hne := h.walFile_ne_nil
  obtain ⟨file, hread, hreplay⟩ := h
  obtain ⟨inode, hlookup, _⟩ := Option.map_eq_some_iff.mp hread
  have hname := lookup_eq_some.mp hlookup
  have hfile : walFile w.dir id = file := by rw [walFile, hread, Option.getD_some]
  -- the replay has checked the magic number
  have hwritable : Wal.openWritable file = .ok file := by
    obtain ⟨r, hiter, _⟩ := bind_ok_iff.mp hreplay
    obtain ⟨⟨magicBuf, rest⟩, hmagic, hcheck⟩ := bind_ok_iff.mp hiter
    unfold Wal.openWritable
    rw [if_neg (by rwa [List.length_eq_zero_iff, ← hfile]), hmagic]
    simp only [ok_bind] at hcheck ⊢
    split at hcheck
    · cases hcheck
    · rename_i hmatch
      rw [if_neg hmatch]
      rfl
  refine ⟨inode, hname, ?_⟩
  have hopen := (openWal_run w id) w rfl
  rcases hrun : openWal id w with ⟨e | wal, w₁⟩
  · rw [hrun] at hopen
    refine absurd (hfile.symm ▸ hwritable) (hopen.1 (fun i _ => ?_) _)
    rw [hfaults]
    rfl
  · rw [hrun] at hopen
    obtain ⟨_, ⟨hid, hbuf⟩, ⟨_, hname₁⟩, _, hsame⟩ := hopen
    have hw₁ : w₁ = w := by
      rw [hsame hne, hfaults]
      cases w
      cases hfaults
      rfl
    subst hw₁
    obtain ⟨id', inode', buf⟩ := wal
    obtain rfl : id' = id := hid
    obtain rfl : buf = [] := hbuf
    obtain rfl : inode' = inode := w₁.dir.inode_unique hname₁ hname
    rfl

theorem openTable_run {t : OpenTable env.crates} (hfaults : w.faults = []) (h : t.Filed w.dir) :
    openTable env t.fileId w = (.ok t.handle, w) := by
  have hnew : Sstable.new env.crates t.fileId (w.dir.content t.inode) =
      .ok (openedTable env.crates t.fileId t.entries) := by
    rw [h.2]
    exact new_writeTable t.fits t.ne_nil _
  have hlookup : w.dir.lookup (.sst t.fileId) = some t.inode := lookup_eq_some.mpr h.1
  have hopen : openFile (.sst t.fileId) w = (.ok t.inode, w) := by
    simp only [openFile, Prog.bind_apply, nextFault_nil hfaults, Prog.read, hlookup]
    rfl
  simp only [openTable, Prog.bind_apply, hopen, Prog.read, Prog.ofExcept, hnew]
  rfl

/-- The entries that are read through the handle of a table. -/
theorem handleEntries_handle {t : OpenTable env.crates} (h : t.Filed d) :
    handleEntries env.crates d t.handle = some t.entries := by
  have hfile : { t.handle.sst with file := d.content t.handle.inode } =
      openedTable env.crates t.fileId t.entries := by
    show { openedTable env.crates t.fileId t.entries with file := d.content t.inode } = _
    rw [h.2]
    rfl
  unfold handleEntries
  rw [hfile, iter_openedTable t.fits]
  rfl

/-- The entries of a database whose tables are those of the shelf. -/
theorem versionEntries_of_shelf
    (hpresented : w.current.sstables = shelf.map (List.map OpenTable.handle))
    (hfiled : ∀ t ∈ shelf.flatten, t.Filed w.dir) : versionEntries env.crates w =
    some (w.current.mutableMemtable.store.entries ++
      (w.current.frozenMemtables.flatMap Memtable.iter ++
      shelf.flatten.flatMap OpenTable.entries)) := by
  have hhandles : w.current.sstables.flatten = shelf.flatten.map OpenTable.handle := by
    rw [hpresented, List.map_flatten]
  refine versionEntries_eq_some.mpr ⟨?_, ?_⟩
  · rw [hhandles, List.forall_mem_map]
    intro t ht
    rw [handleEntries_handle (hfiled t ht)]
    rfl
  · rw [hhandles, List.flatMap_map]
    refine congrArg _ (congrArg _ (List.flatMap_congr fun t ht => ?_))
    rw [handleEntries_handle (hfiled t ht)]
    rfl

namespace Opens

theorem recoverOrInit_run (h : Opens env w.dir m log shelf) (hfaults : w.faults = []) :
    recoverOrInit env w = (.ok (reopened m), w) := by
  have hrecover : Manifest.recover env.crates.crc32 env.dbDir w.dir = some (.ok (reopened m)) :=
    h.onDisk
  simp only [recoverOrInit, Prog.bind_apply, Prog.read, hrecover, nextFault_nil hfaults,
    Prog.ofExcept]

/-- Recovery succeeds. -/
theorem recoverState_run (h : Opens env w.dir m log shelf) (hfaults : w.faults = []) :
    ∃ state, recoverState env (reopened m) w = (.ok state, w) ∧
      state.frozenMemtables = m.wals.dropLast.map
        (fun id => (Memtable.new.putBatch (log id)).freeze) ∧
      state.mutableMemtable = Memtable.new.putBatch (log (m.wals.getLast h.wals)) ∧
      state.sstables = shelf.map (List.map OpenTable.handle) := by
  obtain ⟨inode, _, hwal⟩ := openWal_reads hfaults (h.logs _ (List.getLast_mem h.wals))
  have hlast : m.wals.getLast? = some (m.wals.getLast h.wals) :=
    List.getLast?_eq_some_getLast h.wals
  have hfrozen : Prog.forEach (replayImmutableWal env) m.wals.dropLast w =
      (.ok (m.wals.dropLast.map fun id => (Memtable.new.putBatch (log id)).freeze), w) := by
    refine forEach_reads (List.forall₂_map_right_iff.mpr (List.forall₂_same.mpr fun id hid => ?_))
    simp only [replayImmutableWal, Prog.bind_apply,
      replayWal_run hfaults (h.logs id (List.dropLast_subset _ hid))]
    rfl
  have hmutable : replayMutableWal env (m.wals.getLast h.wals) w =
      (.ok (Memtable.new.putBatch (log (m.wals.getLast h.wals)),
        lastLsn (log (m.wals.getLast h.wals))), w) := by
    simp only [replayMutableWal, Prog.bind_apply,
      replayWal_run hfaults (h.logs _ (List.getLast_mem h.wals))]
    rfl
  have htables : Prog.forEach (fun level : Level =>
      Prog.forEach (fun fileMeta => openTable env fileMeta.fileId) level.files) m.levels w =
        (.ok (shelf.map (List.map OpenTable.handle)), w) := by
    have hlists : List.Forall₂ (fun fs hs => Prog.forEach (fun fileMeta : FileMetadata =>
        openTable env fileMeta.fileId) fs w = (.ok hs, w)) (fileLists m)
        (shelf.map (List.map OpenTable.handle)) := by
      rw [h.listed, List.forall₂_map_left_iff, List.forall₂_map_right_iff, List.forall₂_same]
      intro level hlevel
      refine forEach_reads (List.forall₂_map_left_iff.mpr (List.forall₂_map_right_iff.mpr
        (List.forall₂_same.mpr fun t ht => ?_)))
      exact openTable_run hfaults (h.filed t (List.mem_flatten.mpr ⟨level, hlevel, ht⟩))
    exact forEach_reads (List.forall₂_map_left_iff.mp hlists)
  refine ⟨{
    mutableMemtable := Memtable.new.putBatch (log (m.wals.getLast h.wals))
    mutableWal := ⟨m.wals.getLast h.wals, inode, []⟩
    frozenMemtables := m.wals.dropLast.map fun id => (Memtable.new.putBatch (log id)).freeze
    sstables := shelf.map (List.map OpenTable.handle)
    nextLsn := lastLsn (log (m.wals.getLast h.wals)) + 1 }, ?_, rfl, rfl, rfl⟩
  unfold recoverState
  rw [show (reopened m).wals.getLast? = _ from hlast]
  simp only [Prog.bind_apply, show (reopened m).wals = m.wals from rfl,
    show (reopened m).levels = m.levels from rfl, hfrozen, hmutable, hwal, htables]
  rfl

/-- Without an I/O error the database is started. What it holds is what was in the logs and in the
tables. -/
theorem newDb_run (h : Opens env w.dir m log shelf) (hfaults : w.faults = []) :
    ∃ w' vs, newDb env w = (.ok (), w') ∧ versionEntries env.crates w' = some vs ∧
      ∀ e, e ∈ vs ↔ (∃ id ∈ m.wals, e ∈ (Memtable.new.putBatch (log id)).store.entries) ∨
        ∃ t ∈ shelf.flatten, e ∈ t.entries := by
  obtain ⟨state, hstate, hfrozen, hmutable, htables⟩ := h.recoverState_run hfaults
  have hrun : newDb env w = (.ok (), launched w (reopened m) state) := by
    simp only [newDb, Prog.bind_apply, h.recoverOrInit_run hfaults, hstate]
    rfl
  have hlast := List.dropLast_append_getLast h.wals
  refine ⟨_, _, hrun, versionEntries_of_shelf htables h.filed, fun e => ?_⟩
  have hmemtables : e ∈ state.mutableMemtable.store.entries ∨
      e ∈ state.frozenMemtables.flatMap Memtable.iter ↔
      ∃ id ∈ m.wals, e ∈ (Memtable.new.putBatch (log id)).store.entries := by
    rw [hmutable, hfrozen, List.flatMap_map, List.mem_flatMap]
    constructor
    · rintro (he | ⟨id, hid, he⟩)
      · exact ⟨_, List.getLast_mem h.wals, he⟩
      · exact ⟨id, List.dropLast_subset _ hid, he⟩
    · intro ⟨id, hid, he⟩
      rw [← hlast, List.mem_append, List.mem_singleton] at hid
      rcases hid with hid | rfl
      · exact .inr ⟨id, hid, he⟩
      · exact .inl he
  rw [List.mem_append, List.mem_append, ← or_assoc]
  exact or_congr hmemtables List.mem_flatMap

end Opens

/-! ## Databases -/

/-- The sequence numbers of the logs increase, so nothing is replaced in a replay. -/
theorem mem_replayed {es : List Entry} (h : es.Pairwise fun a b => a.1.lsn < b.1.lsn) {e : Entry} :
    e ∈ (Memtable.new.putBatch es).store.entries ↔ e ∈ es := by
  have hseq : es.Pairwise fun a b => Versions.Versioned.seq a < Versions.Versioned.seq b :=
    h.imp fun hlt => UInt64.lt_iff_toNat_lt.mp hlt
  constructor
  · exact fun he => Journal.mem_of_mem_replay (M := Memtable .mutable) he
  · exact fun he => Journal.mem_replay (M := Memtable .mutable) hseq he

namespace Journaled

/-- The directory of a database is opened. -/
theorem opens (h : Journaled env w shelf j) : Opens env w.dir w.manifest j.log shelf where
  onDisk := h.onDisk
  wals := by
    rw [h.wals]
    exact List.append_ne_nil_of_right_ne_nil _ (List.cons_ne_nil _ _)
  logs id hid := h.replays (h.wals ▸ hid)
  listed := h.layout.shelved.listed
  filed := h.layout.shelved.filed

/-- With a torn record at the end of the log the directory is opened as well. -/
theorem opens_torn (h : Journaled env w shelf j) {e : Entry} (hfits : e.Fits)
    (htorn : TornRecord env w e d) :
    ∃ es, es <+: [e] ∧
      Opens env d w.manifest (Function.update j.log j.active (j.log j.active ++ es)) shelf := by
  obtain ⟨n, _, _, rfl⟩ := htorn
  let record := (Wal.encodeEntry env.crates.crc32 e).take n
  have hname : (FileName.wal j.active, w.current.mutableWal.inode) ∈ w.dir.names := by
    rw [← h.active]
    exact h.layout.log
  have hagree : Agree (· ≠ .wal j.active) w.dir (w.dir.append w.current.mutableWal.inode record) :=
    agree_setContent (free_of_mem (by simp) hname) _
  have hprefix : record <+: Wal.encodeGroup env.crates.crc32 [e] := by
    rw [Wal.encodeGroup, List.flatMap_singleton]
    exact List.take_prefix n _
  obtain ⟨es, hes, hreplay⟩ := @Wal.replay_truncated env.crates.crc32 (j.log j.active) [e] record
    (fun x hx => (h.records _ j.active_mem x hx).1) (List.forall_mem_singleton.mpr hfits) hprefix
  have hold := h.logs _ j.active_mem
  rw [read_of_mem hname] at hold
  have hname' : (FileName.wal j.active, w.current.mutableWal.inode) ∈
      (w.dir.append w.current.mutableWal.inode record).names := hname
  refine ⟨es, hes, h.onDisk.of_agree (hagree.mono ?_), h.opens.wals, fun id hid => ?_,
    h.layout.shelved.listed, fun t ht => (h.layout.shelved.filed t ht).agree hagree (by simp)⟩
  · intro n hversion
    obtain ⟨v, hv⟩ := hversion
    rw [hv]
    simp
  · by_cases heq : id = j.active
    · subst heq
      rw [Function.update_self]
      refine ⟨_, read_of_mem hname', ?_⟩
      rw [FileStore.append, content_setContent_self, Option.some.inj hold]
      exact hreplay
    · rw [Function.update_of_ne heq]
      obtain ⟨file, hread, hlog⟩ := h.replays (h.wals ▸ hid)
      exact ⟨file, (hagree.read fun hn => heq (FileName.wal.inj hn)).trans hread, hlog⟩

/-- What an open database holds. -/
theorem versionEntries (h : Journaled env w shelf j) : ∃ vs, versionEntries env.crates w = some vs ∧
    ∀ e, e ∈ vs ↔ (∃ m ∈ j.memories, e ∈ Buffer.entries m) ∨ e ∈ j.stored := by
  refine ⟨_, versionEntries_of_shelf h.layout.shelved.presented h.layout.shelved.filed, fun e => ?_⟩
  rw [List.mem_append, List.mem_append, ← or_assoc]
  refine or_congr ?_ h.stored.mem_iff
  rw [h.frozen, h.memory, List.flatMap_map, List.mem_flatMap]
  constructor
  · rintro (he | ⟨m, hm, he⟩)
    · exact ⟨_, Journal.mem_memories.mpr (.inr rfl), he⟩
    · exact ⟨m, Journal.mem_memories.mpr (.inl hm), he⟩
  · intro ⟨m, hm, he⟩
    rcases Journal.mem_memories.mp hm with hm | rfl
    · exact .inr ⟨m, hm, he⟩
    · exact .inl he

/-- The same database with other faults to come. -/
theorem reset (h : Journaled env w shelf j) (faults : List (Option Fault)) (trace : List Dir) :
    Journaled env { w with faults, trace } shelf j where
  toTracked :=
    ⟨⟨h.saved.newest, h.saved.onDisk⟩, h.name, h.active, h.buf, h.wals, h.frozen, h.memory,
    h.next, h.seq, h.logs, h.records, h.bounded, h.unwritten⟩
  layout := ⟨⟨h.layout.shelved.listed, h.layout.shelved.presented, h.layout.shelved.filed,
    h.layout.shelved.nodup⟩, h.layout.log, h.layout.wals⟩
  onDisk := h.onDisk
  stored := h.stored

end Journaled

/-- A start from a directory that holds a database, whatever is in memory: the logs are replayed,
and the next log id is behind the listed ones. -/
theorem Holds.started (h : Holds env w.dir j) (hrun : newDb env w = (.ok (), w'))
    (hroom : RestartRoom w') : ∃ shelf next, (∀ id ∈ j.ids, id < next) ∧
      Journaled env w' shelf (j.restart next) := by
  obtain ⟨v, shelf, hdir, hjournaled⟩ := h
  have hreset := hjournaled.reset w.faults w.trace
  have hsame : { v with faults := w.faults, trace := w.trace } =
      w.remember v.manifest v.current v.nextLsn := by
    rw [World.remember, ← hdir]
  have hrun' := newDb_remember (m := v.manifest) v.current v.nextLsn hrun
  rw [← hsame] at hrun'
  obtain ⟨state, faults, _, hw', _⟩ := hreset.recovered hreset.onDisk hrun'
  have hroom' : RestartRoom { v with faults := w.faults, trace := w.trace } := by
    rw [hw'] at hroom
    exact hroom
  obtain ⟨hnext, hrestarted⟩ := hreset.restarted hroom' hrun'
  exact ⟨shelf, _, hnext, hrestarted⟩

end EasyLsm.Db
