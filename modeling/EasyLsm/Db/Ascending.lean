import Mathlib.Data.List.Basic
import EasyLsm.Db.Launch
import EasyLsm.Db.TableIds
import EasyLsm.Lib.HighWater

/-!
# Increasing LSNs

`Ascending env w shelf acked durable records top` bounds the LSNs of a database in any state, also
behind writes and rotations that have failed: the mutable log holds `durable`, and the bytes that
are held back make `records` of it; whatever else there is has LSNs up to `top`. The last of the
durable records is not below `top`, and neither is any record that follows it, so a start that finds
a record in this log continues above everything. This module says how the invariant goes through the
parts of a command; a crash leaves the directory of a state of this kind.
-/

namespace EasyLsm.Db

open Lib Lib.FileStore Lib.Versions

variable {env : Env} {w w' w₁ : World} {shelf shelf' : List (List (OpenTable env.crates))}
  {acked acked' durable records : List Entry} {top : Nat} {d : Dir}

/-- The entry has an LSN that is not above `top`. -/
def UpTo (top : Nat) (e : Entry) : Prop := 0 < e.1.lsn.toNat ∧ e.1.lsn.toNat ≤ top

theorem UpTo.mono {top' : Nat} {e : Entry} (h : UpTo top e) (hle : top ≤ top') : UpTo top' e :=
  ⟨h.1, Nat.le_trans h.2 hle⟩

/-! ## Logs -/

/-- The log file has these records, and at most a part of another one behind them. -/
def LogHolds (env : Env) (dir : Dir) (id : UInt32) (es : List Entry) : Prop :=
  Wal.Records env.crates.crc32 (walFile dir id) es

namespace LogHolds

variable {dir dir' : Dir} {id : UInt32} {es es' : List Entry}

theorem replays (h : LogHolds env dir id es) : Replays env dir id es :=
  ⟨_, read_of_walFile h.ne_nil, h.replay⟩

theorem congr (h : LogHolds env dir id es) (hread : dir'.read (.wal id) = dir.read (.wal id)) :
    LogHolds env dir' id es := by
  rw [LogHolds, walFile_congr hread]
  exact h

/-- A log that nothing was written to, once it is opened. -/
theorem of_opened {file : Bytes} (hfile : file <+: Wal.magicBytes)
    (hopened : Wal.openWritable file = .ok (walFile dir id)) : LogHolds env dir id [] := by
  rw [LogHolds, openWritable_prefix hfile hopened]
  exact .magic

end LogHolds

/-- A listed log has a record, or there is a table. -/
def HasRecord (env : Env) (w : World) (shelf : List (List (OpenTable env.crates))) : Prop :=
  (∃ id ∈ w.manifest.wals, ∃ es, LogHolds env w.dir id es ∧ es ≠ []) ∨ shelf.flatten ≠ []

/-- Listed logs that have a record still have one. -/
theorem HasRecord.logs (h : HasRecord env w shelf) (hlogs : ∀ id ∈ w.manifest.wals, ∀ es,
    LogHolds env w.dir id es → es ≠ [] →
      id ∈ w'.manifest.wals ∧ ∃ es', LogHolds env w'.dir id es' ∧
        es' ≠ []) : HasRecord env w' shelf := by
  rcases h with ⟨id, hid, es, hes, hne⟩ | hne
  · exact .inl ⟨id, hlogs id hid es hes hne⟩
  · exact .inr hne

/-! ## The invariant -/

/-- What the mutable log holds, and with the bytes that are held back, has increasing LSNs;
everything else has LSNs up to `top`. -/
structure Ascending (env : Env) (w : World) (shelf : List (List (OpenTable env.crates)))
    (acked durable records : List Entry) (top : Nat) : Prop where
  onDisk : OnDisk env w.dir w.manifest
  shelved : Shelved env w shelf
  log : Logged w
  next : w.current.mutableWal.id ≤ w.manifest.nextWalId
  last : ∀ id, w.manifest.wals.getLast? = some id → w.current.mutableWal.id ≤ id ∧
    (id ≠ w.current.mutableWal.id → LogHolds env w.dir id [])
  file : LogHolds env w.dir w.current.mutableWal.id durable
  held : Wal.Records env.crates.crc32
    (walFile w.dir w.current.mutableWal.id ++ w.current.mutableWal.buf) records
  above : Above durable records top w.nextLsn.toNat
  others : ∀ id ∈ w.manifest.wals, id ≠ w.current.mutableWal.id →
    ∃ es, LogHolds env w.dir id es ∧ ∀ e ∈ es, UpTo top e
  stored : ∀ e ∈ storedEntries w shelf, UpTo top e
  bounded : ∀ e ∈ acked, e.1.lsn.toNat ≤ top
  increasing : acked.Pairwise fun a b => a.1.lsn.toNat < b.1.lsn.toNat
  kept : acked ≠ [] → HasRecord env w shelf

namespace Ascending

theorem start (env : Env) (faults : List (Option Fault)) (trace : List Dir) :
    Ascending env { pristine env with faults, trace } [] [] [] [] 0 where
  onDisk := onDisk_of_read (show (Manifest.new 0).Fits by decide) rfl rfl
  shelved := (Layout.start env faults trace).shelved
  log := (Numbered.start env faults trace).log
  next := show (0 : UInt32) ≤ 1 by decide
  last id hid := by
    rw [← Option.some.inj hid]
    exact ⟨UInt32.le_refl _, fun hne => absurd rfl hne⟩
  file := .magic
  held := .magic
  above := .fresh Nat.one_pos
  others id hid hne := absurd (List.mem_singleton.mp hid) hne
  stored e he := by
    rcases mem_storedEntries.mp he with ⟨es, hes, he⟩ | ⟨t, ht, _⟩
    · rw [List.mem_singleton.mp hes] at he
      exact absurd he List.not_mem_nil
    · exact absurd ht List.not_mem_nil
  bounded _ he := absurd he List.not_mem_nil
  increasing := .nil
  kept hne := absurd rfl hne

/-- The mutable log is listed. -/
theorem mutable_listed (h : Ascending env w shelf acked durable records top) :
    w.current.mutableWal.id ∈ w.manifest.wals := List.mem_of_mem_drop h.log.listed

/-- The file of the mutable log. -/
theorem walFile_eq (h : Ascending env w shelf acked durable records top) :
    walFile w.dir w.current.mutableWal.id = w.dir.content w.current.mutableWal.inode := by
  rw [walFile, read_of_mem h.log.name, Option.getD_some]

/-- The records of a listed log. -/
theorem logHolds (h : Ascending env w shelf acked durable records top) {id : UInt32}
    (hid : id ∈ w.manifest.wals) :
    ∃ es, LogHolds env w.dir id es ∧ ∀ e ∈ es, UpTo top e ∨ e ∈ durable := by
  by_cases heq : id = w.current.mutableWal.id
  · rw [heq]
    exact ⟨durable, h.file, fun e he => .inr he⟩
  · obtain ⟨es, hes, hall⟩ := h.others id hid heq
    exact ⟨es, hes, fun e he => .inl (hall e he)⟩

/-- A listed log is not empty. -/
theorem walFile_ne_nil (h : Ascending env w shelf acked durable records top) {id : UInt32}
    (hid : id ∈ w.manifest.wals) : walFile w.dir id ≠ [] := by
  obtain ⟨es, hes, _⟩ := h.logHolds hid
  exact hes.ne_nil

/-- What the manifest lists is in a listed log or in a table. -/
theorem listedEntry_iff (h : Ascending env w shelf acked durable records top) {e : Entry} :
    ListedEntry env w e ↔ (∃ id ∈ w.manifest.wals, ∃ es, LogHolds env w.dir id es ∧ e ∈ es) ∨
      ∃ t ∈ shelf.flatten, e ∈ t.entries := by
  refine or_congr (exists_congr fun id => and_congr_right fun hid => ?_) ?_
  · constructor
    · rintro ⟨es, hreplays, he⟩
      obtain ⟨es', hes', _⟩ := h.logHolds hid
      rw [hes'.replays.unique hreplays] at he
      exact ⟨es', hes', he⟩
    · rintro ⟨es, hes, he⟩
      exact ⟨es, hes.replays, he⟩
  · constructor
    · rintro ⟨id, hid, es, hes, he⟩
      rw [h.shelved.sstableIds] at hid
      obtain ⟨t, ht, rfl⟩ := List.mem_map.mp hid
      rw [(h.shelved.filed t ht).tableEntries] at hes
      exact ⟨t, ht, Option.some.inj hes ▸ he⟩
    · rintro ⟨t, ht, he⟩
      refine ⟨t.fileId, ?_, t.entries, (h.shelved.filed t ht).tableEntries, he⟩
      rw [h.shelved.sstableIds]
      exact List.mem_map_of_mem ht

/-- The entries that are listed. -/
theorem upTo_or_durable (h : Ascending env w shelf acked durable records top) {e : Entry}
    (he : ListedEntry env w e) : UpTo top e ∨ e ∈ durable := by
  rcases h.listedEntry_iff.mp he with ⟨id, hid, es, hes, he⟩ | ⟨t, ht, he⟩
  · obtain ⟨es', hes', hall⟩ := h.logHolds hid
    rw [hes'.unique hes] at he
    exact hall e he
  · exact .inl (h.stored e (mem_storedEntries.mpr (.inr ⟨t, ht, he⟩)))

/-- The next LSN is above those of all listed entries. -/
theorem lsn_bounds (h : Ascending env w shelf acked durable records top) {e : Entry}
    (he : ListedEntry env w e) : 0 < e.1.lsn.toNat ∧ e.1.lsn.toNat < w.nextLsn.toNat := by
  rcases h.upTo_or_durable he with hupTo | he
  · exact ⟨hupTo.1, Nat.lt_of_le_of_lt hupTo.2 h.above.top_lt⟩
  · exact h.above.bounds e (h.above.begins.subset he)

/-- Something is listed when there is a record. -/
theorem hasRecord_iff (h : Ascending env w shelf acked durable records top) :
    HasRecord env w shelf ↔ ∃ e, ListedEntry env w e := by
  constructor
  · rintro (⟨id, hid, es, hes, hne⟩ | hne)
    · obtain ⟨e, he⟩ := List.exists_mem_of_ne_nil es hne
      exact ⟨e, h.listedEntry_iff.mpr (.inl ⟨id, hid, es, hes, he⟩)⟩
    · obtain ⟨t, ht⟩ := List.exists_mem_of_ne_nil _ hne
      obtain ⟨e, he⟩ := List.exists_mem_of_ne_nil _ t.ne_nil
      exact ⟨e, h.listedEntry_iff.mpr (.inr ⟨t, ht, he⟩)⟩
  · rintro ⟨e, he⟩
    rcases h.listedEntry_iff.mp he with ⟨id, hid, es, hes, he⟩ | ⟨t, ht, he⟩
    · exact .inl ⟨id, hid, es, hes, List.ne_nil_of_mem he⟩
    · exact .inr (List.ne_nil_of_mem ht)

/-- Fewer writes are acknowledged. -/
theorem fewer (h : Ascending env w shelf acked durable records top)
    (hfewer : acked'.Sublist acked) :
    Ascending env w shelf acked' durable records top :=
  { h with
    bounded := fun e he => h.bounded e (hfewer.subset he)
    increasing := h.increasing.sublist hfewer
    kept := fun hne => h.kept fun hnil => hne (List.sublist_nil.mp (hnil ▸ hfewer)) }

/-! ## Other files -/

/-- Only the counter of table ids, the pending faults and the trace have changed. -/
theorem congr (h : Ascending env w shelf acked durable records top) (hdir : w'.dir = w.dir)
    (hmanifest : ∃ id, w'.manifest = { w.manifest with nextSstableId := id })
    (hcurrent : w'.current = w.current) (hnext : w'.nextLsn = w.nextLsn) :
    Ascending env w' shelf acked durable records top := by
  obtain ⟨dir, faults, trace, manifest, current, nextLsn⟩ := w
  obtain ⟨dir', faults', trace', manifest', current', nextLsn'⟩ := w'
  cases hdir
  obtain ⟨id, rfl⟩ := hmanifest
  cases hcurrent
  cases hnext
  exact ⟨h.onDisk, ⟨h.shelved.listed, h.shelved.presented, h.shelved.filed, h.shelved.nodup⟩,
    ⟨h.log.name, h.log.ne_nil, h.log.listed⟩, h.next, h.last, h.file, h.held, h.above, h.others,
    h.stored, h.bounded, h.increasing, h.kept⟩

/-- The same database in a directory with the same manifest and the listed files. -/
theorem moved (h : Ascending env w shelf acked durable records top)
    (hdisk : OnDisk env d w.manifest)
    (hagree : Agree (Listed w.manifest) w.dir d) :
    Ascending env { w with dir := d } shelf acked durable records top := by
  have hread : ∀ {id}, id ∈ w.manifest.wals → d.read (.wal id) = w.dir.read (.wal id) :=
    fun hid => hagree.read (.inl ⟨_, hid, rfl⟩)
  have hmutable := hread h.mutable_listed
  refine ⟨hdisk, h.shelved.frame rfl rfl (hagree.mono ?_), h.log.frame (hagree.mono ?_) rfl rfl
    h.log.listed, h.next, fun id hid => ?_, h.file.congr hmutable, ?_, h.above,
    fun id hid hne => ?_,
    h.stored, h.bounded, h.increasing, fun hne => ?_⟩
  · rintro n ⟨t, ht, rfl⟩
    exact h.shelved.listed_of_mem ht
  · rintro _ rfl
    exact .inl ⟨_, h.mutable_listed, rfl⟩
  · exact (h.last id hid).imp_right fun hnew hne => (hnew hne).congr
      (hread (List.mem_of_getLast? hid))
  · show Wal.Records _ (walFile d w.current.mutableWal.id ++ _) _
    rw [walFile_congr hmutable]
    exact h.held
  · obtain ⟨es, hes, hall⟩ := h.others id hid hne
    exact ⟨es, hes.congr (hread hid), hall⟩
  · exact (h.kept hne).logs fun id hid es hes hne => ⟨hid, es, hes.congr (hread hid), hne⟩

/-- The same database, when also the manifests are the same. -/
theorem agree (h : Ascending env w shelf acked durable records top)
    (hagree : Agree (Kept w.manifest) w.dir d) :
    Ascending env { w with dir := d } shelf acked durable records top :=
  h.moved (h.onDisk.of_agree (hagree.mono fun _ hn => .inl hn)) (hagree.mono fun _ hn => .inr hn)

/-- Only what is not listed, or the counter of table ids, has changed. -/
theorem quiet (h : Ascending env w shelf acked durable records top)
    (hquiet : Quiet (Kept w.manifest) w w') : Ascending env w' shelf acked durable records top :=
  (h.agree hquiet.dir).congr rfl hquiet.manifest hquiet.current hquiet.nextLsn

end Ascending

/-! ## Writes -/

/-- The file of the mutable log and what its writer holds back are whole records. -/
def AtRecordEnd (env : Env) (w : World) : Prop := ∃ es : List Entry, (∀ e ∈ es, e.Fits) ∧
  w.dir.content w.current.mutableWal.inode ++ w.current.mutableWal.buf =
    Wal.magicBytes ++ Wal.encodeGroup env.crates.crc32 es

/-- The state in which a record was given to the writer of the mutable log, and nothing written
yet. -/
def World.accepts (env : Env) (w : World) (e : Entry) : World := { w with
  nextLsn := w.nextLsn + 1
  current := { w.current with
    mutableWal := { w.current.mutableWal with buf := w.pendingBytes env e } } }

/-- The state after the file of the mutable log took some bytes, with others held back. -/
def World.wrote (w : World) (taken buf : Bytes) : World := { w with
  dir := w.dir.append w.current.mutableWal.inode taken
  current := { w.current with mutableWal := { w.current.mutableWal with buf } } }

namespace Ascending

theorem walFile_wrote (h : Ascending env w shelf acked durable records top) (taken buf : Bytes) :
    walFile (w.wrote taken buf).dir w.current.mutableWal.id =
      walFile w.dir w.current.mutableWal.id ++ taken := by
  have hname : (FileName.wal w.current.mutableWal.id, w.current.mutableWal.inode) ∈
      (w.wrote taken buf).dir.names := h.log.name
  rw [h.walFile_eq, walFile, read_of_mem hname, Option.getD_some]
  exact content_setContent_self _ _ _

/-- The file takes some of the bytes that were held back, and others may be lost. -/
theorem wrote (h : Ascending env w shelf acked durable records top) {taken buf : Bytes}
    (hheld : taken ++ buf <+: w.current.mutableWal.buf) : ∃ durable' records',
      Ascending env (w.wrote taken buf) shelf acked durable' records' top := by
  have hfile := h.walFile_wrote taken buf
  have hmagic : Wal.magicBytes <+: walFile w.dir w.current.mutableWal.id ++ taken :=
    h.file.magic_prefix.trans (List.prefix_append _ _)
  obtain ⟨records', hrecords, hrest⟩ := h.held.of_prefix
    ((List.prefix_append_right_inj (walFile w.dir w.current.mutableWal.id)).mpr hheld)
    (h.file.magic_prefix.trans (List.prefix_append _ _))
  rw [← List.append_assoc] at hrest
  obtain ⟨durable', hdurable, hlog⟩ := hrest.of_prefix (List.prefix_append _ _) hmagic
  obtain ⟨durable₀, hmore, hlog₀⟩ := hlog.of_prefix (List.prefix_append _ _) h.file.magic_prefix
  obtain rfl := h.file.unique hlog₀
  have hagree : Agree (· ≠ .wal w.current.mutableWal.id) w.dir (w.wrote taken buf).dir :=
    agree_setContent (free_of_mem (by simp) h.log.name) _
  have hread : ∀ {id}, id ≠ w.current.mutableWal.id →
      (w.wrote taken buf).dir.read (.wal id) = w.dir.read (.wal id) := fun hne =>
    hagree.read fun hid => hne (FileName.wal.inj hid)
  have hlog' : LogHolds env (w.wrote taken buf).dir w.current.mutableWal.id durable' := by
    rw [LogHolds, hfile]
    exact hlog
  refine ⟨durable', records', h.onDisk.of_agree (hagree.mono ?_),
    h.shelved.frame rfl rfl (hagree.mono ?_),
    ⟨h.log.name, ?_, h.log.listed⟩, h.next, fun id hid => (h.last id hid).imp_right fun hnew hne =>
      (hnew hne).congr (hread hne), hlog', ?_,
        (h.above.keep (hmore.trans hdurable) hrecords).advance hmore
        hdurable, fun id hid hne => ?_, h.stored, h.bounded, h.increasing, fun hne => ?_⟩
  · rintro n ⟨v, rfl⟩
    simp
  · rintro n ⟨t, _, rfl⟩
    simp
  · have hne := hlog'.ne_nil
    rw [hfile, h.walFile_eq] at hne
    show (w.dir.append w.current.mutableWal.inode taken).content w.current.mutableWal.inode ≠ []
    rw [append, content_setContent_self]
    exact hne
  · show Wal.Records _ (walFile (w.wrote taken buf).dir w.current.mutableWal.id ++ buf) _
    rw [hfile]
    exact hrest
  · obtain ⟨es, hes, hall⟩ := h.others id hid hne
    exact ⟨es, hes.congr (hread hne), hall⟩
  · refine (h.kept hne).logs fun id hid es hes hne => ⟨hid, ?_⟩
    by_cases heq : id = w.current.mutableWal.id
    · subst heq
      rw [h.file.unique hes] at hne
      exact ⟨durable', hlog', fun hnil => hne (List.prefix_nil.mp (hnil ▸ hmore))⟩
    · exact ⟨es, hes.congr (hread heq), hne⟩

/-- The file takes everything that was held back. -/
theorem wrote_all (h : Ascending env w shelf acked durable records top) :
    Ascending env (w.wrote w.current.mutableWal.buf []) shelf acked records records top := by
  have hall : w.current.mutableWal.buf ++ [] <+: w.current.mutableWal.buf := by
    rw [List.append_nil]
  obtain ⟨durable', records', hwrote⟩ := h.wrote hall
  have hfile : Wal.Records env.crates.crc32
      (walFile (w.wrote w.current.mutableWal.buf []).dir w.current.mutableWal.id) durable' :=
        hwrote.file
  have hheld : Wal.Records env.crates.crc32 (walFile (w.wrote w.current.mutableWal.buf []).dir
      w.current.mutableWal.id ++ []) records' := hwrote.held
  rw [List.append_nil] at hheld
  obtain rfl := hfile.unique hheld
  rw [h.walFile_wrote] at hfile
  obtain rfl := h.held.unique hfile
  exact hwrote

/-- A record behind whole records gets the next LSN, and its bytes are held back. -/
theorem accepted (h : Ascending env w shelf acked durable records top) (hend : AtRecordEnd env w)
    {key : Bytes} {value : Value} (hfits : Entry.Fits (Key.new key w.nextLsn, value))
    (hroom : w.nextLsn.toNat + 1 < 2 ^ 64) :
    Ascending env (w.accepts env (Key.new key w.nextLsn, value)) shelf acked durable
      (records ++ [(Key.new key w.nextLsn, value)]) top := by
  have hnext : (w.nextLsn + 1).toNat = w.nextLsn.toNat + 1 := by
    rw [UInt64.toNat_add, Nat.mod_eq_of_lt (by simpa using hroom)]
    rfl
  have hheld : Wal.Records env.crates.crc32 (walFile w.dir w.current.mutableWal.id ++
      w.pendingBytes env (Key.new key w.nextLsn, value))
        (records ++ [(Key.new key w.nextLsn, value)]) := by
    obtain ⟨es, hes, hbytes⟩ := hend
    rw [← h.walFile_eq] at hbytes
    have hheld := h.held
    rw [hbytes] at hheld
    obtain rfl := hheld.unique (.whole hes)
    rw [World.pendingBytes, ← List.append_assoc, hbytes]
    exact hheld.concat hfits
  refine ⟨h.onDisk, ⟨h.shelved.listed, h.shelved.presented, h.shelved.filed, h.shelved.nodup⟩,
    ⟨h.log.name, h.log.ne_nil, h.log.listed⟩, h.next, h.last, h.file, hheld, ?_, h.others, h.stored,
    h.bounded, h.increasing, h.kept⟩
  show Above _ _ _ (w.nextLsn + 1).toNat
  rw [hnext]
  exact h.above.accept rfl

/-- The record that is last in the log is inserted into the memtable, and may be acknowledged. -/
theorem remembered {e : Entry}
    (h : Ascending env w shelf acked (records ++ [e]) (records ++ [e]) top)
    (htop : top < e.1.lsn.toNat) {more : List Entry} (hmore : more.Sublist [e]) :
    Ascending env { w with
      current := { w.current with mutableMemtable := w.current.mutableMemtable.recover e.1 e.2 } }
      shelf (acked ++ more) (records ++ [e]) (records ++ [e]) e.1.lsn.toNat := by
  have hle := Nat.le_of_lt htop
  have hmem : ∀ x ∈ more, x = e := fun x hx => List.mem_singleton.mp (hmore.subset hx)
  refine ⟨h.onDisk, ⟨h.shelved.listed, h.shelved.presented, h.shelved.filed, h.shelved.nodup⟩,
    ⟨h.log.name, h.log.ne_nil, h.log.listed⟩, h.next, h.last, h.file, h.held, h.above.settle, ?_,
    ?_, ?_, ?_, fun _ => ?_⟩
  · intro id hid hne
    obtain ⟨es, hes, hall⟩ := h.others id hid hne
    exact ⟨es, hes, fun x hx => (hall x hx).mono hle⟩
  · intro x hx
    have hold : ∀ {x}, x ∈ storedEntries w shelf → UpTo e.1.lsn.toNat x :=
      fun hx => (h.stored _ hx).mono hle
    rcases mem_storedEntries.mp hx with ⟨es, hes, hx⟩ | hx
    · rcases List.mem_append.mp hes with hes | hes
      · exact hold (mem_storedEntries.mpr (.inl ⟨es, List.mem_append_left _ hes, hx⟩))
      · rw [List.mem_singleton.mp hes] at hx
        rcases Memtable.mem_recover.mp hx with rfl | ⟨hx, _⟩
        · exact ⟨Nat.lt_of_le_of_lt (Nat.zero_le _) htop, Nat.le_refl _⟩
        · exact hold (mem_storedEntries.mpr (.inl
            ⟨_, List.mem_append_right _ (List.mem_singleton_self _), hx⟩))
    · exact hold (mem_storedEntries.mpr (.inr hx))
  · intro x hx
    rcases List.mem_append.mp hx with hx | hx
    · exact Nat.le_trans (h.bounded x hx) hle
    · rw [hmem x hx]
  · refine List.pairwise_append.mpr ⟨h.increasing, (List.pairwise_singleton _ e).sublist hmore,
      fun a ha b hb => ?_⟩
    rw [hmem b hb]
    exact Nat.lt_of_le_of_lt (h.bounded a ha) htop
  · exact .inl ⟨_, h.mutable_listed, _, h.file, by simp⟩

/-- The state behind a write that has succeeded. -/
theorem inserted (h : Ascending env w shelf acked durable records top) (hend : AtRecordEnd env w)
    {key : Bytes} {value : Value} (hfits : Entry.Fits (Key.new key w.nextLsn, value))
    (hroom : w.nextLsn.toNat + 1 < 2 ^ 64) {more : List Entry}
    (hmore : more.Sublist [(Key.new key w.nextLsn, value)]) : ∃ durable' records' top',
      Ascending env (Db.inserted env w (Key.new key w.nextLsn, value)) shelf
        (acked ++ more) durable'
        records' top' := by
  have hwrote := (h.accepted hend hfits hroom).wrote_all
  exact ⟨_, _, _, (hwrote.remembered h.above.top_lt hmore).congr rfl ⟨_, rfl⟩ rfl rfl⟩

end Ascending

end EasyLsm.Db
