import Mathlib.Data.List.Basic
import EasyLsm.Db.Ascending

/-!
# Commands keep the LSNs increasing

Every command, whether it succeeds or not, goes through directories that belong to a database with
increasing LSNs (`Resumes`), and leaves one.
-/

namespace EasyLsm.Db

open Lib Lib.FileStore Lib.Versions

variable {env : Env} {w w' w₁ w₂ : World} {shelf shelf' : List (List (OpenTable env.crates))}
  {acked acked' durable records : List Entry} {top : Nat} {d : Dir} {r : Except DbError Unit}

/-- The LSNs of the database increase. -/
def Ascends (env : Env) (acked : List Entry) (w : World) : Prop :=
  ∃ shelf durable records top, Ascending env w shelf acked durable records top

/-- The directory is that of a database with increasing LSNs, which writes to the log of the id. -/
def Resumes (env : Env) (acked : List Entry) (b : UInt32) (d : Dir) : Prop :=
  ∃ v : World, v.dir = d ∧ v.current.mutableWal.id = b ∧ Ascends env acked v

/-- From one state to the other only such directories come, and the LSNs still increase. -/
structure Carries (env : Env) (acked : List Entry) (w w' : World) : Prop where
  dirs : Throughout (Resumes env acked w.current.mutableWal.id) w w'
  ascends : Ascends env acked w'
  mutable_le : w.current.mutableWal.id ≤ w'.current.mutableWal.id

/-- The state only got on in time. -/
theorem Ascends.congr (h : Ascends env acked w) (hdir : w'.dir = w.dir)
    (hmanifest : w'.manifest = w.manifest) (hcurrent : w'.current = w.current)
    (hnext : w'.nextLsn = w.nextLsn) : Ascends env acked w' := by
  obtain ⟨shelf, durable, records, top, h⟩ := h
  exact ⟨shelf, durable, records, top, h.congr hdir ⟨_, hmanifest⟩ hcurrent hnext⟩

/-- Fewer writes are acknowledged. -/
theorem Ascends.fewer (h : Ascends env acked w) (hfewer : acked'.Sublist acked) :
    Ascends env acked' w := by
  obtain ⟨shelf, durable, records, top, h⟩ := h
  exact ⟨shelf, durable, records, top, h.fewer hfewer⟩

theorem Carries.fewer (h : Carries env acked w w') (hfewer : acked'.Sublist acked) :
    Carries env acked' w w' where
  dirs := by
    refine h.dirs.mono fun d hd => ?_
    obtain ⟨v, hdir, hid, hv⟩ := hd
    exact ⟨v, hdir, hid, hv.fewer hfewer⟩
  ascends := h.ascends.fewer hfewer
  mutable_le := h.mutable_le

theorem Ascending.resumes (h : Ascending env w shelf acked durable records top) {b : UInt32}
    (hid : w.current.mutableWal.id = b) (hdir : w.dir = d) : Resumes env acked b d :=
  ⟨w, hdir, hid, shelf, durable, records, top, h⟩

namespace Ascending

/-! ## Rotations -/

/-- The manifest of a rotation is committed. -/
theorem committed (h : Ascending env w₁ shelf acked durable records top)
    (hcommitted : Committed env w₁ (rotatedManifest w₁.manifest) w₂) (hroom : RotateRoom w₁)
    (hnew : w₁.manifest.nextWalId ≠ w₁.current.mutableWal.id →
      LogHolds env w₁.dir w₁.manifest.nextWalId []) :
    Ascending env w₂ shelf acked durable records top := by
  have hmanifest : w₂.manifest = { rotatedManifest w₁.manifest with
      version := w₁.manifest.version + 1 } := hcommitted.manifest
  have hwals : w₂.manifest.wals = w₁.manifest.wals ++ [w₁.manifest.nextWalId] := by
    rw [hmanifest]
    rfl
  have hcurrent := hcommitted.current
  have hread : ∀ id, w₂.dir.read (.wal id) = w₁.dir.read (.wal id) := fun id =>
    hcommitted.agree_wal.read ⟨id, rfl⟩
  have hlogs : ∀ {id es}, LogHolds env w₁.dir id es → LogHolds env w₂.dir id es := fun hes =>
    hes.congr (hread _)
  refine ⟨hcommitted.onDisk h.onDisk.newest hroom.1 hroom.2, h.shelved.frame ?_ (by rw [hcurrent])
    (hcommitted.agree_sst.mono ?_), hcommitted.logged h.log ?_, ?_, fun id hid => ?_, ?_, ?_, ?_,
    fun id hid hne => ?_, ?_, h.bounded, h.increasing, fun hne => ?_⟩
  · rw [hmanifest]
    rfl
  · rintro _ ⟨t, _, rfl⟩
    exact ⟨_, rfl⟩
  · show _ ∈ (w₁.manifest.wals ++ [w₁.manifest.nextWalId]).drop _
    rw [List.drop_append]
    exact List.mem_append_left _ h.log.listed
  · rw [hcurrent, hmanifest]
    exact h.next
  · rw [hwals, List.getLast?_concat] at hid
    rw [hcurrent, ← Option.some.inj hid]
    exact ⟨h.next, fun hne => hlogs (hnew hne)⟩
  · rw [hcurrent]
    exact hlogs h.file
  · rw [hcurrent, walFile_congr (hread _)]
    exact h.held
  · rw [hcommitted.nextLsn]
    exact h.above
  · rw [hcurrent] at hne
    rw [hwals] at hid
    rcases List.mem_append.mp hid with hid | hid
    · obtain ⟨es, hes, hall⟩ := h.others id hid hne
      exact ⟨es, hlogs hes, hall⟩
    · rw [List.mem_singleton.mp hid] at hne ⊢
      exact ⟨[], hlogs (hnew hne), by simp⟩
  · intro e he
    refine h.stored e ?_
    rw [storedEntries, hcurrent] at he
    exact he
  · refine (h.kept hne).logs fun id hid es hes hne => ⟨?_, es, hlogs hes, hne⟩
    rw [hwals]
    exact List.mem_append_left _ hid

/-- The version writes to the new log, which may also be the old one. What was held back is lost. -/
theorem switched (h : Ascending env w shelf acked durable records top) {wal : WalHandle}
    {ids : List UInt32}
    (hwals : w.manifest.wals = ids ++ [wal.id])
    (hlisted : w.current.mutableWal.id ∈ ids.drop w.current.frozenMemtables.length)
    (hnext : wal.id = w.manifest.nextWalId) (hbuf : wal.buf = [])
    (hname : (.wal wal.id, wal.inode) ∈ w.dir.names) : Ascends env acked { w with
      current := rotateVersion Memtable.freezeFromRef Memtable.new wal w.current } := by
  have hlast : w.manifest.wals.getLast? = some wal.id := by rw [hwals, List.getLast?_concat]
  obtain ⟨hle, hidle⟩ := h.last wal.id hlast
  have hlog : Logged { w with
      current := rotateVersion Memtable.freezeFromRef Memtable.new wal w.current } := by
    refine ⟨hname, ?_, ?_⟩
    · have hne := h.walFile_ne_nil (List.mem_of_getLast? hlast)
      rwa [walFile, read_of_mem hname] at hne
    · have hless := List.length_pos_of_mem hlisted
      rw [List.length_drop] at hless
      show wal.id ∈ w.manifest.wals.drop
        (w.current.frozenMemtables ++ [w.current.mutableMemtable.freezeFromRef]).length
      rw [hwals, List.length_append, List.length_singleton,
        List.drop_append_of_le_length (by omega)]
      exact List.mem_append_right _ (List.mem_singleton_self _)
  have hstored : ∀ e, e ∈ storedEntries { w with
      current := rotateVersion Memtable.freezeFromRef Memtable.new wal w.current } shelf →
      e ∈ storedEntries w shelf := by
    intro e he
    rcases mem_storedEntries.mp he with ⟨es, hes, he⟩ | he
    · have hruns : memtableRuns (rotateVersion Memtable.freezeFromRef Memtable.new wal w.current) =
          memtableRuns w.current ++ [[]] := by
        unfold memtableRuns rotateVersion
        rw [List.map_append]
        rfl
      rw [hruns] at hes
      rcases List.mem_append.mp hes with hes | hes
      · exact mem_storedEntries.mpr (.inl ⟨es, hes, he⟩)
      · rw [List.mem_singleton.mp hes] at he
        exact absurd he List.not_mem_nil
    · exact mem_storedEntries.mpr (.inr he)
  by_cases hsame : wal.id = w.current.mutableWal.id
  · -- the log is opened once more, and nothing is held back any longer
    have hfile : LogHolds env w.dir wal.id durable := hsame ▸ h.file
    refine ⟨shelf, durable, durable, top, h.onDisk,
      ⟨h.shelved.listed, h.shelved.presented, h.shelved.filed, h.shelved.nodup⟩, hlog,
      hnext ▸ UInt32.le_refl _, fun id hid => ?_, hfile, ?_,
      h.above.keep (List.prefix_refl _) h.above.begins,
      fun id hid hne => h.others id hid (hsame ▸ hne), fun e he => h.stored e (hstored e he),
      h.bounded, h.increasing, h.kept⟩
    · exact (hsame ▸ h.last id hid :)
    · show Wal.Records _ (walFile w.dir wal.id ++ wal.buf) durable
      rw [hbuf, List.append_nil]
      exact hfile
  · have hfile : LogHolds env w.dir wal.id [] := hidle hsame
    have hpos := h.above.top_lt
    have hle : top ≤ w.nextLsn.toNat - 1 := by omega
    refine ⟨shelf, [], [], w.nextLsn.toNat - 1, h.onDisk,
      ⟨h.shelved.listed, h.shelved.presented, h.shelved.filed, h.shelved.nodup⟩, hlog,
      hnext ▸ UInt32.le_refl _, fun id hid => ?_, hfile, ?_,
      .fresh (by show _ < w.nextLsn.toNat; omega),
      fun id hid hne => ?_, fun e he => (h.stored e (hstored e he)).mono hle,
      fun e he => Nat.le_trans (h.bounded e he) hle, h.increasing, h.kept⟩
    · rw [hlast] at hid
      rw [← Option.some.inj hid]
      exact ⟨UInt32.le_refl _, fun hne => absurd rfl hne⟩
    · show Wal.Records _ (walFile w.dir wal.id ++ wal.buf) []
      rw [hbuf, List.append_nil]
      exact hfile
    · by_cases hold : id = w.current.mutableWal.id
      · refine ⟨durable, hold ▸ h.file, fun e he => ?_⟩
        obtain ⟨hlow, hhigh⟩ := h.above.bounds e (h.above.begins.subset he)
        exact ⟨hlow, Nat.le_sub_one_of_lt hhigh⟩
      · obtain ⟨es, hes, hall⟩ := h.others id hid hold
        exact ⟨es, hes, fun e he => (hall e he).mono hle⟩

/-- Directories with the same manifests and the same listed files. -/
theorem throughout_agree (h : Ascending env w shelf acked durable records top)
    (hquiet : Quiet (Kept w.manifest) w w') :
    Throughout (Resumes env acked w.current.mutableWal.id) w w' :=
  hquiet.throughout.mono fun _ hd => (h.agree hd).resumes rfl rfl

theorem carries_quiet (h : Ascending env w shelf acked durable records top)
    (hquiet : Quiet (Kept w.manifest) w w') : Carries env acked w w' := by
  refine ⟨h.throughout_agree hquiet, ⟨shelf, durable, records, top, h.quiet hquiet⟩, ?_⟩
  rw [hquiet.current]

/-- Directories in which the mutable log took some of the bytes that were held back. -/
theorem resumes_append (h : Ascending env w shelf acked durable records top) {bytes : Bytes}
    (hbytes : bytes <+: w.current.mutableWal.buf) :
    Resumes env acked w.current.mutableWal.id (w.dir.append w.current.mutableWal.inode bytes) := by
  have hheld : bytes ++ [] <+: w.current.mutableWal.buf := by rwa [List.append_nil]
  obtain ⟨durable', records', hwrote⟩ := h.wrote hheld
  exact hwrote.resumes rfl rfl

/-- The version writes to the new log, and the old one was dropped: it took some of its bytes as if
it was still the mutable log. -/
theorem dropped (h : Ascending env w shelf acked durable records top) {wal : WalHandle}
    {ids : List UInt32}
    {faults : List (Option Fault)} (hwals : w.manifest.wals = ids ++ [wal.id])
    (hlisted : w.current.mutableWal.id ∈ ids.drop w.current.frozenMemtables.length)
    (hnext : wal.id = w.manifest.nextWalId) (hbuf : wal.buf = [])
    (hname : (.wal wal.id, wal.inode) ∈ w.dir.names)
    (hdropped : Dropped w.current.mutableWal { w with
      faults
      current := rotateVersion Memtable.freezeFromRef Memtable.new wal w.current } w') :
    Throughout (Resumes env acked w.current.mutableWal.id) w w' ∧ Ascends env acked w' := by
  rcases hdropped with ⟨_, rfl⟩ | ⟨_, n, faults', _, rfl⟩
  · exact ⟨⟨⟨[], (List.append_nil _).symm, by simp⟩, h.resumes rfl rfl⟩,
      (h.switched hwals hlisted hnext hbuf hname).congr rfl rfl rfl rfl⟩
  · have hheld : w.current.mutableWal.buf.take n ++ w.current.mutableWal.buf.drop n <+:
        w.current.mutableWal.buf := by rw [List.take_append_drop]
    obtain ⟨durable', records', hwrote⟩ := h.wrote hheld
    refine ⟨⟨⟨_, rfl, fun d hd => ?_⟩, h.resumes_append (List.take_prefix n _)⟩,
      (hwrote.switched hwals hlisted hnext hbuf hname).congr rfl rfl rfl rfl⟩
    obtain ⟨k, _, rfl⟩ := List.mem_map.mp hd
    exact h.resumes_append ((List.take_prefix k _).trans (List.take_prefix n _))

/-- A rotation, whatever comes of it. -/
theorem rotation (h : Ascending env w shelf acked durable records top) (hroom : RotateRoom w)
    (hunwritten : Unwritten w.current.mutableWal.id w)
    (hrotation : RotationOf env (Kept w.manifest) w w') : Carries env acked w w' := by
  rcases hrotation with hsteady | ⟨w₁, w₂, faults, hbefore, hopened, hcommitted, hafter⟩
  · exact h.carries_quiet hsteady.quiet
  have h₁ := h.quiet hbefore.quiet
  have hcurrent : w₂.current = w.current := hcommitted.current.trans hbefore.quiet.current
  have h₂ : Ascending env w₂ shelf acked durable records top := by
    refine h₁.committed (by rw [hbefore.manifest]; exact hcommitted)
      (by rw [RotateRoom, hbefore.manifest]; exact hroom) fun hne => ?_
    rw [hbefore.manifest, hbefore.quiet.current] at *
    refine .of_opened (hunwritten _ ?_) hopened
    exact UInt32.lt_of_le_of_ne h.next fun heq => hne heq.symm
  have hthrough : Throughout (Resumes env acked w.current.mutableWal.id) w w₂ := by
    refine (h.throughout_agree hbefore.quiet).trans ((hcommitted.throughout
      (not_kept_mfTmp w₁.manifest)).mono fun d hd => ?_)
    rcases hd with hagree | rfl
    · exact (h₁.agree hagree).resumes (congrArg (fun v : Version => v.mutableWal.id)
        hbefore.quiet.current) rfl
    · exact h₂.resumes (congrArg (fun v : Version => v.mutableWal.id) hcurrent) rfl
  rcases hafter with rfl | ⟨wal, hid, hbuf, hname, _, hdropped⟩
  · refine ⟨⟨hthrough.1, hthrough.2⟩, ⟨shelf, durable, records, top, h₂.congr rfl ⟨_, rfl⟩ rfl rfl⟩,
      ?_⟩
    show _ ≤ w₂.current.mutableWal.id
    rw [hcurrent]
  · have hmanifest : w₂.manifest = { rotatedManifest w.manifest with
        version := w.manifest.version + 1 } := hcommitted.manifest
    have hwals : w₂.manifest.wals = w.manifest.wals ++ [wal.id] := by
      rw [hmanifest, hid]
      rfl
    have hle : w.current.mutableWal.id ≤ w'.current.mutableWal.id := by
      rw [hdropped.current]
      show _ ≤ wal.id
      rw [hid]
      exact h.next
    have hnext : wal.id = w₂.manifest.nextWalId := by
      rw [hid, hmanifest]
      rfl
    obtain ⟨hdirs, hascends⟩ :=
      h₂.dropped hwals (by rw [hcurrent]; exact h.log.listed) hnext hbuf hname
      hdropped
    rw [hcurrent] at hdirs
    exact ⟨hthrough.trans hdirs, hascends, hle⟩

theorem rotate (h : Ascending env w shelf acked durable records top) (hroom : RotateRoom w)
    (hunwritten : Unwritten w.current.mutableWal.id w) (hrun : rotateMemtable env w = (r, w')) :
    Carries env acked w w' := by
  have hspec := @rotateMemtable_rotationOf env (Kept w.manifest) w
    (fun hkept => h.walFile_ne_nil (kept_wal.mp hkept)) (not_kept_mfTmp _)
  refine h.rotation hroom hunwritten ?_
  cases r with
  | ok => exact hspec.ok rfl hrun
  | error => exact hspec.error rfl hrun

/-! ## Flushes and compactions -/

/-- A manifest was published that may list fewer logs, but not without the last one, and other
tables with the same entries. -/
theorem published (h : Ascending env w shelf acked durable records top)
    (hshelved : Shelved env w' shelf')
    (hdisk : OnDisk env w'.dir w'.manifest)
    (hleaves : Throughout (fun d => Agree (Kept w.manifest) w.dir d ∨
      OnDisk env d w'.manifest ∧ Agree (Listed w'.manifest) w'.dir d) w w')
    (hwal : w'.current.mutableWal = w.current.mutableWal)
    (hlisted : w.current.mutableWal.id ∈ w'.manifest.wals.drop w'.current.frozenMemtables.length)
    (hnext : w'.manifest.nextWalId = w.manifest.nextWalId) (hnextLsn : w'.nextLsn = w.nextLsn)
    (hwals : w'.manifest.wals <:+ w.manifest.wals)
    (hlogs : Agree (fun n => ∃ id ∈ w'.manifest.wals, n = .wal id) w.dir w'.dir)
    (hstored : (storedEntries w' shelf').Perm (storedEntries w shelf))
    (hkept : HasRecord env w shelf → HasRecord env w' shelf') : Carries env acked w w' := by
  have hmem : w.current.mutableWal.id ∈ w'.manifest.wals := List.mem_of_mem_drop hlisted
  have hread : ∀ {id}, id ∈ w'.manifest.wals → w'.dir.read (.wal id) = w.dir.read (.wal id) :=
    fun hid => hlogs.read ⟨_, hid, rfl⟩
  have hlast : w'.manifest.wals.getLast? = w.manifest.wals.getLast? := by
    obtain ⟨gone, hgone⟩ := hwals
    rw [← hgone, List.getLast?_append, Option.or_of_isSome]
    rw [List.getLast?_isSome]
    exact List.ne_nil_of_mem hmem
  have hafter : Ascending env w' shelf' acked durable records top := by
    refine ⟨hdisk, hshelved, h.log.frame (hlogs.mono ?_) (by rw [hwal]) (by rw [hwal]) hlisted, ?_,
      fun id hid => ?_, ?_, ?_, ?_, fun id hid hne => ?_,
      fun e he => h.stored e (hstored.mem_iff.mp he),
      h.bounded, h.increasing, fun hne => hkept (h.kept hne)⟩
    · rintro _ rfl
      exact ⟨_, hmem, rfl⟩
    · rw [hwal, hnext]
      exact h.next
    · have hlisted := List.mem_of_getLast? hid
      rw [hlast] at hid
      rw [hwal]
      exact (h.last id hid).imp_right fun hnew hne => (hnew hne).congr (hread hlisted)
    · rw [hwal]
      exact h.file.congr (hread hmem)
    · rw [hwal, walFile_congr (hread hmem)]
      exact h.held
    · rw [hnextLsn]
      exact h.above
    · rw [hwal] at hne
      obtain ⟨es, hes, hall⟩ := h.others id (hwals.subset hid) hne
      exact ⟨es, hes.congr (hread hid), hall⟩
  refine ⟨hleaves.mono fun d hd => ?_, ⟨shelf', durable, records, top, hafter⟩, by rw [hwal]⟩
  rcases hd with hold | ⟨hnew, hagree⟩
  · exact (h.agree hold).resumes rfl rfl
  · exact (hafter.moved hnew hagree).resumes (congrArg WalHandle.id hwal) rfl

/-- A flush. -/
theorem flush (h : Ascending env w shelf acked durable records top)
    (hroom : Room env w (.structural .flushMemtables))
    (hdisk : DiskRoom env w (.structural .flushMemtables))
    (hrun : flushMemtables env w = (r, w')) : Carries env acked w w' := by
  cases r with
  | error e => exact h.carries_quiet (flush_failed hroom hrun)
  | ok =>
      by_cases hempty : w.current.frozenMemtables = []
      · rw [flushMemtables_empty hempty] at hrun
        cases hrun
        exact h.carries_quiet (Quiet.refl _ _)
      · obtain ⟨new, w₁, hs, hentries, _, hdone, hshelved⟩ :=
          h.shelved.flushed hroom.1 hroom.2 hempty hrun
        have hcurrent := hdone.current
        have hwals := hdone.wals
        obtain ⟨c, hc, hmanifest⟩ := hdone.published.manifest
        refine h.published hshelved (hdone.publication h.onDisk hdisk.1 hdisk.2).2.2
          (hdone.leaves h.onDisk hroom hdisk) (by rw [hcurrent]; rfl) ?_ ?_ hdone.nextLsn
          (hwals ▸ List.drop_suffix _ _) ?_ (storedEntries_flushed hentries hdone) fun _ => .inr ?_
        · rw [hwals, hcurrent]
          simpa [flushVersion] using h.log.listed
        · rw [hmanifest]
          show c.nextWalId = _
          rw [(flushMutator_keepsCounters _ _).nextWalId hc, hdone.reserved]
        · refine (hdone.built.quiet.dir.mono ?_).trans
            (hdone.published.agree.mono fun n hn => .inl hn)
          rintro n ⟨id, _, rfl⟩ t _
          simp
        · -- there is a table for every frozen memtable
          obtain ⟨t, ht⟩ : ∃ t, t ∈ new := by
            refine List.exists_mem_of_ne_nil new fun hnil => hempty ?_
            rw [hnil] at hentries
            exact List.map_eq_nil_iff.mp hentries.symm
          exact List.ne_nil_of_mem ((Levels.flatten_push new shelf).mem_iff.mpr
            (List.mem_append_right _ ht))

/-- A compaction. -/
theorem compaction (h : Ascending env w shelf acked durable records top) {k : Compaction}
    {targetFileSize : UInt64} (hroom : CompactionRoom env w targetFileSize k)
    (hdisk : ∀ s, k.select w.manifest = some s → CompactRoom env w targetFileSize s)
    (hrun : k.run env targetFileSize w = (r, w')) : Carries env acked w w' := by
  cases r with
  | error e => exact h.carries_quiet (h.shelved.compaction_failed hroom hrun)
  | ok =>
      rw [k.run_eq] at hrun
      cases hselect : k.select w.manifest with
      | none =>
          rw [hselect] at hrun
          cases hrun
          exact h.carries_quiet (Quiet.refl _ _)
      | some s =>
          rw [hselect] at hrun
          obtain ⟨count, hroom⟩ := hroom s hselect
          obtain ⟨merged, new, w₁, hentries, _, hdone, hshelved⟩ :=
            (h.shelved.executes hselect hroom).ok rfl hrun
          obtain ⟨_, hwals⟩ := hdone.fileLists_eq
          obtain ⟨hs, _, hcurrent⟩ := hdone.sstables_eq
          have hstored := storedEntries_compacted h.shelved hselect hentries hdone
          have hleaves := hdone.leaves h.onDisk (hdisk s hselect)
          have hpublication := hdone.publication h.onDisk (hdisk s hselect)
          obtain ⟨_, _, hmerged, hpublished⟩ := id hdone
          obtain ⟨c, hc, hmanifest⟩ := hpublished.manifest
          have hlogs : Agree (fun n => ∃ id ∈ w'.manifest.wals, n = .wal id) w.dir w'.dir := by
            refine (hmerged.built.quiet.dir.mono ?_).trans
              (hpublished.agree.mono fun n hn => .inl hn)
            rintro n ⟨id, hid, rfl⟩
            exact .inr (.inl ⟨id, hwals ▸ hid, rfl⟩)
          refine h.published hshelved hpublication.2.2 hleaves
            (by rw [hcurrent]) ?_ ?_ hdone.nextLsn
            (hwals ▸ List.suffix_refl _) hlogs hstored ?_
          · rw [hwals, hcurrent]
            exact h.log.listed
          · rw [hmanifest]
            show c.nextWalId = _
            rw [(compactMutator_keepsCounters _ _ _ _).nextWalId hc, hmerged.manifest]
          · intro hrecord
            rcases hrecord with ⟨id, hid, es, hes, hne⟩ | hne
            · have hid : id ∈ w'.manifest.wals := hwals.symm ▸ hid
              exact .inl ⟨id, hid, es, hes.congr (hlogs.read ⟨_, hid, rfl⟩), hne⟩
            · -- the entries of the tables have not become fewer
              refine .inr fun hnil => ?_
              unfold storedEntries at hstored
              rw [hdone.memtableRuns, hnil] at hstored
              have hperm := (List.perm_append_left_iff _).mp hstored
              obtain ⟨t, ht⟩ := List.exists_mem_of_ne_nil _ hne
              obtain ⟨e, he⟩ := List.exists_mem_of_ne_nil _ t.ne_nil
              exact List.not_mem_nil (hperm.mem_iff.mpr (List.mem_flatMap.mpr ⟨t, ht, he⟩))

end Ascending

/-! ## Writes -/

/-- A `put` whose first I/O call has a fault fails when it writes to the log: the file takes some
bytes, and others are held back. -/
theorem put_fails (env : Env) (key : Bytes) (value : Value) (hfault : w.faults.headD none ≠ none) :
    ∃ e taken buf, taken ++ buf <+: w.pendingBytes env (Key.new key w.nextLsn, value) ∧
      put env key value w = (.error e,
        { (w.accepts env (Key.new key w.nextLsn, value)).wrote taken buf with
        faults := w.faults.tail
        trace := w.trace ++ appendSteps w.dir w.current.mutableWal.inode taken }) := by
  let bytes := Wal.encodeEntry env.crates.crc32 (Key.new key w.nextLsn, value)
  rcases hwrite :
    Wal.Writer.write ⟨w.dir.content w.current.mutableWal.inode, w.current.mutableWal.buf,
    (w.faults.headD none).map Fault.taken⟩ bytes with ⟨result, writer⟩
  obtain ⟨n, hfile, hbuf⟩ := Wal.Writer.write_took hwrite
  obtain ⟨e, rfl⟩ : ∃ e, result = .error e := by
    cases result with
    | error e => exact ⟨e, rfl⟩
    | ok => exact absurd (Option.map_eq_none_iff.mp (budget_of_write_ok hwrite)) hfault
  refine ⟨e, (w.pendingBytes env (Key.new key w.nextLsn, value)).take n, writer.buf, ?_, ?_⟩
  · have hheld := (List.prefix_append_right_inj
      ((w.pendingBytes env (Key.new key w.nextLsn, value)).take n)).mpr hbuf
    rwa [show w.current.mutableWal.buf ++ bytes = w.pendingBytes env _ from rfl,
      List.take_append_drop] at hheld
  · have htaken : writer.file = w.dir.content w.current.mutableWal.inode ++
        (w.pendingBytes env (Key.new key w.nextLsn, value)).take n := hfile
    have hrun : w.current.mutableWal.write bytes { w with nextLsn := w.nextLsn + 1 } =
        (.error e, { (w.accepts env (Key.new key w.nextLsn, value)).wrote
          ((w.pendingBytes env (Key.new key w.nextLsn, value)).take n) writer.buf with
          faults := w.faults.tail
          trace := w.trace ++ appendSteps w.dir w.current.mutableWal.inode
            ((w.pendingBytes env (Key.new key w.nextLsn, value)).take n) }) := by
      unfold WalHandle.write
      simp only [Prog.bind_apply, nextFault_run, Prog.read, hwrite, through, Prog.modify, htaken,
        List.drop_left, getLastD_appendSteps]
      rfl
    show (w.current.mutableWal.write bytes >>= fun _ => _) { w with nextLsn := w.nextLsn + 1 } = _
    rw [Prog.bind_apply, hrun]

/-- A `put`, whatever comes of it. On the way it is not acknowledged. -/
theorem Ascending.put (h : Ascending env w shelf acked durable records top) {key : Bytes}
    {value : Value}
    (hend : AtRecordEnd env w) (hroom : Room env w (.put key value))
    (hdisk : DiskRoom env w (.put key value)) (hunwritten : Unwritten w.current.mutableWal.id w)
    (hrun : Db.put env key value w = (r, w')) :
    Carries env acked w w' ∧ Ascends env (acked ++ acknowledged w (.put key value) r) w' := by
  let e : Entry := (Key.new key w.nextLsn, value)
  have haccepted := h.accepted hend hdisk.1 hroom
  have hsteps : ∀ bytes, bytes <+: w.pendingBytes env e →
      ∀ d ∈ appendSteps w.dir w.current.mutableWal.inode bytes,
        Resumes env acked w.current.mutableWal.id d := by
    intro bytes hbytes d hd
    obtain ⟨n, _, rfl⟩ := List.mem_map.mp hd
    exact haccepted.resumes_append ((List.take_prefix n bytes).trans hbytes)
  by_cases hfault : w.faults.headD none = none
  · have hmore : (acknowledged w (.put key value) r).Sublist [e] := by
      cases r with
      | ok => exact List.Sublist.refl _
      | error => exact List.nil_sublist _
    obtain ⟨durable', records', top', hinserted⟩ := h.inserted hend hdisk.1 hroom hmore
    have hthrough : Throughout (Resumes env acked w.current.mutableWal.id) w
        (Db.inserted env w e) :=
      ⟨⟨_, rfl, hsteps _ (List.prefix_refl _)⟩,
        (hinserted.fewer (List.sublist_append_left _ _)).resumes
        rfl rfl⟩
    change write env (Key.new key 0) value w = _ at hrun
    rw [write_run env (Key.new key 0) value hfault] at hrun
    split at hrun
    · rename_i hfull
      have hunwritten₁ : Unwritten w.current.mutableWal.id (Db.inserted env w e) :=
        UnwrittenIn.append ⟨h.log.name, UInt32.le_refl _⟩ hunwritten _
      have hcarries := hinserted.rotate (hdisk.2 hfull) hunwritten₁ hrun
      have hfewer := hcarries.fewer (List.sublist_append_left acked _)
      exact ⟨⟨hthrough.trans hfewer.dirs, hfewer.ascends, hfewer.mutable_le⟩, hcarries.ascends⟩
    · cases hrun
      have hascends : Ascends env (acked ++ [e]) (Db.inserted env w e) :=
        ⟨shelf, durable', records', top', hinserted⟩
      exact ⟨⟨hthrough, hascends.fewer (List.sublist_append_left _ _), UInt32.le_refl _⟩, hascends⟩
  · obtain ⟨error, taken, buf, hheld, hfails⟩ := put_fails env key value hfault
    rw [hfails] at hrun
    cases hrun
    obtain ⟨durable', records', hwrote⟩ := haccepted.wrote hheld
    have hascends : Ascending env { (w.accepts env e).wrote taken buf with
        faults := w.faults.tail
        trace := w.trace ++ appendSteps w.dir w.current.mutableWal.inode taken }
        shelf acked durable' records' top := hwrote.congr rfl ⟨_, rfl⟩ rfl rfl
    refine ⟨⟨⟨⟨_, rfl, hsteps taken ((List.prefix_append _ _).trans hheld)⟩,
      hascends.resumes rfl rfl⟩,
      ⟨shelf, durable', records', top, hascends⟩, UInt32.le_refl _⟩, ?_⟩
    rw [show acknowledged w (.put key value) (.error error) = [] from rfl, List.append_nil]
    exact ⟨shelf, durable', records', top, hascends⟩

/-- A `put` leaves the logs behind the mutable one unwritten, also in the middle. -/
theorem put_traceUnwritten {b : UInt32} (key : Bytes) (value : Value) (hlog : LogUpTo b w)
    (h : Unwritten b w) : TraceUnwritten b w (put env key value) := by
  let e : Entry := (Key.new key w.nextLsn, value)
  have hsteps : ∀ bytes, ∀ d ∈ appendSteps w.dir w.current.mutableWal.inode bytes,
      UnwrittenIn b d := by
    intro bytes d hd
    obtain ⟨n, _, rfl⟩ := List.mem_map.mp hd
    exact UnwrittenIn.append hlog h _
  by_cases hfault : w.faults.headD none = none
  · have hthrough : Throughout (UnwrittenIn b) w (inserted env w e) :=
      ⟨⟨_, rfl, hsteps _⟩, UnwrittenIn.append hlog h _⟩
    have hrotated : Prog.Spec (· = inserted env w e) (rotateMemtable env)
        (fun _ => Throughout (UnwrittenIn b) w) fun _ => Throughout (UnwrittenIn b) w :=
      (rotateMemtable_traceUnwritten env (w := inserted env w e) hlog hthrough.2).weaken
        (fun _ h => h)
        (fun _ _ hafter => hthrough.trans hafter) fun _ _ hafter => hthrough.trans hafter
    have hrun : put env key value w = if env.maxMemtableSize ≤
        (inserted env w e).current.mutableMemtable.size then rotateMemtable env (inserted env w e)
        else (.ok (), inserted env w e) := write_run env (Key.new key 0) value hfault
    intro v hv
    subst hv
    rw [hrun]
    by_cases hfull : env.maxMemtableSize ≤ (inserted env v e).current.mutableMemtable.size
    · rw [if_pos hfull]
      exact hrotated _ rfl
    · rw [if_neg hfull]
      exact hthrough
  · obtain ⟨error, taken, buf, _, hfails⟩ := put_fails env key value hfault
    intro v hv
    subst hv
    rw [hfails]
    exact ⟨⟨_, rfl, hsteps taken⟩, UnwrittenIn.append hlog h _⟩

/-! ## Commands -/

/-- What a command writes fits its fields, its tables get ids that the manifest does not list, and
its record comes behind whole ones. -/
structure AscendRoom (env : Env) (w : World) (command : Command) : Prop where
  room : Room env w command
  disk : DiskRoom env w command
  atRecordEnd : command.written w ≠ [] → AtRecordEnd env w

/-- The LSNs increase, and the logs behind the mutable one are unwritten. -/
structure Ongoing (env : Env) (acked : List Entry) (w : World) : Prop where
  ascends : Ascends env acked w
  unwritten : Unwritten w.current.mutableWal.id w

/-- The directory is that of such a database. -/
def Remains (env : Env) (acked : List Entry) (d : Dir) : Prop :=
  ∃ v : World, v.dir = d ∧ Ongoing env acked v

/-- The directories on the way, when the logs stay unwritten. -/
theorem Carries.remains (h : Carries env acked w w')
    (hunwritten : Throughout (UnwrittenIn w.current.mutableWal.id) w w') :
    Throughout (Remains env acked) w w' := by
  have hboth : ∀ d, Resumes env acked w.current.mutableWal.id d →
      UnwrittenIn w.current.mutableWal.id d → Remains env acked d := by
    intro d hresumes hd
    obtain ⟨v, hdir, hid, hv⟩ := hresumes
    refine ⟨v, hdir, hv, ?_⟩
    rw [Unwritten, hid, hdir]
    exact hd
  obtain ⟨⟨dirs, htrace, hdirs⟩, hdir⟩ := h.dirs
  obtain ⟨⟨dirs', htrace', hdirs'⟩, hdir'⟩ := hunwritten
  obtain rfl := List.append_cancel_left (htrace.symm.trans htrace')
  exact ⟨⟨dirs, htrace, fun d hd => hboth d (hdirs d hd) (hdirs' d hd)⟩, hboth _ hdir hdir'⟩

namespace Ongoing

theorem start (env : Env) (faults : List (Option Fault)) (trace : List Dir) :
    Ongoing env [] { pristine env with faults, trace } where
  ascends := ⟨[], [], [], 0, .start env faults trace⟩
  unwritten := (Tracked.start env faults trace).unwritten

theorem remains (h : Ongoing env acked w) : Remains env acked w.dir := ⟨w, rfl, h⟩

/-- A command, whatever comes of it. -/
theorem step (h : Ongoing env acked w) {command : Command} (hroom : AscendRoom env w command)
    (hrun : command.run env w = (r, w')) :
    Throughout (Remains env acked) w w' ∧ Ongoing env (acked ++ acknowledged w command r) w' := by
  obtain ⟨⟨shelf, durable, records, top, hascending⟩, hunwritten⟩ := h
  have hlog : LogUpTo w.current.mutableWal.id w := ⟨hascending.log.name, UInt32.le_refl _⟩
  obtain ⟨hcarries, hascends⟩ : Carries env acked w w' ∧
      Ascends env (acked ++ acknowledged w command r) w' := by
    cases command with
    | put key value =>
        exact hascending.put
          (hroom.atRecordEnd (List.cons_ne_nil _ _)) hroom.room hroom.disk hunwritten
          hrun
    | structural op =>
        have hnone : acknowledged w (.structural op) r = [] := by cases r <;> rfl
        rw [hnone, List.append_nil]
        have hcarries : Carries env acked w w' := by
          cases op with
          | rotateMemtable => exact hascending.rotate hroom.disk hunwritten hrun
          | flushMemtables => exact hascending.flush hroom.room hroom.disk hrun
          | compactL0 targetFileSize =>
              exact hascending.compaction (k := .l0) hroom.room hroom.disk hrun
          | compactLn levelIdx targetFileSize =>
              exact hascending.compaction (k := .ln levelIdx) hroom.room hroom.disk hrun
        exact ⟨hcarries, hcarries.ascends⟩
  have hthrough : Throughout (UnwrittenIn w.current.mutableWal.id) w w' := by
    have hspec : TraceUnwritten w.current.mutableWal.id w (command.run env) := by
      cases command with
      | put key value => exact put_traceUnwritten key value hlog hunwritten
      | structural op => exact op.traceUnwritten env hlog hunwritten
    cases r with
    | ok => exact hspec.ok rfl hrun
    | error => exact hspec.error rfl hrun
  exact ⟨hcarries.remains hthrough, hascends, Unwritten.mono hthrough.2 hcarries.mutable_le⟩

/-- The database is closed, and the log takes what it held back. -/
theorem closed (h : Ongoing env acked w) (hrun : w.current.mutableWal.drop w = (r, w')) :
    Throughout (Remains env acked) w w' := by
  obtain ⟨⟨shelf, durable, records, top, hascending⟩, hunwritten⟩ := id h
  have hdropped : Dropped w.current.mutableWal w w' := by
    have hspec :=
      WalHandle.drop_spec w.current.mutableWal w (E := fun _ => Dropped w.current.mutableWal w)
    cases r with
    | ok => exact hspec.ok rfl hrun
    | error => exact hspec.error rfl hrun
  have hlog : LogUpTo w.current.mutableWal.id w := ⟨hascending.log.name, UInt32.le_refl _⟩
  have hremains : ∀ bytes, bytes <+: w.current.mutableWal.buf →
      Remains env acked (w.dir.append w.current.mutableWal.inode bytes) := by
    intro bytes hbytes
    obtain ⟨v, hdir, hid, hv⟩ := hascending.resumes_append hbytes
    refine ⟨v, hdir, hv, ?_⟩
    rw [Unwritten, hid, hdir]
    exact UnwrittenIn.append hlog hunwritten bytes
  rcases hdropped with ⟨_, rfl⟩ | ⟨_, n, faults, _, rfl⟩
  · exact ⟨⟨[], (List.append_nil _).symm, by simp⟩, h.remains⟩
  · refine ⟨⟨_, rfl, fun d hd => ?_⟩, hremains _ (List.take_prefix n _)⟩
    obtain ⟨k, _, rfl⟩ := List.mem_map.mp hd
    exact hremains _ ((List.take_prefix k _).trans (List.take_prefix n _))

end Ongoing

end EasyLsm.Db
