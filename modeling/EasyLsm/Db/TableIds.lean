import Mathlib.Data.List.Basic
import EasyLsm.Db.LastLogged
import EasyLsm.Db.Rotations

/-!
# Table ids

A flush takes one id and writes its tables under this id and the following ones, a compaction takes
an id for every table that it begins, and a start continues behind the largest id that is listed.
`table_ids_unique`: a step that begins with different listed ids, all below the next one, writes no
table file with an id below the next one, and leaves it so unless it is a flush of two or more
memtables.
-/

namespace EasyLsm.Db

open Lib Lib.FileStore

variable {env : Env} {w w' w₀ w₁ w₂ : World} {r : Except DbError Unit} {writes : List Entry}

/-- The listed table ids are different and below the next one. -/
structure UniqueIds (w : World) : Prop where
  nodup : w.manifest.sstableIds.Nodup
  below : ∀ id ∈ w.manifest.sstableIds, id < w.manifest.nextSstableId

/-- Between the two states no table file with an id below the next one was written: in every
directory on the way it is what it was, unless the new manifest is on the disk and does not list it.
The tables that are listed then have different ids, and those that were not listed before have new
ones. -/
structure NewTables (env : Env) (w w' : World) : Prop where
  old : Throughout (fun d => ∀ id < w.manifest.nextSstableId,
    d.read (.sst id) = w.dir.read (.sst id) ∨
      OnDisk env d w'.manifest ∧ id ∉ w'.manifest.sstableIds) w w'
  new : ∀ id ∈ w'.manifest.sstableIds,
    id ∈ w.manifest.sstableIds ∨ w.manifest.nextSstableId ≤ id
  nodup : w'.manifest.sstableIds.Nodup

/-- The log of the mutable memtable is not empty, and it is listed behind those of the frozen
memtables. -/
structure Logged (w : World) : Prop where
  name : (.wal w.current.mutableWal.id, w.current.mutableWal.inode) ∈ w.dir.names
  ne_nil : w.dir.content w.current.mutableWal.inode ≠ []
  listed : w.current.mutableWal.id ∈ w.manifest.wals.drop w.current.frozenMemtables.length

/-- The manifest is on the disk, the ids are unique, and the log is there. -/
structure Numbered (env : Env) (w : World) : Prop where
  onDisk : OnDisk env w.dir w.manifest
  unique : UniqueIds w
  log : Logged w

/-- The table files with ids below the next one. -/
def OldTable (w : World) (n : FileName) : Prop := ∃ id < w.manifest.nextSstableId, n = .sst id

namespace Logged

theorem frame (h : Logged w) (hagree : Agree (· = .wal w.current.mutableWal.id) w.dir w'.dir)
    (hid : w'.current.mutableWal.id = w.current.mutableWal.id)
    (hinode : w'.current.mutableWal.inode = w.current.mutableWal.inode)
    (hlisted : w.current.mutableWal.id ∈ w'.manifest.wals.drop w'.current.frozenMemtables.length) :
    Logged w' := by
  refine ⟨?_, ?_, ?_⟩
  · rw [hid, hinode]
    exact (hagree.names rfl _).mpr h.name
  · rw [hinode, hagree.content rfl h.name]
    exact h.ne_nil
  · rw [hid]
    exact hlisted

theorem of_steady {keep : FileName → Prop} (h : Logged w) (hsteady : Steady keep w w')
    (hkeep : keep (.wal w.current.mutableWal.id)) : Logged w' := by
  have hcurrent := hsteady.quiet.current
  refine h.frame (hsteady.quiet.dir.mono ?_) (by rw [hcurrent]) (by rw [hcurrent]) ?_
  · rintro _ rfl
    exact hkeep
  · rw [hsteady.manifest, hcurrent]
    exact h.listed

theorem walFile_ne_nil (h : Logged w) : walFile w.dir w.current.mutableWal.id ≠ [] := by
  rw [walFile, read_of_mem h.name]
  exact h.ne_nil

end Logged

namespace Numbered

/-- Nothing is listed that was not listed before. -/
theorem newTables (h : Numbered env w) (hthrough : Throughout (Agree (OldTable w) w.dir) w w')
    (hids : w'.manifest.sstableIds = w.manifest.sstableIds) : NewTables env w w' where
  old := hthrough.mono fun _ hd id hid => .inl (hd.read ⟨id, hid, rfl⟩)
  new _ hid := .inl (hids ▸ hid)
  nodup := hids ▸ h.unique.nodup

/-- Ids were taken, and nothing was committed. -/
theorem taken (h : Numbered env w) {id : UInt32}
    (hthrough : Throughout (Agree (Settled w) w.dir) w w')
    (hmanifest : w'.manifest = { w.manifest with nextSstableId := id })
    (hcurrent : w'.current = w.current) (hle : w.manifest.nextSstableId ≤ id) :
    NewTables env w w' ∧ Numbered env w' := by
  have hids : w'.manifest.sstableIds = w.manifest.sstableIds := by rw [hmanifest]; rfl
  refine ⟨h.newTables (hthrough.mono fun _ hd => hd.mono fun _ hn => .inr (.inr hn)) hids, ?_,
    ⟨?_, ?_⟩, ?_⟩
  · have hdisk := h.onDisk.of_agree (hthrough.2.mono fun _ hn => .inl hn)
    rw [hmanifest]
    exact hdisk
  · rw [hids]
    exact h.unique.nodup
  · intro i hi
    rw [hids] at hi
    rw [hmanifest]
    exact UInt32.lt_of_lt_of_le (h.unique.below i hi) hle
  · refine h.log.frame (hthrough.2.mono fun _ hn => .inr (.inl ⟨_, hn⟩)) (by rw [hcurrent])
      (by rw [hcurrent]) ?_
    rw [hmanifest, hcurrent]
    exact h.log.listed

/-- Tables were written, and a manifest was committed that lists them. -/
theorem published (h : Numbered env w) {gone : List UInt32} {pieces : List (List Entry)}
    (hbefore : Throughout (Agree (Settled w) w.dir) w w₁)
    (hafter : Throughout (fun d => Agree (fun n => ∀ v, n ≠ .mfTmp v) w₁.dir d ∨
      SameFiles env w'.manifest w₁.dir d) w₁ w')
    (hcount : w.manifest.nextSstableId.toNat + pieces.length < 2 ^ 32)
    (hperm : (w'.manifest.sstableIds ++ gone).Perm (w.manifest.sstableIds ++
      ((writtenTables env.crates w.manifest.nextSstableId pieces).map Table.meta').map
        FileMetadata.fileId)) : NewTables env w w' := by
  have hnew : ∀ id ∈ ((writtenTables env.crates w.manifest.nextSstableId pieces).map
      Table.meta').map FileMetadata.fileId, w.manifest.nextSstableId ≤ id := by
    intro id hid
    obtain ⟨i, hi, rfl⟩ := mem_fileIds_writtenTables hid
    rw [UInt32.le_iff_toNat_le, toNat_add_ofNat (by omega)]
    omega
  refine ⟨?_, fun id hid => ?_, ?_⟩
  · refine Throughout.trans (hbefore.mono fun d hd id hid =>
      .inl (hd.read (.inr (.inr ⟨id, hid, rfl⟩))))
      (hafter.mono fun d hd id hid => ?_)
    have hsame := hbefore.2.read (n := .sst id) (.inr (.inr ⟨id, hid, rfl⟩))
    rcases hd with hagree | hfiles
    · exact .inl ((hagree.read (by simp)).trans hsame)
    · by_cases hlisted : id ∈ w'.manifest.sstableIds
      · exact .inl ((hfiles.tables id hlisted).trans hsame)
      · exact .inr ⟨hfiles.onDisk, hlisted⟩
  · rcases List.mem_append.mp (hperm.mem_iff.mp (List.mem_append_left _ hid)) with hold | hid
    · exact .inl hold
    · exact .inr (hnew id hid)
  · have hids := @nodup_writtenTables env.crates w.manifest.nextSstableId pieces (by omega)
    have hall : (w.manifest.sstableIds ++ ((writtenTables env.crates w.manifest.nextSstableId
        pieces).map Table.meta').map FileMetadata.fileId).Nodup := by
      rw [List.nodup_append]
      refine ⟨h.unique.nodup, by rw [List.map_map]; exact hids, fun id hold id' hid heq => ?_⟩
      have hless := UInt32.lt_of_lt_of_le (h.unique.below id hold) (hnew id' hid)
      exact absurd hless (heq ▸ UInt32.lt_irrefl _)
    exact (hperm.nodup_iff.mpr hall).sublist (List.sublist_append_left _ _)

end Numbered

/-! ## Rotations -/

/-- The manifests, the tables, and the log of the mutable memtable. -/
def Durable (w : World) (n : FileName) : Prop :=
  IsManifest n ∨ (∃ id, n = .sst id) ∨ n = .wal w.current.mutableWal.id

theorem not_durable_mfTmp (v : UInt32) : ¬ Durable w (.mfTmp v) := by
  rintro (⟨v', hv⟩ | ⟨id, hid⟩ | hid)
  · cases hv
  · cases hid
  · cases hid

/-- The log of the mutable memtable is not empty. -/
theorem Logged.walFile_of_durable (h : Logged w) {id : UInt32} (hdurable : Durable w (.wal id)) :
    walFile w.dir id ≠ [] := by
  obtain rfl : id = w.current.mutableWal.id := by
    rcases hdurable with ⟨v, hv⟩ | ⟨_, hid⟩ | hid
    · cases hv
    · cases hid
    · exact FileName.wal.inj hid
  exact h.walFile_ne_nil

theorem Committed.logged {c : Manifest} (h : Committed env w₁ c w) (hlog : Logged w₁)
    (hlisted : w₁.current.mutableWal.id ∈ c.wals.drop w₁.current.frozenMemtables.length) :
    Logged w := by
  obtain ⟨w₂, hquiet, _, hrename, _⟩ := h.rename
  refine hlog.frame ((hquiet.dir.mono ?_).trans (agree_rename ?_ ?_ hrename)) (by rw [h.current])
    (by rw [h.current]) ?_
  · rintro _ rfl
    simp
  · simp
  · simp
  · rw [h.manifest, h.current]
    exact hlisted

theorem Committed.throughout_sst {c : Manifest} (h : Committed env w₁ c w) :
    Throughout (Agree (fun n => ∃ id, n = .sst id) w₁.dir) w₁ w := by
  have hlast := h.agree_sst
  obtain ⟨w₂, hquiet, _, _, htrace⟩ := h.rename
  have hbefore : Throughout (Agree (fun n => ∃ id, n = .sst id) w₁.dir) w₁ w₂ := by
    refine hquiet.throughout.mono fun d hd => hd.mono ?_
    rintro _ ⟨id, rfl⟩
    simp
  exact hbefore.trans ⟨⟨[w.dir], htrace, fun d hd => List.mem_singleton.mp hd ▸ hlast⟩, hlast⟩

/-- No table file was written, no id was taken, and no table was listed or removed. -/
structure Untouched (w w' : World) : Prop where
  through : Throughout (Agree (fun n => ∃ id, n = .sst id) w.dir) w w'
  ids : w'.manifest.sstableIds = w.manifest.sstableIds
  next : w'.manifest.nextSstableId = w.manifest.nextSstableId

namespace Untouched

theorem trans (h : Untouched w w₁) (h' : Untouched w₁ w') : Untouched w w' where
  through := h.through.trans (h'.through.mono fun _ hd => h.through.2.trans hd)
  ids := h'.ids.trans h.ids
  next := h'.next.trans h.next

theorem of_steady (h : Steady (Durable w) w w') : Untouched w w' where
  through := h.quiet.throughout.mono fun _ hd => hd.mono fun _ hn => .inr (.inl hn)
  ids := by rw [h.manifest]
  next := by rw [h.manifest]

theorem newTables (h : Untouched w w') (hnumbered : Numbered env w) : NewTables env w w' :=
  hnumbered.newTables (h.through.mono fun _ hd => hd.mono fun _ ⟨id, _, hn⟩ => ⟨id, hn⟩) h.ids

theorem unique (h : Untouched w w') (hunique : UniqueIds w) : UniqueIds w' := by
  constructor <;> rw [h.ids]
  · exact hunique.nodup
  · rw [h.next]
    exact hunique.below

end Untouched

theorem Numbered.of_steady (h : Numbered env w) (hsteady : Steady (Durable w) w w') :
    Numbered env w' where
  onDisk := by
    rw [hsteady.manifest]
    exact h.onDisk.of_agree (hsteady.quiet.dir.mono fun _ hn => .inl hn)
  unique := (Untouched.of_steady hsteady).unique h.unique
  log := h.log.of_steady hsteady (.inr (.inr rfl))

/-- A rotation takes no table id. -/
theorem Numbered.rotation (h : Numbered env w) (hroom : RotateRoom w)
    (hrotation : RotationOf env (Durable w) w w') : Untouched w w' ∧ Numbered env w' := by
  rcases hrotation with hsteady | ⟨w₁, w₂, faults, hbefore, _, hcommitted, hafter⟩
  · exact ⟨.of_steady hsteady, h.of_steady hsteady⟩
  have hmanifest : w₂.manifest = { rotatedManifest w.manifest with
      version := w.manifest.version + 1 } := hcommitted.manifest
  have hwals : w₂.manifest.wals = w.manifest.wals ++ [w.manifest.nextWalId] := by
    rw [hmanifest]
    rfl
  have h₁ := h.of_steady hbefore
  have hlog₂ : Logged w₂ := by
    refine hcommitted.logged h₁.log ?_
    rw [hbefore.quiet.current]
    show _ ∈ (w.manifest.wals ++ [w.manifest.nextWalId]).drop _
    rw [List.drop_append]
    exact List.mem_append_left _ h.log.listed
  have hcommit : Untouched w₁ w₂ := by
    refine ⟨hcommitted.throughout_sst, ?_, ?_⟩ <;> rw [hmanifest, hbefore.manifest] <;> rfl
  have h₂ : Numbered env w₂ := by
    refine ⟨hcommitted.onDisk ?_ hroom.1 hroom.2, hcommit.unique h₁.unique, hlog₂⟩
    have hnewest := h₁.onDisk.newest
    rw [hbefore.manifest] at hnewest
    exact hnewest
  have huntouched := (Untouched.of_steady hbefore).trans hcommit
  rcases hafter with rfl | ⟨wal, hid, _, hname, hne, hdropped⟩
  · exact ⟨⟨huntouched.through, huntouched.ids, huntouched.next⟩, h₂.onDisk,
      ⟨h₂.unique.nodup, h₂.unique.below⟩, ⟨hlog₂.name, hlog₂.ne_nil, hlog₂.listed⟩⟩
  · let v : World := { w₂ with
      faults
      current := rotateVersion Memtable.freezeFromRef Memtable.new wal w₂.current }
    have hv : Untouched w v := ⟨huntouched.through, huntouched.ids, huntouched.next⟩
    have hquiet : ∀ {keep : FileName → Prop}, ¬ keep (.wal w₂.current.mutableWal.id) →
        Quiet keep v w' := fun hkeep => hdropped.quiet (free_of_mem hkeep h₂.log.name)
    have hlast : Untouched v w' := by
      refine ⟨(hquiet ?_).throughout, ?_, ?_⟩
      · rintro ⟨id, heq⟩
        cases heq
      · rw [hdropped.manifest]
      · rw [hdropped.manifest]
    have hdisk : OnDisk env w'.dir w'.manifest := by
      rw [hdropped.manifest]
      have hmanifests : Quiet IsManifest v w' := hquiet fun ⟨version, heq⟩ => by cases heq
      exact h₂.onDisk.of_agree hmanifests.dir
    have hname' : (FileName.wal wal.id, wal.inode) ∈ w'.dir.names := by
      rw [hdropped.names]
      exact hname
    refine ⟨hv.trans hlast, ⟨hdisk, (hv.trans hlast).unique h.unique, ?_⟩⟩
    have hcurrent := hdropped.current
    refine ⟨by rw [hcurrent]; exact hname', by rw [hcurrent]; exact hdropped.content_ne_nil hne, ?_⟩
    -- the new log is the last one, and there were more logs than frozen memtables
    have hless := List.length_pos_of_mem h.log.listed
    rw [hcurrent, hdropped.manifest]
    show wal.id ∈ w₂.manifest.wals.drop
      (w₂.current.frozenMemtables ++ [w₂.current.mutableMemtable.freezeFromRef]).length
    rw [hcommitted.current, hbefore.quiet.current, hwals, hid]
    rw [List.length_drop] at hless
    rw [List.length_append, List.length_singleton, List.drop_append_of_le_length (by omega)]
    exact List.mem_append_right _ (List.mem_singleton_self _)

/-! ## Writes -/

/-- The log of the mutable memtable got longer. -/
structure Appended (w₀ w : World) : Prop where
  manifest : w.manifest = w₀.manifest
  through : Throughout (Agree (· ≠ .wal w₀.current.mutableWal.id) w₀.dir) w₀ w
  log : Logged w

namespace Appended

theorem congr (h : Appended w₀ w) (hmanifest : w'.manifest = w.manifest) (hdir : w'.dir = w.dir)
    (htrace : w'.trace = w.trace) (hid : w'.current.mutableWal.id = w.current.mutableWal.id)
    (hinode : w'.current.mutableWal.inode = w.current.mutableWal.inode)
    (hfrozen : w'.current.frozenMemtables = w.current.frozenMemtables) : Appended w₀ w' where
  manifest := hmanifest.trans h.manifest
  through := by
    obtain ⟨⟨dirs, hdirs, hall⟩, hlast⟩ := h.through
    exact ⟨⟨dirs, htrace.trans hdirs, hall⟩, hdir ▸ hlast⟩
  log := by
    refine h.log.frame (hdir ▸ Agree.refl _ _) hid hinode ?_
    rw [hmanifest, hfrozen]
    exact h.log.listed

end Appended

/-- The steps of a write to the log. -/
theorem appendSteps_appended (hlog : Logged w₀) (bytes : Bytes) (faults : List (Option Fault))
    (nextLsn : UInt64) : Appended w₀ { w₀ with
      faults, nextLsn
      dir := (appendSteps w₀.dir w₀.current.mutableWal.inode bytes).getLastD w₀.dir
      trace := w₀.trace ++ appendSteps w₀.dir w₀.current.mutableWal.inode bytes } := by
  have hfree : Free (· ≠ .wal w₀.current.mutableWal.id) w₀.dir w₀.current.mutableWal.inode :=
    free_of_mem (by simp) hlog.name
  rw [getLastD_appendSteps]
  refine ⟨rfl, ⟨⟨_, rfl, fun d hd => ?_⟩, agree_setContent hfree _⟩, hlog.name, ?_, hlog.listed⟩
  · obtain ⟨n, _, rfl⟩ := List.mem_map.mp hd
    exact agree_setContent hfree _
  · show (w₀.dir.append w₀.current.mutableWal.inode bytes).content _ ≠ []
    rw [append, content_setContent_self]
    exact fun hnil => hlog.ne_nil (List.append_eq_nil_iff.mp hnil).1

theorem walWrite_appended (hlog : Logged w₀) (nextLsn : UInt64) (bytes : Bytes) :
    Prog.Spec (· = { w₀ with nextLsn }) (w₀.current.mutableWal.write bytes)
      (fun _ => Appended w₀) fun _ => Appended w₀ := by
  refine Prog.Spec.bind (Q := fun _ w => ∃ faults, w = { w₀ with nextLsn, faults }) ?_ fun fault =>
    ?_
  · intro w hw
    rw [nextFault_run]
    exact ⟨_, by rw [hw]⟩
  refine Prog.Spec.bind_forall (Q := fun dir w => dir = w₀.dir ∧
    ∃ faults, w = { w₀ with nextLsn, faults }) (Prog.Spec.read fun w h => ?_) fun dir w h => ?_
  · obtain ⟨faults, rfl⟩ := h
    exact ⟨rfl, faults, rfl⟩
  obtain ⟨rfl, faults, rfl⟩ := h
  refine Prog.Spec.bind (Q := fun _ w => Appended w₀ w ∧ w.current = w₀.current)
    (Prog.Spec.modify fun w hw => ?_) fun _ => Prog.Spec.bind (Q := fun _ => Appended w₀)
      (Prog.Spec.modify fun w hw => ?_) fun _ => Prog.Spec.ofExcept (fun _ _ _ h => h)
        fun _ _ _ h => h
  · subst hw
    exact ⟨appendSteps_appended hlog _ _ _, rfl⟩
  · refine hw.1.congr rfl rfl rfl ?_ ?_ rfl <;> rw [hw.2]

/-- A `put` writes to the log and may rotate the memtable. -/
theorem put_runs (env : Env) (hlog : Logged w₀) (key : Bytes) (value : Value) :
    Prog.Spec (· = w₀) (put env key value)
      (fun _ w => ∃ w₁, Appended w₀ w₁ ∧ (w = w₁ ∨ RotationOf env (Durable w₁) w₁ w))
      fun _ w => ∃ w₁, Appended w₀ w₁ ∧ (w = w₁ ∨ RotationOf env (Durable w₁) w₁ w) := by
  refine Prog.Spec.bind (Q := fun _ w => w = w₀) (Prog.Spec.read fun _ h => h) fun lsn => ?_
  refine Prog.Spec.bind (Q := fun _ w => w = { w₀ with nextLsn := w₀.nextLsn + 1 })
    (Prog.Spec.modify fun _ h => by rw [h]) fun _ => ?_
  refine Prog.Spec.bind_forall (Q := fun wal w => wal = w₀.current.mutableWal ∧
    w = { w₀ with nextLsn := w₀.nextLsn + 1 }) (Prog.Spec.read fun w h => ?_) fun wal w h => ?_
  · rw [h]
    exact ⟨rfl, rfl⟩
  obtain ⟨rfl, rfl⟩ := h
  refine Prog.Spec.bind ((walWrite_appended hlog _ _).weaken (fun _ h => h) (fun _ _ h => h)
    fun _ w h => ⟨w, h, .inl rfl⟩) fun _ => ?_
  refine Prog.Spec.bind (Q := fun _ => Appended w₀)
    (Prog.Spec.modify fun _ h => h.congr rfl rfl rfl rfl rfl rfl) fun _ =>
      Prog.Spec.bind (Q := fun _ => Appended w₀) (Prog.Spec.read fun _ h => h) fun size => ?_
  refine Prog.Spec.ite (fun _ => Prog.Spec.of_forall fun w h => ?_) fun _ =>
    Prog.Spec.pure fun w h => ⟨w, h, .inl rfl⟩
  exact (rotateMemtable_rotationOf h.log.walFile_of_durable not_durable_mfTmp).weaken
    (fun _ heq => heq)
    (fun _ _ hrotation => ⟨w, h, .inr hrotation⟩) fun _ _ hrotation => ⟨w, h, .inr hrotation⟩

theorem Untouched.of_appended (h : Appended w w') : Untouched w w' where
  through := h.through.mono fun _ hd => hd.mono fun _ ⟨_, hn⟩ => by rw [hn]; simp
  ids := by rw [h.manifest]
  next := by rw [h.manifest]

/-- A `put` takes no table id. -/
theorem Numbered.appended (h : Numbered env w) (happended : Appended w w') : Numbered env w' where
  onDisk := by
    rw [happended.manifest]
    refine h.onDisk.of_agree (happended.through.2.mono ?_)
    rintro _ ⟨v, rfl⟩
    simp
  unique := (Untouched.of_appended happended).unique h.unique
  log := happended.log

/-! ## Flushes -/

/-- A flush that fails has taken one id. -/
theorem flushMemtables_reserved (hfits : FlushFits env.crates w₀)
    (hne : w₀.current.frozenMemtables ≠ []) :
    Prog.Spec (· = w₀) (flushMemtables env) (fun _ _ => True) fun _ w =>
      Quiet (fun n => OtherThan (flushTables env.crates w₀) n ∧ ∀ v, n ≠ .mfTmp v) w₀ w ∧
        Reserved w₀ w := by
  refine flushMemtables_write hne hfits.count (fun _ _ _ hquiet hreserved => ⟨hquiet _, hreserved⟩)
    (fun _ _ hquiet hreserved _ => ⟨hquiet.mono fun _ hn => hn.1, hreserved⟩)
    fun w₁ _ hquiet hreserved _ => ?_
  refine Prog.Spec.bind_forall ((openNewTables_opened _ _).weaken (fun _ hw => hw ▸ Reads.refl _)
    (fun _ _ h => h.2) fun _ _ hreads =>
      ⟨(hquiet.mono fun _ hn => hn.1).trans (hreads.quiet _), ?_⟩)
    fun hs w₂ hreads => ?_
  · rw [Reserved, (hreads.steady fun _ => True).manifest, hreserved]
  refine (publish_spec (flushMutator_keepsCounters _ _) _).weaken (fun _ h => h)
    (fun _ _ _ => trivial) fun _ w h => ⟨?_, ?_⟩
  · exact ((hquiet.mono fun _ hn => hn.1).trans (hreads.quiet _)).trans
      (h.1.quiet.mono fun _ hn => hn.2)
  · rw [Reserved, h.1.manifest, (hreads.steady fun _ => True).manifest, hreserved]

/-- The tables of a flush are new. -/
theorem settled_other {n : FileName}
    (hroom : w.manifest.nextSstableId.toNat + w.current.frozenMemtables.length < 2 ^ 32)
    (hn : Settled w n) : OtherThan (flushTables env.crates w) n ∧ ∀ v, n ≠ .mfTmp v := by
  rcases hn with ⟨v, rfl⟩ | ⟨id, rfl⟩ | ⟨id, hless, rfl⟩
  · exact ⟨fun t _ => by simp, by simp⟩
  · exact ⟨fun t _ => by simp, by simp⟩
  · refine ⟨fun t ht heq => ?_, by simp⟩
    obtain ⟨i, es, hi, rfl⟩ := mem_writtenTables.mp ht
    have hlt := (List.getElem?_eq_some_iff.mp hi).1
    rw [List.length_map] at hlt
    rw [FileName.sst.inj heq, fileId_writtenTable, UInt32.lt_iff_toNat_lt,
      toNat_add_ofNat (by omega)] at hless
    omega

/-- A flush writes to new files, and leaves the ids unique unless there is a second table. -/
theorem Numbered.flush (h : Numbered env w) (hroom : FlushRoom env w)
    (hids : w.manifest.nextSstableId.toNat + w.current.frozenMemtables.length < 2 ^ 32)
    (hrun : flushMemtables env w = (r, w')) :
    NewTables env w w' ∧ (OnDisk env w'.dir w'.manifest ∧ Logged w') ∧
      (UniqueIds w' ↔ ¬ (r = .ok () ∧ 2 ≤ w.current.frozenMemtables.length)) := by
  by_cases hempty : w.current.frozenMemtables = []
  · rw [flushMemtables_empty hempty] at hrun
    cases hrun
    refine ⟨h.newTables ⟨⟨[], (List.append_nil _).symm, by simp⟩, Agree.refl _ _⟩ rfl,
      ⟨h.onDisk, h.log⟩, ?_⟩
    rw [hempty]
    exact iff_of_true h.unique fun hboth => absurd hboth.2 (by decide)
  have hpositive := List.length_pos_iff.mpr hempty
  have hsucc : (w.manifest.nextSstableId + 1).toNat = w.manifest.nextSstableId.toNat + 1 :=
    toNat_add_ofNat (i := 1) (by omega)
  cases r with
  | error e =>
      obtain ⟨hquiet, hreserved⟩ := (flushMemtables_reserved hroom.fits hempty).error rfl hrun
      obtain ⟨hnew, hnumbered⟩ := h.taken (hquiet.throughout.mono fun _ hd =>
        hd.mono fun _ => settled_other hids) hreserved hquiet.current
        (by rw [UInt32.le_iff_toNat_le]; omega)
      exact ⟨hnew, ⟨hnumbered.onDisk, hnumbered.log⟩, iff_of_true hnumbered.unique fun hboth => by
        cases hboth.1⟩
  | ok =>
      have hflushed := (flushMemtables_spec hroom.fits).ok rfl hrun
      rw [if_neg hempty] at hflushed
      obtain ⟨w₁, hs, hdone⟩ := hflushed.done hempty
      have hbefore : Throughout (Agree (Settled w) w.dir) w w₁ :=
        hdone.built.quiet.throughout.mono fun _ hd => hd.mono fun _ hn => (settled_other hids hn).1
      obtain ⟨_, hphases, hdisk⟩ := hdone.publication h.onDisk hroom.version hroom.manifest
      have hperm : (w'.manifest.sstableIds ++ []).Perm (w.manifest.sstableIds ++
          ((flushTables env.crates w).map Table.meta').map FileMetadata.fileId) := by
        rw [List.append_nil, sstableIds_eq, hdone.lists, sstableIds_eq, ← List.map_append]
        exact (Levels.flatten_push _ _).map FileMetadata.fileId
      have hnew := h.published hbefore hphases (by rw [List.length_map]; exact hids) hperm
      have hlisted : ∀ id, id ∈ w'.manifest.sstableIds ↔ id ∈ w.manifest.sstableIds ∨
          id ∈ ((flushTables env.crates w).map Table.meta').map FileMetadata.fileId := by
        intro id
        rw [← List.mem_append, ← hperm.mem_iff, List.append_nil]
      have hbelow := below_reserved_iff h.unique.below
        (fun hnil => hempty (List.map_eq_nil_iff.mp hnil)) (by omega) hdone.nextSstableId hlisted
      rw [List.length_map] at hbelow
      have hcurrent := hdone.current
      have hwal : w'.current.mutableWal = w.current.mutableWal := by
        rw [hcurrent]
        rfl
      have hlisted : w.current.mutableWal.id ∈ w'.manifest.wals := hdone.wals ▸ h.log.listed
      have hlog₁ : Agree (· = .wal w.current.mutableWal.id) w.dir w₁.dir :=
        hbefore.2.mono fun _ hn => .inr (.inl ⟨_, hn⟩)
      have hlog : Logged w' := by
        refine h.log.frame (hlog₁.trans (hdone.published.agree.mono ?_)) (by rw [hwal])
          (by rw [hwal]) ?_
        · rintro _ rfl
          exact .inl ⟨_, hlisted, rfl⟩
        · rw [hcurrent]
          simpa [flushVersion] using hlisted
      refine ⟨hnew, ⟨hdisk, hlog⟩, fun hunique hboth => hbelow.mp hunique.below hboth.2,
        fun hone => ?_⟩
      exact ⟨hnew.nodup, hbelow.mpr fun htwo => hone ⟨rfl, htwo⟩⟩

/-! ## Compactions -/

/-- Whatever the files hold that a compaction merges, the ids and the lengths of the tables that it
writes can be represented, and so can the manifest that lists them. -/
structure MergeFits (env : Env) (w : World) (targetFileSize : UInt64) (s : Selection) : Prop where
  files : CompactFits env w targetFileSize s.all
  version : w.manifest.version.toNat + 1 < 2 ^ 32
  manifest : ∀ merged m m', MergedFrom env.crates w.dir s.all merged m →
    m.next env.crates w.dir = (none, m') →
    ∀ c, compactMutator s.sourceLevelIdx s.fromSource s.fromTarget
      ((Compacted.outputs env w targetFileSize merged).map Table.meta') w.manifest = .ok c → c.Fits

theorem not_settled_mfTmp (v : UInt32) : ¬ Settled w (.mfTmp v) := by
  rintro (⟨v', hv⟩ | ⟨id, hid⟩ | ⟨id, _, hid⟩)
  · cases hv
  · cases hid
  · cases hid

/-- A merge that fails has taken some ids. -/
theorem Numbered.within (h : Numbered env w) {count : Nat} (hwithin : Within (Settled w) w count w')
    (hcount : w.manifest.nextSstableId.toNat + count < 2 ^ 32) :
    NewTables env w w' ∧ Numbered env w' := by
  obtain ⟨id, hid⟩ := hwithin.quiet.manifest
  obtain ⟨taken, htaken, hcounter⟩ := hwithin.counter
  rw [hid] at hcounter
  refine h.taken hwithin.quiet.throughout hid hwithin.quiet.current ?_
  rw [UInt32.le_iff_toNat_le, show id = _ from hcounter, toNat_add_ofNat (by omega)]
  exact Nat.le_add_right _ _

/-- The ids that a compaction lists, with those that it no longer lists. -/
theorem sstableIds_compactMutator {source : Nat} {removeFromSource removeFromTarget newFiles :
    List FileMetadata} {m c : Manifest}
    (h : compactMutator source removeFromSource removeFromTarget newFiles m = .ok c) :
    ∃ gone, (c.sstableIds ++ gone).Perm
      (m.sstableIds ++ newFiles.map FileMetadata.fileId) := by
  refine ⟨((Levels.get (fileLists m) source).filter (fun f => hasId removeFromSource f.fileId) ++
    (Levels.get (fileLists m) (source + 1)).filter
      (fun f => hasId removeFromTarget f.fileId)).map FileMetadata.fileId, ?_⟩
  rw [sstableIds_eq, sstableIds_eq, (compactMutator_eq h).1, ← List.map_append, ← List.map_append]
  exact (Levels.flatten_replace _ _ _ _ _ _).map FileMetadata.fileId

/-- The tables of a merge are published. -/
theorem Numbered.merged (h : Numbered env w) {s : Selection} {targetFileSize : UInt64}
    {merged : List Entry} {hs : List TableHandle} {m m' : MergeIterator}
    (hroom : MergeFits env w targetFileSize s)
    (hfrom : MergedFrom env.crates w.dir s.all merged m)
    (hnone : m.next env.crates w.dir = (none, m'))
    (hmanifest : w₁.manifest = { w.manifest with
      nextSstableId := w.manifest.nextSstableId +
        UInt32.ofNat (cutOutputs env.crates targetFileSize merged).length })
    (hquiet : Quiet (Settled w) w w₁)
    (hpublished : Published env (compactMutator s.sourceLevelIdx s.fromSource s.fromTarget
      ((Compacted.outputs env w targetFileSize merged).map Table.meta'))
      (compactVersion (fun t => t.sst.id) (fun t => t.sst.minKey) s.sourceLevelIdx s.fromSource
        s.fromTarget hs) w₁ w') : NewTables env w w' ∧ Numbered env w' := by
  have hless := hroom.files.ids _ _ hfrom
  have hdisk₁ : OnDisk env w₁.dir w₁.manifest := by
    rw [hmanifest]
    exact h.onDisk.of_agree (hquiet.dir.mono fun _ hn => .inl hn)
  obtain ⟨hphases, hdisk⟩ := hpublished.phases hdisk₁ (compactMutator_keepsCounters _ _ _ _)
    (by rw [hmanifest]; exact hroom.version) fun c hc => by
      cases hc
      rw [hmanifest]
      have hfits := hroom.manifest merged m m' hfrom hnone _ rfl
      exact hfits
  obtain ⟨c, hc, hw'⟩ := hpublished.manifest
  have hids : w'.manifest.sstableIds = c.sstableIds := by
    rw [hw']
    rfl
  have hwals : w'.manifest.wals = w.manifest.wals := by
    rw [hw', show c.wals = _ from (compactMutator_eq hc).2, hmanifest]
  obtain ⟨gone, hperm⟩ := sstableIds_compactMutator hc
  have hperm : (w'.manifest.sstableIds ++ gone).Perm (w.manifest.sstableIds ++
      ((Compacted.outputs env w targetFileSize merged).map Table.meta').map
        FileMetadata.fileId) := by
    rw [hids]
    rw [hmanifest] at hperm
    exact hperm
  have hnew := h.published hquiet.throughout hphases hless hperm
  have hcurrent : w'.current = compactVersion (fun t => t.sst.id) (fun t => t.sst.minKey)
      s.sourceLevelIdx s.fromSource s.fromTarget hs w.current := by
    rw [hpublished.current, hquiet.current]
  have hlog₁ : Agree (· = .wal w.current.mutableWal.id) w.dir w₁.dir :=
    hquiet.dir.mono fun _ hn => .inr (.inl ⟨_, hn⟩)
  have hlog : Logged w' := by
    refine h.log.frame (hlog₁.trans (hpublished.agree.mono ?_)) (by rw [hcurrent]; rfl)
      (by rw [hcurrent]; rfl) ?_
    · rintro _ rfl
      exact .inl ⟨_, hwals ▸ List.mem_of_mem_drop h.log.listed, rfl⟩
    · rw [hwals, hcurrent]
      exact h.log.listed
  have hnext : w'.manifest.nextSstableId = w.manifest.nextSstableId +
      UInt32.ofNat (cutOutputs env.crates targetFileSize merged).length := by
    rw [hw', (compactMutator_keepsCounters _ _ _ _).nextSstableId hc, hmanifest]
  refine ⟨hnew, hdisk, ⟨hnew.nodup, fun id hid => ?_⟩, hlog⟩
  rw [hnext]
  exact lt_next_of_written (c := env.crates) h.unique.below hless
    (List.mem_append.mp (hperm.mem_iff.mp (List.mem_append_left _ hid)))

/-- A compaction writes to new files and leaves the ids unique. -/
theorem Numbered.compaction (h : Numbered env w) {k : Compaction} {targetFileSize : UInt64}
    (hroom : ∀ s, k.select w.manifest = some s → MergeFits env w targetFileSize s)
    (hrun : k.run env targetFileSize w = (r, w')) : NewTables env w w' ∧ Numbered env w' := by
  rw [k.run_eq] at hrun
  cases hselect : k.select w.manifest with
  | none =>
      rw [hselect] at hrun
      cases hrun
      exact ⟨h.newTables ⟨⟨[], (List.append_nil _).symm, by simp⟩, Agree.refl _ _⟩ rfl, h⟩
  | some s =>
  rw [hselect] at hrun
  have hfits := hroom s hselect
  have hspec : Prog.Spec (· = w)
      (executeCompaction env s.sourceLevelIdx s.all s.fromSource s.fromTarget targetFileSize)
      (fun _ w' => NewTables env w w' ∧ Numbered env w')
      (fun _ w' => NewTables env w w' ∧ Numbered env w') := by
    refine Prog.Spec.bind_forall ((hfits.files.mergeFiles h.unique.below fun f hf =>
      selected_mem_sstableIds hselect hf).weaken (fun _ hw => hw) (fun _ _ hmerged => hmerged)
        fun _ _ hwithin => h.within hwithin ?_) fun p w₁ hmerged => ?_
    · have hlt := w.manifest.nextSstableId.toNat_lt
      omega
    obtain ⟨newFiles, hs⟩ := p
    obtain ⟨⟨merged, m, m', hfrom, hnone, rfl, hmanifest⟩, _, hquiet⟩ := hmerged
    refine (publish_spec (compactMutator_keepsCounters _ _ _ _) _).weaken (fun _ hw => hw) ?_ ?_
    · intro _ w' hpublished
      exact h.merged hfits hfrom hnone hmanifest hquiet hpublished
    · intro _ w' hfailed
      have hless := hfits.files.ids _ _ hfrom
      have hthrough := hquiet.trans (hfailed.1.quiet.mono fun n hn v heq => ?_)
      · refine h.taken hthrough.throughout (hfailed.1.manifest.trans hmanifest) hthrough.current ?_
        rw [UInt32.le_iff_toNat_le, toNat_add_ofNat hless]
        exact Nat.le_add_right _ _
      · exact not_settled_mfTmp v (heq ▸ hn)
  cases r with
  | error e => exact hspec.error rfl hrun
  | ok => exact hspec.ok rfl hrun

/-! ## Starts -/

/-- The next table id after a start is not narrowed. -/
def StartFits (w : World) : Prop := (Manifest.maxId w.manifest.sstableIds).toNat + 1 < 2 ^ 32

/-- A start writes to the last listed log. -/
theorem Recovered.logged {state : RecoveredState} {faults : List (Option Fault)}
    (h : Recovered env w.dir w.manifest state) :
    Logged (launched { w with faults } (reopened w.manifest) state) := by
  obtain ⟨id, inode, es, hlast, hreplays, hname, hwal, _⟩ := h.mutable
  obtain ⟨logs, hlogs, hfrozen⟩ := h.frozen
  have hlength := hlogs.length_eq
  have hne := hreplays.walFile_ne_nil
  rw [walFile, read_of_mem hname] at hne
  refine ⟨?_, ?_, ?_⟩
  · show (FileName.wal state.mutableWal.id, state.mutableWal.inode) ∈ w.dir.names
    rw [hwal]
    exact hname
  · show w.dir.content state.mutableWal.inode ≠ []
    rw [hwal]
    exact hne
  · show state.mutableWal.id ∈ w.manifest.wals.drop state.frozenMemtables.length
    obtain ⟨ids, hids⟩ := List.getLast?_eq_some_iff.mp hlast
    rw [hwal, hfrozen, List.length_map, ← hlength, hids, List.dropLast_concat, List.drop_left]
    exact List.mem_singleton_self _

/-- A start continues behind the listed ids. -/
theorem Numbered.started (h : Numbered env w) (hroom : StartFits w)
    (hrun : newDb env w = (.ok (), w')) : Numbered env w' := by
  obtain ⟨state, faults, hrecovered, rfl⟩ := newDb_recovered h.onDisk hrun
  exact ⟨h.onDisk.launched state faults, ⟨h.unique.nodup, fun _ hid => lt_maxId_succ hroom hid⟩,
    hrecovered.logged⟩

theorem Numbered.start (env : Env) (faults : List (Option Fault)) (trace : List Dir) :
    Numbered env { pristine env with faults, trace } where
  onDisk := onDisk_of_read (show (Manifest.new 0).Fits by decide) rfl rfl
  unique := ⟨List.nodup_nil, fun _ hid => absurd hid List.not_mem_nil⟩
  log := by
    refine ⟨?_, show Wal.magicBytes ≠ [] by decide, show (0 : UInt32) ∈ [0] from List.mem_cons_self⟩
    show (FileName.wal 0, 0) ∈ [(FileName.mf 0, 1), (FileName.wal 0, 0)]
    exact List.mem_cons_of_mem _ List.mem_cons_self

/-! ## Runs -/

/-- What a command writes can be represented. -/
def IdRoom (env : Env) (w : World) : Command → Prop
  | .put _ _ => RotateRoom w
  | .structural .rotateMemtable => RotateRoom w
  | .structural .flushMemtables => FlushRoom env w ∧
      w.manifest.nextSstableId.toNat + w.current.frozenMemtables.length < 2 ^ 32
  | .structural (.compactL0 targetFileSize) => ∀ s, Compaction.l0.select w.manifest = some s →
      MergeFits env w targetFileSize s
  | .structural (.compactLn levelIdx targetFileSize) => ∀ s,
      (Compaction.ln levelIdx).select w.manifest = some s → MergeFits env w targetFileSize s

/-- The command flushes two or more memtables. -/
def FlushesMany (w : World) : Command → Prop
  | .structural .flushMemtables => 2 ≤ w.current.frozenMemtables.length
  | _ => False

/-- A command, whether it succeeds or not, writes to new table files, and leaves the ids unique
unless it has flushed two or more memtables. -/
theorem Numbered.step (h : Numbered env w) {command : Command} (hroom : IdRoom env w command)
    (hrun : command.run env w = (r, w')) :
    NewTables env w w' ∧ (OnDisk env w'.dir w'.manifest ∧ Logged w') ∧
      (UniqueIds w' ↔ ¬ (r = .ok () ∧ FlushesMany w command)) := by
  have hother : NewTables env w w' ∧ Numbered env w' → ¬ FlushesMany w command →
      NewTables env w w' ∧ (OnDisk env w'.dir w'.manifest ∧ Logged w') ∧
        (UniqueIds w' ↔ ¬ (r = .ok () ∧ FlushesMany w command)) := fun hstep hone =>
    ⟨hstep.1, ⟨hstep.2.onDisk, hstep.2.log⟩, iff_of_true hstep.2.unique fun hboth => hone hboth.2⟩
  cases command with
  | put key value =>
      have hspec := put_runs env h.log key value
      obtain ⟨w₁, happended, hrotation⟩ : ∃ w₁, Appended w w₁ ∧ 
          (w' = w₁ ∨ RotationOf env (Durable w₁) w₁ w') := by
        cases r with
        | error e => exact hspec.error rfl hrun
        | ok => exact hspec.ok rfl hrun
      have huntouched := Untouched.of_appended happended
      refine hother ?_ id
      rcases hrotation with rfl | hrotation
      · exact ⟨huntouched.newTables h, h.appended happended⟩
      · have hroom₁ : RotateRoom w₁ := by
          rw [RotateRoom, happended.manifest]
          exact hroom
        obtain ⟨hrotated, hnumbered⟩ := (h.appended happended).rotation hroom₁ hrotation
        exact ⟨(huntouched.trans hrotated).newTables h, hnumbered⟩
  | structural op =>
      cases op with
      | rotateMemtable =>
          have hspec := @rotateMemtable_rotationOf env (Durable w) w h.log.walFile_of_durable
            not_durable_mfTmp
          have hrotation : RotationOf env (Durable w) w w' := by
            cases r with
            | error e => exact hspec.error rfl hrun
            | ok => exact hspec.ok rfl hrun
          obtain ⟨huntouched, hnumbered⟩ := h.rotation hroom hrotation
          exact hother ⟨huntouched.newTables h, hnumbered⟩ id
      | flushMemtables => exact h.flush hroom.1 hroom.2 hrun
      | compactL0 targetFileSize => exact hother (h.compaction (k := .l0) hroom hrun) id
      | compactLn levelIdx targetFileSize =>
          exact hother (h.compaction (k := .ln levelIdx) hroom hrun) id

theorem numbered_of_life (h : Life env (fun w command _ => IdRoom env w command ∧
    ¬ FlushesMany w command) StartFits w writes) : Numbered env w := by
  induction h with
  | start faults trace => exact .start env faults trace
  | step command _ hallowed hrun ih =>
      obtain ⟨_, ⟨hdisk, hlog⟩, hunique⟩ := ih.step hallowed.1 hrun
      exact ⟨hdisk, hunique.mpr fun hboth => hallowed.2 hboth.2, hlog⟩
  | restart _ hroom hrun ih => exact ih.started hroom hrun

/-- In a run in which no flush finds two or more frozen memtables the listed ids are different and
below the next one. Every command from there writes no table file with an id below the next one, and
the tables that it lists have different ids; exactly a flush of two or more memtables leaves the
next id behind. -/
theorem table_ids_unique (env : Env) (w : World) (writes : List Entry)
    (h : Life env (fun w command _ => IdRoom env w command ∧ ¬ FlushesMany w command) StartFits w
      writes) :
    UniqueIds w ∧
    (∀ command r w', IdRoom env w command → command.run env w = (r, w') → NewTables env w w' ∧
      (UniqueIds w' ↔ ¬ (r = .ok () ∧ FlushesMany w command))) ∧
    ∀ w', StartFits w → newDb env w = (.ok (), w') → UniqueIds w' := by
  have hnumbered := numbered_of_life h
  refine ⟨hnumbered.unique, fun command r w' hroom hrun => ?_, fun w' hroom hrun => ?_⟩
  · obtain ⟨hnew, _, hunique⟩ := hnumbered.step hroom hrun
    exact ⟨hnew, hunique⟩
  · exact (hnumbered.started hroom hrun).unique

/-- A put into a new database and a rotation. -/
theorem life_oneFrozen {allowed : World → Command → Except DbError Unit → Prop}
    (hallowed : ∀ w command, IdRoom defaultEnv w command → ¬ FlushesMany w command →
      allowed w command (.ok ())) :
    Life defaultEnv allowed StartFits oneFrozen [(Key.new [97] 1, .bytes [1])] := by
  have hput : Life defaultEnv allowed StartFits onePut [(Key.new [97] 1, .bytes [1])] :=
    life_onePut (hallowed _ _ ⟨by decide +kernel, by decide +kernel⟩ id)
  exact hput.step (.structural .rotateMemtable)
    (hallowed _ _ ⟨by decide +kernel, by decide +kernel⟩ id) (run_of_ok (by decide +kernel))

/-- Another put and another rotation. -/
theorem life_twoPuts {allowed : World → Command → Except DbError Unit → Prop}
    (hallowed : ∀ w command, IdRoom defaultEnv w command → ¬ FlushesMany w command →
      allowed w command (.ok ())) :
    Life defaultEnv allowed StartFits twoPuts
      [(Key.new [97] 1, .bytes [1]), (Key.new [98] 2, .bytes [2])] := by
  have hput := (life_oneFrozen hallowed).step (.put [98] (.bytes [2]))
    (hallowed _ _ ⟨by decide +kernel, by decide +kernel⟩ id) (run_of_ok (by decide +kernel))
  have hrotated := hput.step (.structural .rotateMemtable)
    (hallowed _ _ ⟨by decide +kernel, by decide +kernel⟩ id) (run_of_ok (by decide +kernel))
  have hnext : oneFrozen.nextLsn = 2 := by decide +kernel
  rw [Command.written, hnext] at hrotated
  exact hrotated

theorem table_ids_unique_one_table : UniqueIds (flushMemtables defaultEnv oneFrozen).2 := by
  have hfrozen : oneFrozen.current.frozenMemtables =
      [((Memtable.new).putBatch [(Key.new [97] 1, .bytes [1])]).freeze] := rfl
  have hroom : FlushRoom defaultEnv oneFrozen := by
    refine ⟨by decide +kernel, by decide +kernel, by rw [hfrozen]; decide, fun c hc => ?_⟩
    have hfits : ∀ c ∈ (flushMutator ((flushTables defaultEnv.crates oneFrozen).map Table.meta')
      (oneFrozen.manifest.wals.take oneFrozen.current.frozenMemtables.length)
      oneFrozen.manifest).toOption, c.Fits := by decide +kernel
    exact hfits c (by rw [hc]; rfl)
  have hrun := flush_run hroom.fits rfl (by decide +kernel) (by rw [hfrozen]; decide)
  have hone : ¬ FlushesMany oneFrozen (.structural .flushMemtables) := by
    show ¬ 2 ≤ oneFrozen.current.frozenMemtables.length
    rw [hfrozen]
    decide
  have hids : IdRoom defaultEnv oneFrozen (.structural .flushMemtables) :=
    ⟨hroom, by decide +kernel⟩
  have hlife : Life defaultEnv (fun w command _ => IdRoom defaultEnv w command ∧
      ¬ FlushesMany w command) StartFits oneFrozen [(Key.new [97] 1, .bytes [1])] :=
    life_oneFrozen fun w command hroom hone => ⟨hroom, hone⟩
  exact (table_ids_unique defaultEnv _ _ (hlife.step (.structural .flushMemtables) ⟨hids, hone⟩
    hrun)).1

/-- Two memtables are flushed: the tables get the ids 0 and 1, and the next table id is 1. -/
theorem flush_reuses_id : ¬ ∀ (env : Env) (w : World) (writes : List Entry),
    Life env (fun w command r => IdRoom env w command ∧ r = .ok ()) StartFits w writes →
      UniqueIds w := by
  intro hall
  have hfrozen : twoPuts.current.frozenMemtables =
      [((Memtable.new).putBatch [(Key.new [97] 1, .bytes [1])]).freeze,
        ((Memtable.new).putBatch [(Key.new [98] 2, .bytes [2])]).freeze] := rfl
  have hroom : FlushRoom defaultEnv twoPuts := by
    refine ⟨by decide +kernel, by decide +kernel, by rw [hfrozen]; decide, fun c hc => ?_⟩
    have hfits : ∀ c ∈ (flushMutator ((flushTables defaultEnv.crates twoPuts).map Table.meta')
      (twoPuts.manifest.wals.take twoPuts.current.frozenMemtables.length)
      twoPuts.manifest).toOption, c.Fits := by decide +kernel
    exact hfits c (by rw [hc]; rfl)
  have hids : IdRoom defaultEnv twoPuts (.structural .flushMemtables) := ⟨hroom, by decide +kernel⟩
  have hrun := flush_run hroom.fits rfl (by decide +kernel) (by rw [hfrozen]; decide)
  have hlife : Life defaultEnv (fun w command r => IdRoom defaultEnv w command ∧ r = .ok ())
      StartFits twoPuts [(Key.new [97] 1, .bytes [1]), (Key.new [98] 2, .bytes [2])] :=
    life_twoPuts fun w command hroom _ => ⟨hroom, rfl⟩
  have hunique := hall defaultEnv _ _ (hlife.step (.structural .flushMemtables) ⟨hids, rfl⟩ hrun)
  have hnumbered : Numbered defaultEnv twoPuts :=
    numbered_of_life (life_twoPuts fun w command hroom hone => ⟨hroom, hone⟩)
  refine (hnumbered.flush hroom hids.2 hrun).2.2.mp hunique ⟨rfl, ?_⟩
  rw [hfrozen]
  decide

end EasyLsm.Db
