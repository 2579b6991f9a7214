import Mathlib.Data.List.Basic
import EasyLsm.Db.Life
import EasyLsm.Lib.Journal

/-!
# The logs of a database as a journal

`Tracked env w j` says that the logs and the memtables of the database are those of the journal `j`:
its log files hold the records of the logs of `j`, and its memtables are the memories. A command is
a step of the journal, or two for a `put` that rotates (`Follows`), and a start is its restart. The
tables do not matter here, nor do their ids.
-/

namespace EasyLsm.Db

open Lib Lib.FileStore Lib.Versions

variable {env : Env} {w w' w₁ : World} {r : Except DbError Unit}

instance linearOrderUInt32 : LinearOrder UInt32 where
  le := (· ≤ ·)
  lt := (· < ·)
  le_refl := UInt32.le_refl
  le_trans _ _ _ := UInt32.le_trans
  le_antisymm _ _ := UInt32.le_antisymm
  le_total := UInt32.le_total
  lt_iff_le_not_ge a b := by
    rw [UInt32.lt_iff_toNat_lt, UInt32.le_iff_toNat_le, UInt32.le_iff_toNat_le]
    omega
  toDecidableLE := inferInstance
  toDecidableEq := inferInstance

/-- Memtables as memories. -/
instance : Buffer (Memtable .mutable) Entry where
  empty := Memtable.new
  insert m e := m.recover e.1 e.2
  entries m := m.store.entries
  entries_empty := rfl
  of_mem_insert h := (Memtable.mem_recover.mp h).imp_right And.left
  mem_insert h := by
    exact Memtable.mem_recover.mpr (h.imp_right fun ⟨hmem, hne⟩ =>
      ⟨hmem, fun heq => hne (congrArg (fun k : Key => k.lsn.toNat) heq)⟩)

/-- The journal of a database. -/
abbrev LogJournal := Journal UInt32 (Memtable .mutable) Entry

/-! ## The manifest on the disk -/

/-- The newest manifest file is that of the manifest, and holds it when it can be represented. -/
structure Saved (env : Env) (w : World) : Prop where
  newest : Manifest.newestVersion w.dir = some w.manifest.version
  onDisk : w.manifest.Fits → OnDisk env w.dir w.manifest

namespace Saved

/-- Only files that are no manifests, or the counter of table ids, have changed. -/
theorem of_quiet (h : Saved env w) (hquiet : Quiet IsManifest w w') : Saved env w' := by
  obtain ⟨id, hid⟩ := hquiet.manifest
  refine ⟨?_, fun hfits => ?_⟩
  · rw [newestVersion_of_agree hquiet.dir, hid]
    exact h.newest
  · rw [hid] at hfits ⊢
    have hdisk := (h.onDisk hfits).of_agree hquiet.dir
    exact hdisk

theorem committed {c : Manifest} (h : Committed env w c w')
    (hnewest : Manifest.newestVersion w.dir = some c.version)
    (hversion : c.version.toNat + 1 < 2 ^ 32) : Saved env w' where
  newest := h.newest hnewest hversion
  onDisk hfits := h.onDisk hnewest hversion (by rw [h.manifest] at hfits; exact hfits)

/-- After a publication the new manifest is on the disk. -/
theorem published {f : Manifest → Except DbError Manifest} {g : Version → Version}
    (h : Saved env w) (hpublished : Published env f g w w') (hf : KeepsCounters f)
    (hversion : w.manifest.version.toNat + 1 < 2 ^ 32) : Saved env w' := by
  obtain ⟨c, w₂, hc, hcommitted, hswept⟩ := hpublished
  have hsame := hf.version hc
  have h₂ : Saved env w₂ := committed hcommitted (by rw [hsame]; exact h.newest)
    (by rw [hsame]; exact hversion)
  have hmanifest : w'.manifest = w₂.manifest := hswept.manifest
  refine ⟨?_, fun hfits => ?_⟩
  · rw [hmanifest]
    exact newestVersion_of_pruned h₂.newest hswept.dir
  · rw [hmanifest] at hfits ⊢
    exact (h₂.onDisk hfits).of_pruned hswept.dir

end Saved

/-! ## Flushes and compactions -/

/-- The manifests and the logs. -/
def ManifestOrLog (n : FileName) : Prop := IsManifest n ∨ IsLog n

theorem not_manifestOrLog_sst (id : UInt32) : ¬ ManifestOrLog (.sst id) := by
  rintro (⟨v, hv⟩ | ⟨id', hid⟩)
  · cases hv
  · cases hid

theorem not_manifestOrLog_mfTmp (v : UInt32) : ¬ ManifestOrLog (.mfTmp v) := by
  rintro (⟨v', hv⟩ | ⟨id, hid⟩)
  · cases hv
  · cases hid

/-- A program that succeeds from `w₁`, without saying anything about a failure. -/
abbrev Gives {α : Type} (w₁ : World) (x : Op α) (R : α → World → Prop) : Prop :=
  Prog.Spec (· = w₁) x R fun _ _ => True

namespace Gives

variable {α β : Type} {R : β → World → Prop}

/-- Something is read from the state. -/
theorem read_bind {f : World → α} {g : α → Op β} (h : Gives w₁ (g (f w₁)) R) :
    Gives w₁ (Prog.read f >>= g) R := by
  refine Prog.Spec.bind_forall (Q := fun a s => a = f w₁ ∧ s = w₁)
    (Prog.Spec.read fun s hs => ⟨congrArg f hs, hs⟩) fun a s hs => ?_
  obtain ⟨rfl, rfl⟩ := hs
  exact h

/-- Files are changed that are neither manifests nor logs. -/
theorem calm_bind {x : Op α} {g : α → Op β} (hx : Calm ManifestOrLog w x)
    (hquiet : Quiet ManifestOrLog w w₁)
    (h : ∀ a s, Quiet ManifestOrLog w s → Gives s (g a) R) : Gives w₁ (x >>= g) R :=
  Prog.Spec.bind_forall (hx.weaken (fun _ hs => hs ▸ hquiet) (fun _ _ h => h) fun _ _ _ => trivial)
    h

end Gives

/-- There is nothing to flush. -/
theorem flushMemtables_empty (hempty : w.current.frozenMemtables = []) :
    flushMemtables env w = (.ok (), w) := by
  show (if w.current.frozenMemtables.isEmpty then pure () else _ : Op Unit) w = _
  rw [if_pos (by rw [hempty]; rfl)]
  rfl

/-- A flush that succeeds has written tables, whatever their ids are, and then published them. -/
theorem flushMemtables_published (hne : w.current.frozenMemtables ≠ []) :
    Gives w (flushMemtables env) fun _ w' => ∃ w₁ metas hs, Quiet ManifestOrLog w w₁ ∧
      w.current.frozenMemtables.length ≤ w.manifest.wals.length ∧
      Published env (flushMutator metas (w.manifest.wals.take w.current.frozenMemtables.length))
        (flushVersion w.current.frozenMemtables.length hs) w₁ w' := by
  refine Gives.read_bind
    (Prog.Spec.ite (fun hempty => absurd (List.isEmpty_iff.mp hempty) hne) fun _ => ?_)
  refine Gives.calm_bind reserveSstableId_calm (.refl _ w) fun startSstId s hs => Gives.read_bind ?_
  obtain ⟨id, hid⟩ := hs.manifest
  rw [show s.manifest.wals = w.manifest.wals by rw [hid]]
  refine Prog.Spec.ite (fun _ => Prog.Spec.fail fun _ _ => trivial) fun hlength => ?_
  rw [List.length_take] at hlength
  -- there is a table for every memtable
  have hwrite := Prog.Spec.forEach_related (R := fun _ _ => True) (P := Quiet ManifestOrLog w)
    (f := fun p => flushTable env (startSstId + UInt32.ofNat p.2) p.1)
    (l := w.current.frozenMemtables.zipIdx) (E := fun _ _ => True) fun p _ =>
      (flushTable_calm not_manifestOrLog_sst _ p.1).weaken (fun _ h => h)
        (fun _ _ h => ⟨trivial, h⟩)
        fun _ _ _ => trivial
  refine Prog.Spec.bind_forall (hwrite.weaken (fun _ heq => heq ▸ hs) (fun _ _ h => h)
    fun _ _ h => h) fun newSstables s hs => ?_
  obtain ⟨hrelated, hs⟩ := hs
  have hcount : newSstables.length = w.current.frozenMemtables.length := by
    rw [← hrelated.length_eq, List.length_zipIdx]
  refine Gives.calm_bind (openNewTables_calm _ _) hs fun newSstObjs s hs => ?_
  refine (publish_spec (flushMutator_keepsCounters _ _) _).weaken (fun _ h => h)
    (fun _ w' hpublished => ⟨s, newSstables, newSstObjs, hs, by omega, ?_⟩) fun _ _ _ => trivial
  rw [hcount] at hpublished
  exact hpublished

/-- A compaction that succeeds has written tables, whatever their ids are, and then published
them. -/
theorem executeCompaction_published (sourceLevelIdx : Nat) (all source target : List FileMetadata)
    (targetFileSize : UInt64) :
    Gives w (executeCompaction env sourceLevelIdx all source target targetFileSize) fun _ w' =>
      ∃ w₁ newFiles hs, Quiet ManifestOrLog w w₁ ∧
        Published env (compactMutator sourceLevelIdx source target newFiles)
          (compactVersion (fun t => t.sst.id)
            (fun t => t.sst.minKey) sourceLevelIdx source target hs)
          w₁ w' := by
  refine Gives.calm_bind (mergeFiles_calm not_manifestOrLog_sst targetFileSize all) (.refl _ w)
    fun p s hs => ?_
  obtain ⟨newFiles, newSstObjs⟩ := p
  exact (publish_spec (compactMutator_keepsCounters _ _ _ _) _).weaken (fun _ h => h)
    (fun _ w' hpublished => ⟨s, newFiles, newSstObjs, hs, hpublished⟩) fun _ _ _ => trivial

/-! ## The journal -/

/-- The logs and the memtables of the database are those of the journal. -/
structure Tracked (env : Env) (w : World) (j : LogJournal) : Prop where
  saved : Saved env w
  name : (.wal w.current.mutableWal.id, w.current.mutableWal.inode) ∈ w.dir.names
  active : w.current.mutableWal.id = j.active
  buf : w.current.mutableWal.buf = []
  wals : w.manifest.wals = j.ids
  frozen : w.current.frozenMemtables = j.frozen.map Memtable.freeze
  memory : w.current.mutableMemtable = j.memory
  next : w.manifest.nextWalId = j.next
  seq : w.nextLsn.toNat = j.seq
  logs : ∀ id ∈ j.ids, w.dir.read (.wal id) =
    some (Wal.magicBytes ++ Wal.encodeGroup env.crates.crc32 (j.log id))
  records : ∀ id ∈ j.ids, ∀ e ∈ j.log id, e.Fits ∧ e.1.lsn.toNat + 1 < 2 ^ 64
  bounded : j.Bounded
  unwritten : Unwritten j.active w

/-- The manifests and the logs that a manifest lists. -/
def KeptLogs (m : Manifest) (n : FileName) : Prop := IsManifest n ∨ ∃ id ∈ m.wals, n = .wal id

namespace Tracked

variable {j : LogJournal}

theorem start (env : Env) (faults : List (Option Fault)) (trace : List Dir) :
    Tracked env { pristine env with faults, trace } (.initial 0 1) where
  saved := ⟨rfl, fun hfits => onDisk_of_read hfits rfl rfl⟩
  name := by
    show (FileName.wal 0, 0) ∈ [(FileName.mf 0, 1), (FileName.wal 0, 0)]
    exact List.mem_cons_of_mem _ List.mem_cons_self
  active := rfl
  buf := rfl
  wals := rfl
  frozen := rfl
  memory := rfl
  next := rfl
  seq := rfl
  logs id hid := by
    rw [List.mem_singleton.mp hid]
    rfl
  records id _ e he := absurd he List.not_mem_nil
  bounded := ⟨rfl, fun _ hi => absurd hi List.not_mem_nil, by decide⟩
  unwritten id hid := by
    have hnone : (pristine env).dir.read (.wal id) = none := by
      refine Option.map_eq_none_iff.mpr (lookup_eq_none.mpr fun i hi => ?_)
      have hi : (FileName.wal id, i) ∈ [(FileName.mf 0, 1), (FileName.wal 0, 0)] := hi
      simp only [List.mem_cons, Prod.mk.injEq, FileName.wal.injEq, reduceCtorEq, false_and,
        List.not_mem_nil, or_false, false_or] at hi
      exact ne_of_gt hid hi.1
    show walFile (pristine env).dir id <+: _
    rw [walFile, hnone]
    exact List.nil_prefix

/-- The record of an entry is appended to the active log. -/
theorem inserted (h : Tracked env w j) {key : Bytes} {value : Value}
    (hfits : Entry.Fits (Key.new key w.nextLsn, value)) (hroom : w.nextLsn.toNat + 1 < 2 ^ 64) :
    Tracked env (Db.inserted env w (Key.new key w.nextLsn, value))
      (j.write (Key.new key w.nextLsn, value)) := by
  let e : Entry := (Key.new key w.nextLsn, value)
  have hname : (FileName.wal j.active, w.current.mutableWal.inode) ∈ w.dir.names := by
    rw [← h.active]
    exact h.name
  have hpending : w.pendingBytes env e = Wal.encodeEntry env.crates.crc32 e := by
    rw [World.pendingBytes, h.buf, List.nil_append]
  have hagree : Agree (· ≠ .wal j.active) w.dir (Db.inserted env w e).dir :=
    agree_setContent (free_of_mem (by simp) hname) _
  have hmanifests : Agree IsManifest w.dir (Db.inserted env w e).dir := by
    refine hagree.mono ?_
    rintro n ⟨v, rfl⟩
    simp
  have hother : ∀ id, id ≠ j.active →
      (Db.inserted env w e).dir.read (.wal id) = w.dir.read (.wal id) :=
    fun id hid => hagree.read fun heq => hid (FileName.wal.inj heq)
  have hactive : (j.write e).log j.active = j.log j.active ++ [e] := Function.update_self ..
  refine ⟨⟨?_, fun hfits => (h.saved.onDisk hfits).of_agree hmanifests⟩, h.name, h.active, rfl,
    h.wals, h.frozen, ?_, h.next, ?_, fun id hid => ?_, fun id hid x hx => ?_, h.bounded.write e,
    fun id hid => ?_⟩
  · exact (newestVersion_of_agree hmanifests).trans h.saved.newest
  · show w.current.mutableMemtable.recover e.1 e.2 = Buffer.insert j.memory e
    rw [h.memory]
    rfl
  · show (w.nextLsn + 1).toNat = j.seq + 1
    rw [UInt64.toNat_add, Nat.mod_eq_of_lt (by simpa using hroom), ← h.seq]
    rfl
  · by_cases heq : id = j.active
    · subst heq
      have hname' : (FileName.wal j.active, w.current.mutableWal.inode) ∈
          (Db.inserted env w e).dir.names := hname
      have hold := h.logs j.active j.active_mem
      rw [read_of_mem hname] at hold
      rw [hactive, read_of_mem hname', show (Db.inserted env w e).dir.content
        w.current.mutableWal.inode = _ from content_setContent_self _ _ _, Option.some.inj hold,
        hpending, List.append_assoc, Wal.encodeGroup, Wal.encodeGroup, List.flatMap_append,
        List.flatMap_singleton]
    · have hsame : (j.write e).log id = j.log id := Function.update_of_ne heq ..
      rw [hsame, hother id heq]
      exact h.logs id hid
  · by_cases heq : id = j.active
    · subst heq
      rw [hactive, List.mem_append, List.mem_singleton] at hx
      rcases hx with hx | rfl
      · exact h.records _ hid x hx
      · exact ⟨hfits, hroom⟩
    · have hsame : (j.write e).log id = j.log id := Function.update_of_ne heq ..
      rw [hsame] at hx
      exact h.records id hid x hx
  · rw [walFile_congr (hother id (ne_of_gt hid))]
    exact h.unwritten id hid

theorem logUpTo (h : Tracked env w j) : LogUpTo j.active w :=
  ⟨h.name, by rw [h.active]⟩

/-- Every listed log has its magic number. -/
theorem walFile_ne_nil (h : Tracked env w j) {id : UInt32} (hid : id ∈ w.manifest.wals) :
    walFile w.dir id ≠ [] := by
  rw [h.wals] at hid
  rw [walFile, h.logs id hid, Option.getD_some]
  exact List.append_ne_nil_of_left_ne_nil (by decide) _

theorem active_listed (h : Tracked env w j) : w.current.mutableWal.id ∈ w.manifest.wals := by
  rw [h.wals, h.active]
  exact j.active_mem

/-- Only what is not listed, or the counter of table ids, has changed. -/
theorem quiet (h : Tracked env w j) (hquiet : Quiet (KeptLogs w.manifest) w w')
    (hunwritten : Unwritten j.active w') : Tracked env w' j := by
  obtain ⟨id, hid⟩ := hquiet.manifest
  have hwals : w'.manifest.wals = w.manifest.wals := by rw [hid]
  have hcurrent := hquiet.current
  refine ⟨h.saved.of_quiet (hquiet.mono fun _ hn => .inl hn), ?_, ?_, ?_, ?_, ?_, ?_, ?_, ?_,
    fun id hmem => ?_, h.records, h.bounded, hunwritten⟩
  · rw [hcurrent]
    exact (hquiet.dir.names (.inr ⟨_, h.active_listed, rfl⟩) _).mpr h.name
  · rw [hcurrent]
    exact h.active
  · rw [hcurrent]
    exact h.buf
  · rw [hwals]
    exact h.wals
  · rw [hcurrent]
    exact h.frozen
  · rw [hcurrent]
    exact h.memory
  · rw [hid]
    exact h.next
  · rw [hquiet.nextLsn]
    exact h.seq
  · rw [hquiet.dir.read (.inr ⟨id, h.wals ▸ hmem, rfl⟩)]
    exact h.logs id hmem

/-- A rotation freezes the memtable. -/
theorem rotated (h : Tracked env w j) (hversion : w.manifest.version.toNat + 1 < 2 ^ 32)
    (hrun : rotateMemtable env w = (.ok (), w')) : Tracked env w' j.rotate := by
  have hrotated := ((@rotateMemtable_spec env (fun _ => False) w (by simp) (by simp)).ok rfl hrun).1
  have hkeeps := (rotateMemtable_unwritten env h.logUpTo h.unwritten).ok rfl hrun
  obtain ⟨w₁, w₂, newWal, faults, hquiet, hopen, hcommitted, hid, hbuf, hname, rfl⟩ :=
    (hrotated.switched h.buf).steps
  rw [h.next] at hid
  have hmanifest := hcommitted.manifest
  have hold : ∀ id, id ≠ j.next → w₂.dir.read (.wal id) = w.dir.read (.wal id) := by
    intro id hne
    rw [hcommitted.agree_wal.read ⟨id, rfl⟩]
    exact hquiet.dir.read fun heq => hne (h.next ▸ FileName.wal.inj heq)
  have hnew : walFile w₂.dir j.next = walFile w₁.dir j.next :=
    walFile_congr (hcommitted.agree_wal.read ⟨_, rfl⟩)
  rw [h.next, ← hnew] at hopen
  -- the log is continued, or it has only its magic number
  have hfile : w₂.dir.read (.wal j.next) =
      some (Wal.magicBytes ++ Wal.encodeGroup env.crates.crc32 (j.rotate.log j.next)) := by
    have hsome := read_of_walFile (openWritable_idem hopen).1
    rw [hsome]
    refine congrArg some ?_
    by_cases hmem : j.next ∈ j.ids
    · have hlog := h.logs _ hmem
      rw [walFile, hlog, Option.getD_some, WalRecovery.openWritable_magic] at hopen
      rw [Journal.log_rotate_of_mem hmem]
      exact (Except.ok.inj hopen).symm
    · have hless : j.active < j.next :=
        h.bounded.below_iff.mpr hmem _ j.active_mem
      rw [Journal.log_rotate_of_free hmem, Function.update_self, Wal.encodeGroup, List.flatMap_nil,
        List.append_nil]
      exact openWritable_prefix (h.unwritten _ hless) hopen
  have hlog : ∀ id ∈ j.ids, j.rotate.log id = j.log id := by
    intro id hmem
    by_cases hnext : j.next ∈ j.ids
    · rw [Journal.log_rotate_of_mem hnext]
    · rw [Journal.log_rotate_of_free hnext, Function.update_of_ne]
      rintro rfl
      exact hnext hmem
  have hsaved : Saved env w₂ := by
    refine Saved.committed hcommitted ?_ hversion
    rw [newestVersion_of_agree (hquiet.dir.mono (by rintro n ⟨v, rfl⟩; simp)), h.saved.newest]
  refine ⟨⟨hsaved.newest, hsaved.onDisk⟩, ?_, hid, hbuf, ?_, ?_, rfl, ?_, ?_, fun id hmem => ?_,
    fun id hmem e he => ?_, h.bounded.rotate, ?_⟩
  · show (FileName.wal newWal.id, newWal.inode) ∈ w₂.dir.names
    rw [hid, ← h.next]
    exact hname
  · show w₂.manifest.wals = j.ids ++ [j.next]
    rw [hmanifest, ← h.wals, ← h.next]
  · show w.current.frozenMemtables ++ [w.current.mutableMemtable.freezeFromRef] =
      (j.frozen ++ [j.memory]).map Memtable.freeze
    rw [List.map_append, h.frozen, h.memory]
    rfl
  · show w₂.manifest.nextWalId = j.next
    rw [hmanifest]
    exact h.next
  · show w₂.nextLsn.toNat = j.seq
    rw [hcommitted.nextLsn, hquiet.nextLsn]
    exact h.seq
  · by_cases hne : id = j.next
    · rw [hne]
      exact hfile
    · have hmem' : id ∈ j.ids := (Journal.mem_ids.mp hmem).resolve_right hne
      rw [hlog id hmem']
      exact (hold id hne).trans (h.logs id hmem')
  · by_cases hmem' : id ∈ j.ids
    · rw [hlog id hmem'] at he
      exact h.records id hmem' e he
    · obtain rfl : id = j.next := (Journal.mem_ids.mp hmem).resolve_left hmem'
      rw [Journal.log_rotate_of_free hmem', Function.update_self] at he
      cases he
  · exact hkeeps.mono h.bounded.active

/-- A publication that may drop old logs and their memtables, and nothing else that is tracked. -/
theorem published (h : Tracked env w j) {f : Manifest → Except DbError Manifest}
    {g : Version → Version}
    {old : List UInt32} {frozen : List (Memtable .mutable)} {stored : List Entry}
    (hquiet : Quiet ManifestOrLog w w₁) (hpublished : Published env f g w₁ w')
    (hf : KeepsCounters f)
    (hversion : w.manifest.version.toNat + 1 < 2 ^ 32)
    (hwals : w'.manifest.wals = old ++ [j.active]) (hold : ∀ id ∈ old, id ∈ j.old)
    (hlength : old.length = frozen.length)
    (hfrozen : (g w.current).frozenMemtables = frozen.map Memtable.freeze)
    (hmemory : (g w.current).mutableMemtable = w.current.mutableMemtable)
    (hwal : (g w.current).mutableWal = w.current.mutableWal) (hunwritten : Unwritten j.active w') :
    Tracked env w' { j with old, frozen, stored } := by
  have hcurrent : w'.current = g w.current := by rw [hpublished.current, hquiet.current]
  obtain ⟨id, hid⟩ := hquiet.manifest
  obtain ⟨c, hc, hmanifest⟩ := hpublished.manifest
  have hmem : ∀ {id}, id ∈ old ++ [j.active] → id ∈ j.ids := fun hmem =>
    Journal.mem_ids.mpr ((List.mem_append.mp hmem).imp (hold _) List.mem_singleton.mp)
  have hagree : ∀ id ∈ w'.manifest.wals, w'.dir.read (.wal id) = w.dir.read (.wal id) :=
    fun id hlisted => (hpublished.agree.read (.inl ⟨id, hlisted, rfl⟩)).trans
      (hquiet.dir.read (.inr ⟨id, rfl⟩))
  refine ⟨(h.saved.of_quiet (hquiet.mono fun _ hn => .inl hn)).published hpublished hf ?_, ?_, ?_,
    ?_, hwals, ?_, ?_, ?_, ?_, fun id hmem' => ?_, fun id hmem' => h.records id (hmem hmem'),
    ⟨hlength, fun id hmem' => h.bounded.old id (hold id hmem'), h.bounded.active⟩, hunwritten⟩
  · rw [hid]
    exact hversion
  · rw [hcurrent, hwal]
    refine (hpublished.agree.names (.inl ⟨_, ?_, rfl⟩) _).mpr
      ((hquiet.dir.names (.inr ⟨_, rfl⟩) _).mpr h.name)
    rw [hwals, h.active]
    exact List.mem_append_right _ (List.mem_singleton_self _)
  · rw [hcurrent, hwal]
    exact h.active
  · rw [hcurrent, hwal]
    exact h.buf
  · rw [hcurrent]
    exact hfrozen
  · rw [hcurrent, hmemory]
    exact h.memory
  · rw [hmanifest]
    show c.nextWalId = j.next
    rw [hf.nextWalId hc, hid]
    exact h.next
  · rw [hpublished.nextLsn, hquiet.nextLsn]
    exact h.seq
  · rw [hagree id (hwals ▸ hmem')]
    exact h.logs id (hmem hmem')

/-- A flush stores what the frozen memtables hold. -/
theorem flushed (h : Tracked env w j) (hversion : w.manifest.version.toNat + 1 < 2 ^ 32)
    (hrun : flushMemtables env w = (.ok (), w')) : Tracked env w' j.flush := by
  have hunwritten := (flushMemtables_keepsUnwritten env).ok h.unwritten hrun
  by_cases hempty : w.current.frozenMemtables = []
  · have hfrozen : j.frozen = [] := List.map_eq_nil_iff.mp (h.frozen.symm.trans hempty)
    have hold : j.old = [] := List.length_eq_zero_iff.mp (by rw [h.bounded.length, hfrozen]; rfl)
    have hsame : j.flush = j := by
      obtain ⟨old, frozen, active, memory, log, stored, next, seq⟩ := j
      cases hfrozen
      cases hold
      show Journal.mk _ _ _ _ _ (stored ++ []) _ _ = _
      rw [List.append_nil]
    rw [flushMemtables_empty hempty] at hrun
    cases hrun
    rw [hsame]
    exact h
  · obtain ⟨w₁, metas, hs, hquiet, hcount, hpublished⟩ :=
      (flushMemtables_published hempty).ok rfl hrun
    have hlength : w.current.frozenMemtables.length = j.old.length := by
      rw [h.frozen, List.length_map, h.bounded.length]
    have hwals : w'.manifest.wals = [] ++ [j.active] := by
      obtain ⟨id, hid⟩ := hquiet.manifest
      obtain ⟨c, hc, hmanifest⟩ := hpublished.manifest
      rw [hmanifest]
      show c.wals = _
      rw [flushMutator_wals hc, List.length_take, Nat.min_eq_left hcount, hid]
      show w.manifest.wals.drop _ = _
      rw [h.wals, hlength, Journal.ids, List.drop_left]
      rfl
    exact h.published hquiet hpublished (flushMutator_keepsCounters _ _) hversion hwals
      (fun _ hid => absurd hid List.not_mem_nil) rfl (by simp [flushVersion]) rfl rfl hunwritten

/-- A compaction changes no log. -/
theorem compacted (h : Tracked env w j) {k : Compaction} {targetFileSize : UInt64}
    (hversion : ∀ s, k.select w.manifest = some s → w.manifest.version.toNat + 1 < 2 ^ 32)
    (hrun : k.run env targetFileSize w = (.ok (), w')) : Tracked env w' j := by
  have hunwritten : Unwritten j.active w' := by
    cases k with
    | l0 =>
        exact (Structural.unwritten env (.compactL0 targetFileSize) h.logUpTo
          h.unwritten).ok rfl hrun
    | ln levelIdx =>
        exact (Structural.unwritten env (.compactLn levelIdx targetFileSize) h.logUpTo
          h.unwritten).ok rfl hrun
  rw [k.run_eq] at hrun
  cases hselect : k.select w.manifest with
  | none =>
      rw [hselect] at hrun
      cases hrun
      exact h
  | some s =>
      rw [hselect] at hrun
      obtain ⟨w₁, newFiles, hs, hquiet, hpublished⟩ :=
        (executeCompaction_published _ _ _ _ _).ok rfl hrun
      have hwals : w'.manifest.wals = j.old ++ [j.active] := by
        obtain ⟨id, hid⟩ := hquiet.manifest
        obtain ⟨c, hc, hmanifest⟩ := hpublished.manifest
        rw [hmanifest]
        show c.wals = _
        rw [(compactMutator_eq hc).2, hid]
        exact h.wals
      exact h.published hquiet hpublished (compactMutator_keepsCounters _ _ _ _)
        (hversion s hselect)
        hwals (fun _ hid => hid) h.bounded.length h.frozen rfl rfl hunwritten

/-! ## Starts -/

/-- A log is replayed to its records. -/
theorem replays (h : Tracked env w j) {id : UInt32} (hid : id ∈ j.ids) :
    Replays env w.dir id (j.log id) := by
  refine ⟨_, h.logs id hid, ?_⟩
  obtain ⟨es, hes, hreplay⟩ := @Wal.replay_truncated env.crates.crc32 (j.log id) [] []
    (fun e he => (h.records id hid e he).1) (by simp) (List.prefix_refl _)
  rwa [List.prefix_nil.mp hes, List.append_nil, List.append_nil] at hreplay

/-- The LSN of the last record. -/
theorem toNat_lastLsn (es : List Entry) : (lastLsn es).toNat = Journal.lastSeq es := by
  unfold lastLsn Journal.lastSeq
  cases es.getLast? <;> rfl

/-- What a start recovers. -/
theorem recovered (h : Tracked env w j) (hdisk : OnDisk env w.dir w.manifest)
    (hrun : newDb env w = (.ok (), w')) :
    ∃ state faults, Recovered env w.dir w.manifest state ∧
      w' = launched { w with faults } (reopened w.manifest) state ∧
      ((.wal j.active, state.mutableWal.inode) ∈ w.dir.names ∧ state.mutableWal.id = j.active ∧
        state.mutableWal.buf = []) ∧
      state.frozenMemtables = (j.old.map fun i => Journal.replay (j.log i)).map Memtable.freeze ∧
      state.mutableMemtable = Journal.replay (j.log j.active) ∧
      state.nextLsn.toNat = Journal.lastSeq (j.log j.active) + 1 := by
  obtain ⟨state, faults, hrecovered, rfl⟩ := newDb_recovered hdisk hrun
  obtain ⟨id, inode, es, hlast, hreplays, hname, hwal, hmutable, hlsn⟩ := hrecovered.mutable
  have hactive : id = j.active := by
    rw [h.wals, Journal.ids, List.getLast?_concat] at hlast
    exact (Option.some.inj hlast).symm
  subst hactive
  obtain rfl : es = j.log j.active := (h.replays j.active_mem).unique hreplays
  have hold : w.manifest.wals.dropLast = j.old := by rw [h.wals, Journal.ids, List.dropLast_concat]
  obtain ⟨logs, hlogs, hfrozen⟩ := hrecovered.frozen
  rw [hold] at hlogs
  have hlogs : logs = j.old.map j.log := eq_map_of_forall₂ hlogs fun id hid es hes =>
    (h.replays (Journal.mem_ids.mpr (.inl hid))).unique hes
  refine ⟨state, faults, hrecovered, rfl, ?_, ?_, hmutable, ?_⟩
  · rw [hwal]
    exact ⟨hname, rfl, rfl⟩
  · rw [hfrozen, hlogs, List.map_map, List.map_map]
    rfl
  · have hbound : Journal.lastSeq (j.log j.active) + 1 < 2 ^ 64 := by
      cases hget : (j.log j.active).getLast? with
      | none =>
          rw [Journal.lastSeq, hget]
          exact Nat.one_lt_two_pow (by omega)
      | some e =>
          rw [Journal.lastSeq, hget]
          exact (h.records _ j.active_mem e (List.mem_of_getLast? hget)).2
    rw [hlsn, UInt64.toNat_add, toNat_lastLsn]
    exact Nat.mod_eq_of_lt hbound

/-- A start replays the logs. -/
theorem restarted (h : Tracked env w j) (hdisk : OnDisk env w.dir w.manifest)
    (hroom : RestartRoom w)
    (hrun : newDb env w = (.ok (), w')) :
    (∀ id ∈ j.ids, id < Manifest.maxId w.manifest.wals + 1) ∧
    Tracked env w' (j.restart (Manifest.maxId w.manifest.wals + 1)) := by
  obtain ⟨state, faults, hrecovered, rfl, ⟨hname, hid, hbuf⟩, hfrozen, hmemory, hseq⟩ :=
    h.recovered hdisk hrun
  have hnext : ∀ id ∈ j.ids, id < Manifest.maxId w.manifest.wals + 1 := fun id hid =>
    lt_maxId_succ hroom (h.wals.symm ▸ hid)
  refine ⟨hnext, ⟨h.saved.newest, fun _ => hdisk.launched state faults⟩, ?_, hid, hbuf, h.wals,
    hfrozen, hmemory, rfl, hseq, h.logs, h.records, h.bounded.restart hnext, h.unwritten⟩
  show (FileName.wal state.mutableWal.id, state.mutableWal.inode) ∈ w.dir.names
  rw [hid]
  exact hname

end Tracked

/-! ## Commands -/

/-- A structural operation as a step of the journal. -/
def Structural.journal (j : LogJournal) : Structural → LogJournal
  | rotateMemtable => j.rotate
  | flushMemtables => j.flush
  | compactL0 _ => j
  | compactLn _ _ => j

/-- What a command makes of the journal, when it succeeds or its failure is harmless. -/
inductive Follows (env : Env) (w : World) (j : LogJournal) :
    Command → Except DbError Unit → LogJournal → Prop
  | put {key : Bytes} {value : Value} (free : ¬ Rotates env w (.put key value)) :
      Follows env w j (.put key value) (.ok ()) (j.write (Key.new key w.nextLsn, value))
  | putRotated {key : Bytes} {value : Value} (full : Rotates env w (.put key value)) :
      Follows env w j (.put key value) (.ok ()) (j.write (Key.new key w.nextLsn, value)).rotate
  | putFailed {key : Bytes} {value : Value} {e : DbError} :
      Follows env w j (.put key value) (.error e) (j.write (Key.new key w.nextLsn, value))
  | structural {op : Structural} : Follows env w j (.structural op) (.ok ()) (op.journal j)
  | structuralFailed {op : Structural} {e : DbError} :
      Follows env w j (.structural op) (.error e) j

/-- What a command writes to its log, and the version of the manifest, can be represented. -/
def LogRoom (env : Env) (w : World) : Command → Prop
  | .put key value => (w.nextLsn.toNat + 1 < 2 ^ 64 ∧ Entry.Fits (Key.new key w.nextLsn, value)) ∧
      (Rotates env w (.put key value) → w.manifest.version.toNat + 1 < 2 ^ 32)
  | .structural _ => w.manifest.version.toNat + 1 < 2 ^ 32

namespace Tracked

variable {j : LogJournal}

/-- An operation whose failure is harmless leaves the manifests and the listed logs. -/
theorem failed (h : Tracked env w j) {op : Structural} (hharmless : Harmless env w (.structural op))
    {e : DbError} (hrun : op.run env w = (.error e, w')) : Quiet (KeptLogs w.manifest) w w' := by
  have hkept : ∀ n, KeptLogs w.manifest n → ManifestOrLog n := fun n hn =>
    hn.imp_right fun ⟨id, _, hid⟩ => ⟨id, hid⟩
  have hcompaction : ∀ (k : Compaction) targetFileSize,
      k.run env targetFileSize w = (.error e, w') →
      Quiet (KeptLogs w.manifest) w w' := by
    intro k targetFileSize hrun
    rw [k.run_eq] at hrun
    cases hselect : k.select w.manifest with
    | none =>
        rw [hselect] at hrun
        cases hrun
    | some s =>
        rw [hselect] at hrun
        exact ((executeCompaction_error not_manifestOrLog_sst not_manifestOrLog_mfTmp
          _ _ _ _ _).error (.refl _ w) hrun).mono hkept
  cases op with
  | rotateMemtable =>
      refine (rotate_harmless (fun _ => h.walFile_ne_nil) (fun hreopen => hharmless ⟨rfl, hreopen⟩)
        hrun).mono fun n hn => ?_
      exact hn.imp_right .inl
  | flushMemtables =>
      exact ((flushMemtables_error not_manifestOrLog_sst not_manifestOrLog_mfTmp).error (.refl _ w)
        hrun).mono hkept
  | compactL0 targetFileSize => exact hcompaction .l0 targetFileSize hrun
  | compactLn levelIdx targetFileSize => exact hcompaction (.ln levelIdx) targetFileSize hrun

/-- The step of a command. -/
theorem step (h : Tracked env w j) {command : Command} (hroom : LogRoom env w command)
    (hharmless : r = .ok () ∨ Harmless env w command) (hrun : command.run env w = (r, w')) :
    ∃ j', Follows env w j command r j' ∧ Tracked env w' j' := by
  cases command with
  | put key value =>
      obtain ⟨⟨hlsn, hfits⟩, hversion⟩ := hroom
      have hinserted := h.inserted hfits hlsn
      cases r with
      | ok =>
          have hwrite := write_ok hrun
          simp only at hwrite
          split at hwrite
          · rename_i hfull
            exact ⟨_, .putRotated hfull, hinserted.rotated (hversion hfull) hwrite⟩
          · rename_i hfree
            rw [hwrite]
            exact ⟨_, .put hfree, hinserted⟩
      | error e =>
          obtain ⟨hfault, hno⟩ := hharmless.resolve_left (by simp)
          obtain ⟨hfull, hrotate⟩ := put_harmless hfault hrun
          have hquiet := rotate_harmless (fun _ => hinserted.walFile_ne_nil) (hno hfull) hrotate
          have hunwritten :=
            (rotateMemtable_unwritten env hinserted.logUpTo hinserted.unwritten).error
            rfl hrotate
          exact ⟨_, .putFailed,
            hinserted.quiet (hquiet.mono fun _ hn => hn.imp_right .inl) hunwritten⟩
  | structural op =>
      cases r with
      | ok =>
          refine ⟨_, .structural, ?_⟩
          cases op with
          | rotateMemtable => exact h.rotated hroom hrun
          | flushMemtables => exact h.flushed hroom hrun
          | compactL0 targetFileSize => exact h.compacted (k := .l0) (fun _ _ => hroom) hrun
          | compactLn levelIdx targetFileSize =>
              exact h.compacted (k := .ln levelIdx) (fun _ _ => hroom) hrun
      | error e =>
          have hquiet := h.failed (hharmless.resolve_left (by simp)) hrun
          have hunwritten := (Structural.unwritten env op h.logUpTo h.unwritten).error rfl hrun
          exact ⟨_, .structuralFailed, h.quiet hquiet hunwritten⟩

end Tracked

end EasyLsm.Db
