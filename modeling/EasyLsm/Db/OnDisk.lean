import Mathlib.Data.List.Basic
import EasyLsm.Db.Publish

/-!
# What a crash finds

`OnDisk env dir m` says that opening the directory finds the logs and levels of the manifest `m`,
and `recoverable` are the entries that it finds: those of the listed logs and those of the listed
tables. Both depend only on the manifest files and on what the newest one lists, and a commit
replaces the one manifest by the other.
-/

namespace EasyLsm.Db

open Lib Lib.FileStore

variable {env : Env} {keep : FileName → Prop} {w₀ w w' : World} {dir dir' : Dir} {m : Manifest}

/-- The manifest as it is after it was opened: the counters continue behind the largest ids. -/
def reopened (m : Manifest) : Manifest :=
  { m with
    nextWalId := Manifest.maxId m.wals + 1
    nextSstableId := Manifest.maxId m.sstableIds + 1 }

/-- The next id that `try_open` gives is above the listed ones. -/
theorem lt_maxId_succ {ids : List UInt32} (hroom : (Manifest.maxId ids).toNat + 1 < 2 ^ 32)
    {id : UInt32}
    (hid : id ∈ ids) : id < Manifest.maxId ids + 1 := by
  have hle := UInt32.le_iff_toNat_le.mp (Manifest.le_maxId hid)
  have hsucc : (Manifest.maxId ids + 1).toNat = (Manifest.maxId ids).toNat + 1 := by
    rw [UInt32.toNat_add, Nat.mod_eq_of_lt (by simpa using hroom)]
    rfl
  refine UInt32.lt_iff_toNat_lt.mpr ?_
  omega

/-- The newest manifest file holds the logs and levels of the manifest. -/
def OnDisk (env : Env) (dir : Dir) (m : Manifest) : Prop :=
  Manifest.recover env.crates.crc32 env.dbDir dir = some (.ok (reopened m))

/-- The newest manifest file is the one with the version of the manifest. -/
theorem OnDisk.newest (h : OnDisk env dir m) : Manifest.newestVersion dir = some m.version := by
  unfold OnDisk Manifest.recover at h
  obtain ⟨version, hnewest, h⟩ := Option.map_eq_some_iff.mp h
  split at h
  · rename_i m' hopen
    cases h
    obtain ⟨⟨decoded, r⟩, _, hopen⟩ := bind_ok_iff.mp hopen
    have hversion : version = m.version := congrArg Manifest.version (Except.ok.inj hopen)
    rw [hnewest, hversion]
  · cases h

/-- Only the newest manifest file matters. -/
theorem recover_congr {v : UInt32} (hnewest : Manifest.newestVersion dir = some v)
    (hnewest' : Manifest.newestVersion dir' = some v)
    (hread : dir'.read (.mf v) = dir.read (.mf v)) :
    Manifest.recover env.crates.crc32 env.dbDir dir' =
      Manifest.recover env.crates.crc32 env.dbDir dir := by
  unfold Manifest.recover
  rw [hnewest, hnewest', Option.map_some, Option.map_some, hread]

/-- Directories with the same manifest files. -/
theorem OnDisk.of_agree (h : OnDisk env dir m) (hagree : Agree IsManifest dir dir') :
    OnDisk env dir' m := by
  refine (recover_congr h.newest ?_ (hagree.read ⟨_, rfl⟩)).trans h
  rw [newestVersion_of_agree hagree, h.newest]

/-- The newest manifest is not taken away. -/
theorem newestVersion_of_pruned {v : UInt32} (hnewest : Manifest.newestVersion dir = some v)
    (hpruned : Pruned (Needed dir m) dir dir') : Manifest.newestVersion dir' = some v := by
  have hkeep : Needed dir m (.mf v) := .inl ⟨_, hnewest, rfl⟩
  unfold Manifest.newestVersion at hnewest
  split at hnewest
  · cases hnewest
  · rename_i versions hne
    have hmax : Manifest.maxId (Dir.versions dir) = v := Option.some.inj hnewest
    have hmem := Manifest.maxId_mem hne
    rw [hmax] at hmem
    obtain ⟨i, hi⟩ := Dir.mem_versions.mp hmem
    refine Manifest.newestVersion_eq (Dir.mem_versions.mpr
      ⟨i, (hpruned.agree.names hkeep i).mpr hi⟩) fun v hv => ?_
    obtain ⟨j, hj⟩ := Dir.mem_versions.mp hv
    exact hmax ▸ Manifest.le_maxId (Dir.mem_versions.mpr ⟨j, hpruned.names _ hj⟩)

/-- A directory without other names, but with the newest manifest. -/
theorem OnDisk.of_pruned (h : OnDisk env dir m) (hpruned : Pruned (Needed dir m) dir dir') :
    OnDisk env dir' m := by
  have hkeep : Needed dir m (.mf m.version) := .inl ⟨_, h.newest, rfl⟩
  exact (recover_congr h.newest (newestVersion_of_pruned h.newest hpruned)
    (hpruned.agree.read hkeep)).trans h

/-- A manifest that was written to the newest manifest file. -/
theorem onDisk_of_read (hfits : m.Fits) (hnewest : Manifest.newestVersion dir = some m.version)
    (hread : dir.read (.mf m.version) = some (m.encode env.crates.crc32)) : OnDisk env dir m := by
  have hopen := @Manifest.tryOpen_encode env.crates.crc32 m hfits m.version
  unfold OnDisk Manifest.recover
  rw [hnewest, Option.map_some, hread, Option.getD_some, hopen]
  rfl

/-- After a commit the newest manifest file is that of the candidate, when the version does not
overflow. -/
theorem Committed.newest {c : Manifest} {w₁ : World} (h : Committed env w₁ c w)
    (hnewest : Manifest.newestVersion w₁.dir = some c.version)
    (hversion : c.version.toNat + 1 < 2 ^ 32) :
    Manifest.newestVersion w.dir = some w.manifest.version := by
  obtain ⟨w₂, hquiet, _, hrename, _⟩ := h.rename
  obtain ⟨i, _, _, _, hnames⟩ := rename_spec hrename
  have hsucc : (c.version + 1).toNat = c.version.toNat + 1 := by
    rw [UInt32.toNat_add, Nat.mod_eq_of_lt (by simpa using hversion)]
    rfl
  have hnewest₂ : Manifest.newestVersion w₂.dir = some c.version := by
    rw [newestVersion_of_agree (hquiet.dir.mono (by rintro n ⟨v, rfl⟩; simp)), hnewest]
  have hmem : (FileName.mf (c.version + 1), i) ∈ w.dir.names :=
    (hnames _ _).mpr (.inl ⟨rfl, rfl⟩)
  rw [show w.manifest.version = c.version + 1 by rw [h.manifest]]
  refine Manifest.newestVersion_eq (Dir.mem_versions.mpr ⟨i, hmem⟩) fun v hv => ?_
  obtain ⟨j, hj⟩ := Dir.mem_versions.mp hv
  rcases (hnames _ _).mp hj with ⟨heq, _⟩ | ⟨hj, _, _⟩
  · rw [FileName.mf.inj heq]
    exact UInt32.le_refl _
  · have hle : v ≤ c.version := by
      unfold Manifest.newestVersion at hnewest₂
      split at hnewest₂
      · cases hnewest₂
      · rw [← Option.some.inj hnewest₂]
        exact Manifest.le_maxId (Dir.mem_versions.mpr ⟨j, hj⟩)
    rw [UInt32.le_iff_toNat_le] at hle ⊢
    omega

/-- The newest manifest file holds the candidate, when it can be represented. -/
theorem Committed.onDisk {c : Manifest} {w₁ : World} (h : Committed env w₁ c w)
    (hnewest : Manifest.newestVersion w₁.dir = some c.version)
    (hversion : c.version.toNat + 1 < 2 ^ 32) (hfits : c.Fits) : OnDisk env w.dir w.manifest := by
  refine onDisk_of_read (by rw [h.manifest]; exact hfits) (h.newest hnewest hversion) ?_
  obtain ⟨w₂, _, hread, hrename, _⟩ := h.rename
  obtain ⟨i, hold, hcontent, _, hnames⟩ := rename_spec hrename
  have hmem : (FileName.mf (c.version + 1), i) ∈ w.dir.names :=
    (hnames _ _).mpr (.inl ⟨rfl, rfl⟩)
  rw [show w.manifest.version = c.version + 1 by rw [h.manifest], read_of_mem hmem, hcontent,
    ← read_of_mem hold, hread]

/-! ## Entries -/

/-- The entries of a log as recovery puts them into a memtable. -/
def walEntries (env : Env) (dir : Dir) (id : UInt32) : Option (List Entry) := do
  let file ← dir.read (.wal id)
  let es ← (Wal.replay env.crates.crc32 file).toOption
  return (Memtable.new.putBatch es).store.entries

/-- The entries that the listed tables of the newest manifest hold. -/
def listedEntries (env : Env) (dir : Dir) : Option (List Entry) := do
  let recovered ← Manifest.recover env.crates.crc32 env.dbDir dir
  let m ← recovered.toOption
  let stored ← m.sstableIds.mapM (tableEntries env.crates dir)
  return stored.flatten

/-- The entries that the listed logs and the listed tables of the newest manifest hold. -/
def recoverable (env : Env) (dir : Dir) : Option (List Entry) := do
  let recovered ← Manifest.recover env.crates.crc32 env.dbDir dir
  let m ← recovered.toOption
  let logged ← m.wals.mapM (walEntries env dir)
  let stored ← m.sstableIds.mapM (tableEntries env.crates dir)
  return logged.flatten ++ stored.flatten

/-- A partial function on a list: it is defined on all elements. -/
theorem mapM_eq_some {α β : Type} {f : α → Option (List β)} {l : List α} {bs : List (List β)} :
    l.mapM f = some bs ↔ (∀ a ∈ l, (f a).isSome) ∧ bs = l.map fun a => (f a).getD [] := by
  induction l generalizing bs with
  | nil =>
      rw [List.mapM_nil]
      refine ⟨fun h => ⟨by simp, (Option.some.inj h).symm⟩, fun h => congrArg some h.2.symm⟩
  | cons a l ih =>
      rw [List.mapM_cons]
      simp only [Option.bind_eq_bind, Option.bind_eq_some_iff, List.forall_mem_cons, List.map_cons]
      constructor
      · rintro ⟨b, hb, bs', hbs, h⟩
        cases h
        obtain ⟨hall, rfl⟩ := ih.mp hbs
        exact ⟨⟨by rw [hb]; rfl, hall⟩, by rw [hb]; rfl⟩
      · rintro ⟨⟨ha, hall⟩, rfl⟩
        obtain ⟨b, hb⟩ := Option.isSome_iff_exists.mp ha
        exact ⟨b, hb, _, ih.mpr ⟨hall, rfl⟩, by rw [hb]; rfl⟩

/-- What the tables of a manifest that is on the disk hold. -/
theorem listedEntries_eq_some (h : OnDisk env dir m) {es : List Entry} :
    listedEntries env dir = some es ↔
      (∀ id ∈ m.sstableIds, (tableEntries env.crates dir id).isSome) ∧
      es = m.sstableIds.flatMap fun id => (tableEntries env.crates dir id).getD [] := by
  have hids : (reopened m).sstableIds = m.sstableIds := rfl
  unfold listedEntries
  rw [h]
  simp only [Option.bind_eq_bind, Option.bind_some, Except.toOption, hids]
  simp only [Option.bind_eq_some_iff, mapM_eq_some]
  constructor
  · rintro ⟨_, ⟨hall, rfl⟩, hes⟩
    cases hes
    exact ⟨hall, (List.flatMap_def ..).symm⟩
  · rintro ⟨hall, rfl⟩
    exact ⟨_, ⟨hall, rfl⟩, by rw [List.flatMap_def]; rfl⟩

/-- What the logs and the tables of a manifest that is on the disk hold. -/
theorem recoverable_eq_some (h : OnDisk env dir m) {es : List Entry} :
    recoverable env dir = some es ↔ (∀ id ∈ m.wals, (walEntries env dir id).isSome) ∧
      (∀ id ∈ m.sstableIds, (tableEntries env.crates dir id).isSome) ∧
      es = (m.wals.flatMap fun id => (walEntries env dir id).getD []) ++
        m.sstableIds.flatMap fun id => (tableEntries env.crates dir id).getD [] := by
  have hids : (reopened m).sstableIds = m.sstableIds := rfl
  have hwals : (reopened m).wals = m.wals := rfl
  unfold recoverable
  rw [h]
  simp only [Option.bind_eq_bind, Option.bind_some, Except.toOption, hids, hwals]
  simp only [Option.bind_eq_some_iff, mapM_eq_some]
  constructor
  · rintro ⟨_, ⟨hlogs, rfl⟩, _, ⟨hall, rfl⟩, hes⟩
    cases hes
    exact ⟨hlogs, hall, by rw [List.flatMap_def, List.flatMap_def]⟩
  · rintro ⟨hlogs, hall, rfl⟩
    exact ⟨_, ⟨hlogs, rfl⟩, _, ⟨hall, rfl⟩, by rw [List.flatMap_def, List.flatMap_def]; rfl⟩

theorem walEntries_congr {id : UInt32} (h : dir'.read (.wal id) = dir.read (.wal id)) :
    walEntries env dir' id = walEntries env dir id := by
  unfold walEntries
  rw [h]

/-- A log that was written without an interruption. -/
theorem walEntries_of_read {id : UInt32} {es : List Entry} (hfits : ∀ e ∈ es, e.Fits)
    (hread : dir.read (.wal id) =
      some (Wal.magicBytes ++ Wal.encodeGroup env.crates.crc32 es)) :
    walEntries env dir id = some (Memtable.new.putBatch es).store.entries := by
  obtain ⟨es', hes', hreplay⟩ := @Wal.replay_truncated env.crates.crc32 es [] [] hfits (by simp)
    (List.prefix_refl _)
  rw [List.prefix_nil.mp hes', List.append_nil, List.append_nil] at hreplay
  unfold walEntries
  simp only [Option.bind_eq_bind, hread, Option.bind_some, hreplay, Except.toOption]
  rfl

/-- The files that a crash needs: the manifests, and what the manifest lists. -/
def Kept (m : Manifest) (n : FileName) : Prop := IsManifest n ∨ Listed m n

theorem kept_wal {m : Manifest} {id : UInt32} : Kept m (.wal id) ↔ id ∈ m.wals := by
  constructor
  · rintro (⟨v, hv⟩ | ⟨id', hid, hname⟩ | ⟨id', _, hname⟩)
    · cases hv
    · rw [FileName.wal.inj hname]
      exact hid
    · cases hname
  · exact fun hid => .inr (.inl ⟨id, hid, rfl⟩)

theorem not_kept_mfTmp (m : Manifest) (v : UInt32) : ¬ Kept m (.mfTmp v) := by
  rintro (⟨v', hv⟩ | ⟨id, _, hid⟩ | ⟨id, _, hid⟩)
  · cases hv
  · cases hid
  · cases hid

/-- A directory in which the manifest is on the disk with what it lists. -/
structure SameFiles (env : Env) (m : Manifest) (dir dir' : Dir) : Prop where
  onDisk : OnDisk env dir' m
  wals : ∀ id ∈ m.wals, dir'.read (.wal id) = dir.read (.wal id)
  tables : ∀ id ∈ m.sstableIds, dir'.read (.sst id) = dir.read (.sst id)

theorem OnDisk.same_of_agree (h : OnDisk env dir m) (hagree : Agree (Kept m) dir dir') :
    SameFiles env m dir dir' where
  onDisk := h.of_agree (hagree.mono fun _ hn => .inl hn)
  wals id hid := hagree.read (.inr (.inl ⟨id, hid, rfl⟩))
  tables id hid := hagree.read (.inr (.inr ⟨id, hid, rfl⟩))

theorem OnDisk.same_of_pruned (h : OnDisk env dir m) (hpruned : Pruned (Needed dir m) dir dir') :
    SameFiles env m dir dir' where
  onDisk := h.of_pruned hpruned
  wals id hid := hpruned.agree.read (.inr (.inl ⟨id, hid, rfl⟩))
  tables id hid := hpruned.agree.read (.inr (.inr ⟨id, hid, rfl⟩))

/-- The same files hold the same entries. -/
theorem SameFiles.listedEntries (hsame : SameFiles env m dir dir') (h : OnDisk env dir m) :
    listedEntries env dir' = listedEntries env dir := by
  have htables : ∀ id ∈ m.sstableIds,
      tableEntries env.crates dir' id = tableEntries env.crates dir id :=
    fun id hid => tableEntries_congr (hsame.tables id hid)
  have hstored := List.flatMap_congr fun id hid => congrArg (Option.getD · []) (htables id hid)
  refine Option.ext fun es => ?_
  rw [listedEntries_eq_some hsame.onDisk, listedEntries_eq_some h, hstored]
  exact and_congr (forall₂_congr fun id hid => by rw [htables id hid]) Iff.rfl

theorem SameFiles.recoverable (hsame : SameFiles env m dir dir') (h : OnDisk env dir m) :
    recoverable env dir' = recoverable env dir := by
  have htables : ∀ id ∈ m.sstableIds,
      tableEntries env.crates dir' id = tableEntries env.crates dir id :=
    fun id hid => tableEntries_congr (hsame.tables id hid)
  have hwals : ∀ id ∈ m.wals, walEntries env dir' id = walEntries env dir id :=
    fun id hid => walEntries_congr (hsame.wals id hid)
  have hlogged := List.flatMap_congr fun id hid => congrArg (Option.getD · []) (hwals id hid)
  have hstored := List.flatMap_congr fun id hid => congrArg (Option.getD · []) (htables id hid)
  refine Option.ext fun es => ?_
  rw [recoverable_eq_some hsame.onDisk, recoverable_eq_some h, hlogged, hstored]
  exact and_congr (forall₂_congr fun id hid => by rw [hwals id hid])
    (and_congr (forall₂_congr fun id hid => by rw [htables id hid]) Iff.rfl)

/-! ## Publishing -/

/-- A directory with the manifest and its files is another one except for temporary files. -/
theorem OnDisk.same_of_tmp (h : OnDisk env dir m)
    (hagree : Agree (fun n => ∀ v, n ≠ .mfTmp v) dir dir') : SameFiles env m dir dir' :=
  h.same_of_agree (hagree.mono fun _ hkept v heq => not_kept_mfTmp m v (heq ▸ hkept))

/-- The directories on the way of a publication: before the rename only a temporary file has
changed, afterwards the new manifest is on the disk with its files. -/
theorem Published.phases {f : Manifest → Except DbError Manifest} {g : Version → Version}
    {w₁ : World} (h : Published env f g w₁ w) (hdisk : OnDisk env w₁.dir w₁.manifest)
    (hf : KeepsCounters f) (hversion : w₁.manifest.version.toNat + 1 < 2 ^ 32)
    (hfits : ∀ c, f w₁.manifest = .ok c → c.Fits) :
    Throughout (fun d => Agree (fun n => ∀ v, n ≠ .mfTmp v) w₁.dir d ∨
      SameFiles env w.manifest w₁.dir d) w₁ w ∧ OnDisk env w.dir w.manifest := by
  have hagree := h.agree
  obtain ⟨c, w₂, hc, hcommitted, hswept⟩ := h
  have hsameVersion := hf.version hc
  have hdisk₂ : OnDisk env w₂.dir w₂.manifest :=
    hcommitted.onDisk (by rw [hsameVersion]; exact hdisk.newest)
      (by rw [hsameVersion]; exact hversion)
      (hfits c hc)
  obtain ⟨w₃, hquiet, _, hrename, htrace⟩ := hcommitted.rename
  have hlisted : ∀ {m n}, Listed m n → n ≠ .mfTmp (c.version + 1) ∧ n ≠ .mf (c.version + 1) := by
    rintro m n (⟨id, _, rfl⟩ | ⟨id, _, rfl⟩) <;> simp
  -- the files that the new manifest lists are not touched by the commit
  have hfiles : Agree (Listed w₂.manifest) w₁.dir w₂.dir := by
    refine (hquiet.dir.mono fun n hn => (hlisted hn).1).trans (agree_rename ?_ ?_ hrename)
    · exact fun hn => (hlisted hn).1 rfl
    · exact fun hn => (hlisted hn).2 rfl
  have hnew : ∀ {d}, SameFiles env w₂.manifest w₂.dir d → SameFiles env w₂.manifest w₁.dir d :=
    fun hsame => ⟨hsame.onDisk,
      fun id hid => (hsame.wals id hid).trans (hfiles.read (.inl ⟨id, hid, rfl⟩)),
      fun id hid => (hsame.tables id hid).trans (hfiles.read (.inr ⟨id, hid, rfl⟩))⟩
  have hmanifest : w.manifest = w₂.manifest := hswept.manifest
  let P : Dir → Prop := fun d => Agree (fun n => ∀ v, n ≠ .mfTmp v) w₁.dir d ∨
    SameFiles env w.manifest w₁.dir d
  have hbefore : Throughout P w₁ w₃ :=
    hquiet.throughout.mono fun d hd => .inl (hd.mono fun _ hn => hn _)
  have hrenamed : Throughout P w₃ w₂ := by
    have hsame : SameFiles env w.manifest w₁.dir w₂.dir := by
      rw [hmanifest]
      exact hnew (hdisk₂.same_of_agree (Agree.refl _ _))
    exact ⟨⟨[w₂.dir], htrace, fun d hd => .inr (List.mem_singleton.mp hd ▸ hsame)⟩, .inr hsame⟩
  have hafter : Throughout P { w₂ with current := g w₂.current } w := by
    refine hswept.throughout.mono fun d hd => .inr ?_
    rw [hmanifest]
    exact hnew (hdisk₂.same_of_pruned hd)
  refine ⟨(hbefore.trans hrenamed).trans hafter, ?_⟩
  rw [hmanifest]
  exact hdisk₂.of_pruned hswept.dir

end EasyLsm.Db
