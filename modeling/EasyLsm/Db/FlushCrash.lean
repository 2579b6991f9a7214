import Mathlib.Data.List.Basic
import EasyLsm.Db.Flushing
import EasyLsm.Db.Levels
import EasyLsm.Db.OnDisk

/-!
# A flush loses nothing

`flush_keeps_entries`: whatever a crash leaves of a flush, the logs and the tables that the newest
manifest lists hold the entries that they held before; and when the flush returns, the version holds
the same entries, those of every memtable in a new table of level 0.
-/

namespace EasyLsm.Db

open Lib Lib.FileStore

variable {env : Env} {keep : FileName → Prop} {w₀ w w' : World} {dir dir' : Dir}

/-- The entries that are read through a handle. -/
def handleEntries (c : Crates) (dir : Dir) (h : TableHandle) : Option (List Entry) :=
  ({ h.sst with file := dir.content h.inode }.iter c).toOption

/-- The entries of the memtables and of the tables of the version. -/
def versionEntries (c : Crates) (w : World) : Option (List Entry) := do
  let stored ← w.current.sstables.flatten.mapM (handleEntries c w.dir)
  return w.current.mutableMemtable.store.entries ++
    (w.current.frozenMemtables.flatMap Memtable.iter ++ stored.flatten)

theorem versionEntries_eq_some {c : Crates} {es : List Entry} :
    versionEntries c w = some es ↔
      (∀ h ∈ w.current.sstables.flatten, (handleEntries c w.dir h).isSome) ∧
      es = w.current.mutableMemtable.store.entries ++
        (w.current.frozenMemtables.flatMap Memtable.iter ++
          w.current.sstables.flatten.flatMap fun h => (handleEntries c w.dir h).getD []) := by
  unfold versionEntries
  simp only [Option.bind_eq_bind, Option.bind_eq_some_iff, mapM_eq_some]
  constructor
  · rintro ⟨_, ⟨hall, rfl⟩, hes⟩
    cases hes
    exact ⟨hall, by rw [← List.flatMap_def]⟩
  · rintro ⟨hall, rfl⟩
    exact ⟨_, ⟨hall, rfl⟩, by rw [← List.flatMap_def]; rfl⟩

/-- A state in which the frozen memtables can be flushed: the manifest is the one on the disk, the
tables of the version are files that it lists, new table ids are larger than the listed ones, and
every frozen memtable has entries, which are those of the log at its position. -/
structure FlushReady (env : Env) (w : World) : Prop where
  onDisk : OnDisk env w.dir w.manifest
  handles : ∀ h ∈ w.current.sstables.flatten, ∃ id ∈ w.manifest.sstableIds,
    (.sst id, h.inode) ∈ w.dir.names
  ids : ∀ id ∈ w.manifest.sstableIds, id < w.manifest.nextSstableId
  ne_nil : ∀ memtable ∈ w.current.frozenMemtables, memtable.iter ≠ []
  logs : ∀ (i : Nat) memtable, w.current.frozenMemtables[i]? = some memtable →
    ∃ id, w.manifest.wals[i]? = some id ∧ walEntries env w.dir id = some memtable.iter

/-- Nothing that a flush writes is too large for its field: the table ids, the version of the
manifest, the lengths in the tables and in the manifest. -/
structure FlushRoom (env : Env) (w : World) : Prop where
  ids : w.manifest.nextSstableId.toNat + w.current.frozenMemtables.length ≤ 2 ^ 32
  version : w.manifest.version.toNat + 1 < 2 ^ 32
  tables : ∀ memtable ∈ w.current.frozenMemtables, TableFits env.crates memtable.iter
  manifest : ∀ c, flushMutator ((flushTables env.crates w).map Table.meta')
    (w.manifest.wals.take w.current.frozenMemtables.length) w.manifest = .ok c → c.Fits

theorem FlushRoom.fits (h : FlushRoom env w) : FlushFits env.crates w :=
  ⟨h.tables, Nat.le_trans (Nat.le_add_left _ _) h.ids⟩

/-- The files that are listed are not those of the new tables. -/
theorem kept_other {n : FileName} (hready : FlushReady env w) (hroom : FlushRoom env w)
    (hn : Kept w.manifest n) : OtherThan (flushTables env.crates w) n ∧ ∀ v, n ≠ .mfTmp v := by
  have hid : ∀ id ∈ w.manifest.sstableIds, ∀ t ∈ flushTables env.crates w,
      id ≠ t.meta'.fileId := by
    rintro id hid t ht rfl
    obtain ⟨i, es, hi, rfl⟩ := mem_writtenTables.mp ht
    have hlt := (List.getElem?_eq_some_iff.mp hi).1
    rw [List.length_map] at hlt
    have hroom := hroom.ids
    have hless := UInt32.lt_iff_toNat_lt.mp (hready.ids _ hid)
    rw [fileId_writtenTable, toNat_add_ofNat (by omega)] at hless
    omega
  rcases hn with ⟨v, rfl⟩ | ⟨id, _, rfl⟩ | ⟨id, hlisted, rfl⟩
  · exact ⟨fun t _ => by simp, by simp⟩
  · exact ⟨fun t _ => by simp, by simp⟩
  · exact ⟨fun t ht heq => hid id hlisted t ht (FileName.sst.inj heq), by simp⟩

/-- A crash leaves the entries of a list. -/
def Recovers (env : Env) (es : List Entry) (dir : Dir) : Prop :=
  ∃ es', recoverable env dir = some es' ∧ ∀ e, e ∈ es' ↔ e ∈ es

/-- What has happened when a flush has published its tables. -/
structure FlushDone (env : Env) (w : World) (w₁ : World) (hs : List TableHandle) (w' : World) :
    Prop where
  built : Built env (OtherThan (flushTables env.crates w)) w (flushTables env.crates w) hs w₁
  published : Published env (flushMutator ((flushTables env.crates w).map Table.meta')
    (w.manifest.wals.take w.current.frozenMemtables.length))
    (flushVersion w.current.frozenMemtables.length hs) w₁ w'
  reserved : w₁.manifest = { w.manifest with nextSstableId := w.manifest.nextSstableId + 1 }
  lists : fileLists w'.manifest =
    Levels.push ((flushTables env.crates w).map Table.meta') (fileLists w.manifest)
  wals : w'.manifest.wals = w.manifest.wals.drop w.current.frozenMemtables.length

/-- The lists of the manifest after a flush. -/
theorem flushDone_of_steps {w₁ : World} {hs : List TableHandle}
    (hwals : w.current.frozenMemtables.length ≤ w.manifest.wals.length)
    (hne : w.current.frozenMemtables ≠ [])
    (hbuilt : Built env (OtherThan (flushTables env.crates w)) w (flushTables env.crates w) hs w₁)
    (hmanifest : w₁.manifest =
      { w.manifest with nextSstableId := w.manifest.nextSstableId + 1 })
    (hpublished : Published env (flushMutator ((flushTables env.crates w).map Table.meta')
      (w.manifest.wals.take w.current.frozenMemtables.length))
      (flushVersion w.current.frozenMemtables.length hs) w₁ w') : FlushDone env w w₁ hs w' := by
  obtain ⟨c, hc, hw'⟩ := hpublished.manifest
  have hmetas : (flushTables env.crates w).map Table.meta' ≠ [] := by
    rw [ne_eq, ← List.length_eq_zero_iff, List.length_map, length_flushTables,
      List.length_eq_zero_iff]
    exact hne
  obtain ⟨hlists, hwals'⟩ := flushMutator_eq hmetas hc
  have hlen : (w.manifest.wals.take w.current.frozenMemtables.length).length =
      w.current.frozenMemtables.length := by
    rw [List.length_take]
    exact Nat.min_eq_left hwals
  refine ⟨hbuilt, hpublished, hmanifest, ?_, ?_⟩
  · rw [hw']
    exact hlists.trans (by rw [hmanifest]; rfl)
  · rw [hw']
    show c.wals = _
    rw [hwals', hmanifest, hlen]

theorem Flushed.done (h : Flushed env w w') (hne : w.current.frozenMemtables ≠ []) :
    ∃ w₁ hs, FlushDone env w w₁ hs w' := by
  obtain ⟨w₁, hs, hbuilt, hmanifest, hpublished⟩ := h.steps
  exact ⟨w₁, hs, flushDone_of_steps h.wals hne hbuilt hmanifest hpublished⟩

namespace FlushDone

variable {w₁ : World} {hs : List TableHandle}

/-- The listed tables: those of before and the new ones. -/
theorem mem_sstableIds (h : FlushDone env w w₁ hs w') {id : UInt32} :
    id ∈ w'.manifest.sstableIds ↔ id ∈ w.manifest.sstableIds ∨
      ∃ t ∈ flushTables env.crates w, t.meta'.fileId = id := by
  have hperm := (Levels.flatten_push ((flushTables env.crates w).map Table.meta')
    (fileLists w.manifest)).map FileMetadata.fileId
  rw [sstableIds_eq, h.lists, hperm.mem_iff, List.map_append, List.mem_append, ← sstableIds_eq,
    List.map_map]
  exact or_congr Iff.rfl List.mem_map

/-- Before the commit the files of before are there, and the new tables as well. -/
theorem tableEntries_old (h : FlushDone env w w₁ hs w') (hready : FlushReady env w)
    (hroom : FlushRoom env w) {id : UInt32} (hid : id ∈ w.manifest.sstableIds) :
    tableEntries env.crates w₁.dir id = tableEntries env.crates w.dir id :=
  tableEntries_congr (h.built.quiet.dir.read
    (kept_other hready hroom (.inr (.inr ⟨id, hid, rfl⟩))).1)

theorem tableEntries_new (h : FlushDone env w w₁ hs w') {t : Table}
    (ht : t ∈ flushTables env.crates w) :
    tableEntries env.crates w₁.dir t.meta'.fileId = some t.entries := h.built.stored t ht

theorem walEntries_old (h : FlushDone env w w₁ hs w') (id : UInt32) :
    walEntries env w₁.dir id = walEntries env w.dir id :=
  walEntries_congr (h.built.quiet.dir.read fun t _ => by simp)

/-- An entry of a new table is one of a flushed memtable, so of a dropped log. -/
theorem mem_new_iff (hready : FlushReady env w) {e : Entry} :
    (∃ t ∈ flushTables env.crates w, e ∈ t.entries) ↔
      ∃ id ∈ w.manifest.wals.take w.current.frozenMemtables.length,
        e ∈ (walEntries env w.dir id).getD [] := by
  constructor
  · rintro ⟨t, ht, he⟩
    obtain ⟨memtable, hmem, heq⟩ := mem_flushTables ht
    obtain ⟨i, hi⟩ := List.mem_iff_getElem?.mp hmem
    obtain ⟨id, hid, hentries⟩ := hready.logs i memtable hi
    refine ⟨id, List.mem_iff_getElem?.mpr ⟨i, ?_⟩, ?_⟩
    · rw [List.getElem?_take_of_lt (List.getElem?_eq_some_iff.mp hi).1, hid]
    · rw [hentries, Option.getD_some, ← heq]
      exact he
  · rintro ⟨id, hid, he⟩
    obtain ⟨i, hi⟩ := List.mem_iff_getElem?.mp hid
    have hlt : i < w.current.frozenMemtables.length := by
      have hlt := (List.getElem?_eq_some_iff.mp hi).1
      rw [List.length_take] at hlt
      omega
    obtain ⟨id', hid', hentries⟩ := hready.logs i _ (List.getElem?_eq_getElem hlt)
    rw [List.getElem?_take_of_lt hlt, hid'] at hi
    cases hi
    rw [hentries, Option.getD_some] at he
    have hmem : (w.current.frozenMemtables[i]).iter ∈
        (flushTables env.crates w).map Table.entries := by
      rw [entries_flushTables]
      exact List.mem_map_of_mem (List.getElem_mem hlt)
    obtain ⟨t, ht, heq⟩ := List.mem_map.mp hmem
    exact ⟨t, ht, heq ▸ he⟩

/-- With the new manifest and its files on the disk, a crash leaves the entries of before. -/
theorem recovers (h : FlushDone env w w₁ hs w') (hready : FlushReady env w)
    (hroom : FlushRoom env w) {es : List Entry} (hes : recoverable env w.dir = some es)
    {d : Dir} (hd : SameFiles env w'.manifest w₁.dir d) :
    Recovers env es d := by
  obtain ⟨hlogs, htables, rfl⟩ := (recoverable_eq_some hready.onDisk).mp hes
  have hwals : ∀ id ∈ w'.manifest.wals, walEntries env d id = walEntries env w.dir id :=
    fun id hid => (walEntries_congr (hd.wals id hid)).trans (h.walEntries_old id)
  have hstored : ∀ id ∈ w'.manifest.sstableIds,
      tableEntries env.crates d id = tableEntries env.crates w₁.dir id :=
    fun id hid => tableEntries_congr (hd.tables id hid)
  have hdrop : ∀ id ∈ w'.manifest.wals, id ∈ w.manifest.wals := by
    rw [h.wals]
    exact fun id hid => List.mem_of_mem_drop hid
  refine ⟨_, (recoverable_eq_some hd.onDisk).mpr ⟨fun id hid => ?_, fun id hid => ?_, rfl⟩,
    fun e => ?_⟩
  · rw [hwals id hid]
    exact hlogs id (hdrop id hid)
  · rw [hstored id hid]
    rcases h.mem_sstableIds.mp hid with hold | ⟨t, ht, rfl⟩
    · rw [h.tableEntries_old hready hroom hold]
      exact htables id hold
    · rw [h.tableEntries_new ht]
      rfl
  · have hlogged : (∃ id ∈ w'.manifest.wals, e ∈ (walEntries env d id).getD []) ↔
        ∃ id ∈ w.manifest.wals.drop w.current.frozenMemtables.length,
          e ∈ (walEntries env w.dir id).getD [] := by
      rw [← h.wals]
      exact exists_congr fun id => and_congr_right fun hid => by rw [hwals id hid]
    have hlisted : (∃ id ∈ w'.manifest.sstableIds, e ∈ (tableEntries env.crates d id).getD []) ↔
        (∃ id ∈ w.manifest.sstableIds, e ∈ (tableEntries env.crates w.dir id).getD []) ∨
          ∃ t ∈ flushTables env.crates w, e ∈ t.entries := by
      constructor
      · rintro ⟨id, hid, he⟩
        rw [hstored id hid] at he
        rcases h.mem_sstableIds.mp hid with hold | ⟨t, ht, rfl⟩
        · rw [h.tableEntries_old hready hroom hold] at he
          exact .inl ⟨id, hold, he⟩
        · rw [h.tableEntries_new ht] at he
          exact .inr ⟨t, ht, he⟩
      · rintro (⟨id, hold, he⟩ | ⟨t, ht, he⟩)
        · have hid := h.mem_sstableIds.mpr (.inl hold)
          refine ⟨id, hid, ?_⟩
          rwa [hstored id hid, h.tableEntries_old hready hroom hold]
        · have hid := h.mem_sstableIds.mpr (.inr ⟨t, ht, rfl⟩)
          refine ⟨_, hid, ?_⟩
          rwa [hstored _ hid, h.tableEntries_new ht]
    have hsplit : (∃ id ∈ w.manifest.wals, e ∈ (walEntries env w.dir id).getD []) ↔
        (∃ id ∈ w.manifest.wals.take w.current.frozenMemtables.length,
          e ∈ (walEntries env w.dir id).getD []) ∨
        ∃ id ∈ w.manifest.wals.drop w.current.frozenMemtables.length,
          e ∈ (walEntries env w.dir id).getD [] := by
      conv_lhs => rw [← List.take_append_drop w.current.frozenMemtables.length w.manifest.wals]
      simp only [List.mem_append, or_and_right, exists_or]
    rw [List.mem_append, List.mem_append, List.mem_flatMap, List.mem_flatMap, List.mem_flatMap,
      List.mem_flatMap, hlogged, hlisted, mem_new_iff hready, hsplit]
    constructor
    · rintro (hd | ht | hn)
      exacts [.inl (.inr hd), .inr ht, .inl (.inl hn)]
    · rintro ((hn | hd) | ht)
      exacts [.inr (.inr hn), .inl hd, .inr (.inl ht)]

/-- The tables of the version are still read as before. -/
theorem handleEntries_old (h : FlushDone env w w₁ hs w') (hready : FlushReady env w)
    (hroom : FlushRoom env w) {handle : TableHandle}
    (hmem : handle ∈ w.current.sstables.flatten) :
    handleEntries env.crates w'.dir handle = handleEntries env.crates w.dir handle := by
  obtain ⟨id, hid, hname⟩ := hready.handles handle hmem
  have hother := (kept_other hready hroom (.inr (.inr ⟨id, hid, rfl⟩))).1
  have hname₁ := (h.built.quiet.dir.names hother _).mpr hname
  have hlisted : Listed w'.manifest (.sst id) :=
    .inr ⟨id, h.mem_sstableIds.mpr (.inl hid), rfl⟩
  unfold handleEntries
  rw [h.published.agree.content hlisted hname₁, h.built.quiet.dir.content hother hname]

/-- The file of a new table is not touched by the commit and the collection. -/
theorem read_new (h : FlushDone env w w₁ hs w') {t : Table}
    (ht : t ∈ flushTables env.crates w) :
    w'.dir.read (.sst t.meta'.fileId) = w₁.dir.read (.sst t.meta'.fileId) :=
  h.published.agree.read (.inr ⟨_, h.mem_sstableIds.mpr (.inr ⟨t, ht, rfl⟩), rfl⟩)

/-- The new tables are read through their handles. -/
theorem handleEntries_new (h : FlushDone env w w₁ hs w') {t : Table} {handle : TableHandle}
    (ht : t ∈ flushTables env.crates w) (hopened : Opened env.crates w₁.dir t handle) :
    handleEntries env.crates w'.dir handle = some t.entries := by
  obtain ⟨hname, hnew, hiter⟩ := hopened
  have hlisted : Listed w'.manifest (.sst t.meta'.fileId) :=
    .inr ⟨_, h.mem_sstableIds.mpr (.inr ⟨t, ht, rfl⟩), rfl⟩
  have hfile : { handle.sst with file := w₁.dir.content handle.inode } = handle.sst := by
    rw [← (new_eq_ok hnew).2]
  unfold handleEntries
  rw [h.published.agree.content hlisted hname, hfile, hiter]
  rfl

/-- The entries of the new tables are those of the flushed memtables. -/
theorem flatMap_handleEntries (h : FlushDone env w w₁ hs w') :
    (∀ handle ∈ hs, (handleEntries env.crates w'.dir handle).isSome) ∧
      (hs.flatMap fun handle => (handleEntries env.crates w'.dir handle).getD []) =
        w.current.frozenMemtables.flatMap Memtable.iter := by
  have hread : ∀ {ts : List Table} {hs}, (∀ t ∈ ts, t ∈ flushTables env.crates w) →
      List.Forall₂ (Opened env.crates w₁.dir) ts hs →
      (∀ handle ∈ hs, (handleEntries env.crates w'.dir handle).isSome) ∧
        (hs.flatMap fun handle => (handleEntries env.crates w'.dir handle).getD []) =
          (ts.map Table.entries).flatten := by
    intro ts hs hts hopened
    induction hopened with
    | nil => exact ⟨by simp, rfl⟩
    | cons hfirst _ ih =>
        have hentries := h.handleEntries_new (hts _ List.mem_cons_self) hfirst
        obtain ⟨hall, heq⟩ := ih fun t ht => hts t (List.mem_cons_of_mem _ ht)
        rw [List.forall_mem_cons, List.flatMap_cons, heq, hentries]
        exact ⟨⟨rfl, hall⟩, rfl⟩
  obtain ⟨hall, heq⟩ := hread (fun _ h => h) h.built.opened
  rw [entries_flushTables, ← List.flatMap_def] at heq
  exact ⟨hall, heq⟩

/-- The version holds the same entries, in another order. -/
theorem versionEntries_perm (h : FlushDone env w w₁ hs w') (hready : FlushReady env w)
    (hroom : FlushRoom env w) {vs : List Entry} (hvs : versionEntries env.crates w = some vs) :
    ∃ vs', versionEntries env.crates w' = some vs' ∧ vs'.Perm vs := by
  obtain ⟨hall, rfl⟩ := versionEntries_eq_some.mp hvs
  obtain ⟨hallNew, hnew⟩ := h.flatMap_handleEntries
  have hcurrent : w'.current = flushVersion w.current.frozenMemtables.length hs w.current :=
    h.published.current.trans (by rw [h.built.quiet.current])
  have hflat : w'.current.sstables.flatten.Perm (w.current.sstables.flatten ++ hs) := by
    rw [hcurrent, sstables_flushVersion]
    exact Levels.flatten_push hs _
  have hfrozen : w'.current.frozenMemtables = [] := by
    rw [hcurrent]
    exact List.drop_length
  have hmutable : w'.current.mutableMemtable = w.current.mutableMemtable := by rw [hcurrent]; rfl
  refine ⟨_, versionEntries_eq_some.mpr ⟨fun handle hmem => ?_, rfl⟩, ?_⟩
  · rcases List.mem_append.mp (hflat.mem_iff.mp hmem) with hold | hmem
    · rw [h.handleEntries_old hready hroom hold]
      exact hall handle hold
    · exact hallNew handle hmem
  · rw [hmutable, hfrozen]
    refine List.Perm.append_left _ ?_
    rw [List.flatMap_nil, List.nil_append]
    refine (hflat.flatMap_right _).trans ?_
    rw [List.flatMap_append, hnew,
      List.flatMap_congr fun handle hmem => by rw [h.handleEntries_old hready hroom hmem]]
    exact List.perm_append_comm

end FlushDone

/-- The counter of table ids does not matter for the closure of a flush. -/
theorem flushMutator_counter (metas : List FileMetadata) (wals : List UInt32) (m : Manifest)
    (id : UInt32) : flushMutator metas wals { m with nextSstableId := id } =
      (flushMutator metas wals m).map fun c => { c with nextSstableId := id } := by
  have hfold : metas.foldl pushL0 { m with nextSstableId := id } =
      { metas.foldl pushL0 m with nextSstableId := id } := by
    induction metas generalizing m with
    | nil => rfl
    | cons f metas ih => exact ih (pushL0 m f)
  unfold flushMutator
  rw [hfold]
  simp only
  split <;> rfl

/-- The commit of a flush, when the new manifest can be represented. -/
theorem FlushDone.publication {w₁ : World} {hs : List TableHandle}
    (h : FlushDone env w w₁ hs w') (hdisk : OnDisk env w.dir w.manifest)
    (hversion : w.manifest.version.toNat + 1 < 2 ^ 32)
    (hfits : ∀ c, flushMutator ((flushTables env.crates w).map Table.meta')
      (w.manifest.wals.take w.current.frozenMemtables.length) w.manifest = .ok c → c.Fits) :
    OnDisk env w₁.dir w₁.manifest ∧
    Throughout (fun d => Agree (fun n => ∀ v, n ≠ .mfTmp v) w₁.dir d ∨
      SameFiles env w'.manifest w₁.dir d) w₁ w' ∧ OnDisk env w'.dir w'.manifest := by
  -- the id that was reserved is not on the disk
  have hdisk₁ : OnDisk env w₁.dir w₁.manifest := by
    have hsame := hdisk.of_agree (h.built.quiet.dir.mono (by rintro n ⟨v, rfl⟩ t _; simp))
    rw [h.reserved]
    exact hsame
  have hversion₁ : w₁.manifest.version.toNat + 1 < 2 ^ 32 := by
    rw [h.reserved]
    exact hversion
  refine ⟨hdisk₁, h.published.phases hdisk₁ (flushMutator_keepsCounters _ _) hversion₁
    fun c hc => ?_⟩
  rw [h.reserved, flushMutator_counter] at hc
  cases hrun : flushMutator ((flushTables env.crates w).map Table.meta')
    (w.manifest.wals.take w.current.frozenMemtables.length) w.manifest with
  | error e =>
      rw [hrun] at hc
      cases hc
  | ok c' =>
      rw [hrun] at hc
      cases hc
      exact hfits c' hrun

/-- On the way of a flush that succeeds, a crash leaves the entries of before. -/
theorem FlushDone.throughout {w₁ : World} {hs : List TableHandle} (h : FlushDone env w w₁ hs w')
    (hready : FlushReady env w) (hroom : FlushRoom env w) {es : List Entry}
    (hes : recoverable env w.dir = some es) : Throughout (Recovers env es) w w' := by
  have hsame : ∀ {d}, Agree (OtherThan (flushTables env.crates w)) w.dir d →
      recoverable env d = some es := by
    intro d hd
    rw [(hready.onDisk.same_of_agree
      (hd.mono fun n hn => (kept_other hready hroom hn).1)).recoverable
      hready.onDisk, hes]
  obtain ⟨hdisk, hcommit, _⟩ := h.publication hready.onDisk hroom.version hroom.manifest
  have hbuilding : Throughout (Recovers env es) w w₁ :=
    h.built.quiet.throughout.mono fun d hd => ⟨es, hsame hd, fun _ => Iff.rfl⟩
  refine hbuilding.trans (hcommit.mono fun d hd => ?_)
  rcases hd with hold | hnew
  · exact ⟨es, ((hdisk.same_of_tmp hold).recoverable hdisk).trans (hsame h.built.quiet.dir),
      fun _ => Iff.rfl⟩
  · exact h.recovers hready hroom hes hnew

/-- Every directory on the way of a flush, whether it succeeds or not, holds the entries that can
be recovered from the one before. When it succeeds no memtable is frozen any more, the memtables and
the tables of the version hold the same entries as before, and every flushed memtable has become a
table at the end of level 0. -/
theorem flush_keeps_entries (env : Env) (w w' : World) (r : Except DbError Unit)
    (hready : FlushReady env w) (hroom : FlushRoom env w) (hrun : flushMemtables env w = (r, w'))
    (es vs : List Entry) (hes : recoverable env w.dir = some es)
    (hvs : versionEntries env.crates w = some vs) :
    Throughout (Recovers env es) w w' ∧
    (r = .ok () → w'.current.frozenMemtables = [] ∧
      (∃ vs', versionEntries env.crates w' = some vs' ∧ vs'.Perm vs) ∧
      ∃ ts : List Table, ts.map Table.entries = w.current.frozenMemtables.map Memtable.iter ∧
        (∀ t ∈ ts, Stored env.crates w'.dir t) ∧
        ∀ i, levelFiles w'.manifest i = levelFiles w.manifest i ++
          if i = 0 then ts.map Table.meta' else []) := by
  have hspec := flushMemtables_spec hroom.fits
  cases r with
  | error e =>
      obtain ⟨hquiet, _⟩ := hspec.error rfl hrun
      refine ⟨hquiet.throughout.mono fun d hd => ⟨es, ?_, fun _ => Iff.rfl⟩, by simp⟩
      rw [(hready.onDisk.same_of_agree (hd.mono fun n hn => kept_other hready hroom hn)).recoverable
        hready.onDisk, hes]
  | ok u =>
      have hflushed := hspec.ok rfl hrun
      by_cases hne : w.current.frozenMemtables = []
      · rw [if_pos hne] at hflushed
        subst hflushed
        refine ⟨⟨⟨[], (List.append_nil _).symm, by simp⟩, es, hes, fun _ => Iff.rfl⟩, fun _ =>
          ⟨hne, ⟨vs, hvs, List.Perm.refl _⟩, [], by rw [hne]; rfl, by simp, fun i => by simp⟩⟩
      · rw [if_neg hne] at hflushed
        obtain ⟨w₁, hs, hdone⟩ := hflushed.done hne
        refine ⟨hdone.throughout hready hroom hes, fun _ => ⟨?_,
          hdone.versionEntries_perm hready hroom hvs, flushTables env.crates w,
          entries_flushTables _ _, fun t ht => ?_, fun i => ?_⟩⟩
        · rw [hdone.published.current, hdone.built.quiet.current]
          exact List.drop_length
        · exact (tableEntries_congr (hdone.read_new ht)).trans (hdone.tableEntries_new ht)
        · rw [levelFiles, levelFiles, levelFiles_eq, levelFiles_eq, hdone.lists, Levels.get_push]
          split
          · rename_i hzero
            rw [hzero]
          · rw [List.append_nil]

/-! ## Table ids -/

/-- The manifest of a database with three logs, a table with the id 0 and a next table id. -/
def threeLogs (nextSstableId : UInt32) : Manifest where
  wals := [0, 1, 2]
  levels := [⟨[⟨0, 0, Key.new [97] 1, Key.new [97] 1⟩]⟩]
  nextWalId := 3
  nextSstableId := nextSstableId
  version := 0

/-- The files of the database: the table has one entry, and so have the first two logs. -/
def threeLogsDir : Dir := ofFiles [
  (.mf 0, (threeLogs 1).encode crc32),
  (.wal 0, Wal.magicBytes ++ Wal.encodeGroup crc32 [(Key.new [98] 2, .bytes [])]),
  (.wal 1, Wal.magicBytes ++ Wal.encodeGroup crc32 [(Key.new [99] 3, .bytes [])]),
  (.wal 2, Wal.magicBytes ++ Wal.encodeGroup crc32 []),
  (.sst 0, (writeTable crates [(Key.new [97] 1, .bytes [])]).1)] (by decide)

/-- The version of the database: the first two logs are those of frozen memtables. -/
def twoFrozenVersion : Version where
  nextLsn := 1
  mutableMemtable := Memtable.new
  frozenMemtables := [
    (Memtable.new.putBatch [(Key.new [98] 2, .bytes [])]).freeze,
    (Memtable.new.putBatch [(Key.new [99] 3, .bytes [])]).freeze]
  mutableWal := ⟨2, 3, []⟩
  sstables := [[⟨openedTable crates 0 [(Key.new [97] 1, .bytes [])], 4⟩]]

/-- The state of the database. -/
def twoFrozen (nextSstableId : UInt32) : World where
  dir := threeLogsDir
  faults := []
  trace := []
  manifest := threeLogs nextSstableId
  current := twoFrozenVersion
  nextLsn := 4

theorem walEntries_threeLogs :
    walEntries defaultEnv threeLogsDir 0 = some [(Key.new [98] 2, .bytes [])] ∧
    walEntries defaultEnv threeLogsDir 1 = some [(Key.new [99] 3, .bytes [])] ∧
    walEntries defaultEnv threeLogsDir 2 = some [] :=
  ⟨@walEntries_of_read defaultEnv threeLogsDir 0 [(Key.new [98] 2, .bytes [])] (by decide) rfl,
    @walEntries_of_read defaultEnv threeLogsDir 1 [(Key.new [99] 3, .bytes [])] (by decide) rfl,
    @walEntries_of_read defaultEnv threeLogsDir 2 [] (by decide) rfl⟩

theorem tableEntries_threeLogs :
    tableEntries crates threeLogsDir 0 = some [(Key.new [97] 1, .bytes [])] :=
  @stored_writtenTable crates threeLogsDir 0 [(Key.new [97] 1, .bytes [])] (by decide)
    (by decide) rfl

theorem flushReady_twoFrozen {nextSstableId : UInt32} (h : 0 < nextSstableId) :
    FlushReady defaultEnv (twoFrozen nextSstableId) where
  onDisk := by
    have hnewest : Manifest.newestVersion threeLogsDir = some 0 := by decide
    exact onDisk_of_read (show (threeLogs 1).Fits by decide) hnewest rfl
  handles := by
    have hids : 0 ∈ (threeLogs 1).sstableIds := by decide
    have hname : (FileName.sst 0, 4) ∈ threeLogsDir.names := by decide
    intro handle hmem
    rw [List.mem_singleton.mp (show handle ∈ [_] from hmem)]
    exact ⟨0, hids, hname⟩
  ids := by
    intro id hid
    rw [List.mem_singleton.mp (show id ∈ [0] from hid)]
    exact h
  ne_nil := by
    show ∀ memtable ∈ twoFrozenVersion.frozenMemtables, memtable.iter ≠ []
    decide
  logs := by
    intro i memtable hi
    rcases i with _ | _ | i
    · cases hi
      exact ⟨0, rfl, walEntries_threeLogs.1⟩
    · cases hi
      exact ⟨1, rfl, walEntries_threeLogs.2.1⟩
    · cases hi

/-- The entries of all logs and tables. -/
theorem recoverable_twoFrozen : recoverable defaultEnv threeLogsDir =
    some [(Key.new [98] 2, .bytes []), (Key.new [99] 3, .bytes []),
      (Key.new [97] 1, .bytes [])] := by
  have hready := @flushReady_twoFrozen 1 (by decide)
  obtain ⟨hfirst, hsecond, hthird⟩ := walEntries_threeLogs
  refine (recoverable_eq_some hready.onDisk).mpr ⟨?_, ?_, ?_⟩
  · show ∀ id ∈ [0, 1, 2], (walEntries defaultEnv threeLogsDir id).isSome
    simp [hfirst, hsecond, hthird]
  · show ∀ id ∈ [0], (tableEntries crates threeLogsDir id).isSome
    simp [tableEntries_threeLogs]
  · show _ = ([0, 1, 2].flatMap fun id => (walEntries defaultEnv threeLogsDir id).getD []) ++
      [0].flatMap fun id => (tableEntries crates threeLogsDir id).getD []
    simp [hfirst, hsecond, hthird, tableEntries_threeLogs]

theorem versionEntries_twoFrozen : versionEntries crates (twoFrozen 1) =
    some [(Key.new [98] 2, .bytes []), (Key.new [99] 3, .bytes []),
      (Key.new [97] 1, .bytes [])] := by
  have hentries : handleEntries crates threeLogsDir
      ⟨openedTable crates 0 [(Key.new [97] 1, .bytes [])], 4⟩ =
        some [(Key.new [97] 1, .bytes [])] := by
    unfold handleEntries
    show ((openedTable crates 0 [(Key.new [97] 1, .bytes [])]).iter crates).toOption = _
    rw [iter_openedTable (by decide)]
    rfl
  refine versionEntries_eq_some.mpr ⟨?_, ?_⟩
  · intro handle hmem
    rw [List.mem_singleton.mp (show handle ∈ [_] from hmem)]
    exact Option.isSome_of_eq_some hentries
  · show _ = [] ++ ([(Key.new [98] 2, .bytes []), (Key.new [99] 3, .bytes [])] ++
      [_].flatMap fun handle => (handleEntries crates threeLogsDir handle).getD [])
    rw [List.flatMap_singleton, hentries]
    rfl

theorem flushRoom_twoFrozen : FlushRoom defaultEnv (twoFrozen 1) where
  ids := by decide
  version := by decide
  tables := by
    show ∀ memtable ∈ twoFrozenVersion.frozenMemtables, TableFits crates memtable.iter
    decide
  manifest := by
    intro c hc
    cases hc
    decide +kernel

theorem flush_keeps_entries_two_frozen :
    let w := twoFrozen 1
    let w' := (flushMemtables defaultEnv w).2
    let es := [(Key.new [98] 2, .bytes []), (Key.new [99] 3, .bytes []),
      (Key.new [97] 1, .bytes [])]
    Throughout (Recovers defaultEnv es) w w' ∧
    ((flushMemtables defaultEnv w).1 = .ok () → w'.current.frozenMemtables = [] ∧
      (∃ vs', versionEntries crates w' = some vs' ∧ vs'.Perm es) ∧
      ∃ ts : List Table, ts.map Table.entries = w.current.frozenMemtables.map Memtable.iter ∧
        (∀ t ∈ ts, Stored crates w'.dir t) ∧
        ∀ i, levelFiles w'.manifest i = levelFiles w.manifest i ++
          if i = 0 then ts.map Table.meta' else []) :=
  flush_keeps_entries defaultEnv (twoFrozen 1) (flushMemtables defaultEnv (twoFrozen 1)).2
    (flushMemtables defaultEnv (twoFrozen 1)).1 (flushReady_twoFrozen (by decide))
    flushRoom_twoFrozen Prod.mk.eta.symm _ _ recoverable_twoFrozen versionEntries_twoFrozen

/-- When the ids run over, the second table of a flush replaces the table with the id 0, and the
entry of that one is lost. -/
theorem flush_overwrites_table : ¬ ∀ (env : Env) (w w' : World) (r : Except DbError Unit),
    FlushReady env w → flushMemtables env w = (r, w') →
    ∀ es, recoverable env w.dir = some es → Throughout (Recovers env es) w w' := by
  intro hall
  let w := twoFrozen 0xffffffff
  have hready : FlushReady defaultEnv w := flushReady_twoFrozen (by decide)
  have hfits : FlushFits crates w := ⟨flushRoom_twoFrozen.tables, by decide⟩
  have hspec := @flushMemtables_spec defaultEnv w hfits
  rcases hrun : flushMemtables defaultEnv w with ⟨e | u, w'⟩
  · -- there is no fault, and every memtable has a log and an entry
    rcases (hspec.error rfl hrun).2 rfl with hshort | ⟨memtable, hmem, hnil⟩
    · exact absurd hshort (by decide)
    · exact hready.ne_nil memtable hmem hnil
  · have hflushed := hspec.ok rfl hrun
    rw [if_neg (by decide)] at hflushed
    obtain ⟨w₁, hs, hdone⟩ := hflushed.done (by decide)
    obtain ⟨_, es', hes', hmem⟩ := hall _ _ _ _ hready hrun _ recoverable_twoFrozen
    have hmutator : ∀ c, flushMutator ((flushTables crates w).map Table.meta')
        (w.manifest.wals.take w.current.frozenMemtables.length) w.manifest = .ok c → c.Fits := by
      intro c hc
      cases hc
      decide +kernel
    obtain ⟨_, _, hdisk⟩ := hdone.publication hready.onDisk (by decide) hmutator
    obtain ⟨_, _, rfl⟩ := (recoverable_eq_some hdisk).mp hes'
    have hlost := (hmem (Key.new [97] 1, .bytes [])).mpr (by decide)
    have htables : ∀ t ∈ flushTables crates w, (Key.new [97] 1, .bytes []) ∉ t.entries := by
      intro t ht hin
      obtain ⟨memtable, hfrozen, heq⟩ := mem_flushTables ht
      have hno : ∀ memtable ∈ twoFrozenVersion.frozenMemtables,
          (Key.new [97] 1, Value.bytes []) ∉ memtable.iter := by decide
      exact hno memtable hfrozen (heq ▸ hin)
    rcases List.mem_append.mp hlost with hlogged | hstored
    · obtain ⟨id, hid, hin⟩ := List.mem_flatMap.mp hlogged
      have hlisted : Listed w'.manifest (.wal id) := .inl ⟨id, hid, rfl⟩
      rw [hdone.wals] at hid
      obtain rfl := List.mem_singleton.mp (show id ∈ [2] from hid)
      rw [walEntries_congr (hdone.published.agree.read hlisted), hdone.walEntries_old 2] at hin
      have hempty : walEntries defaultEnv w.dir 2 = some [] := walEntries_threeLogs.2.2
      rw [hempty] at hin
      cases hin
    · obtain ⟨id, hid, hin⟩ := List.mem_flatMap.mp hstored
      -- the old table has the id of the second new one
      have hnew : ∃ t ∈ flushTables crates w, t.meta'.fileId = id := by
        rcases hdone.mem_sstableIds.mp hid with hold | hnew
        · obtain rfl := List.mem_singleton.mp (show id ∈ [0] from hold)
          refine ⟨writtenTable crates 0 [(Key.new [99] 3, .bytes [])], ?_, rfl⟩
          have hnext : (0 : UInt32) = 0xffffffff + UInt32.ofNat 1 := by decide
          exact mem_writtenTables.mpr ⟨1, [(Key.new [99] 3, .bytes [])], rfl,
            congrArg (fun id => writtenTable crates id [(Key.new [99] 3, .bytes [])]) hnext⟩
        · exact hnew
      obtain ⟨t, ht, rfl⟩ := hnew
      rw [tableEntries_congr (hdone.read_new ht), hdone.tableEntries_new ht] at hin
      exact htables t ht hin

end EasyLsm.Db
