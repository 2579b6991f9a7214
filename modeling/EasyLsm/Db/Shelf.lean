import Mathlib.Data.List.Basic
import EasyLsm.Db.CompactCrash
import EasyLsm.Db.FlushCrash
import EasyLsm.Db.Put

/-!
# The tables of an open database

An `OpenTable` is a table that was written with ordered entries and opened. While no table id is
given to two files, all tables of a database are of this kind, and those that the manifest lists are
those of the version (`Shelved`): a flush adds one for every frozen memtable to level 0, a
compaction replaces the selected ones by the pieces of their merge, and everything else leaves them
alone.
-/

namespace EasyLsm.Db

open Lib Lib.FileStore

/-- A table that was written and opened: the id of its file, its entries, and the inode that is
read. -/
structure OpenTable (c : Crates) where
  fileId : UInt32
  entries : List Entry
  inode : Nat
  ne_nil : entries ≠ []
  fits : TableFits c entries
  ordered : KeyOrdered entries

namespace OpenTable

variable {c : Crates} {dir dir' : Dir} {keep : FileName → Prop}

/-- The metadata that the manifest lists. -/
def meta' (t : OpenTable c) : FileMetadata := (writtenTable c t.fileId t.entries).meta'

/-- The open table of the version. -/
def handle (t : OpenTable c) : TableHandle := ⟨openedTable c t.fileId t.entries, t.inode⟩

/-- The file of the table holds what was written. -/
def Filed (t : OpenTable c) (dir : Dir) : Prop :=
  (.sst t.fileId, t.inode) ∈ dir.names ∧ dir.content t.inode = (writeTable c t.entries).1

@[simp] theorem fileId_meta (t : OpenTable c) : t.meta'.fileId = t.fileId := rfl

@[simp] theorem id_handle (t : OpenTable c) : t.handle.sst.id = t.fileId := rfl

theorem minKey_meta (t : OpenTable c) : t.meta'.minKey = (t.entries.head t.ne_nil).1 := by
  refine minKey_writtenTable ?_
  rw [firstKey, List.head?_eq_some_head t.ne_nil]
  rfl

theorem maxKey_meta (t : OpenTable c) : t.meta'.maxKey = (t.entries.getLast t.ne_nil).1 := by
  refine maxKey_writtenTable ?_
  rw [lastKey, List.getLast?_eq_some_getLast t.ne_nil]
  rfl

theorem minKey_handle (t : OpenTable c) : t.handle.sst.minKey = t.meta'.minKey :=
  (writeTable_eq t.entries).2.1.symm

/-- The smallest key is that of an entry. -/
theorem exists_minKey (t : OpenTable c) : ∃ e ∈ t.entries, e.1 = t.meta'.minKey :=
  ⟨_, List.head_mem t.ne_nil, t.minKey_meta.symm⟩

/-- The largest key is that of an entry. -/
theorem exists_maxKey (t : OpenTable c) : ∃ e ∈ t.entries, e.1 = t.meta'.maxKey :=
  ⟨_, List.getLast_mem t.ne_nil, t.maxKey_meta.symm⟩

/-- The keys of the entries are between the smallest and the largest one. -/
theorem key_bounds (t : OpenTable c) {e : Entry} (he : e ∈ t.entries) :
    t.meta'.minKey ≤ e.1 ∧ e.1 ≤ t.meta'.maxKey := by
  rw [minKey_meta, maxKey_meta]
  constructor
  · have hordered := t.ordered
    have hcons := List.cons_head_tail t.ne_nil
    rw [← hcons] at he hordered
    rcases List.mem_cons.mp he with rfl | he
    · exact le_refl _
    · exact (List.pairwise_cons.mp hordered).1 e he
  · have hordered := t.ordered
    have hconcat := List.dropLast_append_getLast t.ne_nil
    rw [← hconcat] at he hordered
    rcases List.mem_append.mp he with he | he
    · exact (List.pairwise_append.mp hordered).2.2 e he _ (List.mem_singleton_self _)
    · rw [List.mem_singleton.mp he]

theorem min_le_max (t : OpenTable c) : t.meta'.minKey ≤ t.meta'.maxKey := by
  obtain ⟨e, he, hmin⟩ := t.exists_minKey
  rw [← hmin]
  exact (t.key_bounds he).2

/-- The file is read back. -/
theorem Filed.read {t : OpenTable c} (h : t.Filed dir) :
    dir.read (.sst t.fileId) = some (writeTable c t.entries).1 := by
  rw [read_of_mem h.1, h.2]

theorem Filed.tableEntries {t : OpenTable c} (h : t.Filed dir) :
    tableEntries c dir t.fileId = some t.entries :=
  stored_writtenTable t.fits t.ne_nil h.read

/-- The file is not touched. -/
theorem Filed.agree {t : OpenTable c} (h : t.Filed dir) (hagree : Agree keep dir dir')
    (hkeep : keep (.sst t.fileId)) : t.Filed dir' :=
  ⟨(hagree.names hkeep _).mpr h.1, (hagree.content hkeep h.1).trans h.2⟩

/-- A search through the handle finds the first entry with the key, unless an I/O call fails. -/
theorem search {env : Env} {w₀ : World} (t : OpenTable env.crates) (h : t.Filed w₀.dir)
    (k : Bytes) :
    Prog.Spec (Reads w₀) (t.handle.search env k)
      (fun r w => r = firstValue k t.entries ∧ Reads w₀ w)
      (fun _ => Faulty w₀) := by
  have hfile : { t.handle.sst with file := w₀.dir.content t.handle.inode } =
      openedTable env.crates t.fileId t.entries := by
    show { openedTable env.crates t.fileId t.entries with file := w₀.dir.content t.inode } = _
    rw [h.2]
    rfl
  have hsearch := search_openedTable t.fits t.ordered t.fileId k
  refine Prog.Spec.bind nextFault_reads fun fault => ?_
  intro w hw
  obtain ⟨hfault, hreads⟩ := hw
  obtain ⟨_, rfl, _⟩ := id hreads
  cases fault with
  | none =>
      simp only [Prog.bind_apply, Prog.read, Prog.ofExcept, hfile, hsearch]
      exact ⟨trivial, hreads⟩
  | some f => exact ⟨hreads, hfault (Option.some_ne_none f)⟩

end OpenTable

/-! ## Written tables -/

/-- Tables that were written in order of their keys and opened. -/
theorem exists_openTables {c : Crates} {dir : Dir} {startSstId : UInt32}
    {pieces : List (List Entry)} {hs : List TableHandle}
    (hopened : List.Forall₂ (Opened c dir) (writtenTables c startSstId pieces) hs)
    (hread : ∀ t ∈ writtenTables c startSstId pieces,
      dir.read (.sst t.meta'.fileId) = some (writeTable c t.entries).1)
    (hfits : ∀ es ∈ pieces, TableFits c es) (hordered : ∀ es ∈ pieces, KeyOrdered es) :
    ∃ new : List (OpenTable c), new.map OpenTable.entries = pieces ∧
      new.map OpenTable.meta' = (writtenTables c startSstId pieces).map Table.meta' ∧
      new.map OpenTable.handle = hs ∧ ∀ t ∈ new, t.Filed dir := by
  have hall : ∀ ts hs, List.Forall₂ (Opened c dir) ts hs →
      (∀ t ∈ ts, t ∈ writtenTables c startSstId pieces) →
      ∃ new : List (OpenTable c), new.map OpenTable.entries = ts.map Table.entries ∧
        new.map OpenTable.meta' = ts.map Table.meta' ∧
        new.map OpenTable.handle = hs ∧ ∀ t ∈ new, t.Filed dir := by
    intro ts hs hopened hts
    induction hopened with
    | nil => exact ⟨[], rfl, rfl, rfl, by simp⟩
    | @cons t h ts hs hfirst _ ih =>
        obtain ⟨new, hentries, hmeta, hhandles, hfiled⟩ :=
          ih fun t ht => hts t (List.mem_cons_of_mem _ ht)
        have ht := hts t List.mem_cons_self
        have hfile := hread t ht
        obtain ⟨i, es, hi, rfl⟩ := mem_writtenTables.mp ht
        have hmem : es ∈ pieces := List.mem_of_getElem? hi
        obtain ⟨hname, hnew, _⟩ := hfirst
        rw [read_of_mem hname] at hfile
        have hcontent : dir.content h.inode = (writeTable c es).1 := Option.some.inj hfile
        rw [hcontent] at hnew
        have hne : es ≠ [] := by
          rintro rfl
          exact new_writeTable_nil _ _ _ hnew
        rw [new_writeTable (hfits es hmem) hne] at hnew
        let t : OpenTable c := ⟨startSstId + UInt32.ofNat i, es, h.inode, hne, hfits es hmem,
          hordered es hmem⟩
        have hsst : openedTable c (startSstId + UInt32.ofNat i) es = h.sst := Except.ok.inj hnew
        have hhandle : t.handle = h := by
          show (⟨openedTable c (startSstId + UInt32.ofNat i) es, h.inode⟩ : TableHandle) = h
          rw [hsst]
        refine ⟨t :: new, ?_, ?_, ?_, ?_⟩
        · rw [List.map_cons, hentries]
          rfl
        · rw [List.map_cons, hmeta]
          rfl
        · rw [List.map_cons, hhandles, hhandle]
        · exact List.forall_mem_cons.mpr ⟨⟨hname, hcontent⟩, hfiled⟩
  obtain ⟨new, hentries, hrest⟩ := hall _ _ hopened fun _ h => h
  exact ⟨new, hentries.trans (entries_writtenTables _ _), hrest⟩

/-- Tables with consecutive ids have different ids. -/
theorem nodup_writtenTables {c : Crates} {startSstId : UInt32} {pieces : List (List Entry)}
    (hcount : pieces.length ≤ 2 ^ 32) :
    ((writtenTables c startSstId pieces).map fun t => t.meta'.fileId).Nodup := by
  have hids : (writtenTables c startSstId pieces).map (fun t => t.meta'.fileId) =
      (List.range pieces.length).map fun i => startSstId + UInt32.ofNat i := by
    unfold writtenTables
    rw [List.map_map]
    refine List.ext_getElem (by simp) fun i hi hi' => ?_
    simp
  rw [hids]
  refine List.Nodup.map_on (fun i hi j hj heq => ?_) List.nodup_range
  by_contra hne
  have hi := List.mem_range.mp hi
  have hj := List.mem_range.mp hj
  exact add_ofNat_ne startSstId (by omega) (by omega) hne heq

/-! ## The shelf -/

/-- The tables of the manifest and of the version are those of the shelf, and their files are
there. -/
structure Shelved (env : Env) (w : World) (shelf : List (List (OpenTable env.crates))) : Prop where
  listed : fileLists w.manifest = shelf.map (List.map OpenTable.meta')
  presented : w.current.sstables = shelf.map (List.map OpenTable.handle)
  filed : ∀ t ∈ shelf.flatten, t.Filed w.dir
  nodup : (shelf.flatten.map OpenTable.fileId).Nodup

namespace Shelved

variable {env : Env} {w w' : World} {shelf : List (List (OpenTable env.crates))}

/-- The ids that the manifest lists. -/
theorem sstableIds (h : Shelved env w shelf) :
    w.manifest.sstableIds = shelf.flatten.map OpenTable.fileId := by
  rw [sstableIds_eq, h.listed, ← List.map_flatten, List.map_map]
  rfl

/-- The files of a level. -/
theorem levelFiles (h : Shelved env w shelf) (i : Nat) :
    levelFiles w.manifest i = (Levels.get shelf i).map OpenTable.meta' := by
  rw [Db.levelFiles, levelFiles_eq, h.listed, Levels.get_map]

theorem mem_flatten {t : OpenTable env.crates} {i : Nat} (ht : t ∈ Levels.get shelf i) :
    t ∈ shelf.flatten := Levels.mem_flatten_iff.mpr ⟨i, ht⟩

/-- The file of a table is listed. -/
theorem listed_of_mem (h : Shelved env w shelf) {t : OpenTable env.crates}
    (ht : t ∈ shelf.flatten) :
    Listed w.manifest (.sst t.fileId) := by
  refine .inr ⟨t.fileId, ?_, rfl⟩
  rw [h.sstableIds]
  exact List.mem_map_of_mem ht

/-- Tables with the same id are one table. -/
theorem eq_of_fileId (h : Shelved env w shelf) {t t' : OpenTable env.crates}
    (ht : t ∈ shelf.flatten) (ht' : t' ∈ shelf.flatten) (heq : t.fileId = t'.fileId) : t = t' :=
  List.inj_on_of_nodup_map h.nodup ht ht' heq

/-- Nothing that concerns the tables has changed. -/
theorem frame (h : Shelved env w shelf) (hlists : fileLists w'.manifest = fileLists w.manifest)
    (hsstables : w'.current.sstables = w.current.sstables)
    (hagree : Agree (fun n => ∃ t ∈ shelf.flatten, n = .sst t.fileId) w.dir w'.dir) :
    Shelved env w' shelf where
  listed := hlists.trans h.listed
  presented := hsstables.trans h.presented
  filed t ht := (h.filed t ht).agree hagree ⟨t, ht, rfl⟩
  nodup := h.nodup

/-- Tables were written and published, with those that were there before or without some of them. -/
theorem published (h : Shelved env w shelf) {keep : FileName → Prop} {w₁ : World}
    {shelf' : List (List (OpenTable env.crates))} (new gone : List (OpenTable env.crates))
    (hbuilt : Agree keep w.dir w₁.dir) (hkeep : ∀ t ∈ shelf.flatten, keep (.sst t.fileId))
    (hpublished : Agree (Listed w'.manifest) w₁.dir w'.dir)
    (hlisted : fileLists w'.manifest = shelf'.map (List.map OpenTable.meta'))
    (hpresented : w'.current.sstables = shelf'.map (List.map OpenTable.handle))
    (hperm : (shelf'.flatten ++ gone).Perm (shelf.flatten ++ new))
    (hfiled : ∀ t ∈ new, t.Filed w₁.dir) (hnodup : (new.map OpenTable.fileId).Nodup)
    (hfresh : ∀ t ∈ new, t.fileId ∉ w.manifest.sstableIds) : Shelved env w' shelf' where
  listed := hlisted
  presented := hpresented
  filed t ht := by
    have hfiled₁ : t.Filed w₁.dir := by
      rcases List.mem_append.mp (hperm.mem_iff.mp (List.mem_append_left _ ht)) with hold | hnew
      · exact (h.filed t hold).agree hbuilt (hkeep t hold)
      · exact hfiled t hnew
    refine hfiled₁.agree hpublished (.inr ⟨t.fileId, ?_, rfl⟩)
    rw [sstableIds_eq, hlisted, ← List.map_flatten, List.map_map]
    exact List.mem_map_of_mem (f := FileMetadata.fileId ∘ OpenTable.meta') ht
  nodup := by
    have hall : ((shelf.flatten ++ new).map OpenTable.fileId).Nodup := by
      rw [List.map_append, List.nodup_append]
      refine ⟨h.nodup, hnodup, fun id hold id' hnew heq => ?_⟩
      obtain ⟨t, ht, rfl⟩ := List.mem_map.mp hnew
      refine hfresh t ht ?_
      rw [h.sstableIds, ← heq]
      exact hold
    refine ((hperm.map OpenTable.fileId).nodup_iff.mpr hall).sublist ?_
    rw [List.map_append]
    exact List.sublist_append_left _ _

/-- A flush puts a table for every frozen memtable into level 0. -/
theorem flushed (h : Shelved env w shelf) (hfits : FlushFits env.crates w)
    (hfresh : ∀ t ∈ flushTables env.crates w, t.meta'.fileId ∉ w.manifest.sstableIds)
    (hne : w.current.frozenMemtables ≠ []) (hrun : flushMemtables env w = (.ok (), w')) :
    ∃ (new : List (OpenTable env.crates)) (w₁ : World) (hs : List TableHandle),
      new.map OpenTable.entries = w.current.frozenMemtables.map Memtable.iter ∧
      new.map OpenTable.meta' = (flushTables env.crates w).map Table.meta' ∧
      FlushDone env w w₁ hs w' ∧ Shelved env w' (Levels.push new shelf) := by
  have hspec := (flushMemtables_written hfits).ok rfl hrun
  rw [if_neg hne] at hspec
  obtain ⟨hwals, _, w₁, hs, ⟨hbuilt, hreserved, hpublished⟩, hread⟩ := hspec
  have hdone := flushDone_of_steps hwals hne hbuilt hreserved hpublished
  have hpieces : ∀ es ∈ w.current.frozenMemtables.map Memtable.iter,
      TableFits env.crates es ∧ KeyOrdered es := by
    intro es hes
    obtain ⟨memtable, hmem, rfl⟩ := List.mem_map.mp hes
    exact ⟨hfits.tables memtable hmem, memtable.store.sorted.imp le_of_lt⟩
  obtain ⟨new, hentries, hmeta, hhandles, hfiled⟩ := exists_openTables hbuilt.opened hread
    (fun es hes => (hpieces es hes).1) fun es hes => (hpieces es hes).2
  have hids : new.map OpenTable.fileId =
      (flushTables env.crates w).map fun t => t.meta'.fileId := by
    have hmap := congrArg (List.map FileMetadata.fileId) hmeta
    rw [List.map_map, List.map_map] at hmap
    exact hmap
  refine ⟨new, w₁, hs, hentries, hmeta, hdone, ?_⟩
  refine h.published new [] hbuilt.quiet.dir (fun t ht u hu heq => ?_)
    hpublished.agree ?_ ?_ ?_ hfiled ?_ fun t ht => ?_
  · refine hfresh u hu ?_
    rw [h.sstableIds, ← FileName.sst.inj heq]
    exact List.mem_map_of_mem ht
  · rw [hdone.lists, h.listed, Levels.map_push, hmeta]
    rfl
  · rw [hpublished.current, hbuilt.quiet.current, sstables_flushVersion, h.presented,
      Levels.map_push, hhandles]
  · rw [List.append_nil]
    exact Levels.flatten_push new shelf
  · rw [hids]
    exact nodup_writtenTables (by rw [List.length_map]; exact hfits.count)
  · have hid : t.fileId ∈ new.map OpenTable.fileId := List.mem_map_of_mem ht
    rw [hids] at hid
    obtain ⟨u, hu, heq⟩ := List.mem_map.mp hid
    exact heq ▸ hfresh u hu

end Shelved

/-! ## Compactions -/

/-- The tables of a selection that are in its source level. -/
def Selection.takesSource {c : Crates} (s : Selection) (t : OpenTable c) : Bool :=
  hasId s.fromSource t.fileId

/-- The tables of a selection that are in its target level. -/
def Selection.takesTarget {c : Crates} (s : Selection) (t : OpenTable c) : Bool :=
  hasId s.fromTarget t.fileId

/-- The tables of a selection. -/
def Selection.taken {c : Crates} (s : Selection) (shelf : List (List (OpenTable c))) :
    List (OpenTable c) :=
  (Levels.get shelf s.sourceLevelIdx).filter s.takesSource ++
    (Levels.get shelf (s.sourceLevelIdx + 1)).filter s.takesTarget

theorem mem_of_mem_taken {c : Crates} {s : Selection} {shelf : List (List (OpenTable c))}
    {t : OpenTable c} (h : t ∈ s.taken shelf) : t ∈ shelf.flatten := by
  rcases List.mem_append.mp h with h | h
  · exact Levels.mem_flatten_iff.mpr ⟨_, List.mem_of_mem_filter h⟩
  · exact Levels.mem_flatten_iff.mpr ⟨_, List.mem_of_mem_filter h⟩

/-- The shelf after a compaction. -/
def Selection.replace {c : Crates} (s : Selection) (new : List (OpenTable c))
    (shelf : List (List (OpenTable c))) : List (List (OpenTable c)) :=
  Levels.replace s.takesSource s.takesTarget (fun a b => a.meta'.minKey ≤ b.meta'.minKey)
    s.sourceLevelIdx new shelf

theorem Selection.map_meta_replace {c : Crates} (s : Selection) (new : List (OpenTable c))
    (shelf : List (List (OpenTable c))) : (s.replace new shelf).map (List.map OpenTable.meta') =
      Levels.replace (fun f => hasId s.fromSource f.fileId) (fun f => hasId s.fromTarget f.fileId)
        (fun a b => a.minKey ≤ b.minKey) s.sourceLevelIdx (new.map OpenTable.meta')
        (shelf.map (List.map OpenTable.meta')) := by
  refine Levels.map_replace OpenTable.meta' (fun t => ?_) (fun t => ?_) (fun a b => ?_) _ _ _
  · rfl
  · rfl
  · rfl

theorem Selection.map_handle_replace {c : Crates} (s : Selection) (new : List (OpenTable c))
    (shelf : List (List (OpenTable c))) : (s.replace new shelf).map (List.map OpenTable.handle) =
      Levels.replace (fun t => hasId s.fromSource t.sst.id) (fun t => hasId s.fromTarget t.sst.id)
        (fun a b => a.sst.minKey ≤ b.sst.minKey) s.sourceLevelIdx (new.map OpenTable.handle)
        (shelf.map (List.map OpenTable.handle)) := by
  refine Levels.map_replace OpenTable.handle (fun t => ?_) (fun t => ?_) (fun a b => ?_) _ _ _
  · rfl
  · rfl
  · rw [a.minKey_handle, b.minKey_handle]

namespace Shelved

variable {env : Env} {w w' : World} {shelf : List (List (OpenTable env.crates))}
  {k : Compaction} {s : Selection}

/-- The table of a selected file. -/
theorem exists_selected (h : Shelved env w shelf) (hselect : k.select w.manifest = some s)
    {f : FileMetadata} :
    (f ∈ s.fromSource → ∃ t ∈ Levels.get shelf s.sourceLevelIdx, t.meta' = f ∧ s.takesSource t) ∧
    (f ∈ s.fromTarget →
      ∃ t ∈ Levels.get shelf (s.sourceLevelIdx + 1), t.meta' = f ∧ s.takesTarget t) := by
  obtain ⟨hsource, htarget⟩ := Compaction.select_sublist hselect
  rw [h.levelFiles] at hsource htarget
  constructor <;> intro hf
  · obtain ⟨t, ht, rfl⟩ := List.mem_map.mp (hsource.subset hf)
    exact ⟨t, ht, rfl, hasId_iff.mpr (List.mem_map_of_mem (f := FileMetadata.fileId) hf)⟩
  · obtain ⟨t, ht, rfl⟩ := List.mem_map.mp (htarget.subset hf)
    exact ⟨t, ht, rfl, hasId_iff.mpr (List.mem_map_of_mem (f := FileMetadata.fileId) hf)⟩

/-- A table is taken exactly when its file is selected. -/
theorem takes_iff (h : Shelved env w shelf) (hselect : k.select w.manifest = some s)
    {t : OpenTable env.crates} (ht : t ∈ shelf.flatten) :
    (s.takesSource t ↔ t.meta' ∈ s.fromSource) ∧ (s.takesTarget t ↔ t.meta' ∈ s.fromTarget) := by
  constructor <;> constructor
  · intro htaken
    obtain ⟨f, hf, heq⟩ := List.mem_map.mp (hasId_iff.mp htaken)
    obtain ⟨u, hu, rfl, _⟩ := (h.exists_selected hselect).1 hf
    exact h.eq_of_fileId (mem_flatten hu) ht heq ▸ hf
  · exact fun hmem => hasId_iff.mpr (List.mem_map_of_mem (f := FileMetadata.fileId) hmem)
  · intro htaken
    obtain ⟨f, hf, heq⟩ := List.mem_map.mp (hasId_iff.mp htaken)
    obtain ⟨u, hu, rfl, _⟩ := (h.exists_selected hselect).2 hf
    exact h.eq_of_fileId (mem_flatten hu) ht heq ▸ hf
  · exact fun hmem => hasId_iff.mpr (List.mem_map_of_mem (f := FileMetadata.fileId) hmem)

/-- The tables that are taken are those of the selected files. -/
theorem taken_perm (h : Shelved env w shelf) (hselect : k.select w.manifest = some s) :
    ((s.taken shelf).map OpenTable.meta').Perm s.all := by
  have hremoved := removed_perm (h.sstableIds ▸ h.nodup) hselect
  rw [h.listed, Levels.get_map, Levels.get_map, List.filter_map, List.filter_map,
    ← List.map_append] at hremoved
  exact hremoved

/-- What a compaction reads: the entries of the tables that it takes. -/
theorem allEntries_perm (h : Shelved env w shelf) (hselect : k.select w.manifest = some s) :
    (allEntries (s.tables env.crates w.dir)).Perm ((s.taken shelf).flatMap OpenTable.entries) := by
  have hall : allEntries (s.tables env.crates w.dir) =
      s.all.flatMap fun f => (tableOf env.crates w.dir f).entries := by
    rw [allEntries, Selection.tables, List.map_map, List.flatMap_def]
    rfl
  have htaken : (s.taken shelf).flatMap OpenTable.entries =
      ((s.taken shelf).map OpenTable.meta').flatMap
        fun f => (tableOf env.crates w.dir f).entries := by
    rw [List.flatMap_map]
    refine List.flatMap_congr fun t ht => ?_
    show t.entries = (tableEntries env.crates w.dir t.fileId).getD []
    rw [(h.filed t (mem_of_mem_taken ht)).tableEntries]
    rfl
  rw [hall, htaken]
  exact (h.taken_perm hselect).symm.flatMap_right _

/-- The entries of the tables that are merged, one table after the other. -/
theorem allEntries_eq (h : Shelved env w shelf) {ts : List (OpenTable env.crates)}
    (hts : ∀ t ∈ ts, t ∈ shelf.flatten) (hall : s.all = ts.map OpenTable.meta') :
    allEntries (s.tables env.crates w.dir) = ts.flatMap OpenTable.entries := by
  rw [allEntries, Selection.tables, hall, List.map_map, List.map_map, List.flatMap_def]
  refine congrArg List.flatten (List.map_congr_left fun t ht => ?_)
  show (tableEntries env.crates w.dir t.fileId).getD [] = t.entries
  rw [(h.filed t (hts t ht)).tableEntries]
  rfl

/-- A compaction puts the pieces of the merge in the place of the tables that it takes, unless an
I/O call fails. -/
theorem executes (h : Shelved env w shelf) {targetFileSize : UInt64} {count : Nat}
    (hselect : k.select w.manifest = some s)
    (hroom : MergeRoom env (Kept w.manifest) w targetFileSize
      (allEntries (s.tables env.crates w.dir)) count) :
    Prog.Spec (· = w)
      (executeCompaction env s.sourceLevelIdx s.all s.fromSource s.fromTarget targetFileSize)
      (fun _ w' => ∃ (merged : List Entry) (new : List (OpenTable env.crates)) (w₁ : World),
        new.map OpenTable.entries = cutOutputs env.crates targetFileSize merged ∧
        new.map OpenTable.meta' =
          (Compacted.outputs env w targetFileSize merged).map Table.meta' ∧
        Compacted env (Kept w.manifest) w targetFileSize s merged w₁ w' ∧
        Shelved env w' (s.replace new shelf))
      (fun _ => Failed (Kept w.manifest) w) := by
  have hlisted : ∀ f ∈ s.all, ∃ t ∈ shelf.flatten, t.meta' = f := by
    intro f hf
    rcases List.mem_append.mp hf with hf | hf
    · obtain ⟨t, ht, heq, _⟩ := (h.exists_selected hselect).1 hf
      exact ⟨t, mem_flatten ht, heq⟩
    · obtain ⟨t, ht, heq, _⟩ := (h.exists_selected hselect).2 hf
      exact ⟨t, mem_flatten ht, heq⟩
  have hstored : ∀ f ∈ s.all, ∃ t ∈ shelf.flatten, t.meta' = f ∧
      tableEntries env.crates w.dir f.fileId = some t.entries := by
    intro f hf
    obtain ⟨t, ht, rfl⟩ := hlisted f hf
    exact ⟨t, ht, rfl, (h.filed t ht).tableEntries⟩
  have hordered : ∀ t ∈ s.tables env.crates w.dir, KeyOrdered t.entries := by
    intro t ht
    obtain ⟨f, hf, rfl⟩ := List.mem_map.mp ht
    obtain ⟨t, _, _, hentries⟩ := hstored f hf
    show KeyOrdered ((tableEntries env.crates w.dir f.fileId).getD [])
    rw [hentries]
    exact t.ordered
  have hkeep : ∀ t ∈ shelf.flatten, Kept w.manifest (.sst t.fileId) :=
    fun t ht => .inr (h.listed_of_mem ht)
  refine (executeCompaction_written (fun f hf => ?_) hordered (fun f hf => ?_) (not_kept_mfTmp _)
    hroom).weaken (fun _ hw => hw) (fun _ w' hw' => ?_) fun _ _ hfailed => hfailed
  · obtain ⟨t, _, _, hentries⟩ := hstored f hf
    exact Option.isSome_of_eq_some hentries
  · obtain ⟨t, ht, rfl⟩ := hlisted f hf
    exact hkeep t ht
  · obtain ⟨merged, w₁, hcompacted, hread⟩ := hw'
    obtain ⟨hlists, _⟩ := hcompacted.fileLists_eq
    obtain ⟨hs, hopened, hcurrent⟩ := hcompacted.sstables_eq
    have hpieces : ∀ es ∈ cutOutputs env.crates targetFileSize merged,
        TableFits env.crates es ∧ KeyOrdered es := by
      refine fun es hes => ⟨hroom.tables merged hcompacted.sorted es hes, ?_⟩
      have hsub := List.sublist_flatten_of_mem hes
      rw [cutOutputs, Cut.flatten_cut] at hsub
      exact hcompacted.sorted.2.sublist hsub
    obtain ⟨new, hentries, hmeta, hhandles, hfiled⟩ := exists_openTables hopened hread
      (fun es hes => (hpieces es hes).1) fun es hes => (hpieces es hes).2
    have hids : new.map OpenTable.fileId = (Compacted.outputs env w targetFileSize merged).map
        fun t => t.meta'.fileId := by
      have hmap := congrArg (List.map FileMetadata.fileId) hmeta
      rw [List.map_map, List.map_map] at hmap
      exact hmap
    have hcount := hroom.pieces merged hcompacted.sorted
    have hsmall := hroom.fresh.small
    refine ⟨merged, new, w₁, hentries, hmeta, hcompacted, ?_⟩
    obtain ⟨_, _, hmerged, hpublished⟩ := id hcompacted
    refine h.published new _ hmerged.built.quiet.dir hkeep hpublished.agree ?_ ?_
      (Levels.flatten_replace ..) hfiled ?_ fun t ht => ?_
    · rw [hlists, h.listed, s.map_meta_replace, hmeta]
      rfl
    · rw [hcurrent, h.presented, s.map_handle_replace, hhandles]
    · rw [hids]
      exact nodup_writtenTables (Nat.le_trans hcount hsmall)
    · intro hold
      have hid : t.fileId ∈ new.map OpenTable.fileId := List.mem_map_of_mem ht
      rw [hids] at hid
      obtain ⟨u, hu, heq⟩ := List.mem_map.mp hid
      obtain ⟨i, es, hi, rfl⟩ := mem_writtenTables.mp hu
      have hlt := (List.getElem?_eq_some_iff.mp hi).1
      rw [← heq] at hold
      exact hroom.fresh.free i (Nat.lt_of_lt_of_le hlt hcount) (.inr (.inr ⟨_, hold, rfl⟩))

end Shelved

end EasyLsm.Db
