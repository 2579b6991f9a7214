import Mathlib.Data.List.Basic
import EasyLsm.Db.Compacting
import EasyLsm.Db.OnDisk

/-!
# A compaction loses nothing

`compaction_keeps_entries`: whatever a crash leaves of a compaction, the tables that the newest
manifest lists hold the same entries, each as often as before. The outputs are ordered, their
metadata give their first and last keys, and together they are the sorted merge of the inputs.
-/

namespace EasyLsm.Db

open Lib Lib.FileStore

variable {env : Env} {w w' : World} {targetFileSize : UInt64} {s : Selection}

/-- A state in which tables can be compacted: the manifest is the one on the disk, the listed tables
have different ids, below the next one, and can be read and are ordered. -/
structure CompactReady (env : Env) (w : World) : Prop where
  onDisk : OnDisk env w.dir w.manifest
  nodup : w.manifest.sstableIds.Nodup
  ids : ∀ id ∈ w.manifest.sstableIds, id < w.manifest.nextSstableId
  ordered : ∀ id ∈ w.manifest.sstableIds,
    ∃ es, tableEntries env.crates w.dir id = some es ∧ KeyOrdered es

/-- Nothing that a compaction writes is too large for its field: the table ids, the version of the
manifest, the lengths in the tables and in the manifest. -/
structure CompactRoom (env : Env) (w : World) (targetFileSize : UInt64) (s : Selection) : Prop where
  ids : ∀ merged, SortedMerge (allEntries (s.tables env.crates w.dir)) merged →
    w.manifest.nextSstableId.toNat + (cutOutputs env.crates targetFileSize merged).length ≤ 2 ^ 32
  tables : ∀ merged, SortedMerge (allEntries (s.tables env.crates w.dir)) merged →
    ∀ es ∈ cutOutputs env.crates targetFileSize merged, TableFits env.crates es
  version : w.manifest.version.toNat + 1 < 2 ^ 32
  manifest : ∀ merged, SortedMerge (allEntries (s.tables env.crates w.dir)) merged →
    ∀ c, compactMutator s.sourceLevelIdx s.fromSource s.fromTarget
      ((Compacted.outputs env w targetFileSize merged).map Table.meta') w.manifest = .ok c → c.Fits

/-- The ids up to the largest one are free when those of the listed tables are smaller. -/
theorem fresh_of_below (hids : ∀ id ∈ w.manifest.sstableIds, id < w.manifest.nextSstableId) :
    Fresh (Kept w.manifest) w.manifest.nextSstableId
      (2 ^ 32 - w.manifest.nextSstableId.toNat) := by
  refine ⟨fun i hi hkept => ?_, Nat.sub_le _ _⟩
  rcases hkept with ⟨v, hv⟩ | ⟨id, _, hname⟩ | ⟨id, hid, hname⟩
  · cases hv
  · cases hname
  · have hless := UInt32.lt_iff_toNat_lt.mp (hids id hid)
    have heq := congrArg UInt32.toNat (FileName.sst.inj hname)
    rw [toNat_add_ofNat (by omega)] at heq
    omega

theorem CompactRoom.mergeRoom (h : CompactRoom env w targetFileSize s)
    (hready : CompactReady env w) : MergeRoom env (Kept w.manifest) w targetFileSize
      (allEntries (s.tables env.crates w.dir)) (2 ^ 32 - w.manifest.nextSstableId.toNat) where
  fresh := fresh_of_below hready.ids
  pieces merged hmerged := by
    have hids := h.ids merged hmerged
    omega
  tables := h.tables

/-- The ids of tables that were written one after the other. -/
theorem mem_fileIds_writtenTables {c : Crates} {startSstId id : UInt32}
    {pieces : List (List Entry)}
    (h : id ∈ ((writtenTables c startSstId pieces).map Table.meta').map FileMetadata.fileId) :
    ∃ i, i < pieces.length ∧ id = startSstId + UInt32.ofNat i := by
  obtain ⟨f, hf, rfl⟩ := List.mem_map.mp h
  obtain ⟨t, ht, rfl⟩ := List.mem_map.mp hf
  obtain ⟨i, es, hes, rfl⟩ := mem_writtenTables.mp ht
  exact ⟨i, (List.getElem?_eq_some_iff.mp hes).1, rfl⟩

/-- The ids below the next one, and those of new tables, are below the one behind these. -/
theorem lt_next_of_written {c : Crates} {m : Manifest} {pieces : List (List Entry)}
    (hids : ∀ id ∈ m.sstableIds, id < m.nextSstableId)
    (hless : m.nextSstableId.toNat + pieces.length < 2 ^ 32) {id : UInt32}
    (h : id ∈ m.sstableIds ∨
      id ∈ ((writtenTables c m.nextSstableId pieces).map Table.meta').map FileMetadata.fileId) :
    id < m.nextSstableId + UInt32.ofNat pieces.length := by
  rw [UInt32.lt_iff_toNat_lt, toNat_add_ofNat hless]
  rcases h with hold | hnew
  · have hbelow := UInt32.lt_iff_toNat_lt.mp (hids id hold)
    omega
  · obtain ⟨i, hi, rfl⟩ := mem_fileIds_writtenTables hnew
    rw [toNat_add_ofNat (by omega)]
    omega

/-- Some files of a list with different ids are those that have their ids. -/
theorem filter_hasId_perm {files selected : List FileMetadata}
    (hnodup : (files.map FileMetadata.fileId).Nodup) (hsub : selected.Sublist files) :
    (files.filter fun f => hasId selected f.fileId).Perm selected := by
  have hfiles : files.Nodup := hnodup.of_map _
  refine (List.perm_ext_iff_of_nodup (hfiles.filter _) (hfiles.sublist hsub)).mpr fun f => ?_
  rw [List.mem_filter, hasId_iff, List.mem_map]
  constructor
  · rintro ⟨hf, f', hf', heq⟩
    exact List.inj_on_of_nodup_map hnodup (hsub.subset hf') hf heq ▸ hf'
  · exact fun hf => ⟨hsub.subset hf, f, hf, rfl⟩

/-- The ids of a level. -/
theorem nodup_levelFiles {m : Manifest} (h : m.sstableIds.Nodup) (i : Nat) :
    ((levelFiles m i).map FileMetadata.fileId).Nodup := by
  rw [sstableIds_eq] at h
  rw [levelFiles, levelFiles_eq]
  unfold Levels.get
  cases hi : (fileLists m)[i]? with
  | none => exact List.nodup_nil
  | some files =>
      exact h.sublist ((List.sublist_flatten_of_mem (List.mem_of_getElem? hi)).map _)

/-- The files of a level are listed. -/
theorem fileId_mem_sstableIds {m : Manifest} {f : FileMetadata} {i : Nat}
    (hf : f ∈ levelFiles m i) : f.fileId ∈ m.sstableIds := by
  rw [sstableIds_eq]
  rw [levelFiles, levelFiles_eq] at hf
  exact List.mem_map_of_mem (Levels.mem_flatten_iff.mpr ⟨i, hf⟩)

/-- The selected files are listed. -/
theorem selected_mem_sstableIds {m : Manifest} {k : Compaction} (hselect : k.select m = some s)
    {f : FileMetadata} (hf : f ∈ s.all) : f.fileId ∈ m.sstableIds := by
  obtain ⟨hsource, htarget⟩ := Compaction.select_sublist hselect
  rcases List.mem_append.mp hf with hf | hf
  · exact fileId_mem_sstableIds (hsource.subset hf)
  · exact fileId_mem_sstableIds (htarget.subset hf)

/-- Two levels that are replaced have lost the selected files. -/
theorem removed_perm {m : Manifest} {k : Compaction} (hnodup : m.sstableIds.Nodup)
    (hselect : k.select m = some s) :
    ((Levels.get (fileLists m) s.sourceLevelIdx).filter (fun f => hasId s.fromSource f.fileId) ++
      (Levels.get (fileLists m) (s.sourceLevelIdx + 1)).filter
        fun f => hasId s.fromTarget f.fileId).Perm s.all := by
  obtain ⟨hsource, htarget⟩ := Compaction.select_sublist hselect
  have hnodup₀ := nodup_levelFiles hnodup s.sourceLevelIdx
  have hnodup₁ := nodup_levelFiles hnodup (s.sourceLevelIdx + 1)
  rw [levelFiles, levelFiles_eq] at hsource htarget hnodup₀ hnodup₁
  exact (filter_hasId_perm hnodup₀ hsource).append (filter_hasId_perm hnodup₁ htarget)

namespace Compacted

variable {merged : List Entry} {w₁ : World} {k : Compaction}

/-- The files of before are still what they were. -/
theorem read_old (h : Compacted env (Kept w.manifest) w targetFileSize s merged w₁ w') {id : UInt32}
    (hid : id ∈ w.manifest.sstableIds) :
    tableEntries env.crates w₁.dir id = tableEntries env.crates w.dir id := by
  obtain ⟨_, _, hmerged, _⟩ := h
  exact tableEntries_congr (hmerged.built.quiet.dir.read (.inr (.inr ⟨id, hid, rfl⟩)))

/-- The listed files after a compaction, together with the selected ones, are those of before
together with the outputs. -/
theorem files_perm (h : Compacted env (Kept w.manifest) w targetFileSize s merged w₁ w')
    (hnodup : w.manifest.sstableIds.Nodup) (hselect : k.select w.manifest = some s) :
    ((fileLists w'.manifest).flatten ++ s.all).Perm ((fileLists w.manifest).flatten ++
      (outputs env w targetFileSize merged).map Table.meta') := by
  rw [h.fileLists_eq.1]
  exact ((removed_perm hnodup hselect).symm.append_left _).trans (Levels.flatten_replace ..)

theorem sorted {keep : FileName → Prop}
    (h : Compacted env keep w targetFileSize s merged w₁ w') :
    SortedMerge (allEntries (s.tables env.crates w.dir)) merged := by
  obtain ⟨_, _, hmerged, _⟩ := h
  exact hmerged.sorted

/-- The outputs one after the other are the merge. -/
theorem allEntries_outputs : allEntries (outputs env w targetFileSize merged) = merged := by
  rw [allEntries, outputs, entries_writtenTables, cutOutputs, Cut.flatten_cut]

/-- The tables of the outputs can be read. -/
theorem stored_outputs {keep : FileName → Prop}
    (h : Compacted env keep w targetFileSize s merged w₁ w') {t : Table}
    (ht : t ∈ outputs env w targetFileSize merged) : Stored env.crates w'.dir t := by
  have hlisted : t.meta'.fileId ∈ w'.manifest.sstableIds := by
    rw [sstableIds_eq, h.fileLists_eq.1]
    refine List.mem_map_of_mem (Levels.mem_flatten_iff.mpr ⟨s.sourceLevelIdx + 1, ?_⟩)
    rw [Levels.get_replace, if_neg (Nat.succ_ne_self _), if_pos rfl]
    exact (List.mem_insertionSort _).mpr (List.mem_append_right _ (List.mem_map_of_mem ht))
  obtain ⟨_, _, hmerged, hpublished⟩ := h
  exact (tableEntries_congr (hpublished.agree.read (.inr ⟨_, hlisted, rfl⟩))).trans
    (hmerged.built.stored t ht)

/-- The listed tables are those of before and the outputs. -/
theorem mem_sstableIds {keep : FileName → Prop}
    (h : Compacted env keep w targetFileSize s merged w₁ w') {id : UInt32}
    (hid : id ∈ w'.manifest.sstableIds) : id ∈ w.manifest.sstableIds ∨
      ∃ t ∈ outputs env w targetFileSize merged, t.meta'.fileId = id := by
  rw [sstableIds_eq, h.fileLists_eq.1] at hid
  rw [sstableIds_eq]
  obtain ⟨f, hf, rfl⟩ := List.mem_map.mp hid
  rcases List.mem_append.mp ((Levels.flatten_replace ..).mem_iff.mp
    (List.mem_append_left _ hf)) with hold | hnew
  · exact .inl (List.mem_map_of_mem hold)
  · obtain ⟨t, ht, rfl⟩ := List.mem_map.mp hnew
    exact .inr ⟨t, ht, rfl⟩

/-- The listed ids stay below the next one. -/
theorem below {keep : FileName → Prop} (h : Compacted env keep w targetFileSize s merged w₁ w')
    (hids : ∀ id ∈ w.manifest.sstableIds, id < w.manifest.nextSstableId)
    (hroom : w.manifest.nextSstableId.toNat +
      (cutOutputs env.crates targetFileSize merged).length < 2 ^ 32) :
    ∀ id ∈ w'.manifest.sstableIds, id < w'.manifest.nextSstableId := by
  intro id hid
  rw [h.nextSstableId]
  refine lt_next_of_written (c := env.crates) hids hroom ?_
  rcases h.mem_sstableIds hid with hold | ⟨t, ht, rfl⟩
  · exact .inl hold
  · exact .inr (List.mem_map_of_mem (List.mem_map_of_mem ht))

/-- With the new manifest and its files on the disk, the tables hold the entries of before. -/
theorem listedEntries_perm (h : Compacted env (Kept w.manifest) w targetFileSize s merged w₁ w')
    (hready : CompactReady env w) (hselect : k.select w.manifest = some s) {es : List Entry}
    (hes : listedEntries env w.dir = some es) {d : Dir}
    (hd : SameFiles env w'.manifest w₁.dir d) :
    ∃ es', listedEntries env d = some es' ∧ es'.Perm es := by
  obtain ⟨hall, rfl⟩ := (listedEntries_eq_some hready.onDisk).mp hes
  have hstored : ∀ t ∈ outputs env w targetFileSize merged, Stored env.crates w₁.dir t := by
    obtain ⟨_, _, hmerged, _⟩ := h
    exact hmerged.built.stored
  have hsame : ∀ id ∈ w'.manifest.sstableIds,
      tableEntries env.crates d id = tableEntries env.crates w₁.dir id :=
    fun id hid => tableEntries_congr (hd.tables id hid)
  refine ⟨_, (listedEntries_eq_some hd.onDisk).mpr ⟨fun id hid => ?_, rfl⟩, ?_⟩
  · rw [hsame id hid]
    rcases h.mem_sstableIds hid with hold | ⟨t, ht, rfl⟩
    · rw [h.read_old hold]
      exact hall id hold
    · rw [hstored t ht]
      rfl
  · -- count the entries file by file, as they are before the commit
    let entries : FileMetadata → List Entry :=
      fun f => (tableEntries env.crates w₁.dir f.fileId).getD []
    have hnew : (w'.manifest.sstableIds.flatMap fun id => (tableEntries env.crates d id).getD []) =
        (fileLists w'.manifest).flatten.flatMap entries := by
      rw [List.flatMap_congr fun id hid => congrArg (Option.getD · []) (hsame id hid),
        sstableIds_eq,
        List.flatMap_map]
    have hold : (w.manifest.sstableIds.flatMap fun id =>
        (tableEntries env.crates w.dir id).getD []) =
        (fileLists w.manifest).flatten.flatMap entries := by
      rw [List.flatMap_congr fun id hid => congrArg (Option.getD · []) (h.read_old hid).symm,
        sstableIds_eq, List.flatMap_map]
    have hselected : s.all.flatMap entries = allEntries (s.tables env.crates w.dir) := by
      rw [allEntries, Selection.tables, List.map_map, List.flatMap_def]
      refine congrArg List.flatten (List.map_congr_left fun f hf => ?_)
      exact congrArg (Option.getD · []) (h.read_old (selected_mem_sstableIds hselect hf))
    have houtputs : ((outputs env w targetFileSize merged).map Table.meta').flatMap entries =
        allEntries (outputs env w targetFileSize merged) := by
      rw [List.flatMap_map, allEntries, List.flatMap_def]
      refine congrArg List.flatten (List.map_congr_left fun t ht => ?_)
      show (tableEntries env.crates w₁.dir t.meta'.fileId).getD [] = t.entries
      rw [hstored t ht, Option.getD_some]
    have hfiles := (h.files_perm hready.nodup hselect).flatMap_right entries
    rw [List.flatMap_append, List.flatMap_append, hselected, houtputs] at hfiles
    rw [hnew, hold]
    refine (List.perm_append_right_iff (allEntries (s.tables env.crates w.dir))).mp ?_
    rw [allEntries_outputs] at hfiles
    exact hfiles.trans (h.sorted.1.append_left _)

end Compacted

/-- The outputs are ordered, and their metadata give their first and last keys. -/
theorem mem_outputs {merged : List Entry} (hsorted : KeyOrdered merged) {t : Table}
    (ht : t ∈ Compacted.outputs env w targetFileSize merged) :
    KeyOrdered t.entries ∧ firstKey t.entries = some t.meta'.minKey ∧
      lastKey t.entries = some t.meta'.maxKey := by
  obtain ⟨i, es, hi, rfl⟩ := mem_writtenTables.mp ht
  have hmem : es ∈ cutOutputs env.crates targetFileSize merged := List.mem_of_getElem? hi
  have hne : es ≠ [] := Cut.ne_nil_of_mem_cut hmem
  refine ⟨?_, ?_, ?_⟩
  · have hsub := List.sublist_flatten_of_mem hmem
    rw [cutOutputs, Cut.flatten_cut] at hsub
    exact hsorted.sublist hsub
  · have hfirst : firstKey es = some (es.head hne).1 := by
      rw [firstKey, List.head?_eq_some_head hne]
      rfl
    rw [minKey_writtenTable hfirst]
    exact hfirst
  · have hlast : lastKey es = some (es.getLast hne).1 := by
      rw [lastKey, List.getLast?_eq_some_getLast hne]
      rfl
    rw [maxKey_writtenTable hlast]
    exact hlast

/-- The selected tables can be read and are ordered. -/
theorem CompactReady.selected {k : Compaction} (hready : CompactReady env w)
    (hselect : k.select w.manifest = some s) :
    (∀ f ∈ s.all, (tableEntries env.crates w.dir f.fileId).isSome) ∧
      ∀ t ∈ s.tables env.crates w.dir, KeyOrdered t.entries := by
  have hlisted : ∀ f ∈ s.all, ∃ es, tableEntries env.crates w.dir f.fileId = some es ∧
      KeyOrdered es :=
    fun f hf => hready.ordered f.fileId (selected_mem_sstableIds hselect hf)
  refine ⟨fun f hf => ?_, fun t ht => ?_⟩
  · obtain ⟨es, hes, _⟩ := hlisted f hf
    exact Option.isSome_of_eq_some hes
  · obtain ⟨f, hf, rfl⟩ := List.mem_map.mp ht
    obtain ⟨es, hes, hordered⟩ := hlisted f hf
    show KeyOrdered ((tableEntries env.crates w.dir f.fileId).getD [])
    rw [hes]
    exact hordered

/-- A compaction of what it selects leaves the listed files alone. -/
theorem executeCompaction_kept {k : Compaction} (hready : CompactReady env w)
    (hroom : CompactRoom env w targetFileSize s) (hselect : k.select w.manifest = some s) :
    Prog.Spec (· = w)
      (executeCompaction env s.sourceLevelIdx s.all s.fromSource s.fromTarget targetFileSize)
      (fun _ w' => ∃ merged w₁, Compacted env (Kept w.manifest) w targetFileSize s merged w₁ w')
      (fun _ => Failed (Kept w.manifest) w) := by
  obtain ⟨hstored, hordered⟩ := hready.selected hselect
  exact executeCompaction_spec hstored hordered
    (fun f hf => .inr (.inr ⟨_, selected_mem_sstableIds hselect hf, rfl⟩)) (not_kept_mfTmp _)
    (hroom.mergeRoom hready)

/-- The two parts of a compaction that succeeds: before the rename the old manifest is on the disk,
and then the new one. -/
theorem Compacted.publication {merged : List Entry} {w₁ : World}
    (h : Compacted env (Kept w.manifest) w targetFileSize s merged w₁ w')
    (hdisk : OnDisk env w.dir w.manifest) (hroom : CompactRoom env w targetFileSize s) :
    Throughout (Agree (Kept w.manifest) w.dir) w w₁ ∧
    Throughout (fun d => SameFiles env w.manifest w.dir d ∨ SameFiles env w'.manifest w₁.dir d)
      w₁ w' ∧ OnDisk env w'.dir w'.manifest := by
  obtain ⟨newFiles, hs, hmerged, hpublished⟩ := h
  have hagree := hmerged.built.quiet.dir
  have hsame := hdisk.same_of_agree hagree
  -- the ids that were taken are not on the disk
  have hdisk₁ : OnDisk env w₁.dir w₁.manifest := by
    rw [hmerged.manifest]
    exact hsame.onDisk
  have hversion : w₁.manifest.version.toNat + 1 < 2 ^ 32 := by
    rw [hmerged.manifest]
    exact hroom.version
  obtain ⟨hphases, hdisk'⟩ := hpublished.phases hdisk₁ (compactMutator_keepsCounters _ _ _ _)
    hversion fun c hc => by
      cases hc
      rw [hmerged.manifest, hmerged.newFiles]
      have hfits := hroom.manifest merged hmerged.sorted _ rfl
      exact hfits
  refine ⟨hmerged.built.quiet.throughout, hphases.mono fun d hd => hd.imp_left fun hold => ?_,
    hdisk'⟩
  exact hdisk.same_of_agree (hagree.trans (hold.mono fun _ hkept v heq =>
    not_kept_mfTmp _ v (heq ▸ hkept)))

/-- Every directory on the way of a compaction, whether it succeeds or not, has a newest manifest
whose tables exist and hold the entries of before. When it succeeds, its outputs have taken the
place of the selected files, each is ordered and has the keys that its metadata say, and all
together are the sorted merge of the selected tables. -/
theorem compaction_keeps_entries (env : Env) (w w' : World) (k : Compaction)
    (targetFileSize : UInt64) (r : Except DbError Unit) (hready : CompactReady env w)
    (hroom : ∀ s, k.select w.manifest = some s → CompactRoom env w targetFileSize s)
    (hrun : k.run env targetFileSize w = (r, w')) :
    OnDisk env w'.dir w'.manifest ∧
    (∃ es, listedEntries env w.dir = some es ∧
      Throughout (fun d => ∃ es', listedEntries env d = some es' ∧ es'.Perm es) w w') ∧
    (r = .ok () → ∀ s, k.select w.manifest = some s → ∃ outs : List Table,
      (∀ t ∈ outs, Stored env.crates w'.dir t ∧ KeyOrdered t.entries ∧
        firstKey t.entries = some t.meta'.minKey ∧ lastKey t.entries = some t.meta'.maxKey) ∧
      SortedMerge (allEntries (s.tables env.crates w.dir)) (allEntries outs) ∧
      fileLists w'.manifest = Levels.replace (fun f => hasId s.fromSource f.fileId)
        (fun f => hasId s.fromTarget f.fileId) (fun a b => a.minKey ≤ b.minKey) s.sourceLevelIdx
        (outs.map Table.meta') (fileLists w.manifest)) := by
  have hes : ∃ es, listedEntries env w.dir = some es := by
    refine ⟨_, (listedEntries_eq_some hready.onDisk).mpr ⟨fun id hid => ?_, rfl⟩⟩
    obtain ⟨es, hes, _⟩ := hready.ordered id hid
    exact Option.isSome_of_eq_some hes
  obtain ⟨es, hes⟩ := hes
  have hsame : ∀ {d}, Agree (Kept w.manifest) w.dir d →
      OnDisk env d w.manifest ∧ listedEntries env d = some es := by
    intro d hd
    have hd' := hready.onDisk.same_of_agree hd
    exact ⟨hd'.onDisk, (hd'.listedEntries hready.onDisk).trans hes⟩
  rw [Compaction.run_eq] at hrun
  cases hselect : k.select w.manifest with
  | none =>
      rw [hselect] at hrun
      cases hrun
      exact ⟨hready.onDisk, ⟨es, hes, ⟨[], (List.append_nil _).symm, by simp⟩, es, hes,
        List.Perm.refl _⟩, fun _ s hs => by cases hs⟩
  | some s =>
      rw [hselect] at hrun
      have hroom := hroom s hselect
      have hspec := executeCompaction_kept hready hroom hselect
      cases r with
      | error e =>
          have hquiet := (hspec.error rfl hrun).1
          refine ⟨?_, ⟨es, hes, hquiet.throughout.mono fun d hd =>
            ⟨es, (hsame hd).2, List.Perm.refl _⟩⟩, by simp⟩
          obtain ⟨id, hid⟩ := hquiet.manifest
          rw [hid]
          exact (hsame hquiet.dir).1
      | ok u =>
          obtain ⟨merged, w₁, hcompacted⟩ := hspec.ok rfl hrun
          obtain ⟨hbuilding, hpublishing, hdisk⟩ := hcompacted.publication hready.onDisk hroom
          refine ⟨hdisk, ⟨es, hes, ?_⟩, fun _ s' hs' => ?_⟩
          · refine (hbuilding.mono fun d hd => ⟨es, (hsame hd).2, List.Perm.refl _⟩).trans
              (hpublishing.mono fun d hd => ?_)
            rcases hd with hold | hnew
            · exact ⟨es, (hold.listedEntries hready.onDisk).trans hes, List.Perm.refl _⟩
            · exact hcompacted.listedEntries_perm hready hselect hes hnew
          · cases hs'
            refine ⟨Compacted.outputs env w targetFileSize merged, fun t ht => ?_, ?_,
              hcompacted.fileLists_eq.1⟩
            · exact ⟨hcompacted.stored_outputs ht, mem_outputs (hcompacted.sorted).2 ht⟩
            · rw [Compacted.allEntries_outputs]
              exact hcompacted.sorted

/-! ## Table ids -/

/-- The manifest of a database with two tables and a next table id. -/
def twoLevels (nextSstableId : UInt32) : Manifest where
  wals := [0]
  levels := [⟨[⟨1, 0, Key.new [97] 2, Key.new [98] 3⟩]⟩, ⟨[⟨0, 0, Key.new [99] 1, Key.new [99] 1⟩]⟩]
  nextWalId := 1
  nextSstableId := nextSstableId
  version := 0

/-- The files of the database: the table of level 0 has two entries, that of level 1 has one. -/
def twoLevelsDir : Dir := ofFiles [
  (.mf 0, (twoLevels 2).encode crc32),
  (.wal 0, Wal.magicBytes),
  (.sst 1, (writeTable crates [(Key.new [97] 2, .bytes []), (Key.new [98] 3, .bytes [])]).1),
  (.sst 0, (writeTable crates [(Key.new [99] 1, .bytes [])]).1)] (by decide)

/-- The state of the database. -/
def twoTables (nextSstableId : UInt32) : World where
  dir := twoLevelsDir
  faults := []
  trace := []
  manifest := twoLevels nextSstableId
  current := {
    nextLsn := 1
    mutableMemtable := Memtable.new
    frozenMemtables := []
    mutableWal := ⟨0, 1, []⟩
    sstables := [
      [⟨openedTable crates 1 [(Key.new [97] 2, .bytes []), (Key.new [98] 3, .bytes [])], 2⟩],
      [⟨openedTable crates 0 [(Key.new [99] 1, .bytes [])], 3⟩]] }
  nextLsn := 4

theorem tableEntries_twoLevels :
    tableEntries crates twoLevelsDir 1 =
      some [(Key.new [97] 2, .bytes []), (Key.new [98] 3, .bytes [])] ∧
    tableEntries crates twoLevelsDir 0 = some [(Key.new [99] 1, .bytes [])] :=
  ⟨@stored_writtenTable crates twoLevelsDir 1
      [(Key.new [97] 2, .bytes []), (Key.new [98] 3, .bytes [])] (by decide) (by decide)
      (read_ofFiles _ (i := 2) rfl),
    @stored_writtenTable crates twoLevelsDir 0 [(Key.new [99] 1, .bytes [])] (by decide) (by decide)
      (read_ofFiles _ (i := 3) rfl)⟩

theorem compactReady_twoTables {nextSstableId : UInt32} (h : 1 < nextSstableId) :
    CompactReady defaultEnv (twoTables nextSstableId) where
  onDisk := by
    have hnewest : Manifest.newestVersion twoLevelsDir = some 0 := by decide
    exact onDisk_of_read (show (twoLevels 2).Fits by decide) hnewest rfl
  nodup := show [1, 0].Nodup by decide
  ids := by
    show ∀ id ∈ [1, 0], id < nextSstableId
    simp only [List.forall_mem_cons, List.not_mem_nil, false_imp_iff, implies_true, and_true]
    refine ⟨h, ?_⟩
    rw [UInt32.lt_iff_toNat_lt] at h ⊢
    exact Nat.lt_of_succ_lt h
  ordered := by
    show ∀ id ∈ [1, 0], ∃ es, tableEntries crates twoLevelsDir id = some es ∧ KeyOrdered es
    simp only [List.forall_mem_cons, List.not_mem_nil, false_imp_iff, implies_true, and_true]
    exact ⟨⟨_, tableEntries_twoLevels.1, by decide⟩, ⟨_, tableEntries_twoLevels.2, by decide⟩⟩

/-- The table of level 0, which is merged with none of level 1. -/
def oneTable : Selection := ⟨0, [⟨1, 0, Key.new [97] 2, Key.new [98] 3⟩], []⟩

theorem select_twoTables (nextSstableId : UInt32) :
    Compaction.l0.select (twoTables nextSstableId).manifest = some oneTable := by
  show Compaction.l0.select (twoLevels 2) = _
  decide +kernel

theorem allEntries_oneTable : allEntries (oneTable.tables crates twoLevelsDir) =
    [(Key.new [97] 2, .bytes []), (Key.new [98] 3, .bytes [])] := by
  simp only [allEntries, Selection.tables, Selection.all, oneTable, List.append_nil, List.map_cons,
    List.map_nil, tableOf, tableEntries_twoLevels.1, Option.getD_some, List.flatten_cons,
    List.flatten_nil]

/-- The entries of the table have one order. -/
theorem sortedMerge_oneTable {merged : List Entry}
    (h : SortedMerge (allEntries (oneTable.tables crates twoLevelsDir)) merged) :
    merged = [(Key.new [97] 2, .bytes []), (Key.new [98] 3, .bytes [])] := by
  rw [allEntries_oneTable] at h
  exact SortedMerge.eq ⟨List.Perm.refl _, by decide⟩ h (by decide)

theorem compactRoom_twoTables : CompactRoom defaultEnv (twoTables 2) 0 oneTable where
  ids := by
    intro merged hmerged
    obtain rfl := sortedMerge_oneTable hmerged
    rw [cutOutputs_zero]
    decide
  tables := by
    intro merged hmerged
    obtain rfl := sortedMerge_oneTable hmerged
    show ∀ es ∈ cutOutputs crates 0 _, TableFits crates es
    rw [cutOutputs_zero]
    decide
  version := by decide
  manifest := by
    intro merged hmerged c hc
    obtain rfl := sortedMerge_oneTable hmerged
    cases hc
    decide +kernel

theorem compaction_keeps_entries_two_tables :
    let w := twoTables 2
    let w' := (Compaction.l0.run defaultEnv 0 w).2
    OnDisk defaultEnv w'.dir w'.manifest ∧
    (∃ es, listedEntries defaultEnv w.dir = some es ∧
      Throughout (fun d => ∃ es', listedEntries defaultEnv d = some es' ∧ es'.Perm es) w w') ∧
    ((Compaction.l0.run defaultEnv 0 w).1 = .ok () →
      ∀ s, Compaction.l0.select w.manifest = some s → ∃ outs : List Table,
      (∀ t ∈ outs, Stored crates w'.dir t ∧ KeyOrdered t.entries ∧
        firstKey t.entries = some t.meta'.minKey ∧ lastKey t.entries = some t.meta'.maxKey) ∧
      SortedMerge (allEntries (s.tables crates w.dir)) (allEntries outs) ∧
      fileLists w'.manifest = Levels.replace (fun f => hasId s.fromSource f.fileId)
        (fun f => hasId s.fromTarget f.fileId) (fun a b => a.minKey ≤ b.minKey) s.sourceLevelIdx
        (outs.map Table.meta') (fileLists w.manifest)) :=
  compaction_keeps_entries defaultEnv (twoTables 2) (Compaction.l0.run defaultEnv 0 (twoTables 2)).2
    .l0 0 (Compaction.l0.run defaultEnv 0 (twoTables 2)).1 (compactReady_twoTables (by decide))
    (fun _ hs => Option.some.inj ((select_twoTables 2).symm.trans hs) ▸ compactRoom_twoTables)
    Prod.mk.eta.symm

/-- When the ids run over, the second output of a compaction replaces the table with the id 0, and
the entry of that one is lost. -/
theorem compaction_overwrites_table : ¬ ∀ (env : Env) (w w' : World) (k : Compaction)
    (targetFileSize : UInt64) (r : Except DbError Unit), CompactReady env w →
    k.run env targetFileSize w = (r, w') → ∀ es, listedEntries env w.dir = some es →
    Throughout (fun d => ∃ es', listedEntries env d = some es' ∧ es'.Perm es) w w' := by
  intro hall
  let w := twoTables 0xffffffff
  -- the outputs get the ids 2 ^ 32 - 1 and 0
  let keep : FileName → Prop := fun n => n ≠ .sst 0xffffffff ∧ n ≠ .sst 0 ∧ ∀ v, n ≠ .mfTmp v
  have hready : CompactReady defaultEnv w := compactReady_twoTables (by decide)
  have hroom : MergeRoom defaultEnv keep w 0
      (allEntries (oneTable.tables crates twoLevelsDir)) 2 := by
    refine ⟨⟨fun i hi hkeep => ?_, by decide⟩, fun merged hmerged => ?_,
      compactRoom_twoTables.tables⟩
    · rcases i with _ | _ | i
      · exact hkeep.1 rfl
      · have hnext : (0xffffffff : UInt32) + UInt32.ofNat 1 = 0 := by decide
        exact hkeep.2.1 (congrArg FileName.sst hnext)
      · omega
    · obtain rfl := sortedMerge_oneTable hmerged
      rw [cutOutputs_zero]
      decide
  obtain ⟨hstored, hordered⟩ := hready.selected (select_twoTables _)
  have hids : ∀ f ∈ oneTable.all, FileName.sst f.fileId ≠ .sst 0xffffffff ∧
      FileName.sst f.fileId ≠ .sst 0 := by decide
  have hspec := @executeCompaction_spec defaultEnv keep w 0 oneTable 2 hstored hordered
    (fun f hf => ⟨(hids f hf).1, (hids f hf).2, by simp⟩) (fun v hkeep => hkeep.2.2 v rfl) hroom
  have hes : listedEntries defaultEnv w.dir = some [(Key.new [97] 2, .bytes []),
      (Key.new [98] 3, .bytes []), (Key.new [99] 1, .bytes [])] := by
    refine (listedEntries_eq_some hready.onDisk).mpr ⟨?_, ?_⟩
    · show ∀ id ∈ [1, 0], (tableEntries crates twoLevelsDir id).isSome
      simp [tableEntries_twoLevels]
    · show _ = [1, 0].flatMap fun id => (tableEntries crates twoLevelsDir id).getD []
      simp [tableEntries_twoLevels]
  rcases hrun : Compaction.l0.run defaultEnv 0 w with ⟨r, w'⟩
  have hexecute := hrun
  rw [Compaction.run_eq, select_twoTables] at hexecute
  cases r with
  | error e => exact (hspec.error rfl hexecute).2 rfl
  | ok u =>
      obtain ⟨merged, w₁, hcompacted⟩ := hspec.ok rfl hexecute
      obtain rfl := sortedMerge_oneTable hcompacted.sorted
      have hdisk : OnDisk defaultEnv w'.dir w'.manifest := by
        obtain ⟨newFiles, hs, hmerged, hpublished⟩ := hcompacted
        have hdisk₁ := hready.onDisk.of_agree (hmerged.built.quiet.dir.mono
          (by rintro n ⟨v, rfl⟩; exact ⟨by simp, by simp, by simp⟩))
        refine (hpublished.phases ?_ (compactMutator_keepsCounters _ _ _ _) ?_ ?_).2
        · rw [hmerged.manifest]
          exact hdisk₁
        · rw [hmerged.manifest]
          decide
        · intro c hc
          rw [hmerged.manifest, hmerged.newFiles] at hc
          cases hc
          decide +kernel
      obtain ⟨_, es', hes', hperm⟩ := hall _ _ _ _ _ _ hready hrun _ hes
      obtain ⟨_, rfl⟩ := (listedEntries_eq_some hdisk).mp hes'
      have hkept := hperm.mem_iff.mpr (show (Key.new [99] 1, .bytes []) ∈ [_, _, _] by simp)
      obtain ⟨id, hid, hin⟩ := List.mem_flatMap.mp hkept
      -- only the outputs are listed, and none has the entry
      have hids : id ∈ (Compacted.outputs defaultEnv w 0 [(Key.new [97] 2, .bytes []),
          (Key.new [98] 3, .bytes [])]).map fun t => t.meta'.fileId := by
        rw [sstableIds_eq, hcompacted.fileLists_eq.1] at hid
        have hlisted : (Levels.replace (fun f => hasId oneTable.fromSource f.fileId)
            (fun f => hasId oneTable.fromTarget f.fileId) (fun a b => a.minKey ≤ b.minKey)
            oneTable.sourceLevelIdx ((Compacted.outputs defaultEnv w 0 [(Key.new [97] 2, .bytes []),
              (Key.new [98] 3, .bytes [])]).map Table.meta') (fileLists w.manifest)).flatten.map
            FileMetadata.fileId = [0xffffffff, 0, 0] := by decide +kernel
        have houtputs : ((Compacted.outputs defaultEnv w 0 [(Key.new [97] 2, .bytes []),
            (Key.new [98] 3, .bytes [])]).map fun t => t.meta'.fileId) = [0xffffffff, 0] := by
          decide +kernel
        have hid' : id ∈ [0xffffffff, 0, 0] := hlisted ▸ hid
        rw [houtputs]
        simpa using hid'
      obtain ⟨t, ht, rfl⟩ := List.mem_map.mp hids
      have hstored := hcompacted.stored_outputs ht
      rw [Stored] at hstored
      rw [hstored, Option.getD_some] at hin
      have hentries : t.entries ∈ cutOutputs crates 0 [(Key.new [97] 2, .bytes []),
          (Key.new [98] 3, .bytes [])] := by
        obtain ⟨i, es, hi, rfl⟩ := mem_writtenTables.mp ht
        exact List.mem_of_getElem? hi
      rw [cutOutputs_zero] at hentries
      have hno : ∀ es ∈ [(Key.new [97] 2, Value.bytes []), (Key.new [98] 3, .bytes [])].map
          fun e => [e], (Key.new [99] 1, Value.bytes []) ∉ es := by decide
      exact hno _ hentries hin

end EasyLsm.Db
