import Mathlib.Data.List.Basic
import EasyLsm.Db.Descent

/-!
# No user key in two files

`levels_disjoint`: in a session, no user key occurs in two files of a level behind level 0 as long
as no compaction cuts its output between two versions of a user key, and none leaves a file of the
target level behind that has a user key of the merged ones. The overlap is decided on keys with LSNs
and the output is cut by its size, so both can happen.
-/

namespace EasyLsm.Db

open Lib Lib.FileStore Lib.Versions

variable {env : Env} {w w' : World} {shelf shelf' : List (List (OpenTable env.crates))}
  {writes : List Entry}

/-- Behind level 0 the files of a level are in order, and they have different user keys. -/
def LevelsDisjoint (env : Env) (w : World) : Prop :=
  ∀ i, 0 < i → (levelFiles w.manifest i).Pairwise fun f g =>
    f.minKey ≤ g.minKey ∧ compare f.maxKey.bytes g.minKey.bytes = .lt ∧
      Apart (fileEntries env w f) (fileEntries env w g)

/-- A compaction cuts its output between different user keys, and it takes every file of the target
level that has a user key of the merged ones. -/
def KeysTogether (env : Env) (w : World) (targetFileSize : UInt64) (k : Compaction) : Prop :=
  ∀ s, k.select w.manifest = some s →
    (∀ merged, SortedMerge (allEntries (s.tables env.crates w.dir)) merged →
      (cutOutputs env.crates targetFileSize merged).Pairwise Apart) ∧
    ∀ f ∈ levelFiles w.manifest (s.sourceLevelIdx + 1), f ∉ s.fromTarget → ∀ g ∈ s.all,
      Apart (fileEntries env w f) (fileEntries env w g)

/-- The compactions keep the versions of a user key together. -/
def KeepsKeysTogether (env : Env) (w : World) : Command → Prop
  | .structural (.compactL0 targetFileSize) => KeysTogether env w targetFileSize .l0
  | .structural (.compactLn levelIdx targetFileSize) =>
      KeysTogether env w targetFileSize (.ln levelIdx)
  | _ => True

/-- The commands that keep the files of a level disjoint. -/
def DisjointAllowed (env : Env) (w : World) (command : Command) : Prop :=
  Room env w command ∧ KeepsKeysTogether env w command

/-- Behind level 0 the tables of a level have different user keys. -/
def LevelsApart {c : Crates} (shelf : List (List (OpenTable c))) : Prop :=
  ∀ i, 0 < i → (Levels.get shelf i).Pairwise fun t u => Apart t.entries u.entries

/-- Tables in order with different user keys have different ranges of user keys. -/
theorem compare_maxKey_minKey {c : Crates} {t u : OpenTable c}
    (hless : t.meta'.maxKey < u.meta'.minKey) (hapart : Apart t.entries u.entries) :
    compare t.meta'.maxKey.bytes u.meta'.minKey.bytes = .lt := by
  obtain ⟨a, ha, hmax⟩ := t.exists_maxKey
  obtain ⟨b, hb, hmin⟩ := u.exists_minKey
  rw [← hmax, ← hmin] at hless ⊢
  rcases Key.lt_iff.mp hless with hlt | ⟨heq, _⟩
  · exact hlt
  · exact absurd heq (hapart a ha b hb)

namespace Shelved

/-- The files are disjoint when the tables are. -/
theorem levelsDisjoint_iff (h : Shelved env w shelf) (hordered : LevelsOrdered shelf) :
    LevelsDisjoint env w ↔ LevelsApart shelf := by
  refine forall₂_congr fun i hi => ?_
  rw [h.levelFiles, List.pairwise_map]
  have hentries : ∀ {t}, t ∈ Levels.get shelf i → fileEntries env w t.meta' = t.entries :=
    fun ht => h.fileEntries_meta (mem_flatten ht)
  constructor
  · refine fun hpairs => hpairs.imp_of_mem fun {t u} ht hu htu => ?_
    rw [hentries ht, hentries hu] at htu
    exact htu.2.2
  · refine fun hpairs => (hpairs.and (hordered i hi)).imp_of_mem fun {t u} ht hu htu => ?_
    rw [hentries ht, hentries hu]
    exact ⟨le_trans t.min_le_max (le_of_lt htu.2), compare_maxKey_minKey htu.2 htu.1, htu.1⟩

end Shelved

namespace Arranged

/-- The target level after a compaction. -/
theorem pairwise_apart_target {s : Selection} {new : List (OpenTable env.crates)} :
    (Levels.get (s.replace new shelf) (s.sourceLevelIdx + 1)).Pairwise
        (fun t u => Apart t.entries u.entries) ↔
      ((Levels.get shelf (s.sourceLevelIdx + 1)).filter fun t => !s.takesTarget t).Pairwise
          (fun t u => Apart t.entries u.entries) ∧
        (new.map OpenTable.entries).Pairwise Apart ∧
        ∀ t ∈ Levels.get shelf (s.sourceLevelIdx + 1), s.takesTarget t = false → ∀ u ∈ new,
          Apart t.entries u.entries := by
  have hsymm : ∀ {t u : OpenTable env.crates}, Apart t.entries u.entries →
      Apart u.entries t.entries := fun h => h.symm
  rw [Selection.replace, Levels.get_replace, if_neg (Nat.succ_ne_self _), if_pos rfl,
    (List.perm_insertionSort _ _).pairwise_iff hsymm, List.pairwise_append, List.pairwise_map]
  simp only [List.mem_filter, and_imp, Bool.not_eq_true']

/-- A compaction keeps the tables of a level apart exactly when it keeps the versions of a user key
together. -/
theorem levelsApart_compacted (h : Arranged env w shelf writes) (hapart : LevelsApart shelf)
    {k : Compaction} {targetFileSize : UInt64}
    (houtcome : Outcome env w shelf (k.command targetFileSize) w' shelf') :
    LevelsApart shelf' ↔ KeysTogether env w targetFileSize k := by
  cases hselect : k.select w.manifest with
  | none =>
      rw [houtcome.eq_of_select_none hselect]
      exact iff_of_true hapart fun s hs => by rw [hselect] at hs; cases hs
  | some s =>
  obtain ⟨merged, new, w₁, rfl, hentries, hdone, hrewrites⟩ := houtcome.exists_compacted hselect
  have hshelved := h.layout.shelved
  have hfile : ∀ {t}, t ∈ shelf.flatten → fileEntries env w t.meta' = t.entries :=
    fun ht => hshelved.fileEntries_meta ht
  have htarget := hshelved.levelFiles (s.sourceLevelIdx + 1)
  have hmem : ∀ {t}, t ∈ Levels.get shelf (s.sourceLevelIdx + 1) → t ∈ shelf.flatten :=
    Shelved.mem_flatten
  constructor
  · -- what is apart afterwards was kept together
    intro hafter s' hs'
    rw [hselect] at hs'
    cases hs'
    obtain ⟨_, hnew, hcross⟩ := pairwise_apart_target.mp (hafter _ (Nat.succ_pos _))
    refine ⟨fun merged' hmerged' => ?_, fun f hf hstays g hg x hx y hy heq => ?_⟩
    · have hlt := h.merged_lt hselect hdone.sorted
      have hnodup : (merged.map Prod.fst).Nodup :=
        List.pairwise_map.mpr (hlt.imp fun hab => ne_of_lt hab)
      have hsame := SortedMerge.eq hdone.sorted hmerged'
        ((hdone.sorted.1.map Prod.fst).nodup_iff.mp hnodup)
      rw [hsame, ← hentries]
      exact hnew
    · rw [htarget] at hf
      obtain ⟨t, ht, rfl⟩ := List.mem_map.mp hf
      obtain ⟨u, hu, rfl⟩ := List.mem_map.mp ((hshelved.taken_perm hselect).mem_iff.mpr hg)
      rw [hfile (hmem ht)] at hx
      rw [hfile (mem_of_mem_taken hu)] at hy
      have hfree : s.takesTarget t = false := Bool.eq_false_iff.mpr fun htaken =>
        hstays ((hshelved.takes_iff hselect (hmem ht)).2.mp htaken)
      obtain ⟨r, hr, hyr⟩ := mem_outputs_of_taken hshelved hselect hentries hdone hu hy
      exact hcross t ht hfree r hr x hx y hyr heq
  · intro hkeeps i hi
    obtain ⟨hcut, hrest⟩ := hkeeps s hselect
    by_cases hsource : i = s.sourceLevelIdx
    · subst hsource
      rw [Selection.replace, Levels.get_replace, if_pos rfl]
      exact (hapart _ hi).sublist List.filter_sublist
    · by_cases hi' : i = s.sourceLevelIdx + 1
      · subst hi'
        refine pairwise_apart_target.mpr ⟨(hapart _ hi).sublist List.filter_sublist, ?_, ?_⟩
        · rw [hentries]
          exact hcut merged hdone.sorted
        · intro t ht hfree r hr x hx y hy heq
          have hstays : t.meta' ∉ s.fromTarget := fun hmem' => by
            rw [(hshelved.takes_iff hselect (hmem ht)).2.mpr hmem'] at hfree
            cases hfree
          -- the entry comes from a table that is taken
          have htaken : ∃ u ∈ s.taken shelf, y ∈ u.entries := by
            rcases hrewrites r hr y hy with ⟨u, hu, htaken, hyu⟩ | ⟨u, hu, htaken, hyu⟩
            · exact ⟨u, List.mem_append_left _ (List.mem_filter.mpr ⟨hu, htaken⟩), hyu⟩
            · exact ⟨u, List.mem_append_right _ (List.mem_filter.mpr ⟨hu, htaken⟩), hyu⟩
          obtain ⟨u, hu, hyu⟩ := htaken
          have hselected := (hshelved.taken_perm hselect).mem_iff.mp (List.mem_map_of_mem hu)
          have hfiles := hrest t.meta' (htarget ▸ List.mem_map_of_mem ht) hstays u.meta' hselected
          rw [hfile (hmem ht), hfile (mem_of_mem_taken hu)] at hfiles
          exact hfiles x hx y hyu heq
      · rw [Selection.replace, get_replace_other hsource hi']
        exact hapart i hi

/-- A command keeps the tables of a level apart exactly when it keeps the versions of a user key
together. -/
theorem levelsApart_step (h : Arranged env w shelf writes) (hapart : LevelsApart shelf)
    {command : Command} (houtcome : Outcome env w shelf command w' shelf') :
    LevelsApart shelf' ↔ KeepsKeysTogether env w command := by
  have hother : (∀ (k : Compaction) targetFileSize, command ≠ k.command targetFileSize) →
      LevelsApart shelf' := fun hcommand i hi => by
    rw [houtcome.get_of_pos hcommand hi]
    exact hapart i hi
  cases command with
  | put => exact iff_of_true (hother fun k _ heq => by cases k <;> cases heq) trivial
  | structural op =>
      cases op with
      | rotateMemtable | flushMemtables =>
          exact iff_of_true (hother fun k _ heq => by cases k <;> cases heq) trivial
      | compactL0 => exact h.levelsApart_compacted (k := .l0) hapart houtcome
      | compactLn levelIdx => exact h.levelsApart_compacted (k := .ln levelIdx) hapart houtcome

end Arranged

/-- As long as the compactions keep the versions of a user key together, the files of a level behind
level 0 are in order and have different user keys. The first compaction that separates two versions
leaves a user key in two files. -/
theorem levels_disjoint (env : Env) (w : World) (writes : List Entry)
    (h : Session env (DisjointAllowed env) w writes) :
    LevelsDisjoint env w ∧
    ∀ command w', Room env w command → command.run env w = (.ok (), w') →
      (LevelsDisjoint env w' ↔ KeepsKeysTogether env w command) := by
  obtain ⟨shelf, harranged, hapart, hordered⟩ := h.invariant
    (P := fun _ shelf => LevelsApart shelf ∧ LevelsOrdered shelf) (fun _ _ hallowed => hallowed.1)
    (fun _ _ => ⟨fun _ _ => .nil, fun _ _ => .nil⟩)
    fun harranged hinv hallowed houtcome _ =>
      ⟨(harranged.levelsApart_step hinv.1 houtcome).mpr hallowed.2,
        harranged.levelsOrdered_step hinv.2 houtcome⟩
  refine ⟨(harranged.layout.shelved.levelsDisjoint_iff hordered).mpr hapart,
    fun command w' hroom hrun => ?_⟩
  obtain ⟨shelf', houtcome, hlayout⟩ := harranged.layout.step hroom hrun
  rw [hlayout.shelved.levelsDisjoint_iff (harranged.levelsOrdered_step hordered houtcome)]
  exact harranged.levelsApart_step hapart houtcome

theorem levels_disjoint_two_files : ∃ (w : World) (f g : FileMetadata),
    levelFiles w.manifest 1 = [f, g] ∧ fileEntries defaultEnv w f = [olderVersion] ∧
    fileEntries defaultEnv w g = [otherEntry] ∧ LevelsDisjoint defaultEnv w := by
  obtain ⟨w, t, hsession, hshelved, ht, hfaults, hids, hnext⟩ :=
    @exists_flushed (DisjointAllowed defaultEnv) [98] [olderVersion, otherEntry] (.inr rfl) rfl
      (fun _ _ _ hroom _ => ⟨hroom, trivial⟩) (fun _ => ⟨trivial, trivial⟩)
      fun hroom => ⟨hroom, trivial⟩
  -- the entries go to two tables, and level 1 is empty
  have hkeeps : Compaction.l0.select w.manifest = some ⟨0, [t.meta'], []⟩ →
      (∀ merged, SortedMerge
        (allEntries (Selection.tables ⟨0, [t.meta'], []⟩ crates w.dir)) merged →
        merged = [olderVersion, otherEntry]) → KeysTogether defaultEnv w 0 .l0 := by
    intro hselect hmerged s hs
    rw [hselect] at hs
    cases hs
    refine ⟨fun merged hsorted => ?_, fun f hf => ?_⟩
    · rw [hmerged merged hsorted, cutOutputs_zero]
      exact List.pairwise_pair.mpr apart_otherEntry
    · have h1 : levelFiles w.manifest 1 = [] := hshelved.levelFiles 1
      rw [h1] at hf
      cases hf
  obtain ⟨w, t₁, t₂, hsession, hshelved, h₁, h₂, _⟩ :=
    exists_cut hsession hshelved ht (by decide) (by decide) hfaults hids hnext
      fun hroom hselect hmerged => ⟨hroom, hkeeps hselect hmerged⟩
  refine ⟨w, t₁.meta', t₂.meta', hshelved.levelFiles 1, ?_, ?_,
    (levels_disjoint defaultEnv w _ hsession).1⟩
  · rw [hshelved.fileEntries_meta (by simp), h₁]
  · rw [hshelved.fileEntries_meta (by simp), h₂]

/-- A key is put twice, flushed, and compacted with the target size 0. Its versions go to two files
of level 1. -/
theorem compact_l0_cuts_versions : ¬ ∀ (env : Env) (w : World) (writes : List Entry),
    Session env (Room env) w writes → LevelsDisjoint env w := by
  intro hall
  obtain ⟨w, t, hsession, hshelved, ht, hfaults, hids, hnext⟩ :=
    @exists_flushed (Room defaultEnv) [97] [newerVersion, olderVersion] (.inl rfl) rfl
      (fun _ _ _ hroom _ => hroom) (fun _ => trivial) fun hroom => hroom
  obtain ⟨w, t₁, t₂, hsession, hshelved, h₁, h₂, _⟩ :=
    exists_cut hsession hshelved ht (by decide) (by decide) hfaults hids hnext fun hroom _ _ =>
      hroom
  have hdisjoint := hall defaultEnv w _ hsession 1 (by decide)
  rw [hshelved.levelFiles] at hdisjoint
  have hapart := (List.pairwise_cons.mp hdisjoint).1 t₂.meta' (List.mem_singleton_self _)
  rw [hshelved.fileEntries_meta (by simp), hshelved.fileEntries_meta (by simp), h₁, h₂] at hapart
  exact hapart.2.2 newerVersion (List.mem_singleton_self _) olderVersion (List.mem_singleton_self _)
    rfl

end EasyLsm.Db
