import Mathlib.Data.List.Basic
import EasyLsm.Db.Session

/-!
# The key ranges of a level

Behind level 0 the tables of a level are in order: the largest key of a table is smaller than the
smallest key of the next one (`LevelsOrdered`). A compaction takes all the tables of the target
level whose range meets that of the source tables, and puts the sorted merge, cut into pieces, in
their place. These are keys with LSNs, so two tables can still have versions of one user key.
-/

namespace EasyLsm.Db

open Lib Lib.FileStore Lib.Versions

variable {env : Env} {w w' : World} {shelf shelf' : List (List (OpenTable env.crates))}
  {writes : List Entry}

/-- The range of the selected files of the source level, which those of the target level meet. -/
theorem Compaction.select_range {k : Compaction} {m : Manifest} {s : Selection}
    (h : k.select m = some s) : ∃ low high,
      s.fromTarget = overlapping low high (levelFiles m (s.sourceLevelIdx + 1)) ∧
      ∀ f ∈ s.fromSource, low ≤ f.minKey ∧ f.maxKey ≤ high := by
  cases k with
  | l0 =>
      simp only [Compaction.select] at h
      split at h
      · rename_i low high hmin hmax
        cases h
        refine ⟨low, high, rfl, fun f hf => ⟨?_, ?_⟩⟩
        · exact (List.min?_eq_some_iff.mp hmin).2 _ (List.mem_map_of_mem hf)
        · exact (List.max?_eq_some_iff.mp hmax).2 _ (List.mem_map_of_mem hf)
      · cases h
  | ln levelIdx =>
      simp only [Compaction.select] at h
      split at h
      · cases h
      · rename_i candidate rest _
        cases h
        refine ⟨candidate.minKey, candidate.maxKey, rfl, fun f hf => ?_⟩
        rw [List.mem_singleton.mp hf]
        exact ⟨le_refl _, le_refl _⟩

/-- The tables of a level are in order of their keys. -/
def TablesOrdered {c : Crates} (level : List (OpenTable c)) : Prop :=
  Ordered (fun t : OpenTable c => t.meta'.minKey) (fun t => t.meta'.maxKey) level

/-- Behind level 0 the tables are in order. -/
def LevelsOrdered {c : Crates} (shelf : List (List (OpenTable c))) : Prop :=
  ∀ i, 0 < i → TablesOrdered (Levels.get shelf i)

namespace Arranged

/-- The entries of a merge have different keys. -/
theorem merged_lt (h : Arranged env w shelf writes) {k : Compaction} {s : Selection}
    {merged : List Entry} (hselect : k.select w.manifest = some s)
    (hsorted : SortedMerge (allEntries (s.tables env.crates w.dir)) merged) :
    merged.Pairwise fun a b => a.1 < b.1 := by
  have hperm := hsorted.1.trans (h.layout.shelved.allEntries_perm hselect)
  have hstored := h.nodup
  rw [storedEntries, List.map_append, List.nodup_append] at hstored
  -- the tables that are taken are some of those of the shelf
  have hreplace : ((s.replace [] shelf).flatten ++ s.taken shelf).Perm (shelf.flatten ++ []) :=
    Levels.flatten_replace ..
  have hentries := (hreplace.flatMap_right OpenTable.entries).map Prod.fst
  rw [List.append_nil, List.flatMap_append, List.map_append] at hentries
  have hnodup : (merged.map Prod.fst).Nodup := (hperm.map Prod.fst).nodup_iff.mpr
    (List.nodup_append.mp (hentries.nodup_iff.mpr hstored.2.1)).2.1
  exact (hsorted.2.and (List.pairwise_map.mp hnodup)).imp fun hab => lt_of_le_of_ne hab.1 hab.2

/-- The pieces of a merge are in order. -/
theorem tablesOrdered_pieces {targetFileSize : UInt64} {merged : List Entry}
    {new : List (OpenTable env.crates)} (hlt : merged.Pairwise fun a b => a.1 < b.1)
    (hentries : new.map OpenTable.entries = cutOutputs env.crates targetFileSize merged) :
    TablesOrdered new := by
  have hflat := flatMap_outputs hentries
  rw [List.flatMap_def] at hflat
  rw [← hflat, List.pairwise_flatten, List.pairwise_map] at hlt
  refine hlt.2.imp fun {t u} htu => ?_
  obtain ⟨a, ha, hmax⟩ := t.exists_maxKey
  obtain ⟨b, hb, hmin⟩ := u.exists_minKey
  show t.meta'.maxKey < u.meta'.minKey
  rw [← hmax, ← hmin]
  exact htu a ha b hb

/-- A compaction keeps the target level in order. -/
theorem levelsOrdered_replace (h : Arranged env w shelf writes) (hordered : LevelsOrdered shelf)
    {k : Compaction} {s : Selection} {new : List (OpenTable env.crates)}
    (hselect : k.select w.manifest = some s)
    (hrewrites : Rewrites OpenTable.entries s.takesSource s.takesTarget s.sourceLevelIdx shelf new)
    (hnew : TablesOrdered new) : LevelsOrdered (s.replace new shelf) := by
  intro i hi
  rw [Selection.replace, Levels.get_replace]
  split
  · rename_i hsource
    exact (hsource ▸ hordered i hi).sublist List.filter_sublist
  · split
    · rename_i htarget
      obtain ⟨low, high, hoverlap, hrange⟩ := Compaction.select_range hselect
      have hgone : ∀ t ∈ Levels.get shelf (s.sourceLevelIdx + 1),
          s.takesTarget t = true ↔ low ≤ t.meta'.maxKey ∧ t.meta'.minKey ≤ high := by
        intro t ht
        rw [(h.layout.shelved.takes_iff hselect (Shelved.mem_flatten ht)).2, hoverlap, overlapping,
          List.mem_filter, h.layout.shelved.levelFiles]
        simp only [List.mem_map_of_mem ht, true_and, decide_eq_true_eq]
      have htaken : ∀ t ∈ (Levels.get shelf s.sourceLevelIdx).filter s.takesSource,
          low ≤ t.meta'.minKey ∧ t.meta'.maxKey ≤ high := by
        intro t ht
        obtain ⟨ht, htaken⟩ := List.mem_filter.mp ht
        exact hrange _ ((h.layout.shelved.takes_iff hselect (Shelved.mem_flatten ht)).1.mp htaken)
      refine (hordered (s.sourceLevelIdx + 1) (Nat.succ_pos _)).replace_overlapping
        (fun t _ => t.min_le_max) hgone htaken hnew fun t ht => ?_
      -- the entries of a new table are those of tables that are taken
      have hcover : ∀ e ∈ t.entries, ∃ p : OpenTable env.crates,
          (p ∈ (Levels.get shelf s.sourceLevelIdx).filter s.takesSource ∨
            p ∈ Levels.get shelf (s.sourceLevelIdx + 1) ∧ s.takesTarget p = true) ∧
          e ∈ p.entries := by
        intro e he
        rcases hrewrites t ht e he with ⟨p, hp, htaken, he⟩ | ⟨p, hp, htaken, he⟩
        · exact ⟨p, .inl (List.mem_filter.mpr ⟨hp, htaken⟩), he⟩
        · exact ⟨p, .inr ⟨hp, htaken⟩, he⟩
      obtain ⟨a, ha, hmin⟩ := t.exists_minKey
      obtain ⟨b, hb, hmax⟩ := t.exists_maxKey
      obtain ⟨p, hp, hap⟩ := hcover a ha
      obtain ⟨q, hq, hbq⟩ := hcover b hb
      refine ⟨t.min_le_max, ⟨p, hp, ?_⟩, q, hq, ?_⟩
      · rw [← hmin]
        exact (p.key_bounds hap).1
      · rw [← hmax]
        exact (q.key_bounds hbq).2
    · exact hordered i hi

/-- A command keeps the levels in order. -/
theorem levelsOrdered_step (h : Arranged env w shelf writes) {command : Command}
    (hordered : LevelsOrdered shelf) (houtcome : Outcome env w shelf command w' shelf') :
    LevelsOrdered shelf' := by
  cases houtcome with
  | put | putRotated | rotated | notFlushed | notCompacted => exact hordered
  | flushed =>
      intro i hi
      rw [Levels.get_push, if_neg (Nat.pos_iff_ne_zero.mp hi)]
      exact hordered i hi
  | compacted hselect hentries _ hdone hrewrites =>
      exact h.levelsOrdered_replace hordered hselect hrewrites
        (tablesOrdered_pieces (h.merged_lt hselect hdone.sorted) hentries)

end Arranged

end EasyLsm.Db
