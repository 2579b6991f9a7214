import Mathlib.Data.List.Basic
import EasyLsm.Db.LevelOrder

/-!
# Shallower levels are newer

`shallower_newer`: in a session whose calls of `compact_ln` behind level 0 take a table that has no
key in common with the rest of its level, every level holds newer versions than the levels behind
it. The first table of a level that has such a key takes the newer version along and leaves the
older one.
-/

namespace EasyLsm.Db

open Lib Lib.FileStore Lib.Versions

variable {env : Env} {w w' : World} {shelf shelf' : List (List (OpenTable env.crates))}
  {writes : List Entry}

/-- The entries of a listed file. -/
def fileEntries (env : Env) (w : World) (f : FileMetadata) : List Entry :=
  (tableOf env.crates w.dir f).entries

/-- Every table can be read, and every level holds newer versions than the levels behind it. -/
structure ShallowerNewer (env : Env) (w : World) : Prop where
  readable : ∀ id ∈ w.manifest.sstableIds, (tableEntries env.crates w.dir id).isSome
  newer : ∀ i j, i < j → ∀ f ∈ levelFiles w.manifest i, ∀ g ∈ levelFiles w.manifest j,
    Older (fileEntries env w g) (fileEntries env w f)

/-- Behind level 0, `compact_ln` takes a table that has no key in common with the rest of its
level. -/
def TakesAlone (env : Env) (w : World) : Command → Prop
  | .structural (.compactLn levelIdx _) => 0 < levelIdx → ∀ candidate rest,
      levelFiles w.manifest levelIdx = candidate :: rest →
      ∀ f ∈ rest, Apart (fileEntries env w candidate) (fileEntries env w f)
  | _ => True

/-- The commands that keep shallower levels newer. -/
def DescentAllowed (env : Env) (w : World) (command : Command) : Prop :=
  Room env w command ∧ TakesAlone env w command

namespace Shelved

/-- The entries of a file of a level. -/
theorem fileEntries_meta (h : Shelved env w shelf) {t : OpenTable env.crates}
    (ht : t ∈ shelf.flatten) : fileEntries env w t.meta' = t.entries := by
  show (tableEntries env.crates w.dir t.fileId).getD [] = t.entries
  rw [(h.filed t ht).tableEntries]
  rfl

/-- The tables are in order when the shelf is. -/
theorem shallowerNewer_iff (h : Shelved env w shelf) :
    ShallowerNewer env w ↔ Descending OpenTable.entries shelf := by
  have hentries : ∀ {t i}, t ∈ Levels.get shelf i → fileEntries env w t.meta' = t.entries :=
    fun ht => h.fileEntries_meta (mem_flatten ht)
  have hlevels := h.levelFiles
  constructor
  · intro hnewer i j hij t ht u hu
    have holder := hnewer.newer i j hij t.meta' (hlevels i ▸ List.mem_map_of_mem ht) u.meta'
      (hlevels j ▸ List.mem_map_of_mem hu)
    rwa [hentries ht, hentries hu] at holder
  · refine fun hdescending => ⟨fun id hid => ?_, fun i j hij f hf g hg => ?_⟩
    · rw [h.sstableIds] at hid
      obtain ⟨t, ht, rfl⟩ := List.mem_map.mp hid
      exact Option.isSome_of_eq_some (h.filed t ht).tableEntries
    · rw [hlevels] at hf hg
      obtain ⟨t, ht, rfl⟩ := List.mem_map.mp hf
      obtain ⟨u, hu, rfl⟩ := List.mem_map.mp hg
      rw [hentries ht, hentries hu]
      exact hdescending i j hij t ht u hu

/-- The tables of the source level that are taken, and those that stay, when one is selected. -/
theorem takes_candidate (h : Shelved env w shelf) {levelIdx : Nat} {s : Selection}
    (hselect : (Compaction.ln levelIdx).select w.manifest = some s) :
    ∃ t rest, Levels.get shelf levelIdx = t :: rest ∧ s.sourceLevelIdx = levelIdx ∧
      s.fromSource = [t.meta'] ∧ ∀ a ∈ Levels.get shelf levelIdx,
        (s.takesSource a = true → a = t) ∧ (s.takesSource a = false → a ∈ rest) := by
  have hfiles := h.levelFiles levelIdx
  simp only [Compaction.select] at hselect
  split at hselect
  · cases hselect
  · rename_i candidate files hlevel
    rw [hlevel] at hfiles
    cases hget : Levels.get shelf levelIdx with
    | nil =>
        rw [hget] at hfiles
        cases hfiles
    | cons t rest =>
        rw [hget, List.map_cons] at hfiles
        obtain ⟨rfl, _⟩ := List.cons.inj hfiles
        cases hselect
        have hmem : ∀ {a}, a ∈ t :: rest → a ∈ shelf.flatten :=
          fun ha => mem_flatten (hget.symm ▸ ha)
        refine ⟨t, rest, rfl, rfl, rfl, fun a ha => ⟨fun htaken => ?_, fun hstays => ?_⟩⟩
        · obtain ⟨f, hf, heq⟩ := List.mem_map.mp (hasId_iff.mp htaken)
          rw [List.mem_singleton.mp hf] at heq
          exact h.eq_of_fileId (hmem ha) (hmem List.mem_cons_self) heq.symm
        · rcases List.mem_cons.mp ha with rfl | ha
          · have htaken : hasId [a.meta'] a.fileId = true :=
              hasId_iff.mpr (List.mem_singleton_self _)
            rw [Selection.takesSource, htaken] at hstays
            cases hstays
          · exact ha

end Shelved

/-- The tables that are taken are older than those that stay in their level. -/
theorem Arranged.taken_older (h : Arranged env w shelf writes) {k : Compaction} {s : Selection}
    {targetFileSize : UInt64} (hselect : k.select w.manifest = some s)
    (halone : TakesAlone env w (k.command targetFileSize)) :
    ∀ a ∈ Levels.get shelf s.sourceLevelIdx, s.takesSource a = true →
      ∀ b ∈ Levels.get shelf s.sourceLevelIdx, s.takesSource b = false →
        Older a.entries b.entries := by
  intro a ha htaken b hb hstays
  cases k with
  | l0 =>
      -- all of level 0 is taken
      have hsource : s.fromSource = levelFiles w.manifest 0 ∧ s.sourceLevelIdx = 0 := by
        simp only [Compaction.select] at hselect
        split at hselect
        · cases hselect
          exact ⟨rfl, rfl⟩
        · cases hselect
      rw [hsource.2] at hb
      have htaken' : s.takesSource b = true := by
        refine (h.layout.shelved.takes_iff hselect (Shelved.mem_flatten hb)).1.mpr ?_
        rw [hsource.1, h.layout.shelved.levelFiles]
        exact List.mem_map_of_mem hb
      rw [htaken'] at hstays
      cases hstays
  | ln levelIdx =>
      obtain ⟨t, rest, hget, rfl, _, htakes⟩ := h.layout.shelved.takes_candidate hselect
      obtain rfl := (htakes a ha).1 htaken
      have hb' := (htakes b hb).2 hstays
      by_cases hzero : s.sourceLevelIdx = 0
      · have hlevel0 := h.level0
        rw [← hzero, hget] at hlevel0
        exact (List.pairwise_cons.mp hlevel0).1 b hb'
      · have hfiles := h.layout.shelved.levelFiles s.sourceLevelIdx
        rw [hget, List.map_cons] at hfiles
        have hapart :=
          halone (Nat.pos_of_ne_zero hzero) _ _ hfiles b.meta' (List.mem_map_of_mem hb')
        rw [h.layout.shelved.fileEntries_meta (Shelved.mem_flatten ha),
          h.layout.shelved.fileEntries_meta (Shelved.mem_flatten hb)] at hapart
        exact hapart.older

/-- A command keeps shallower levels newer. -/
theorem Arranged.descending_step (h : Arranged env w shelf writes) {command : Command}
    (hdescending : Descending OpenTable.entries shelf) (halone : TakesAlone env w command)
    (houtcome : Outcome env w shelf command w' shelf') : Descending OpenTable.entries shelf' := by
  cases houtcome with
  | put | putRotated | rotated | notFlushed | notCompacted => exact hdescending
  | flushed _ hentries =>
      refine hdescending.push fun r hr j _ b hb => ?_
      refine h.tables b (Shelved.mem_flatten hb) r.entries (List.mem_append_left _ ?_)
      rw [← hentries]
      exact List.mem_map_of_mem hr
  | compacted hselect _ _ _ hrewrites =>
      exact hdescending.replace (h.taken_older hselect halone) hrewrites

/-- When shallower levels are newer after a `compact_ln`, then it has taken a table that has no key
in common with the rest of its level. -/
theorem Arranged.takesAlone_of_descending (h : Arranged env w shelf writes)
    (hordered : LevelsOrdered shelf) {k : Compaction} {targetFileSize : UInt64}
    (houtcome : Outcome env w shelf (k.command targetFileSize) w' shelf')
    (hdescending : Descending OpenTable.entries shelf') :
    TakesAlone env w (k.command targetFileSize) := by
  cases k with
  | l0 => trivial
  | ln levelIdx =>
      intro hpos candidate files hfiles f hf x hx y hy heq
      obtain ⟨s, hselect⟩ : ∃ s, (Compaction.ln levelIdx).select w.manifest = some s := by
        simp only [Compaction.select, hfiles]
        exact ⟨_, rfl⟩
      obtain ⟨t, rest, hget, rfl, _, htakes⟩ := h.layout.shelved.takes_candidate hselect
      have hlevel := h.layout.shelved.levelFiles s.sourceLevelIdx
      rw [hfiles, hget, List.map_cons] at hlevel
      obtain ⟨rfl, rfl⟩ := List.cons.inj hlevel
      obtain ⟨u, hu, rfl⟩ := List.mem_map.mp hf
      have ht : t ∈ Levels.get shelf s.sourceLevelIdx := hget ▸ List.mem_cons_self
      have hu' : u ∈ Levels.get shelf s.sourceLevelIdx := hget ▸ List.mem_cons_of_mem t hu
      rw [h.layout.shelved.fileEntries_meta (Shelved.mem_flatten ht)] at hx
      rw [h.layout.shelved.fileEntries_meta (Shelved.mem_flatten hu')] at hy
      -- the table is before the other one, so it has the newer version
      have hless : t.meta'.maxKey < u.meta'.minKey := by
        have hpairs := hordered s.sourceLevelIdx hpos
        rw [hget] at hpairs
        exact (List.pairwise_cons.mp hpairs).1 u hu
      have hxy : x.1 < y.1 := lt_of_le_of_lt (t.key_bounds hx).2
        (lt_of_lt_of_le hless (u.key_bounds hy).1)
      have hnewer : y.1.lsn ≤ x.1.lsn := (Key.le_iff_of_bytes_eq heq).mp (le_of_lt hxy)
      obtain ⟨merged, new, w₁, rfl, hentries, hdone, _⟩ := houtcome.exists_compacted hselect
      have htaken : s.takesSource t = true := by
        by_contra hstays
        have hself := (htakes t ht).2 (Bool.not_eq_true _ ▸ hstays)
        have hpairs := hordered s.sourceLevelIdx hpos
        rw [hget] at hpairs
        exact absurd ((List.pairwise_cons.mp hpairs).1 t hself) (not_lt.mpr t.min_le_max)
      have hstays : s.takesSource u = false := by
        refine Bool.eq_false_iff.mpr fun htaken => ?_
        rw [(htakes u hu').1 htaken] at hless
        exact absurd hless (not_lt.mpr t.min_le_max)
      obtain ⟨r, hr, hxr⟩ := mem_outputs_of_taken h.layout.shelved hselect hentries hdone
        (List.mem_append_left _ (List.mem_filter.mpr ⟨ht, htaken⟩)) hx
      have hmoved : r ∈ Levels.get (s.replace new shelf) (s.sourceLevelIdx + 1) := by
        rw [Selection.replace, Levels.get_replace, if_neg (Nat.succ_ne_self _), if_pos rfl,
          List.mem_insertionSort]
        exact List.mem_append_right _ hr
      have holder := hdescending _ _ (Nat.lt_succ_self _) u
        (mem_get_replace_source.mpr ⟨hu', hstays⟩) r hmoved x hxr y hy heq
      exact absurd (UInt64.lt_iff_toNat_lt.mpr holder) (UInt64.not_lt.mpr hnewer)

/-- A command keeps shallower levels newer exactly when it takes a table that has no key in common
with the rest of its level. -/
theorem Arranged.descending_step_iff (h : Arranged env w shelf writes)
    (hordered : LevelsOrdered shelf)
    (hdescending : Descending OpenTable.entries shelf) {command : Command}
    (houtcome : Outcome env w shelf command w' shelf') :
    Descending OpenTable.entries shelf' ↔ TakesAlone env w command := by
  refine ⟨fun hafter => ?_, fun halone => h.descending_step hdescending halone houtcome⟩
  cases command with
  | put => trivial
  | structural op =>
      cases op with
      | compactLn levelIdx targetFileSize =>
          exact h.takesAlone_of_descending (k := .ln levelIdx) hordered houtcome hafter
      | _ => trivial

/-- As long as behind level 0 only tables are compacted that have no key in common with the rest of
their level, shallower levels are newer. So the first level with a key holds its newest version. The
first command that does otherwise leaves a level with an older version than the next one. -/
theorem shallower_newer (env : Env) (w : World) (writes : List Entry)
    (h : Session env (DescentAllowed env) w writes) :
    ShallowerNewer env w ∧
    (∀ i, ∀ f ∈ levelFiles w.manifest i, ∀ e ∈ fileEntries env w f,
      (∀ j < i, ∀ g ∈ levelFiles w.manifest j, ∀ x ∈ fileEntries env w g, x.1.bytes ≠ e.1.bytes) →
      ∀ j, ∀ g ∈ levelFiles w.manifest j, ∀ x ∈ fileEntries env w g, x.1.bytes = e.1.bytes →
        j ≠ i → x.1.lsn < e.1.lsn) ∧
    ∀ command w', Room env w command → command.run env w = (.ok (), w') →
      (ShallowerNewer env w' ↔ TakesAlone env w command) := by
  obtain ⟨shelf, harranged, hdescending, hordered⟩ := h.invariant
    (P := fun _ shelf => Descending OpenTable.entries shelf ∧ LevelsOrdered shelf)
    (fun _ _ hallowed => hallowed.1)
    (fun _ _ => ⟨fun _ _ _ _ ha => absurd ha List.not_mem_nil, fun _ _ => .nil⟩)
    fun harranged hinv hallowed houtcome _ =>
      ⟨harranged.descending_step hinv.1 hallowed.2 houtcome,
        harranged.levelsOrdered_step hinv.2 houtcome⟩
  have hnewer := harranged.layout.shelved.shallowerNewer_iff.mpr hdescending
  refine ⟨hnewer, fun i f hf e he hfirst j g hg x hx hbytes hne => ?_,
    fun command w' hroom hrun => ?_⟩
  · rcases Nat.lt_or_gt_of_ne hne with hlt | hgt
    · exact absurd hbytes (hfirst j hlt g hg x hx)
    · exact UInt64.lt_iff_toNat_lt.mpr (hnewer.newer i j hgt f hf g hg x hx e he hbytes)
  · obtain ⟨shelf', houtcome, hlayout⟩ := harranged.layout.step hroom hrun
    rw [hlayout.shelved.shallowerNewer_iff]
    exact harranged.descending_step_iff hordered hdescending houtcome

/-! ## A cut between two versions -/

/-- A compaction of tables whose entries are in order writes them again, cut into pieces. -/
theorem Shelved.rewrites (h : Shelved env w shelf) {k : Compaction} {s : Selection}
    {targetFileSize : UInt64} {es : List Entry} (ts : List (OpenTable env.crates))
    (pieces : List (List Entry)) (hfaults : w.faults = []) (hselect : k.select w.manifest = some s)
    (hts : ∀ t ∈ ts, t ∈ shelf.flatten) (hall : s.all = ts.map OpenTable.meta')
    (hes : ts.flatMap OpenTable.entries = es) (hordered : KeyOrdered es)
    (hnodup : (es.map Prod.fst).Nodup) (hpieces : cutOutputs env.crates targetFileSize es = pieces)
    (hfits : ∀ piece ∈ pieces, TableFits env.crates piece)
    (hids : ∀ id ∈ w.manifest.sstableIds, id < w.manifest.nextSstableId)
    (hroom : w.manifest.nextSstableId.toNat + pieces.length < 2 ^ 32) :
    CompactionRoom env w targetFileSize k ∧
    (∀ merged, SortedMerge (allEntries (s.tables env.crates w.dir)) merged → merged = es) ∧
    ∃ (w' : World) (new : List (OpenTable env.crates)),
      k.run env targetFileSize w = (.ok (), w') ∧ new.map OpenTable.entries = pieces ∧
      Shelved env w' (s.replace new shelf) ∧ w'.faults = [] ∧
      (∀ id ∈ w'.manifest.sstableIds, id < w'.manifest.nextSstableId) ∧
      w'.manifest.nextSstableId = w.manifest.nextSstableId + UInt32.ofNat pieces.length := by
  have hinputs := h.allEntries_eq hts hall
  rw [hes] at hinputs
  have hmerged : ∀ merged, SortedMerge (allEntries (s.tables env.crates w.dir)) merged →
      merged = es := by
    intro merged hsorted
    rw [hinputs] at hsorted
    exact SortedMerge.eq ⟨.refl _, hordered⟩ hsorted hnodup
  have hmerge : MergeRoom env (Kept w.manifest) w targetFileSize
      (allEntries (s.tables env.crates w.dir)) (2 ^ 32 - w.manifest.nextSstableId.toNat) := by
    refine ⟨fresh_of_below hids, fun merged hsorted => ?_, fun merged hsorted => ?_⟩
    · rw [hmerged merged hsorted, hpieces]
      omega
    · rw [hmerged merged hsorted, hpieces]
      exact hfits
  refine ⟨fun s' hs' => ?_, hmerged, ?_⟩
  · rw [hselect] at hs'
    exact ⟨_, Option.some.inj hs' ▸ hmerge⟩
  have hspec := h.executes hselect hmerge
  have hrun := k.run_eq env targetFileSize w
  rw [hselect] at hrun
  simp only at hrun
  rcases hexec : executeCompaction env s.sourceLevelIdx s.all s.fromSource s.fromTarget
      targetFileSize w with ⟨e | _, w'⟩
  · exact absurd hfaults (hspec.error rfl hexec).2
  · obtain ⟨merged, new, w₁, hentries, _, hdone, hshelved⟩ := hspec.ok rfl hexec
    obtain rfl := hmerged merged hdone.sorted
    rw [hpieces] at hentries
    refine ⟨w', new, hrun.trans hexec, hentries, hshelved, hdone.faults hfaults, fun id hid => ?_,
      ?_⟩
    · exact hdone.below hids (hpieces.symm ▸ hroom) id hid
    · rw [hdone.nextSstableId, hpieces]

/-- A new database after two puts and a rotation. -/
def twoEntries (key : Bytes) : World :=
  (rotateMemtable defaultEnv (put defaultEnv key (.bytes [2])
    (put defaultEnv [97] (.bytes [1]) (pristine defaultEnv)).2).2).2

/-- The versions of a key that is put twice, the newer one first. -/
def newerVersion : Entry := (Key.new [97] 2, .bytes [2])

def olderVersion : Entry := (Key.new [97] 1, .bytes [1])

/-- An entry with a larger key. -/
def otherEntry : Entry := (Key.new [98] 2, .bytes [2])

theorem apart_otherEntry : Apart [olderVersion] [otherEntry] := by
  intro x hx y hy
  rw [List.mem_singleton.mp hx, List.mem_singleton.mp hy]
  decide

section

variable {allowed : World → Command → Prop} {x y : Entry} {t t₁ t₂ : OpenTable defaultEnv.crates}

/-- The second of the two puts can be of the same key or of a larger one. -/
theorem session_twoEntries {key : Bytes} (hkey : key = [97] ∨ key = [98])
    (hput : ∀ w key value, Room defaultEnv w (.put key value) → value ≠ .tombstone →
      allowed w (.put key value))
    (hrotate : ∀ w, allowed w (.structural .rotateMemtable)) :
    Session defaultEnv allowed (twoEntries key) [olderVersion, (Key.new key 2, .bytes [2])] := by
  have hstart : Session defaultEnv allowed (pristine defaultEnv) [] := .start [] []
  have hfirst := hstart.step (.put [97] (.bytes [1]))
    (hput _ _ _ (show (1 : UInt64).toNat + 1 < 2 ^ 64 by decide) (by decide)) (run_of_ok rfl)
  have hsecond := hfirst.step (.put key (.bytes [2]))
    (hput _ _ _ (show (2 : UInt64).toNat + 1 < 2 ^ 64 by decide) (by decide))
    (run_of_ok (by rcases hkey with rfl | rfl <;> rfl))
  exact hsecond.step (.structural .rotateMemtable) (hrotate _)
    (run_of_ok (by rcases hkey with rfl | rfl <;> rfl))

/-- A flush writes both entries to a table. -/
theorem exists_flushed {key : Bytes} {es : List Entry} (hkey : key = [97] ∨ key = [98])
    (hes : ((Memtable.new.putBatch [olderVersion, (Key.new key 2, .bytes [2])]).freeze).iter = es)
    (hput : ∀ w key value, Room defaultEnv w (.put key value) → value ≠ .tombstone →
      allowed w (.put key value))
    (hrotate : ∀ w, allowed w (.structural .rotateMemtable))
    (hflush : Room defaultEnv (twoEntries key) (.structural .flushMemtables) →
      allowed (twoEntries key) (.structural .flushMemtables)) :
    ∃ (w : World) (t : OpenTable defaultEnv.crates),
      Session defaultEnv allowed w [olderVersion, (Key.new key 2, .bytes [2])] ∧
      Shelved defaultEnv w [[t]] ∧ t.entries = es ∧ w.faults = [] ∧
      (∀ id ∈ w.manifest.sstableIds, id < w.manifest.nextSstableId) ∧
      w.manifest.nextSstableId = 1 := by
  have hsession := session_twoEntries hkey hput hrotate
  have hfrozen : (twoEntries key).current.frozenMemtables = [((Memtable.new).putBatch
      [olderVersion, (Key.new key 2, .bytes [2])]).freeze] := by rcases hkey with rfl | rfl <;> rfl
  have hids : (twoEntries key).manifest.sstableIds = [] := by rcases hkey with rfl | rfl <;> rfl
  have hnext : (twoEntries key).manifest.nextSstableId = 0 := by rcases hkey with rfl | rfl <;> rfl
  have hfaults : (twoEntries key).faults = [] := by rcases hkey with rfl | rfl <;> rfl
  have hwals : (twoEntries key).manifest.wals.length = 2 := by
    rcases hkey with rfl | rfl <;> decide +kernel
  have hshelved : Shelved defaultEnv (twoEntries key) [] := by
    rcases hkey with rfl | rfl <;> exact ⟨rfl, rfl, by simp, List.nodup_nil⟩
  have hfits : FlushFits defaultEnv.crates (twoEntries key) := by
    constructor <;> rw [hfrozen] <;> rcases hkey with rfl | rfl <;> decide
  have hne : ∀ memtable ∈ (twoEntries key).current.frozenMemtables, memtable.iter ≠ [] := by
    rw [hfrozen]
    rcases hkey with rfl | rfl <;> decide
  have hfresh : ∀ t ∈ flushTables defaultEnv.crates (twoEntries key),
      t.meta'.fileId ∉ (twoEntries key).manifest.sstableIds := by
    intro t _
    rw [hids]
    exact List.not_mem_nil
  have hrun := flush_run hfits hfaults (by rw [hwals, hfrozen]; exact Nat.le_succ 1) hne
  obtain ⟨new, w₁, hs, hentries, hmetas, hdone, hflushed⟩ :=
    hshelved.flushed hfits hfresh (by rw [hfrozen]; exact List.cons_ne_nil _ _) hrun
  rw [hfrozen] at hentries
  obtain ⟨t, rfl, ht⟩ := List.map_eq_singleton_iff.mp hentries
  have hnext' := hdone.nextSstableId
  rw [hnext] at hnext'
  have hid : t.fileId = 0 := by
    rw [flushTables, hfrozen, hnext] at hmetas
    exact congrArg FileMetadata.fileId (List.cons.inj hmetas).1
  refine ⟨_, t, hsession.step (.structural .flushMemtables) (hflush ⟨hfits, hfresh⟩) hrun, hflushed,
    ht.trans hes, hdone.published.faults (hdone.built.quiet.faults hfaults), fun id hid' => ?_,
      hnext'⟩
  have hlisted := hflushed.sstableIds
  rw [hlisted] at hid'
  have heq : id = t.fileId := List.mem_singleton.mp hid'
  rw [heq, hid, hnext']
  decide

/-- A compaction of level 0 with the target size 0 writes each of two entries to a table of its
own. -/
theorem exists_cut {w : World} {writes : List Entry}
    (hsession : Session defaultEnv allowed w writes)
    (hshelved : Shelved defaultEnv w [[t]]) (ht : t.entries = [x, y]) (hless : x.1 < y.1)
    (hfits : ∀ piece ∈ [[x], [y]], TableFits crates piece) (hfaults : w.faults = [])
    (hids : ∀ id ∈ w.manifest.sstableIds, id < w.manifest.nextSstableId)
    (hnext : w.manifest.nextSstableId = 1)
    (hcompact : CompactionRoom defaultEnv w 0 .l0 →
      Compaction.l0.select w.manifest = some ⟨0, [t.meta'], []⟩ →
      (∀ merged, SortedMerge
        (allEntries (Selection.tables ⟨0, [t.meta'], []⟩ crates w.dir)) merged →
        merged = [x, y]) → allowed w (.structural (.compactL0 0))) :
    ∃ (w' : World) (t₁ t₂ : OpenTable defaultEnv.crates), Session defaultEnv allowed w' writes ∧
      Shelved defaultEnv w' [[], [t₁, t₂]] ∧ t₁.entries = [x] ∧ t₂.entries = [y] ∧ w'.faults = [] ∧
      (∀ id ∈ w'.manifest.sstableIds, id < w'.manifest.nextSstableId) ∧
      w'.manifest.nextSstableId = 3 := by
  have hselect : Compaction.l0.select w.manifest = some ⟨0, [t.meta'], []⟩ := by
    have h0 : levelFiles w.manifest 0 = [t.meta'] := hshelved.levelFiles 0
    have h1 : levelFiles w.manifest 1 = [] := hshelved.levelFiles 1
    simp only [Compaction.select, h0, h1]
    rfl
  have hordered : KeyOrdered [x, y] :=
    List.pairwise_pair.mpr hless.le
  have hnodup : ([x, y].map Prod.fst).Nodup := by simp [hless.ne]
  obtain ⟨hroom, hmerged, w', new, hrun, hnew, hshelved', hfaults', hids', hnext'⟩ :=
    hshelved.rewrites [t] [[x], [y]] hfaults hselect (by simp) rfl (by simp [ht]) hordered hnodup
      (cutOutputs_zero _ [x, y]) hfits hids
      (by rw [hnext]; exact show 1 + 2 < 2 ^ 32 by decide)
  obtain ⟨t₁, rest, rfl, h₁, hrest⟩ := List.map_eq_cons_iff.mp hnew
  obtain ⟨t₂, rfl, h₂⟩ := List.map_eq_singleton_iff.mp hrest
  have hsession' := hsession.step (.structural (.compactL0 0)) (hcompact hroom hselect hmerged) hrun
  rw [show writes ++ (Command.structural (.compactL0 0)).written w = writes from
    List.append_nil _] at hsession'
  refine ⟨w', t₁, t₂, hsession', ?_, h₁, h₂, hfaults', hids', ?_⟩
  · have hgone : hasId [t.meta'] t.fileId = true := hasId_iff.mpr (List.mem_singleton_self _)
    have hle : t₁.meta'.minKey ≤ t₂.meta'.minKey := by
      rw [t₁.minKey_meta, t₂.minKey_meta]
      simp only [h₁, h₂, List.head_cons]
      exact hless.le
    have hreplace : (⟨0, [t.meta'], []⟩ : Selection).replace [t₁, t₂] [[t]] = [[], [t₁, t₂]] := by
      simp [Selection.replace, Levels.replace, Levels.padTo, Selection.takesSource, hgone, hle]
    rwa [hreplace] at hshelved'
  · rw [hnext', hnext]
    rfl

/-- `compact_ln` with the target size 0 moves the first of two tables of level 1 to level 2. -/
theorem exists_moved {w : World} {writes : List Entry}
    (hsession : Session defaultEnv allowed w writes)
    (hshelved : Shelved defaultEnv w [[], [t₁, t₂]]) (h₁ : t₁.entries = [x])
    (hfits : TableFits crates [x]) (hfaults : w.faults = [])
    (hids : ∀ id ∈ w.manifest.sstableIds, id < w.manifest.nextSstableId)
    (hnext : w.manifest.nextSstableId = 3)
    (hcompact : CompactionRoom defaultEnv w 0 (.ln 1) → allowed w (.structural (.compactLn 1 0))) :
    ∃ (w' : World) (t₃ : OpenTable defaultEnv.crates), Session defaultEnv allowed w' writes ∧
      Shelved defaultEnv w' [[], [t₂], [t₃]] ∧ t₃.entries = [x] := by
  have hselect : (Compaction.ln 1).select w.manifest = some ⟨1, [t₁.meta'], []⟩ := by
    have h1 : levelFiles w.manifest 1 = [t₁.meta', t₂.meta'] := hshelved.levelFiles 1
    have h2 : levelFiles w.manifest (1 + 1) = [] := hshelved.levelFiles 2
    simp only [Compaction.select, h1, h2]
    rfl
  obtain ⟨hroom, _, w', new, hrun, hnew, hshelved', _⟩ :=
    hshelved.rewrites [t₁] [[x]] hfaults hselect (by simp) rfl (by simp [h₁])
      (List.pairwise_singleton _ _) (List.nodup_singleton _) (cutOutputs_zero _ [x])
      (List.forall_mem_singleton.mpr hfits) hids
      (by rw [hnext]; exact show 3 + 1 < 2 ^ 32 by decide)
  obtain ⟨t₃, rfl, h₃⟩ := List.map_eq_singleton_iff.mp hnew
  have hsession' := hsession.step (.structural (.compactLn 1 0)) (hcompact hroom) hrun
  rw [show writes ++ (Command.structural (.compactLn 1 0)).written w = writes from
    List.append_nil _] at hsession'
  refine ⟨w', t₃, hsession', ?_, h₃⟩
  have hgone : hasId [t₁.meta'] t₁.fileId = true := hasId_iff.mpr (List.mem_singleton_self _)
  have hstays : hasId [t₁.meta'] t₂.fileId = false := by
    refine Bool.eq_false_iff.mpr fun hsame => ?_
    have heq : t₂.fileId = t₁.fileId := List.mem_singleton.mp (hasId_iff.mp hsame)
    have hnodup : [t₁.fileId, t₂.fileId].Nodup := hshelved.nodup
    exact (List.nodup_cons.mp hnodup).1 (heq ▸ List.mem_singleton_self _)
  have hreplace : (⟨1, [t₁.meta'], []⟩ : Selection).replace [t₃] [[], [t₁, t₂]] =
      [[], [t₂], [t₃]] := by
    simp [Selection.replace, Levels.replace, Levels.padTo, Selection.takesSource, hgone, hstays]
  rwa [hreplace] at hshelved'

end

theorem shallower_newer_moved : ∃ (w : World) (f g : FileMetadata), levelFiles w.manifest 1 = [f] ∧
    levelFiles w.manifest 2 = [g] ∧ fileEntries defaultEnv w f = [otherEntry] ∧
    fileEntries defaultEnv w g = [olderVersion] ∧ ShallowerNewer defaultEnv w := by
  obtain ⟨w, t, hsession, hshelved, ht, hfaults, hids, hnext⟩ :=
    @exists_flushed (DescentAllowed defaultEnv) [98] [olderVersion, otherEntry] (.inr rfl) rfl
      (fun _ _ _ hroom _ => ⟨hroom, trivial⟩) (fun _ => ⟨trivial, trivial⟩)
      fun hroom => ⟨hroom, trivial⟩
  obtain ⟨w, t₁, t₂, hsession, hshelved, h₁, h₂, hfaults, hids, hnext⟩ :=
    exists_cut hsession hshelved ht (by decide) (by decide) hfaults hids hnext
      fun hroom _ _ => ⟨hroom, trivial⟩
  -- the table that is taken and the one that is left have different keys
  have halone : TakesAlone defaultEnv w (.structural (.compactLn 1 0)) := by
    intro _ candidate rest hfiles f hf
    rw [hshelved.levelFiles] at hfiles
    obtain ⟨rfl, rfl⟩ := List.cons.inj hfiles
    obtain rfl := List.mem_singleton.mp hf
    rw [hshelved.fileEntries_meta (by simp), hshelved.fileEntries_meta (by simp), h₁, h₂]
    exact apart_otherEntry
  obtain ⟨w, t₃, hsession, hshelved, h₃⟩ :=
    exists_moved hsession hshelved h₁ (by decide) hfaults hids hnext fun hroom => ⟨hroom, halone⟩
  refine ⟨w, t₂.meta', t₃.meta', hshelved.levelFiles 1, hshelved.levelFiles 2, ?_, ?_,
    (shallower_newer defaultEnv w _ hsession).1⟩
  · rw [hshelved.fileEntries_meta (by simp), h₂]
  · rw [hshelved.fileEntries_meta (by simp), h₃]

/-- A key is put twice, flushed, and compacted to two tables of level 1. Then `compact_ln` moves the
newer version to level 2 and leaves the older one. -/
theorem compact_ln_leaves_older : ¬ ∀ (env : Env) (w : World) (writes : List Entry),
    Session env (Room env) w writes → ShallowerNewer env w := by
  intro hall
  obtain ⟨w, t, hsession, hshelved, ht, hfaults, hids, hnext⟩ :=
    @exists_flushed (Room defaultEnv) [97] [newerVersion, olderVersion] (.inl rfl) rfl
      (fun _ _ _ hroom _ => hroom) (fun _ => trivial) fun hroom => hroom
  obtain ⟨w, t₁, t₂, hsession, hshelved, h₁, h₂, hfaults, hids, hnext⟩ :=
    exists_cut hsession hshelved ht (by decide) (by decide) hfaults hids hnext fun hroom _ _ =>
      hroom
  obtain ⟨w, t₃, hsession, hshelved, h₃⟩ :=
    exists_moved hsession hshelved h₁ (by decide) hfaults hids hnext fun hroom => hroom
  -- the newer version is behind the older one
  have holder := (hall defaultEnv w _ hsession).newer 1 2 (by decide) t₂.meta'
    (by rw [hshelved.levelFiles]; exact List.mem_singleton_self _) t₃.meta'
    (by rw [hshelved.levelFiles]; exact List.mem_singleton_self _)
  rw [hshelved.fileEntries_meta (by simp), hshelved.fileEntries_meta (by simp), h₂, h₃] at holder
  exact absurd (holder newerVersion (List.mem_singleton_self _) olderVersion
    (List.mem_singleton_self _) rfl) (by decide)

end EasyLsm.Db
