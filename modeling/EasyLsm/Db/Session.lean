import Mathlib.Data.List.Basic
import EasyLsm.Db.Layout

/-!
# Sessions

A session begins with a new database, and then writes, rotations, flushes and compactions succeed,
one after the other. Its tables and memtables hold what was written, and the memtables and the
tables of level 0 are in the order of the writes (`Arranged`). What is behind level 0 depends on the
compactions.
-/

namespace EasyLsm.Db

open Lib Lib.FileStore Lib.Versions

variable {env : Env} {w w' : World} {shelf shelf' : List (List (OpenTable env.crates))}
  {writes : List Entry}

/-- The states of a session whose commands are allowed and succeed, with the entries that were
written, the oldest first. Any I/O calls may fail, as long as the commands succeed. -/
inductive Session (env : Env) (allowed : World → Command → Prop) : World → List Entry → Prop
  | start (faults : List (Option Fault)) (trace : List Dir) :
      Session env allowed { pristine env with faults, trace } []
  | step {w w' : World} {writes : List Entry} (command : Command) :
      Session env allowed w writes → allowed w command → command.run env w = (.ok (), w') →
      Session env allowed w' (writes ++ command.written w)

/-- The entries of the memtables and of the tables. -/
def storedEntries (w : World) (shelf : List (List (OpenTable env.crates))) : List Entry :=
  (memtableRuns w.current).flatten ++ shelf.flatten.flatMap OpenTable.entries

/-- The memtables and the tables hold what was written, in order up to level 0. -/
structure Arranged (env : Env) (w : World) (shelf : List (List (OpenTable env.crates)))
    (writes : List Entry) : Prop where
  layout : Layout env w shelf
  stored : (storedEntries w shelf).Perm writes
  lsns : ∀ e ∈ writes, e.1.lsn < w.nextLsn
  increasing : writes.Pairwise fun a b => a.1.lsn < b.1.lsn
  memtables : (memtableRuns w.current).Pairwise Older
  level0 : (Levels.get shelf 0).Pairwise fun a b => Older a.entries b.entries
  tables : ∀ t ∈ shelf.flatten, ∀ es ∈ memtableRuns w.current, Older t.entries es

/-! ## What is stored -/

theorem mem_storedEntries {e : Entry} : e ∈ storedEntries w shelf ↔
    (∃ es ∈ memtableRuns w.current, e ∈ es) ∨ ∃ t ∈ shelf.flatten, e ∈ t.entries := by
  rw [storedEntries, List.mem_append, List.mem_flatten, List.mem_flatMap]

/-- A flush moves entries from memtables to tables. -/
theorem storedEntries_flushed {new : List (OpenTable env.crates)} {w₁ : World}
    {hs : List TableHandle}
    (hentries : new.map OpenTable.entries = w.current.frozenMemtables.map Memtable.iter)
    (hdone : FlushDone env w w₁ hs w') :
    (storedEntries w' (Levels.push new shelf)).Perm (storedEntries w shelf) := by
  have hpush := (Levels.flatten_push new shelf).flatMap_right OpenTable.entries
  have hruns : memtableRuns w.current =
      new.map OpenTable.entries ++ [w.current.mutableMemtable.store.entries] := by
    rw [hentries]
    rfl
  rw [List.flatMap_append, ← Multiset.coe_eq_coe, ← Multiset.coe_add] at hpush
  unfold storedEntries
  rw [hdone.memtableRuns, hruns, List.flatten_append, ← List.flatMap_def, ← Multiset.coe_eq_coe]
  simp only [← Multiset.coe_add, hpush]
  abel

/-- The tables of the outputs hold the merge. -/
theorem flatMap_outputs {targetFileSize : UInt64} {merged : List Entry}
    {new : List (OpenTable env.crates)}
    (hentries : new.map OpenTable.entries = cutOutputs env.crates targetFileSize merged) :
    new.flatMap OpenTable.entries = merged := by
  rw [List.flatMap_def, hentries, cutOutputs, Cut.flatten_cut]

/-- A compaction moves entries from tables to tables. -/
theorem storedEntries_compacted (h : Shelved env w shelf) {k : Compaction} {s : Selection}
    {targetFileSize : UInt64} {merged : List Entry} {new : List (OpenTable env.crates)} {w₁ : World}
    (hselect : k.select w.manifest = some s)
    (hentries : new.map OpenTable.entries = cutOutputs env.crates targetFileSize merged)
    (hdone : Compacted env (Kept w.manifest) w targetFileSize s merged w₁ w') :
    (storedEntries w' (s.replace new shelf)).Perm (storedEntries w shelf) := by
  have hreplace : ((s.replace new shelf).flatten ++ s.taken shelf).Perm (shelf.flatten ++ new) :=
    Levels.flatten_replace ..
  have hperm := hreplace.flatMap_right OpenTable.entries
  rw [List.flatMap_append, List.flatMap_append, flatMap_outputs hentries] at hperm
  -- the merge has the entries of the tables that are taken
  have hmerged := hdone.sorted.1.trans (h.allEntries_perm hselect)
  unfold storedEntries
  rw [hdone.memtableRuns]
  refine List.Perm.append_left _ ((List.perm_append_right_iff
    ((s.taken shelf).flatMap OpenTable.entries)).mp ?_)
  exact hperm.trans (hmerged.append_left _)

/-- A compaction adds nothing to level 0. -/
theorem Selection.replace_level0 {c : Crates} (s : Selection) (new : List (OpenTable c))
    (shelf : List (List (OpenTable c))) :
    (Levels.get (s.replace new shelf) 0).Sublist (Levels.get shelf 0) := by
  rw [Selection.replace, Levels.get_replace]
  split
  · rename_i hsource
    rw [← hsource]
    exact List.filter_sublist
  · rw [if_neg (Nat.succ_ne_zero _).symm]

/-- A flush: there was nothing to flush, or it has put new tables into level 0. -/
theorem Outcome.flush_cases
    (h : Outcome env w shelf (.structural .flushMemtables) w' shelf') :
    (w.current.frozenMemtables = [] ∧ w' = w ∧ shelf' = shelf) ∨
    ∃ (new : List (OpenTable env.crates)) (w₁ : World) (hs : List TableHandle),
      shelf' = Levels.push new shelf ∧
      new.map OpenTable.entries = w.current.frozenMemtables.map Memtable.iter ∧
      FlushDone env w w₁ hs w' := by
  generalize hcommand : Command.structural .flushMemtables = command at h
  cases h with
  | put | putRotated | rotated => cases hcommand
  | notFlushed hempty => exact .inl ⟨hempty, rfl, rfl⟩
  | flushed _ hentries _ hdone => exact .inr ⟨_, _, _, rfl, hentries, hdone⟩
  | @notCompacted k | @compacted k => cases k <;> cases hcommand

/-- A compaction that has selected something. -/
theorem Outcome.exists_compacted {k : Compaction} {targetFileSize : UInt64} {s : Selection}
    (h : Outcome env w shelf (k.command targetFileSize) w' shelf')
    (hselect : k.select w.manifest = some s) :
    ∃ (merged : List Entry) (new : List (OpenTable env.crates)) (w₁ : World),
      shelf' = s.replace new shelf ∧
      new.map OpenTable.entries = cutOutputs env.crates targetFileSize merged ∧
      Compacted env (Kept w.manifest) w targetFileSize s merged w₁ w' ∧
      Rewrites OpenTable.entries s.takesSource s.takesTarget s.sourceLevelIdx shelf new := by
  generalize hcommand : k.command targetFileSize = command at h
  have hsame : ∀ {k'} {size : UInt64}, k.command targetFileSize = Compaction.command size k' →
      k = k' ∧ targetFileSize = size := by
    intro k' size heq
    cases k <;> cases k' <;> cases heq <;> exact ⟨rfl, rfl⟩
  cases h with
  | put | putRotated | rotated | notFlushed | flushed => cases k <;> cases hcommand
  | notCompacted hnone =>
      rw [← (hsame hcommand).1, hselect] at hnone
      cases hnone
  | compacted hselect' hentries _ hdone hrewrites =>
      obtain ⟨rfl, rfl⟩ := hsame hcommand
      rw [hselect] at hselect'
      cases hselect'
      exact ⟨_, _, _, rfl, hentries, hdone, hrewrites⟩

/-- A compaction that has selected nothing. -/
theorem Outcome.eq_of_select_none {k : Compaction} {targetFileSize : UInt64}
    (h : Outcome env w shelf (k.command targetFileSize) w' shelf')
    (hselect : k.select w.manifest = none) : shelf' = shelf := by
  generalize hcommand : k.command targetFileSize = command at h
  cases h with
  | put | putRotated | rotated | notFlushed | flushed => cases k <;> cases hcommand
  | notCompacted => rfl
  | @compacted k' _ _ _ _ _ _ hselect' =>
      obtain rfl : k = k' := by cases k <;> cases k' <;> cases hcommand <;> rfl
      rw [hselect] at hselect'
      cases hselect'

/-- Only compactions change the levels behind level 0. -/
theorem Outcome.get_of_pos {command : Command} (h : Outcome env w shelf command w' shelf')
    (hcommand : ∀ (k : Compaction) targetFileSize, command ≠ k.command targetFileSize) {i : Nat}
    (hi : 0 < i) : Levels.get shelf' i = Levels.get shelf i := by
  cases h with
  | put | putRotated | rotated | notFlushed | notCompacted => rfl
  | flushed => rw [Levels.get_push, if_neg (Nat.pos_iff_ne_zero.mp hi)]
  | compacted => exact absurd rfl (hcommand _ _)

/-- The new tables of a compaction hold the entries of those that were taken. -/
theorem mem_outputs_of_taken (h : Shelved env w shelf) {k : Compaction} {s : Selection}
    {targetFileSize : UInt64} {merged : List Entry} {new : List (OpenTable env.crates)} {w₁ : World}
    (hselect : k.select w.manifest = some s)
    (hentries : new.map OpenTable.entries = cutOutputs env.crates targetFileSize merged)
    (hdone : Compacted env (Kept w.manifest) w targetFileSize s merged w₁ w')
    {t : OpenTable env.crates} (ht : t ∈ s.taken shelf) {e : Entry} (he : e ∈ t.entries) :
    ∃ u ∈ new, e ∈ u.entries := by
  have hmerged := hdone.sorted.1.trans (h.allEntries_perm hselect)
  refine List.mem_flatMap.mp ?_
  rw [flatMap_outputs hentries]
  exact hmerged.mem_iff.mpr (List.mem_flatMap.mpr ⟨t, ht, he⟩)

/-- The entries of the tables after a compaction were in tables before. -/
theorem mem_of_mem_replace {s : Selection} {new : List (OpenTable env.crates)}
    (hrewrites : Rewrites OpenTable.entries s.takesSource s.takesTarget s.sourceLevelIdx shelf new)
    {t : OpenTable env.crates} (ht : t ∈ (s.replace new shelf).flatten) {e : Entry}
    (he : e ∈ t.entries) : ∃ u ∈ shelf.flatten, e ∈ u.entries := by
  have hperm := Levels.flatten_replace (α := OpenTable env.crates) s.takesSource s.takesTarget
    (fun a b => a.meta'.minKey ≤ b.meta'.minKey) s.sourceLevelIdx new shelf
  rcases List.mem_append.mp (hperm.mem_iff.mp (List.mem_append_left _ ht)) with ht | ht
  · exact ⟨t, ht, he⟩
  · rcases hrewrites t ht e he with ⟨u, hu, _, he⟩ | ⟨u, hu, _, he⟩
    · exact ⟨u, Shelved.mem_flatten hu, he⟩
    · exact ⟨u, Shelved.mem_flatten hu, he⟩

/-! ## The invariant -/

namespace Arranged

theorem start (env : Env) (faults : List (Option Fault)) (trace : List Dir) :
    Arranged env { pristine env with faults, trace } [] [] where
  layout := .start env faults trace
  stored := .nil
  lsns e he := by cases he
  increasing := .nil
  memtables := List.pairwise_singleton _ _
  level0 := .nil
  tables t ht := by cases ht

/-- What is stored was written before. -/
theorem lsn_lt (h : Arranged env w shelf writes) {e : Entry}
    (he : (∃ es ∈ memtableRuns w.current, e ∈ es) ∨ ∃ t ∈ shelf.flatten, e ∈ t.entries) :
    e.1.lsn < w.nextLsn := h.lsns e (h.stored.mem_iff.mp (mem_storedEntries.mpr he))

/-- No two stored entries have the same key and LSN. -/
theorem nodup (h : Arranged env w shelf writes) :
    ((storedEntries w shelf).map Prod.fst).Nodup := by
  refine (h.stored.map Prod.fst).nodup_iff.mpr ?_
  refine List.pairwise_map.mpr (h.increasing.imp fun {a b} hlt heq => ?_)
  rw [heq] at hlt
  exact UInt64.lt_irrefl _ hlt

/-- An entry is written to the log and inserted into the memtable. -/
theorem inserted (h : Arranged env w shelf writes) (key : Bytes) (value : Value)
    (hroom : w.nextLsn.toNat + 1 < 2 ^ 64) :
    Arranged env (Db.inserted env w (Key.new key w.nextLsn, value)) shelf
      (writes ++ [(Key.new key w.nextLsn, value)]) := by
  let e : Entry := (Key.new key w.nextLsn, value)
  let mem := w.current.mutableMemtable.store.entries
  let mem' := (w.current.mutableMemtable.recover e.1 e.2).store.entries
  let frozen := w.current.frozenMemtables.map Memtable.iter
  have hruns : memtableRuns w.current = frozen ++ [mem] := rfl
  have hruns' : memtableRuns (Db.inserted env w e).current = frozen ++ [mem'] := rfl
  have hlsn : e.1.lsn = w.nextLsn := rfl
  have hnext : (Db.inserted env w e).nextLsn = w.nextLsn + 1 := rfl
  have hsucc : (w.nextLsn + 1).toNat = w.nextLsn.toNat + 1 := by
    rw [UInt64.toNat_add, Nat.mod_eq_of_lt (by simpa using hroom)]
    rfl
  have hmemRun : mem ∈ memtableRuns w.current := by simp [hruns]
  -- the new entry is the only one with its key
  have hmem : ∀ x, x ∈ mem' ↔ x = e ∨ x ∈ mem := by
    refine fun x => Memtable.mem_recover.trans
      (or_congr_right (and_iff_left_of_imp fun hx heq => ?_))
    have hless := h.lsn_lt (.inl ⟨mem, hmemRun, hx⟩)
    rw [heq, hlsn] at hless
    exact absurd hless (UInt64.lt_irrefl _)
  have holder : ∀ as : List Entry, (∀ a ∈ as, a.1.lsn < w.nextLsn) → Older as mem →
      Older as mem' := by
    intro as has hold a ha b hb heq
    rcases (hmem b).mp hb with rfl | hb
    · exact UInt64.lt_iff_toNat_lt.mp (has a ha)
    · exact hold a ha b hb heq
  have hpairs := h.memtables
  rw [hruns, List.pairwise_append] at hpairs
  refine ⟨h.layout.inserted e, ?_, fun x hx => ?_, ?_, ?_, h.level0, fun t ht es hes => ?_⟩
  · have hperm : mem'.Perm (e :: mem) := by
      refine (List.perm_ext_iff_of_nodup (Memtable.nodup_entries _) (List.nodup_cons.mpr
        ⟨fun he => ?_, Memtable.nodup_entries _⟩)).mpr fun x => (hmem x).trans List.mem_cons.symm
      exact absurd (h.lsn_lt (.inl ⟨mem, hmemRun, he⟩)) (UInt64.lt_irrefl _)
    have hstored := h.stored
    unfold storedEntries at hstored ⊢
    rw [hruns']
    rw [hruns] at hstored
    rw [← Multiset.coe_eq_coe] at hperm hstored ⊢
    simp only [List.flatten_append, List.flatten_cons, List.flatten_nil, List.append_nil,
      ← Multiset.coe_add] at hstored ⊢
    rw [hperm, ← hstored, ← Multiset.cons_coe, ← Multiset.singleton_add, ← Multiset.coe_singleton]
    abel
  · rw [hnext, UInt64.lt_iff_toNat_lt, hsucc]
    rcases List.mem_append.mp hx with hx | hx
    · have hless := UInt64.lt_iff_toNat_lt.mp (h.lsns x hx)
      omega
    · rw [List.mem_singleton.mp hx]
      exact Nat.lt_succ_self _
  · refine List.pairwise_append.mpr ⟨h.increasing, List.pairwise_singleton _ _, fun a ha b hb => ?_⟩
    rw [List.mem_singleton.mp hb]
    exact h.lsns a ha
  · rw [hruns']
    refine List.pairwise_append.mpr ⟨hpairs.1, List.pairwise_singleton _ _, fun as has bs hbs => ?_⟩
    rw [List.mem_singleton.mp hbs]
    refine holder as (fun a ha => h.lsn_lt (.inl ⟨as, ?_, ha⟩)) (hpairs.2.2 as has mem (by simp))
    rw [hruns]
    exact List.mem_append_left _ has
  · rw [hruns'] at hes
    rcases List.mem_append.mp hes with hes | hes
    · exact h.tables t ht es (by rw [hruns]; exact List.mem_append_left _ hes)
    · rw [List.mem_singleton.mp hes]
      exact holder t.entries (fun a ha => h.lsn_lt (.inr ⟨t, ht, ha⟩)) (h.tables t ht mem hmemRun)

/-- A rotation adds an empty memtable. -/
theorem rotated (h : Arranged env w shelf writes) (hrotated : Rotated env w w') :
    Arranged env w' shelf writes := by
  have hruns := hrotated.memtableRuns
  have hnil : ∀ as : List Entry, Older as [] := older_nil
  refine ⟨h.layout.rotated hrotated, ?_, ?_, h.increasing, ?_, h.level0, fun t ht es hes => ?_⟩
  · unfold storedEntries
    rw [hruns, List.flatten_append, List.flatten_singleton, List.append_nil]
    exact h.stored
  · rw [hrotated.nextLsn]
    exact h.lsns
  · rw [hruns]
    refine List.pairwise_append.mpr
      ⟨h.memtables, List.pairwise_singleton _ _, fun as _ bs hbs => ?_⟩
    rw [List.mem_singleton.mp hbs]
    exact hnil as
  · rw [hruns] at hes
    rcases List.mem_append.mp hes with hes | hes
    · exact h.tables t ht es hes
    · rw [List.mem_singleton.mp hes]
      exact hnil _

/-- A flush moves the frozen memtables to level 0. -/
theorem flushed (h : Arranged env w shelf writes) {new : List (OpenTable env.crates)} {w₁ : World}
    {hs : List TableHandle}
    (hentries : new.map OpenTable.entries = w.current.frozenMemtables.map Memtable.iter)
    (hdone : FlushDone env w w₁ hs w') (hlayout : Layout env w' (Levels.push new shelf)) :
    Arranged env w' (Levels.push new shelf) writes := by
  let mem := w.current.mutableMemtable.store.entries
  have hruns : memtableRuns w.current = new.map OpenTable.entries ++ [mem] := by
    rw [hentries]
    rfl
  have hruns' : memtableRuns w'.current = [mem] := hdone.memtableRuns
  have hpairs := h.memtables
  rw [hruns, List.pairwise_append, List.pairwise_map] at hpairs
  obtain ⟨hpairs, _, hlast⟩ := hpairs
  refine ⟨hlayout, (storedEntries_flushed hentries hdone).trans h.stored, ?_, h.increasing, ?_, ?_,
    fun t ht es hes => ?_⟩
  · rw [hdone.nextLsn]
    exact h.lsns
  · rw [hruns']
    exact List.pairwise_singleton _ _
  · rw [Levels.get_push, if_pos rfl]
    refine List.pairwise_append.mpr ⟨h.level0, hpairs, fun a ha b hb => ?_⟩
    refine h.tables a (Shelved.mem_flatten ha) _ ?_
    rw [hruns]
    exact List.mem_append_left _ (List.mem_map_of_mem hb)
  · rw [hruns', List.mem_singleton] at hes
    subst hes
    rw [(Levels.flatten_push new shelf).mem_iff, List.mem_append] at ht
    rcases ht with ht | ht
    · exact h.tables t ht mem (by simp [hruns])
    · exact hlast _ (List.mem_map_of_mem ht) mem (List.mem_singleton_self _)

/-- A compaction rewrites the tables that it takes. -/
theorem compacted (h : Arranged env w shelf writes) {k : Compaction} {s : Selection}
    {targetFileSize : UInt64} {merged : List Entry} {new : List (OpenTable env.crates)} {w₁ : World}
    (hselect : k.select w.manifest = some s)
    (hentries : new.map OpenTable.entries = cutOutputs env.crates targetFileSize merged)
    (hdone : Compacted env (Kept w.manifest) w targetFileSize s merged w₁ w')
    (hrewrites : Rewrites OpenTable.entries s.takesSource s.takesTarget s.sourceLevelIdx shelf new)
    (hlayout : Layout env w' (s.replace new shelf)) :
    Arranged env w' (s.replace new shelf) writes := by
  have hruns := hdone.memtableRuns
  refine ⟨hlayout, (storedEntries_compacted h.layout.shelved hselect hentries hdone).trans h.stored,
    ?_, h.increasing, ?_, ?_, fun t ht es hes => ?_⟩
  · rw [hdone.nextLsn]
    exact h.lsns
  · rw [hruns]
    exact h.memtables
  · exact h.level0.sublist (Selection.replace_level0 s new shelf)
  · rw [hruns] at hes
    intro e he b hb heq
    obtain ⟨u, hu, he⟩ := mem_of_mem_replace hrewrites ht he
    exact h.tables u hu es hes e he b hb heq

/-- A command that succeeds keeps the database arranged. -/
theorem step (h : Arranged env w shelf writes) {command : Command} (hroom : Room env w command)
    (houtcome : Outcome env w shelf command w' shelf') (hlayout : Layout env w' shelf') :
    Arranged env w' shelf' (writes ++ command.written w) := by
  have hstructural : ∀ {op}, writes ++ (Command.structural op).written w = writes :=
    fun {op} => List.append_nil writes
  have hcompaction : ∀ (k : Compaction) targetFileSize,
      writes ++ (k.command targetFileSize).written w = writes := by
    intro k targetFileSize
    cases k <;> exact List.append_nil writes
  cases houtcome with
  | put => exact h.inserted _ _ hroom
  | putRotated _ hrotated => exact (h.inserted _ _ hroom).rotated hrotated
  | rotated hrotated => exact hstructural.symm ▸ h.rotated hrotated
  | notFlushed => exact hstructural.symm ▸ h
  | flushed _ hentries _ hdone => exact hstructural.symm ▸ h.flushed hentries hdone hlayout
  | notCompacted => exact (hcompaction _ _).symm ▸ h
  | compacted hselect hentries _ hdone hrewrites =>
      exact (hcompaction _ _).symm ▸ h.compacted hselect hentries hdone hrewrites hlayout

end Arranged

/-- What holds of the tables in every state of a session. -/
theorem Session.invariant {allowed : World → Command → Prop}
    {P : World → List (List (OpenTable env.crates)) → Prop}
    (hroom : ∀ w command, allowed w command → Room env w command)
    (hstart : ∀ faults trace, P { pristine env with faults, trace } [])
    (hstep : ∀ {w w' shelf shelf' writes command}, Arranged env w shelf writes → P w shelf →
      allowed w command → Outcome env w shelf command w' shelf' → Layout env w' shelf' →
        P w' shelf')
    (h : Session env allowed w writes) : ∃ shelf, Arranged env w shelf writes ∧ P w shelf := by
  induction h with
  | start faults trace => exact ⟨[], .start env faults trace, hstart faults trace⟩
  | step command _ hallow hrun ih =>
      obtain ⟨shelf, harranged, hP⟩ := ih
      obtain ⟨shelf', houtcome, hlayout⟩ := harranged.layout.step (hroom _ _ hallow) hrun
      exact ⟨shelf', harranged.step (hroom _ _ hallow) houtcome hlayout,
        hstep harranged hP hallow houtcome hlayout⟩

end EasyLsm.Db
