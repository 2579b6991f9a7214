import Mathlib.Data.List.Basic
import Mathlib.Data.List.Sort
import EasyLsm.Db.Tables

/-!
# What the garbage collection leaves

The collection only removes names (`Pruned`). It removes neither the manifest file with the highest
version nor a log or a table that the manifest in memory lists, and it does not fail.
-/

namespace EasyLsm.Db

open Lib Lib.FileStore

variable {env : Env} {keep : FileName → Prop} {w₀ w w' : World} {dir dir' dir'' : Dir}

/-- Some names were removed, but none of `keep`. -/
structure Pruned (keep : FileName → Prop) (dir dir' : Dir) : Prop where
  agree : Agree keep dir dir'
  names : ∀ e ∈ dir'.names, e ∈ dir.names

theorem Pruned.refl (keep : FileName → Prop) (dir : Dir) : Pruned keep dir dir :=
  ⟨Agree.refl keep dir, fun _ h => h⟩

theorem Pruned.trans (h : Pruned keep dir dir') (h' : Pruned keep dir' dir'') :
    Pruned keep dir dir'' :=
  ⟨h.agree.trans h'.agree, fun e he => h.names e (h'.names e he)⟩

theorem pruned_unlink {name : FileName} (hname : ¬ keep name) :
    Pruned keep dir (dir.unlink name) :=
  ⟨agree_unlink hname, fun _ he => (mem_unlink.mp he).1⟩

/-- The logs and the tables that a manifest lists. -/
def Listed (m : Manifest) (n : FileName) : Prop :=
  (∃ id ∈ m.wals, n = .wal id) ∨ ∃ id ∈ m.sstableIds, n = .sst id

/-- The files that the database needs after a crash: the newest manifest, and what the manifest in
memory lists. -/
def Needed (dir : Dir) (m : Manifest) (n : FileName) : Prop :=
  (∃ v, Manifest.newestVersion dir = some v ∧ n = .mf v) ∨ Listed m n

/-- Only names that are not needed were removed. -/
structure Swept (w₀ w : World) : Prop where
  manifest : w.manifest = w₀.manifest
  current : w.current = w₀.current
  nextLsn : w.nextLsn = w₀.nextLsn
  faults : w₀.faults = [] → w.faults = []
  dir : Pruned (Needed w₀.dir w₀.manifest) w₀.dir w.dir
  trace : ∃ dirs, w.trace = w₀.trace ++ dirs ∧
    ∀ d ∈ dirs, Pruned (Needed w₀.dir w₀.manifest) w₀.dir d

namespace Swept

theorem refl (w : World) : Swept w w :=
  ⟨rfl, rfl, rfl, id, Pruned.refl _ _, [], (List.append_nil _).symm, by simp⟩

/-- Reading on the way. -/
theorem reads (h : Swept w₀ w) (hreads : Reads w w') : Swept w₀ w' := by
  obtain ⟨faults, rfl, hnil⟩ := hreads
  exact ⟨h.manifest, h.current, h.nextLsn, fun hempty => hnil (h.faults hempty), h.dir, h.trace⟩

/-- Removing a name that is not needed. -/
theorem unlink (h : Swept w₀ w) {name : FileName} (hname : ¬ Needed w₀.dir w₀.manifest name) :
    Swept w₀ { w with
      dir := w.dir.unlink name, trace := w.trace ++ [w.dir.unlink name] } where
  manifest := h.manifest
  current := h.current
  nextLsn := h.nextLsn
  faults := h.faults
  dir := h.dir.trans (pruned_unlink hname)
  trace := by
    obtain ⟨dirs, htrace, hdirs⟩ := h.trace
    refine ⟨dirs ++ [w.dir.unlink name], by rw [htrace, List.append_assoc], fun d hd => ?_⟩
    rcases List.mem_append.mp hd with hd | hd
    · exact hdirs d hd
    · rw [List.mem_singleton.mp hd]
      exact h.dir.trans (pruned_unlink hname)

end Swept

/-- The versions of a directory are different. -/
theorem nodup_versions (dir : Dir) : (Dir.versions dir).Nodup := by
  refine List.pairwise_filterMap.mpr ((List.pairwise_map.mp dir.namesNodup).imp ?_)
  rintro ⟨name, inode⟩ ⟨name', inode'⟩ hne v hv _ hv' rfl
  refine hne ?_
  cases name <;> cases hv
  cases name' <;> cases hv'
  rfl

/-- Behind the first two versions in descending order the highest one does not come. -/
theorem not_mem_drop_versions {v : UInt32} (h : Manifest.newestVersion dir = some v) :
    v ∉ ((Dir.versions dir).insertionSort (· ≥ ·)).drop 2 := by
  have hperm := List.perm_insertionSort (· ≥ ·) (Dir.versions dir)
  have hnodup := hperm.nodup_iff.mpr (nodup_versions dir)
  have hsorted := List.pairwise_insertionSort (r := (· ≥ ·)) (Dir.versions dir)
  have hmax : ∀ x ∈ (Dir.versions dir).insertionSort (· ≥ ·), x ≤ v := by
    intro x hx
    have hle := Manifest.le_maxId (hperm.mem_iff.mp hx)
    unfold Manifest.newestVersion at h
    split at h
    · cases h
    · cases h
      exact hle
  intro hmem
  cases hlist : (Dir.versions dir).insertionSort (· ≥ ·) with
  | nil =>
      rw [hlist] at hmem
      cases hmem
  | cons a rest =>
      rw [hlist] at hmem hnodup hsorted hmax
      have hrest : v ∈ rest := List.mem_of_mem_drop (i := 1) hmem
      -- the head is at least as high, so it is the highest version, and it is not repeated
      have hhead : a = v :=
        UInt32.le_antisymm (hmax a List.mem_cons_self) ((List.pairwise_cons.mp hsorted).1 v hrest)
      exact (List.nodup_cons.mp hnodup).1 (hhead ▸ hrest)

/-- Removing a file that is not needed, whether that succeeds or not. -/
theorem deleteFile_swept {name : FileName} (hname : ¬ Needed w₀.dir w₀.manifest name)
    {E : DbError → World → Prop} :
    Prog.Spec (Swept w₀) (deleteFile name) (fun _ => Swept w₀) E := by
  refine Prog.Spec.bind (Q := fun _ => Swept w₀) (Prog.Spec.attempt ?_) fun _ =>
    Prog.Spec.pure fun _ h => h
  refine Prog.Spec.of_forall fun w hw => ?_
  refine Prog.Spec.bind (nextFault_from.weaken (fun _ h => h) (fun _ _ h => h.2) fun _ _ h => h)
    fun fault => ?_
  rintro w' hreads
  have hw' := hw.reads hreads
  simp only [Prog.bind_apply, Prog.read]
  cases fault with
  | some f => exact hw'
  | none =>
      cases w'.dir.lookup name with
      | none => exact hw'
      | some inode => exact hw'.unlink hname

/-- Reading a manifest for what it lists. -/
theorem referencedBy_swept (version : UInt32) {E : DbError → World → Prop} :
    Prog.Spec (Swept w₀) (referencedBy env version) (fun _ => Swept w₀) E := by
  refine Prog.Spec.bind (Q := fun _ => Swept w₀) (Prog.Spec.attempt ?_) fun res => ?_
  · refine Prog.Spec.of_forall fun w hw => ?_
    refine Prog.Spec.bind (nextFault_from.weaken (fun _ h => h) (fun _ _ h => h.2) fun _ _ h => h)
      fun fault => ?_
    rintro w' hreads
    have hw' := hw.reads hreads
    simp only [Prog.bind_apply, Prog.read]
    cases fault with
    | some f => exact hw'
    | none =>
        cases w'.dir.lookup (.mf version) with
        | none => exact hw'
        | some inode => exact hw'
  · cases res with
    | error e => exact Prog.Spec.pure fun _ h => h
    | ok inode =>
        refine Prog.Spec.bind (Q := fun _ => Swept w₀) (Prog.Spec.read fun _ h => h) fun dir => ?_
        split <;> exact Prog.Spec.pure fun _ h => h

/-- The garbage collection of a flush or a compaction. -/
theorem collectGarbage_swept {E : DbError → World → Prop} :
    Prog.Spec (· = w₀) (collectGarbage env) (fun _ => Swept w₀) E := by
  refine Prog.Spec.bind_forall (Q := fun m w => m = w₀.manifest ∧ w = w₀)
    (Prog.Spec.read fun w hw => ⟨by rw [hw], hw⟩) fun guard w hguard => ?_
  obtain ⟨rfl, rfl⟩ := hguard
  refine Prog.Spec.bind (nextFault_from.weaken (fun _ h => h) (fun _ _ h => h.2) fun _ _ h => h)
    fun fault => ?_
  cases fault with
  | some f => exact Prog.Spec.pure fun _ hreads => (Swept.refl w).reads hreads
  | none =>
      refine Prog.Spec.bind (Q := fun d w' => d = w.dir ∧ Swept w w') (Prog.Spec.read ?_) fun d =>
        ?_
      · rintro w' hreads
        have hdir : w'.dir = w.dir := by
          obtain ⟨faults, rfl, _⟩ := hreads
          rfl
        exact ⟨hdir, (Swept.refl w).reads hreads⟩
      · rintro w' ⟨rfl, hw'⟩
        refine Prog.Spec.bind (Prog.Spec.forEach_const fun v _ => referencedBy_swept v)
          (fun kept => ?_) w' hw'
        refine Prog.Spec.bind (Prog.Spec.forEach_const fun v hv => deleteFile_swept ?_) fun _ => ?_
        · rintro (⟨v', hnewest, hname⟩ | ⟨id, _, hname⟩ | ⟨id, _, hname⟩)
          · cases hname
            exact not_mem_drop_versions hnewest hv
          · cases hname
          · cases hname
        · refine Prog.Spec.bind (Prog.Spec.forEach_const fun n hn => deleteFile_swept ?_) fun _ =>
            Prog.Spec.pure fun _ h => h
          have hobsolete := (List.mem_filter.mp hn).2
          rintro (⟨v', _, rfl⟩ | ⟨id, hid, rfl⟩ | ⟨id, hid, rfl⟩)
          · cases hobsolete
          · simp [isObsolete, hid] at hobsolete
          · simp [isObsolete, hid] at hobsolete

end EasyLsm.Db
