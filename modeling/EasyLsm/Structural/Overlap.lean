import Mathlib.Data.List.Basic
import EasyLsm.Structural.Published

/-!
# Overlapping updates of `db_current`

A rotation and a background job each load a version, build on it and store the result, and hold no
lock meanwhile. `versions_kept`: as long as every version is stored while the one it was built from
is current, the memtable and the log of the last rotation stay in place, and no entry goes away. The
job's store is the one that matters: from a version that a rotation has replaced, it takes the
memtable of the rotation away again.
-/

namespace EasyLsm.Structural

open Lib Lib.FileStore Db

variable {c : Crates} {targetFileSize : UInt64} {s s' : Sys}

/-- The mutable memtable and its log are those of the last completed rotation. -/
structure Latest (s : Sys) : Prop where
  memtable : s.used.getLast? = some s.current.mutableMemtable
  log : s.current.mutableWal = s.latestWal

instance : DecidablePred Latest := fun _ =>
  decidable_of_iff (_ ∧ _) ⟨fun ⟨memtable, log⟩ => ⟨memtable, log⟩, fun h => ⟨h.1, h.2⟩⟩

/-- A memtable that was put in place is mutable or frozen, or what a flush wrote of it is in the
tables. -/
def Placed (s : Sys) : Prop := ∀ mem ∈ s.used,
  mem ∈ s.current.frozenMemtables ++ [s.current.mutableMemtable] ∨
    mem ∈ s.flushed ∧ s.frozenEntries mem ⊆ stored s.current

namespace NothingLost

theorem latest (h : NothingLost s) : Latest s where
  memtable := by rw [← h.memtables, List.getLast?_concat]
  log := h.log

theorem placed (h : NothingLost s) : Placed s := by
  intro mem hmem
  rw [← h.memtables, List.append_assoc] at hmem
  rcases List.mem_append.mp hmem with hflushed | hleft
  · exact .inr ⟨hflushed, h.flushed mem hflushed⟩
  · exact .inl hleft

end NothingLost

/-! ## The version that a job builds on -/

/-- The version that a job has loaded is current, or a rotation has put another memtable in
place. -/
def Based (s : Sys) : Prop := ∀ v ∈ s.compactor.base,
  v.mutableMemtable ∈ s.used ∧
    (v ≠ s.current → v.mutableMemtable ≠ s.current.mutableMemtable)

/-- A step that leaves the version alone, and loads none. -/
structure Idles (s s' : Sys) : Prop where
  current : s'.current = s.current
  used : s'.used = s.used
  base : ∀ v ∈ s'.compactor.base, v ∈ s.compactor.base

namespace Idles

theorem based (h : Idles s s') (hbased : Based s) : Based s' := by
  intro v hv
  rw [h.current, h.used]
  exact hbased v (h.base v hv)

/-- The writer goes on. -/
theorem writer {manifest : Manifest} {dir : Dir} {content : Nat → File} (mems : Nat → List Entry)
    (w : Writer) : Idles s { s with manifest, dir, content, mems, writer := w } :=
  ⟨rfl, rfl, fun _ hv => hv⟩

/-- The compaction thread goes on. -/
theorem compactor {manifest : Manifest} {dir : Dir} {content : Nat → File} {p : Compactor}
    (hp : p.base = none) : Idles s { s with manifest, dir, content, compactor := p } :=
  ⟨rfl, rfl, fun v hv => by rw [hp] at hv; cases hv⟩

theorem stepWriter {l : Label} (h : Inv s) (hl : l ≠ .storeVersion)
    (hs : Structural.stepWriter s l = some s') : Idles s s' := by
  cases l with
  | updateRotation io =>
      simp only [Structural.stepWriter] at hs
      split at hs
      · rename_i u hphase
        have hu := h.writer
        rw [hphase] at hu
        rcases hrun : stepUpdate rotateClosure io s u with ⟨p, t⟩
        obtain ⟨manifest, dir, content, rfl⟩ :=
          (stepUpdate_aside rotateClosure_aside hu hrun).1.same
        rw [hrun] at hs
        cases hs
        exact .writer s.mems p.writer
      · cases hs
  | openWal io =>
      simp only [Structural.stepWriter] at hs
      split at hs
      · split at hs
        · cases hs
          exact .writer s.mems .idle
        · cases io <;> cases hs <;> exact .writer s.mems _
      · cases hs
  | insert e =>
      simp only [Structural.stepWriter] at hs
      split at hs <;> cases hs
      exact .writer _ s.writer
  | storeVersion => exact absurd rfl hl
  | loadMemtable | finishInsert | rotate | loadVersion =>
      simp only [Structural.stepWriter] at hs
      split at hs <;> cases hs
      exact .writer s.mems _
  | _ => cases hs

theorem stepBuild {l : Label} (hs : Structural.stepBuild c targetFileSize s l = some s') :
    Idles s s' := by
  cases l with
  | flush =>
      simp only [Structural.stepBuild] at hs
      split at hs
      · split at hs
        · cases hs
        · split at hs <;> cases hs
          · exact ⟨rfl, rfl, fun v hv => hv⟩
          · exact .compactor rfl
      · cases hs
  | compact k =>
      simp only [Structural.stepBuild] at hs
      split at hs
      · obtain ⟨sel, _, rfl⟩ := Option.map_eq_some_iff.mp hs
        exact .compactor rfl
      · cases hs
  | openInputs io =>
      simp only [Structural.stepBuild] at hs
      split at hs
      · split at hs <;> cases hs <;> exact .compactor rfl
      · cases hs
  | reserve =>
      simp only [Structural.stepBuild] at hs
      split at hs <;> cases hs
      exact .compactor rfl
  | writeTable io =>
      simp only [Structural.stepBuild] at hs
      split at hs
      · rename_i id entries hnext
        have hbase : ∀ t, (s.compactor.written t).base = none := by
          intro t
          unfold Sys.nextTable at hnext
          split at hnext
          · rename_i hphase
            rw [hphase]
            rfl
          · rename_i hphase
            rw [hphase]
            rfl
          · cases hnext
        split at hs <;> cases hs
        · exact .compactor (hbase _)
        · exact .compactor rfl
        · exact .compactor rfl
      · cases hs
  | openTables io =>
      simp only [Structural.stepBuild] at hs
      split at hs
      · split at hs
        · cases hs
        · split at hs <;> cases hs <;> exact .compactor rfl
      · split at hs <;> cases hs <;> exact .compactor rfl
      · cases hs
  | _ => cases hs

theorem updateJob {io : Io} (h : Inv s)
    (hs : Structural.stepPublish s (.updateJob io) = some s') : Idles s s' := by
  simp only [Structural.stepPublish] at hs
  split at hs
  · rename_i job u hphase
    have hp := h.compactor
    rw [hphase] at hp
    rcases hrun : stepUpdate job.closure io s u with ⟨p, t⟩
    obtain ⟨manifest, dir, content, rfl⟩ := (stepUpdate_aside Job.closure_aside hp.2 hrun).1.same
    rw [hrun] at hs
    cases hs
    have hbase : (p.compactor job).base = none := by cases p <;> rfl
    exact .compactor hbase
  · cases hs

theorem stepCollect {l : Label} (hs : Structural.stepCollect s l = some s') : Idles s s' := by
  cases l with
  | snapshot =>
      simp only [Structural.stepCollect] at hs
      split at hs <;> cases hs
      exact .compactor rfl
  | list io =>
      simp only [Structural.stepCollect] at hs
      split at hs
      · split at hs <;> cases hs <;> exact .compactor rfl
      · cases hs
  | readManifest io =>
      simp only [Structural.stepCollect] at hs
      split at hs <;> cases hs <;> exact .compactor rfl
  | delete io =>
      simp only [Structural.stepCollect] at hs
      split at hs <;> cases hs <;> exact .compactor rfl
  | _ => cases hs

end Idles

namespace Based

theorem of_start (h : Start s) : Based s := by
  intro v hv
  rw [h.idle.2] at hv
  cases hv

/-- One undisturbed step keeps it. -/
theorem step {l : Label} (hbased : Based s) (h : Inv s) (hok : Undisturbed s l)
    (hs : Structural.step c targetFileSize s l = some s') : Based s' := by
  rcases step_cases hs with hs | hs | hs | hs
  · by_cases hl : l = .storeVersion
    · subst hl
      simp only [stepWriter] at hs
      split at hs <;> cases hs
      -- the new memtable is not one that was put in place before
      intro v hv
      obtain ⟨hused, _⟩ := hbased v hv
      exact ⟨List.mem_append_left _ hused, fun _ => Nat.ne_of_lt (h.allocated _ hused)⟩
    · exact (Idles.stepWriter h hl hs).based hbased
  · exact (Idles.stepBuild hs).based hbased
  · cases l with
    | updateJob io => exact (Idles.updateJob h hs).based hbased
    | loadCurrent =>
        simp only [stepPublish] at hs
        split at hs <;> cases hs
        intro v hv
        cases hv
        exact ⟨h.mem_used (List.mem_append_right _ (List.mem_singleton_self _)),
          fun hne => absurd rfl hne⟩
    | storeCurrent =>
        simp only [stepPublish] at hs
        split at hs <;> cases hs
        exact fun v hv => by cases hv
    | _ => cases hs
  · exact (Idles.stepCollect hs).based hbased

end Based

/-- A job's version has the memtable and the log of the last rotation exactly when it was built from
the current one. -/
theorem latest_storeCurrent (h : Inv s) (hbased : Based s)
    (hs : step c targetFileSize s .storeCurrent = some s') :
    Latest s' ↔ Undisturbed s .storeCurrent := by
  constructor
  · intro hlatest v hv
    by_contra hne
    simp only [step, stepPublish] at hs
    split at hs <;> cases hs
    rename_i job v' hphase
    have heq : v' = v := by
      rw [hphase] at hv
      exact Option.some.inj hv
    subst heq
    have hmemtable := hlatest.memtable
    have hsame : (job.version v').mutableMemtable = v'.mutableMemtable := by cases job <;> rfl
    have hlast : s.used.getLast? = some (job.version v').mutableMemtable := hmemtable
    rw [h.kept.latest.memtable, hsame] at hlast
    exact (hbased v' hv).2 hne (Option.some.inj hlast).symm
  · intro hok
    exact (h.step hok hs).kept.latest

/-- In every run of the two threads in which each version is stored while the one it was built from
is current, and each table is written under an id of its own, the mutable memtable and its log are
those of the last rotation, no memtable goes away before its table is there, and every version has
everything that the one before it had. In the next step a job's version has the memtable of the last
rotation exactly when it was built from the current one. -/
theorem versions_kept (c : Crates) (targetFileSize : UInt64) {s : Sys}
    (h : Reach (step c targetFileSize) Start Undisturbed s) : Latest s ∧ Placed s ∧
    (∀ l s', l = .storeVersion ∨ l = .storeCurrent → Undisturbed s l →
      step c targetFileSize s l = some s' → s.contents s.current ⊆ s'.contents s'.current) ∧
    ∀ s', step c targetFileSize s .storeCurrent = some s' →
      (Latest s' ↔ Undisturbed s .storeCurrent) := by
  obtain ⟨hinv, hbased⟩ := h.invariant (P := fun s => Inv s ∧ Based s)
    (fun _ hs => ⟨.of_start hs, .of_start hs⟩) fun _ _ _ ⟨hinv, hbased⟩ hok hs =>
      ⟨hinv.step hok hs, hbased.step hinv hok hs⟩
  exact ⟨hinv.kept.latest, hinv.kept.placed,
    fun l s' hl hok hs => hinv.contents_subset hl hok hs,
    fun s' hs => latest_storeCurrent hinv hbased hs⟩

/-! ## Runs -/

/-- An entry is put into the mutable memtable. -/
def putOne (key : Bytes) (lsn : UInt64) : List Label :=
  [.loadMemtable, .insert (Key.new key lsn, .bytes [1]), .finishInsert]

/-- A rotation up to the store. -/
def rotateLoaded : List Label :=
  [.rotate, .updateRotation .ok, .updateRotation .ok, .updateRotation .ok, .updateRotation .ok,
    .updateRotation .ok, .openWal .ok, .loadVersion]

/-- A flush of one memtable up to the commit. -/
def flushCommitted : List Label :=
  [.flush, .writeTable .ok, .openTables .ok, .updateJob .ok, .updateJob .ok, .updateJob .ok,
    .updateJob .ok, .updateJob .ok]

/-- Whether the last rotation is in place, and what can be read. -/
def Sys.readable (s : Sys) : Bool × List Entry := (decide (Latest s), s.contents s.current)

instance : DecidableRel (@anyStep Sys Label) := fun _ _ => .isTrue trivial

/-- A job stores its version at the end of a run. -/
theorem stored_of_run (ok : Sys → Label → Prop) [DecidableRel ok] (ls : List Label) {α : Type}
    (view : Sys → α) (before behind : α) (hstart : Start s)
    (hbefore : (run (fun s l => if decide (ok s l) then step crates 0 s l else none) s ls).map
      view = some before)
    (hbehind : (run (fun s l => if decide (ok s l) then step crates 0 s l else none) s
      (ls ++ [.storeCurrent])).map view = some behind) :
    ∃ t t', Reach (step crates 0) Start ok t ∧ ok t .storeCurrent ∧
      step crates 0 t .storeCurrent = some t' ∧ view t = before ∧ view t' = behind := by
  obtain ⟨t, ht, hview⟩ := Option.map_eq_some_iff.mp hbefore
  obtain ⟨t', ht', hview'⟩ := Option.map_eq_some_iff.mp hbehind
  have hreach := (Reach.start hstart).of_run_checked (fun _ _ => of_decide_eq_true) ht
  have hlast := run_of_append ht ht'
  simp only [Lib.run, Option.bind_fun_some] at hlast
  split at hlast
  · rename_i hok
    exact ⟨t, t', hreach, of_decide_eq_true hok, hlast, hview, hview'⟩
  · cases hlast

/-- A rotation that completes while a flush writes its table, before the flush stores. -/
def rotatedWhileFlushed : List Label :=
  putOne [98] 2 ++ flushCommitted ++ rotateLoaded ++ [.storeVersion, .loadCurrent]

theorem versions_kept_rotated : ∃ s s', Reach (step crates 0) Start Undisturbed s ∧
    step crates 0 s .storeCurrent = some s' ∧ s.current.frozenMemtables = [0, 1] ∧
      s'.current.frozenMemtables = [1] ∧ Latest s' ∧
      s.contents s.current ⊆ s'.contents s'.current := by
  obtain ⟨s, s', hreach, hok, hstored, hfrozen, hfrozen'⟩ :=
    stored_of_run Undisturbed rotatedWhileFlushed (fun s => s.current.frozenMemtables) [0, 1] [1]
      start_startedFrozen (by decide +kernel) (by decide +kernel)
  obtain ⟨_, _, hcontents, hlatest⟩ := versions_kept crates 0 hreach
  exact ⟨s, s', hreach, hstored, hfrozen, hfrozen', (hlatest s' hstored).mpr hok,
    hcontents _ s' (.inr rfl) hok hstored⟩

/-- A rotation that completes between the load and the store of a flush. -/
def rotatedBeforeStore : List Label :=
  flushCommitted ++ [.loadCurrent] ++ rotateLoaded ++ [.storeVersion] ++ putOne [98] 2

/-- The memtable of the rotation goes away, with the entry that was put into it. -/
theorem rotation_lost : ∃ s s', Reach (step crates 0) Start anyStep s ∧
    step crates 0 s .storeCurrent = some s' ∧ ¬ Latest s' ∧
      ¬ s.contents s.current ⊆ s'.contents s'.current := by
  obtain ⟨s, s', hreach, _, hstored, hview, hview'⟩ :=
    stored_of_run anyStep rotatedBeforeStore Sys.readable
      (true, [(Key.new [97] 1, .bytes [1]), (Key.new [98] 2, .bytes [1])])
      (false, [(Key.new [97] 1, .bytes [1])])
      start_startedFrozen (by decide +kernel) (by decide +kernel)
  simp only [Sys.readable, Prod.mk.injEq] at hview hview'
  refine ⟨s, s', hreach, hstored, of_decide_eq_false hview'.1, fun hsubset => ?_⟩
  rw [hview.2, hview'.2] at hsubset
  have hmem := hsubset (List.mem_cons_of_mem _ (List.mem_singleton_self _))
  exact absurd hmem (by decide)

/-- The step that stores the version of a rotation. -/
def Label.isStoreVersion : Label → Bool
  | .storeVersion => true
  | _ => false

/-- The condition without the part about rotations. -/
def JobUndisturbed (s : Sys) (l : Label) : Prop := l.isStoreVersion = true ∨ Undisturbed s l

instance : DecidableRel JobUndisturbed := fun _ _ => inferInstanceAs (Decidable (_ ∨ _))

/-- A flush that stores its version between the load and the store of a rotation, and the next
flush. -/
def flushedBeforeStore : List Label :=
  putOne [98] 2 ++ flushCommitted ++ rotateLoaded ++ [.storeVersion] ++ rotateLoaded ++
    [.loadCurrent, .storeCurrent, .snapshot, .list .failed] ++ flushCommitted ++
    [.storeVersion, .loadCurrent]

/-- A rotation must not overwrite the version of a flush either: the memtable is frozen again
without its table, and the next flush drops it in place of its own one. -/
theorem flushed_lost : ∃ s s', Reach (step crates 0) Start JobUndisturbed s ∧
    JobUndisturbed s .storeCurrent ∧ step crates 0 s .storeCurrent = some s' ∧
      ¬ s.contents s.current ⊆ s'.contents s'.current := by
  obtain ⟨s, s', hreach, hok, hstored, hview, hview'⟩ :=
    stored_of_run JobUndisturbed flushedBeforeStore Sys.readable
      (true, [(Key.new [97] 1, .bytes [1]), (Key.new [98] 2, .bytes [1])])
      (true, [(Key.new [98] 2, .bytes [1]), (Key.new [98] 2, .bytes [1])])
      start_startedFrozen (by decide +kernel) (by decide +kernel)
  simp only [Sys.readable, Prod.mk.injEq] at hview hview'
  refine ⟨s, s', hreach, hok, hstored, fun hsubset => ?_⟩
  rw [hview.2, hview'.2] at hsubset
  exact absurd (hsubset List.mem_cons_self) (by decide)

end EasyLsm.Structural
