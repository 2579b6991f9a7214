import Mathlib.Data.List.Basic
import EasyLsm.Db.LogFiles
import EasyLsm.Db.Restart
import EasyLsm.Db.Session

/-!
# Runs with restarts

A run begins with a new database. Commands run one after the other, and any of them may fail as long
as its failure is harmless: a `put` must get its record into the log, and a rotation must not fail
behind its commit. In between the database is started again from its directory.
-/

namespace EasyLsm.Db

open Lib Lib.FileStore

variable {env : Env} {w w' : World} {shelf : List (List (OpenTable env.crates))}
  {writes : List Entry} {r : Except DbError Unit}

/-- The command begins a rotation: `rotate_memtable` itself, or a `put` that fills the memtable. -/
def Rotates (env : Env) (w : World) : Command → Prop
  | .put key value => env.maxMemtableSize ≤
      (inserted env w (Key.new key w.nextLsn, value)).current.mutableMemtable.size
  | .structural .rotateMemtable => True
  | .structural _ => False

instance (env : Env) (w : World) : (command : Command) → Decidable (Rotates env w command)
  | .put _ _ => inferInstanceAs (Decidable (_ ≤ _))
  | .structural .rotateMemtable => inferInstanceAs (Decidable True)
  | .structural .flushMemtables => inferInstanceAs (Decidable False)
  | .structural (.compactL0 _) => inferInstanceAs (Decidable False)
  | .structural (.compactLn _ _) => inferInstanceAs (Decidable False)

/-- When the command fails, everything that was written is still in the log and in the memtable, and
the logs that the manifest lists are those of the version. -/
def Harmless (env : Env) (w : World) : Command → Prop
  | .put key value => w.faults.headD none = none ∧ (Rotates env w (.put key value) →
      ¬ ReopenFails (inserted env w (Key.new key w.nextLsn, value)))
  | .structural op => ¬ (op = .rotateMemtable ∧ ReopenFails w)

/-- The states of a run, with the entries that were written, the oldest first. Any I/O calls may
fail. -/
inductive Life (env : Env) (allowed : World → Command → Except DbError Unit → Prop)
    (restarts : World → Prop) : World → List Entry → Prop
  | start (faults : List (Option Fault)) (trace : List Dir) :
      Life env allowed restarts { pristine env with faults, trace } []
  | step {w w' : World} {writes : List Entry} {r : Except DbError Unit} (command : Command) :
      Life env allowed restarts w writes → allowed w command r → command.run env w = (r, w') →
      Life env allowed restarts w' (writes ++ command.written w)
  | restart {w w' : World} {writes : List Entry} :
      Life env allowed restarts w writes → restarts w → newDb env w = (.ok (), w') →
      Life env allowed restarts w' writes

/-- The manifest of a rotation can be represented. -/
def RotateRoom (w : World) : Prop :=
  w.manifest.version.toNat + 1 < 2 ^ 32 ∧
    { w.manifest with wals := w.manifest.wals ++ [w.manifest.nextWalId] }.Fits

/-- What a command writes to the log and to the manifest can be represented. -/
def DiskRoom (env : Env) (w : World) : Command → Prop
  | .put key value => Entry.Fits (Key.new key w.nextLsn, value) ∧
      (Rotates env w (.put key value) → RotateRoom w)
  | .structural .rotateMemtable => RotateRoom w
  | .structural .flushMemtables => w.manifest.version.toNat + 1 < 2 ^ 32 ∧
      ∀ c, flushMutator ((flushTables env.crates w).map Table.meta')
        (w.manifest.wals.take w.current.frozenMemtables.length) w.manifest = .ok c → c.Fits
  | .structural (.compactL0 targetFileSize) => ∀ s, Compaction.l0.select w.manifest = some s →
      CompactRoom env w targetFileSize s
  | .structural (.compactLn levelIdx targetFileSize) => ∀ s,
      (Compaction.ln levelIdx).select w.manifest = some s → CompactRoom env w targetFileSize s

/-- Nothing that the command writes is too large for its field, and when it fails that is
harmless. -/
structure LifeRoom (env : Env) (w : World) (command : Command) (r : Except DbError Unit) :
    Prop where
  room : Room env w command
  disk : DiskRoom env w command
  harmless : r = .ok () ∨ Harmless env w command

/-- The next log id after a start is not narrowed. -/
def RestartRoom (w : World) : Prop := (Manifest.maxId w.manifest.wals).toNat + 1 < 2 ^ 32

/-! ## Failures -/

/-- A `put` whose record gets into the log, and that fails, was inserted before its rotation
failed. -/
theorem put_harmless {key : Bytes} {value : Value} {e : DbError}
    (hfault : w.faults.headD none = none) (hrun : put env key value w = (.error e, w')) :
    Rotates env w (.put key value) ∧
      rotateMemtable env (inserted env w (Key.new key w.nextLsn, value)) = (.error e, w') := by
  change write env (Key.new key 0) value w = _ at hrun
  rw [write_run env (Key.new key 0) value hfault] at hrun
  split at hrun
  · rename_i hfull
    exact ⟨hfull, hrun⟩
  · cases hrun

/-- A rotation that fails before its commit leaves what the manifest lists. -/
theorem rotate_harmless (hlogs : ∀ id ∈ w.manifest.wals, walFile w.dir id ≠ [])
    (hno : ¬ ReopenFails w) {e : DbError} (hrun : rotateMemtable env w = (.error e, w')) :
    Quiet (Kept w.manifest) w w' := by
  have hspec :=
    @rotateMemtable_spec env (Kept w.manifest) w (fun hkept => hlogs _ (kept_wal.mp hkept))
    (not_kept_mfTmp _)
  exact ((hspec.error rfl hrun).resolve_right fun hreopen => hno hreopen.2).1

/-- A flush that fails leaves what the manifest lists. -/
theorem flush_failed (hroom : Room env w (.structural .flushMemtables)) {e : DbError}
    (hrun : flushMemtables env w = (.error e, w')) : Quiet (Kept w.manifest) w w' := by
  obtain ⟨hfits, hfresh⟩ := hroom
  refine ((flushMemtables_spec hfits).error rfl hrun).1.mono ?_
  rintro n (⟨v, rfl⟩ | ⟨id, _, rfl⟩ | ⟨id, hid, rfl⟩)
  · exact ⟨fun t _ => by simp, by simp⟩
  · exact ⟨fun t _ => by simp, by simp⟩
  · exact ⟨fun t ht heq => hfresh t ht (FileName.sst.inj heq ▸ hid), by simp⟩

/-- A compaction that fails leaves what the manifest lists. -/
theorem Shelved.compaction_failed (h : Shelved env w shelf) {k : Compaction}
    {targetFileSize : UInt64} (hroom : CompactionRoom env w targetFileSize k) {e : DbError}
    (hrun : k.run env targetFileSize w = (.error e, w')) : Quiet (Kept w.manifest) w w' := by
  rw [k.run_eq] at hrun
  cases hselect : k.select w.manifest with
  | none =>
      rw [hselect] at hrun
      cases hrun
  | some s =>
      rw [hselect] at hrun
      obtain ⟨count, hroom⟩ := hroom s hselect
      exact ((h.executes hselect hroom).error rfl hrun).1

/-- A structural operation whose failure is harmless leaves what the manifest lists. -/
theorem Layout.failed (h : Layout env w shelf) {op : Structural}
    (hroom : Room env w (.structural op)) (hharmless : Harmless env w (.structural op))
    (hlogs : ∀ id ∈ w.manifest.wals, walFile w.dir id ≠ []) {e : DbError}
    (hrun : op.run env w = (.error e, w')) : Quiet (Kept w.manifest) w w' := by
  cases op with
  | rotateMemtable => exact rotate_harmless hlogs (fun hreopen => hharmless ⟨rfl, hreopen⟩) hrun
  | flushMemtables => exact flush_failed hroom hrun
  | compactL0 targetFileSize => exact h.shelved.compaction_failed (k := .l0) hroom hrun
  | compactLn levelIdx targetFileSize =>
      exact h.shelved.compaction_failed (k := .ln levelIdx) hroom hrun

/-- The entries of a command that has returned `Ok`. -/
def acknowledged (w : World) (command : Command) : Except DbError Unit → List Entry
  | .ok () => command.written w
  | .error _ => []

end EasyLsm.Db
