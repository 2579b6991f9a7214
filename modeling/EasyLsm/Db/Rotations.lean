import Mathlib.Data.List.Basic
import EasyLsm.Db.Publish

/-!
# What is left of a rotation

`rotateMemtable_rotationOf` says what a rotation leaves, whether it succeeds or not, and also when
the old log holds bytes back: the files as they were, or a manifest that lists the new log, and then
the version may still be the old one or write to the new log.
-/

namespace EasyLsm.Db

open Lib Lib.FileStore

variable {env : Env} {keep : FileName → Prop} {w₀ w : World}

/-- The manifest that a rotation commits, up to its version. -/
def rotatedManifest (m : Manifest) : Manifest := { m with wals := m.wals ++ [m.nextWalId] }

/-- A rotation, or an attempt at one. Before the commit no file of `keep` has changed, and the new
log was opened; after it nothing but the version, and what the old log held back. -/
def RotationOf (env : Env) (keep : FileName → Prop) (w₀ w : World) : Prop :=
  Steady keep w₀ w ∨ ∃ w₁ w₂ faults, Steady keep w₀ w₁ ∧
    Wal.openWritable (walFile w₀.dir w₀.manifest.nextWalId) =
      .ok (walFile w₁.dir w₀.manifest.nextWalId) ∧
    Committed env w₁ (rotatedManifest w₀.manifest) w₂ ∧
    (w = { w₂ with faults } ∨ ∃ wal : WalHandle, wal.id = w₀.manifest.nextWalId ∧ wal.buf = [] ∧
      (.wal wal.id, wal.inode) ∈ w₂.dir.names ∧ w₂.dir.content wal.inode ≠ [] ∧
      Dropped w₂.current.mutableWal { w₂ with
        faults
        current := rotateVersion Memtable.freezeFromRef Memtable.new wal w₂.current } w)

/-- Opening a log changes no other file, and the log only when it is empty. -/
theorem openWal_steady {id : UInt32} (hkeep : keep (.wal id) → walFile w₀.dir id ≠ []) :
    Prog.Spec (· = w₀) (openWal id)
      (fun _ w => Wal.openWritable (walFile w₀.dir id) = .ok (walFile w.dir id) ∧ Steady keep w₀ w)
      fun _ => Steady keep w₀ := by
  have hquiet : ∀ {w}, Quiet (· ≠ .wal id) w₀ w →
      (walFile w₀.dir id ≠ [] → w = { w₀ with faults := w₀.faults.tail }) → Quiet keep w₀ w := by
    intro w hquiet hsame
    by_cases hid : keep (.wal id)
    · rw [hsame (hkeep hid)]
      exact (Quiet.refl _ w₀).tail
    · exact hquiet.mono fun n hn heq => hid (heq ▸ hn)
  have hmanifest : Prog.Spec (· = w₀) (openWal id) (fun _ w => w.manifest = w₀.manifest)
      fun _ w => w.manifest = w₀.manifest :=
    (KeepsManifest.openWal id).weaken (fun _ hw => by rw [hw]) (fun _ _ h => h) fun _ _ h => h
  refine ((openWal_run w₀ id).and hmanifest).weaken (fun _ h => h) ?_ ?_
  · rintro wal w ⟨⟨_, _, ⟨hfile, hname⟩, hchanged, hsame⟩, hmanifest⟩
    refine ⟨?_, hquiet hchanged hsame, hmanifest⟩
    rw [hfile, walFile, read_of_mem hname, Option.getD_some]
  · rintro e w ⟨⟨_, hchanged, hsame⟩, hmanifest⟩
    exact ⟨hquiet hchanged fun hne => hsame.resolve_right fun hnew => hne hnew.1, hmanifest⟩

/-- A log that is not empty is opened without a change. -/
theorem openWal_again {id : UInt32} (hne : walFile w₀.dir id ≠ []) :
    Prog.Spec (· = w₀) (openWal id)
      (fun wal w => (wal.id = id ∧ wal.buf = [] ∧ (.wal wal.id, wal.inode) ∈ w₀.dir.names ∧
        w₀.dir.content wal.inode ≠ []) ∧ ∃ faults, w = { w₀ with faults })
      fun _ w => ∃ faults, w = { w₀ with faults } := by
  refine (openWal_run w₀ id).weaken (fun _ h => h) ?_ ?_
  · rintro wal w ⟨_, ⟨hid, hbuf⟩, ⟨_, hname⟩, _, hsame⟩
    have hw := hsame hne
    rw [hw] at hname
    have hname : (FileName.wal id, wal.inode) ∈ w₀.dir.names := hname
    rw [walFile, read_of_mem hname] at hne
    exact ⟨⟨hid, hbuf, hid ▸ hname, hne⟩, _, hw⟩
  · rintro e w ⟨_, _, hsame⟩
    exact ⟨_, hsame.resolve_right fun hnew => hne hnew.1⟩

/-- Up to its last line, which drops the old log. -/
theorem switchMemtable_rotationOf
    (hwal : keep (.wal w₀.manifest.nextWalId) → walFile w₀.dir w₀.manifest.nextWalId ≠ [])
    (htmp : ∀ v, ¬ keep (.mfTmp v)) : Prog.Spec (· = w₀) (switchMemtable env)
      (fun old v => ∀ w, Dropped old v w → RotationOf env keep w₀ w)
      fun _ => RotationOf env keep w₀ := by
  have hmutator : Prog.Spec (· = w₀)
      (openWal w₀.manifest.nextWalId >>= fun _ => Prog.ofExcept (rotateMutator w₀.manifest))
      (fun c w => (c = rotatedManifest w₀.manifest ∧
        Wal.openWritable (walFile w₀.dir w₀.manifest.nextWalId) =
          .ok (walFile w.dir w₀.manifest.nextWalId) ∧ Steady keep w₀ w) ∧ Quiet keep w₀ w)
      (fun _ w => True ∧ Quiet keep w₀ w) := by
    refine Prog.Spec.bind ((openWal_steady hwal).weaken (fun _ h => h) (fun _ _ h => h)
      fun _ _ h => ⟨trivial, h.quiet⟩) fun wal => Prog.Spec.ofExcept (fun c w hc h => ?_) ?_
    · cases hc
      exact ⟨⟨rfl, h.1, h.2⟩, h.2.quiet⟩
    · exact fun e w he => by cases he
  have hmanifest : Prog.Spec (· = w₀) (applyAtomicUpdate env (fun c =>
      openWal c.nextWalId >>= fun _ => Prog.ofExcept (rotateMutator c)) 3)
      (fun _ _ => True) fun _ w => w.manifest = w₀.manifest :=
    (applyAtomicUpdate_error (fun c => (KeepsManifest.openWal _).bind fun _ =>
      KeepsManifest.ofExcept _) 3).weaken (fun _ hw => by rw [hw]) (fun _ _ h => h) fun _ _ h => h
  have hupdate := (applyAtomicUpdate_spec (F := True) (fun c w h => by rw [h.1]; rfl) htmp hmutator
    2).and hmanifest
  refine Prog.Spec.bind_forall (hupdate.weaken (fun _ h => h) (fun _ _ h => h.1)
    fun _ _ h => .inl ⟨h.1.1, h.2⟩) fun m w₂ hcommit => ?_
  obtain ⟨rfl, c, w₁, ⟨⟨rfl, hopened, hsteady⟩, _⟩, _, hcommitted⟩ := hcommit
  have hne : walFile w₂.dir w₀.manifest.nextWalId ≠ [] := by
    rw [walFile, hcommitted.agree_wal.read ⟨_, rfl⟩, ← walFile]
    exact (openWritable_idem hopened).1
  have hlast : w₂.manifest.wals.getLast? = some w₀.manifest.nextWalId := by
    rw [hcommitted.manifest]
    exact List.getLast?_concat
  rw [hlast]
  refine Prog.Spec.bind_forall ((openWal_again hne).weaken (fun _ h => h) (fun _ _ h => h)
    fun _ w h => ?_) fun wal w₃ hopen => ?_
  · obtain ⟨faults, rfl⟩ := h
    exact .inr ⟨w₁, w₂, faults, hsteady, hopened, hcommitted, .inl rfl⟩
  obtain ⟨⟨hid, hbuf, hname, hcontent⟩, faults, rfl⟩ := hopen
  refine Prog.Spec.bind_forall (Q := fun v w => v = w₂.current ∧ w = { w₂ with faults })
    (Prog.Spec.read fun w hw => ⟨by rw [hw], hw⟩) fun v w hv => ?_
  obtain ⟨rfl, rfl⟩ := hv
  refine Prog.Spec.bind (Q := fun _ v => v = { w₂ with
    faults
    current := rotateVersion Memtable.freezeFromRef Memtable.new wal w₂.current })
    (Prog.Spec.modify fun v hv => by rw [hv]) fun _ => Prog.Spec.pure fun v hv w hdropped => ?_
  subst hv
  exact .inr ⟨w₁, w₂, faults, hsteady, hopened, hcommitted,
    .inr ⟨wal, hid, hbuf, hname, hcontent, hdropped⟩⟩

theorem rotateMemtable_rotationOf
    (hwal : keep (.wal w₀.manifest.nextWalId) → walFile w₀.dir w₀.manifest.nextWalId ≠ [])
    (htmp : ∀ v, ¬ keep (.mfTmp v)) : Prog.Spec (· = w₀) (rotateMemtable env)
      (fun _ => RotationOf env keep w₀) fun _ => RotationOf env keep w₀ := by
  refine Prog.Spec.bind_forall (switchMemtable_rotationOf hwal htmp) fun wal v hrotation => ?_
  exact (WalHandle.drop_spec _ v).weaken (fun _ h => h) (fun _ _ hdropped => hrotation _ hdropped)
    fun _ _ h => h

end EasyLsm.Db
