import Mathlib.Data.List.Basic
import Mathlib.Logic.Function.Basic
import EasyLsm.Lib.Transition
import EasyLsm.Updates

/-!
# `apply_atomic_update` as a transition system

Any number of threads run `apply_atomic_update` on one manifest lock and one directory, with any
closures. Taking the snapshot, running the closure, creating the temporary file, each write to
it, and the locked section that checks the version, renames and installs are separate steps. Any
I/O step may fail, which ends the call with an error. `reserve` is the locked section of
`flush_memtables` and `execute_compaction` that hands out a table id.

The temporary file is named after the new version, so two calls that start from one version
write to one file.
-/

namespace EasyLsm.AtomicUpdate

open Lib

/-- One iteration of the loop: the closure, the loop count, and the snapshot. -/
structure Attempt where
  mutator : Manifest → Except DbError Manifest
  loopCount : Nat
  snapshot : Manifest

/-- Where a call is. In `writing` the handle has an inode and a position, and `rest` is what the
`BufWriter` has not yet written. -/
inductive Call where
  | idle
  | looping (mutator : Manifest → Except DbError Manifest) (loopCount : Nat)
  | snapped (a : Attempt)
  | mutated (a : Attempt) (candidate : Manifest)
  | writing (a : Attempt) (candidate : Manifest) (inode pos : Nat) (rest : Bytes)
  | written (a : Attempt) (candidate : Manifest)

/-- The manifest behind the lock, the directory and the calls. `returned` collects the manifests
that calls have returned, `reserved` the table ids handed out, both newest first. -/
structure Sys where
  guard : Manifest
  dir : Dir
  calls : Nat → Call
  returned : List Manifest
  reserved : List UInt32

/-- The steps of the threads. -/
inductive Label where
  | call (t : Nat) (mutator : Manifest → Except DbError Manifest)
  | snapshot (t : Nat)
  | mutate (t : Nat)
  | create (t : Nat)
  | write (t n : Nat)
  | sync (t : Nat)
  | commit (t : Nat) (renames : Bool)
  | fail (t : Nat)
  | reserve

/-- Move a call to another point. -/
def Sys.setCall (s : Sys) (t : Nat) (c : Call) : Sys :=
  { s with calls := Function.update s.calls t c }

/-- The locked section that hands out a table id. -/
def Sys.reserve (s : Sys) : Sys :=
  { s with
    guard := { s.guard with nextSstableId := s.guard.nextSstableId + 1 }
    reserved := s.guard.nextSstableId :: s.reserved }

/-- The commit section: remove the temporary file and start over when the version has changed,
else rename it and install the candidate. A failed renaming removes it and returns the error. -/
def Sys.commit (s : Sys) (t : Nat) (a : Attempt) (candidate : Manifest) (renames : Bool) : Sys :=
  let tmpPath := FileName.mfTmp candidate.version
  let cleaned := { s with dir := s.dir.unlink tmpPath }
  if s.guard.version ≠ a.snapshot.version then
    cleaned.setCall t (.looping a.mutator a.loopCount)
  else
    match (if renames then s.dir.rename tmpPath (.mf candidate.version) else none) with
    | none => cleaned.setCall t .idle
    | some dir =>
        { s with dir, guard := candidate, returned := candidate :: s.returned }.setCall t .idle

variable (crc : Bytes → UInt32)

/-- One step; `none` when the thread is not at that point. -/
def step (s : Sys) : Label → Option Sys
  | .call t mutator =>
      match s.calls t with
      | .idle => some (s.setCall t (.looping mutator 0))
      | _ => none
  | .snapshot t =>
      match s.calls t with
      | .looping mutator n =>
          if 3 < n + 1 then some (s.setCall t .idle)
          else some (s.setCall t (.snapped ⟨mutator, n + 1, s.guard⟩))
      | _ => none
  | .mutate t =>
      match s.calls t with
      | .snapped a =>
          match a.mutator a.snapshot with
          | .error _ => some (s.setCall t .idle)
          | .ok m => some (s.setCall t (.mutated a { m with version := m.version + 1 }))
      | _ => none
  | .create t =>
      match s.calls t with
      | .mutated a candidate =>
          let created := s.dir.create (.mfTmp candidate.version)
          some ({ s with dir := created.2 }.setCall t
            (.writing a candidate created.1 0 (candidate.encode crc)))
      | _ => none
  | .write t n =>
      match s.calls t with
      | .writing a candidate inode pos rest =>
          if n ≤ rest.length then
            some ({ s with dir := s.dir.writeAt inode pos (rest.take n) }.setCall t
              (.writing a candidate inode (pos + n) (rest.drop n)))
          else none
      | _ => none
  | .sync t =>
      match s.calls t with
      | .writing a candidate _ _ [] => some (s.setCall t (.written a candidate))
      | _ => none
  | .commit t renames =>
      match s.calls t with
      | .written a candidate => some (s.commit t a candidate renames)
      | _ => none
  | .fail t =>
      match s.calls t with
      | .mutated _ _ => some (s.setCall t .idle)
      | .writing _ _ _ _ _ => some (s.setCall t .idle)
      | _ => none
  | .reserve => some s.reserve

/-- No call is running and nothing was handed out yet, and the manifest behind the lock is the
newest one in the directory. -/
structure Start (s : Sys) : Prop where
  calls : ∀ t, s.calls t = .idle
  returned : s.returned = []
  reserved : s.reserved = []
  file : ∃ i, (FileName.mf s.guard.version, i) ∈ s.dir.names ∧
    s.dir.content i = s.guard.encode crc
  newest : ∀ v i, (FileName.mf v, i) ∈ s.dir.names → v ≤ s.guard.version

/-- A new database: the initial manifest and its file. -/
def pristine : Sys where
  guard := Manifest.new 0
  dir :=
    let (inode, dir) := FileStore.empty.create (.mf 0)
    dir.setContent inode ((Manifest.new 0).encode crc)
  calls _ := .idle
  returned := []
  reserved := []

theorem start_pristine : Start crc (pristine crc) where
  calls _ := rfl
  returned := rfl
  reserved := rfl
  file := ⟨0, List.mem_singleton.mpr rfl, rfl⟩
  newest v i h := by
    cases List.mem_singleton.mp h
    exact UInt32.le_refl _

@[simp] theorem calls_setCall (s : Sys) (t : Nat) (c : Call) :
    (s.setCall t c).calls = Function.update s.calls t c := rfl

@[simp] theorem guard_setCall (s : Sys) (t : Nat) (c : Call) :
    (s.setCall t c).guard = s.guard := rfl

@[simp] theorem dir_setCall (s : Sys) (t : Nat) (c : Call) :
    (s.setCall t c).dir = s.dir := rfl

@[simp] theorem returned_setCall (s : Sys) (t : Nat) (c : Call) :
    (s.setCall t c).returned = s.returned := rfl

@[simp] theorem reserved_setCall (s : Sys) (t : Nat) (c : Call) :
    (s.setCall t c).reserved = s.reserved := rfl

/-- What a commit section can do: remove the temporary file and start over or give up, or rename
it and install the candidate. -/
theorem commit_cases (s : Sys) (t : Nat) (a : Attempt) (candidate : Manifest) (renames : Bool) :
    (∃ c, (c = .looping a.mutator a.loopCount ∨ c = .idle) ∧
      s.commit t a candidate renames =
        { s with dir := s.dir.unlink (.mfTmp candidate.version) }.setCall t c) ∨
    (s.guard.version = a.snapshot.version ∧
      ∃ dir, s.dir.rename (.mfTmp candidate.version) (.mf candidate.version) = some dir ∧
        s.commit t a candidate renames =
          { s with dir, guard := candidate, returned := candidate :: s.returned }.setCall t
            .idle) := by
  by_cases hversion : s.guard.version = a.snapshot.version
  · cases hren : (if renames then s.dir.rename (.mfTmp candidate.version)
        (.mf candidate.version) else none) with
    | none => exact .inl ⟨.idle, .inr rfl, by simp [Sys.commit, hversion, hren]⟩
    | some dir =>
        have hdir : s.dir.rename (.mfTmp candidate.version) (.mf candidate.version) =
            some dir := by
          split at hren
          · exact hren
          · cases hren
        exact .inr ⟨hversion, dir, hdir, by simp [Sys.commit, hversion, hren]⟩
  · exact .inl ⟨_, .inl rfl, by simp [Sys.commit, hversion]⟩

end EasyLsm.AtomicUpdate
