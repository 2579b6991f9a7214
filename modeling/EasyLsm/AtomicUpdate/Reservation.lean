import Mathlib.Data.List.Basic
import EasyLsm.Lib.Crc32
import EasyLsm.AtomicUpdate.Machine

/-!
# Table ids handed out during a commit

A reservation changes `next_sstable_id` without changing the version, and a commit compares only
versions before it installs its candidate, so a commit whose call took its snapshot before a
reservation sets the counter back. `reserved_ids_distinct` says that without such a commit no id
is handed out twice.
-/

namespace EasyLsm.AtomicUpdate

open Lib

/-- A closure leaves the table counter alone. -/
def KeepsNextSstableId (mutator : Manifest → Except DbError Manifest) : Prop :=
  ∀ m m', mutator m = .ok m' → m'.nextSstableId = m.nextSstableId

/-- The closures of the code leave the table counter alone. -/
theorem KeepsCounters.keepsNextSstableId {mutator : Manifest → Except DbError Manifest}
    (h : KeepsCounters mutator) : KeepsNextSstableId mutator := fun _ _ => h.nextSstableId

/-- The condition on a step: no id was reserved since the snapshot of a call that commits, the
closure leaves the counter alone, and the counter does not overflow. -/
def NoneReservedSince (s : Sys) : Label → Prop
  | .call _ mutator => KeepsNextSstableId mutator
  | .commit t _ => ∀ a candidate, s.calls t = .written a candidate →
      s.guard.version = a.snapshot.version → s.guard.nextSstableId = a.snapshot.nextSstableId
  | .reserve => s.guard.nextSstableId.toNat + 1 < 2 ^ 32
  | _ => True

/-- The candidate of a call has the table counter of its snapshot. -/
def Carries : Call → Prop
  | .idle => True
  | .looping mutator _ => KeepsNextSstableId mutator
  | .snapped a => KeepsNextSstableId a.mutator
  | .mutated a candidate | .writing a candidate _ _ _ | .written a candidate =>
      KeepsNextSstableId a.mutator ∧ candidate.nextSstableId = a.snapshot.nextSstableId

/-- The invariant: the ids handed out are distinct and below the counter. -/
structure Distinct (s : Sys) : Prop where
  nodup : s.reserved.Nodup
  below : ∀ id ∈ s.reserved, id < s.guard.nextSstableId
  calls : ∀ t, Carries (s.calls t)

/-- Moving one call keeps the invariant when the new point carries the counter. -/
theorem Distinct.setCall {s : Sys} (h : Distinct s) (dir : Dir) (t : Nat) {c : Call}
    (hc : Carries c) : Distinct ({ s with dir }.setCall t c) where
  nodup := h.nodup
  below := h.below
  calls u := by
    by_cases hu : u = t
    · subst hu
      simpa using hc
    · simpa [Function.update_of_ne hu] using h.calls u

/-- A reservation keeps the invariant unless the counter overflows. -/
theorem Distinct.reserve {s : Sys} (h : Distinct s)
    (hroom : s.guard.nextSstableId.toNat + 1 < 2 ^ 32) : Distinct s.reserve := by
  have hnext : s.guard.nextSstableId < s.guard.nextSstableId + 1 := by
    rw [UInt32.lt_iff_toNat_lt, UInt32.toNat_add]
    have hone : (1 : UInt32).toNat = 1 := rfl
    omega
  refine ⟨List.nodup_cons.mpr ⟨fun hmem => ?_, h.nodup⟩, fun id hid => ?_, h.calls⟩
  · exact absurd (h.below _ hmem) (UInt32.lt_irrefl _)
  · rcases List.mem_cons.mp hid with rfl | hid
    · exact hnext
    · exact UInt32.lt_trans (h.below id hid) hnext

/-- A commit keeps the invariant when nothing was reserved since its snapshot. -/
theorem Distinct.commit {s : Sys} (h : Distinct s) {t : Nat} {a : Attempt} {candidate : Manifest}
    {renames : Bool} (hcall : s.calls t = .written a candidate)
    (hquiet : s.guard.version = a.snapshot.version →
      s.guard.nextSstableId = a.snapshot.nextSstableId) :
    Distinct (s.commit t a candidate renames) := by
  have hcarries : Carries (.written a candidate) := hcall ▸ h.calls t
  rcases commit_cases s t a candidate renames with ⟨c, hc, heq⟩ | ⟨hversion, dir, _, heq⟩
  · rw [heq]
    refine h.setCall _ t ?_
    rcases hc with rfl | rfl
    · exact hcarries.1
    · exact trivial
  · rw [heq]
    have hcounter : candidate.nextSstableId = s.guard.nextSstableId :=
      hcarries.2.trans (hquiet hversion).symm
    have hinstalled : Distinct { s with
        guard := candidate, returned := candidate :: s.returned } :=
      ⟨h.nodup, fun id hid => by
        show id < candidate.nextSstableId
        rw [hcounter]
        exact h.below id hid, h.calls⟩
    exact hinstalled.setCall dir t (c := .idle) trivial

/-- One step keeps the invariant. -/
theorem Distinct.step {crc : Bytes → UInt32} {s s' : Sys} {l : Label} (h : Distinct s)
    (hl : NoneReservedSince s l) (hs : step crc s l = some s') : Distinct s' := by
  cases l with
  | call t mutator =>
      simp only [AtomicUpdate.step] at hs
      split at hs <;> cases hs
      exact h.setCall s.dir t hl
  | snapshot t =>
      simp only [AtomicUpdate.step] at hs
      split at hs
      · rename_i mutator n hcall
        have hkeeps : Carries (.looping mutator n) := hcall ▸ h.calls t
        split at hs <;> cases hs
        · exact h.setCall s.dir t trivial
        · exact h.setCall s.dir t hkeeps
      · cases hs
  | mutate t =>
      simp only [AtomicUpdate.step] at hs
      split at hs
      · rename_i a hcall
        have hkeeps : Carries (.snapped a) := hcall ▸ h.calls t
        split at hs <;> cases hs
        · exact h.setCall s.dir t trivial
        · rename_i m hm
          exact h.setCall s.dir t ⟨hkeeps, hkeeps _ m hm⟩
      · cases hs
  | create t =>
      simp only [AtomicUpdate.step] at hs
      split at hs <;> cases hs
      rename_i a candidate hcall
      have hcarries : Carries (.mutated a candidate) := hcall ▸ h.calls t
      exact h.setCall _ t hcarries
  | write t n =>
      simp only [AtomicUpdate.step] at hs
      split at hs
      · rename_i a candidate inode pos rest hcall
        have hcarries : Carries (.writing a candidate inode pos rest) := hcall ▸ h.calls t
        split at hs <;> cases hs
        exact h.setCall _ t hcarries
      · cases hs
  | sync t =>
      simp only [AtomicUpdate.step] at hs
      split at hs <;> cases hs
      rename_i a candidate inode pos hcall
      have hcarries : Carries (.writing a candidate inode pos []) := hcall ▸ h.calls t
      exact h.setCall s.dir t hcarries
  | commit t renames =>
      simp only [AtomicUpdate.step] at hs
      split at hs <;> cases hs
      rename_i a candidate hcall
      exact h.commit hcall (hl a candidate hcall)
  | fail t =>
      simp only [AtomicUpdate.step] at hs
      split at hs <;> cases hs
      · exact h.setCall s.dir t trivial
      · exact h.setCall s.dir t trivial
  | reserve =>
      cases hs
      exact h.reserve hl

/-- In every run in which no call commits over a reservation made since its snapshot, the table
ids handed out are distinct, and the counter is larger than all of them. -/
theorem reserved_ids_distinct {crc : Bytes → UInt32} {s : Sys}
    (h : Reach (step crc) (Start crc) NoneReservedSince s) :
    s.reserved.Nodup ∧ ∀ id ∈ s.reserved, id < s.guard.nextSstableId := by
  have hinv : Distinct s := h.invariant (P := Distinct)
    (fun s hs => ⟨by rw [hs.reserved]; exact List.nodup_nil,
      by rw [hs.reserved]; exact fun id hid => absurd hid List.not_mem_nil,
      fun t => by rw [hs.calls t]; trivial⟩)
    (fun _ _ _ hi hl hs => hi.step hl hs)
  exact ⟨hinv.nodup, hinv.below⟩

/-- A rotation commits in one piece and two tables get an id: the ids are different. -/
theorem reserved_ids_distinct_rotation :
    ∃ s, run (step crc32) (pristine crc32) [.call 0 rotateMutator, .snapshot 0, .mutate 0,
        .create 0, .write 0 40, .sync 0, .commit 0 true, .reserve, .reserve] = some s ∧
      s.reserved.Nodup ∧ ∀ id ∈ s.reserved, id < s.guard.nextSstableId :=
  have hcall : KeepsNextSstableId rotateMutator :=
    KeepsCounters.keepsNextSstableId rotateMutator_keepsCounters
  ⟨_, rfl, @reserved_ids_distinct crc32 _
    (.next (l := .reserve) (.next (l := .reserve) (.next (l := .commit 0 true)
      (.next (l := .sync 0) (.next (l := .write 0 40) (.next (l := .create 0)
        (.next (l := .mutate 0) (.next (l := .snapshot 0) (.next (l := .call 0 rotateMutator)
          (.start (start_pristine crc32)) hcall rfl) trivial rfl) trivial rfl) trivial rfl)
            trivial rfl) trivial rfl) (fun _ _ h _ => by cases h; rfl) rfl)
      (by decide : (0 : UInt32).toNat + 1 < 2 ^ 32) rfl)
      (by decide : (1 : UInt32).toNat + 1 < 2 ^ 32) rfl)⟩

/-- A rotation takes its snapshot, a table gets an id, the rotation commits, and the next table
gets an id. -/
def reservedTwice : List Label :=
  [.call 0 rotateMutator, .snapshot 0, .reserve, .mutate 0, .create 0, .write 0 40, .sync 0,
    .commit 0 true, .reserve]

/-- A commit over a reservation hands the same table id out again. -/
theorem reserved_id_handed_out_twice :
    ¬ ∀ s, Reach (step crc32) (Start crc32) anyStep s →
      s.reserved.Nodup ∧ ∀ id ∈ s.reserved, id < s.guard.nextSstableId := by
  intro hall
  have hrun : ∃ s, run (step crc32) (pristine crc32) reservedTwice = some s ∧
      s.reserved = [0, 0] := ⟨_, rfl, rfl⟩
  obtain ⟨s, hrun, hreserved⟩ := hrun
  have hdistinct := hall s (Reach.of_run (.start (start_pristine crc32)) hrun)
  rw [hreserved] at hdistinct
  exact absurd hdistinct.1 (by decide)

end EasyLsm.AtomicUpdate
