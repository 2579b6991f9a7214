import Mathlib.Data.List.Basic
import EasyLsm.Lib.Crc32
import EasyLsm.AtomicUpdate.Machine

/-!
# Commits one after the other

A call takes a snapshot, runs its closure without the lock, and installs the result only when the
version behind the lock is still that of the snapshot. `commits_serial`: the manifest behind the
lock is what the closures of the calls that have committed give one after the other, in the order of
the commits, and every such call has returned the manifest right behind its own closure. Only the
table counter, which changes without the version, is left out.
-/

namespace EasyLsm.AtomicUpdate

open Lib

/-- A closure that is handed to `apply_atomic_update`. -/
abbrev Mutator := Manifest → Except DbError Manifest

/-- The manifest with a given table counter. -/
def withNextSstableId (id : UInt32) (m : Manifest) : Manifest := { m with nextSstableId := id }

/-- What a call commits: the closure's manifest with the next version. -/
def commitOf (mutator : Mutator) (m : Manifest) : Except DbError Manifest :=
  (mutator m).map fun c => { c with version := c.version + 1 }

/-- Closures one after the other. -/
def serial (m : Manifest) (mutators : List Mutator) : Except DbError Manifest :=
  mutators.foldlM (fun m mutator => commitOf mutator m) m

/-- A closure leaves the version and the counters alone, and it does not look at the table
counter. -/
structure Closure (mutator : Mutator) : Prop where
  counters : KeepsCounters mutator
  blind : ∀ id m, mutator (withNextSstableId id m) = (mutator m).map (withNextSstableId id)

/-! ## The closures of the code -/

theorem rotateMutator_closure : Closure rotateMutator :=
  ⟨rotateMutator_keepsCounters, fun _ _ => rfl⟩

theorem foldl_pushL0_blind (metas : List FileMetadata) (id : UInt32) (m : Manifest) :
    metas.foldl pushL0 (withNextSstableId id m) = withNextSstableId id (metas.foldl pushL0 m) := by
  induction metas generalizing m with
  | nil => rfl
  | cons f metas ih => exact ih (pushL0 m f)

theorem flushMutator_closure (newSstables : List FileMetadata) (walsToDelete : List UInt32) :
    Closure (flushMutator newSstables walsToDelete) := by
  refine ⟨flushMutator_keepsCounters _ _, fun id m => ?_⟩
  unfold flushMutator
  rw [foldl_pushL0_blind]
  generalize newSstables.foldl pushL0 m = m'
  by_cases hwals : m'.wals.take walsToDelete.length = walsToDelete
  · have hwals' : (withNextSstableId id m').wals.take walsToDelete.length = walsToDelete := hwals
    simp only [hwals, hwals', ne_eq, not_true_eq_false, if_false]
    rfl
  · have hwals' : (withNextSstableId id m').wals.take walsToDelete.length ≠ walsToDelete := hwals
    simp only [hwals, hwals', ne_eq, not_false_eq_true, if_true]
    rfl

theorem compactMutator_closure (sourceLevelIdx : Nat) (removeFromSource removeFromTarget newFiles :
    List FileMetadata) :
    Closure (compactMutator sourceLevelIdx removeFromSource removeFromTarget newFiles) :=
  ⟨compactMutator_keepsCounters _ _ _ _, fun _ _ => rfl⟩

/-! ## Histories -/

/-- The closure of a commit section that has installed its candidate. -/
def installed (s s' : Sys) : Label → List Mutator
  | .commit t _ =>
      match s.calls t with
      | .written a _ => if s'.returned.length = s.returned.length then [] else [a.mutator]
      | _ => []
  | _ => []

/-- Only commit sections install anything. -/
theorem installed_eq_nil {s s' : Sys} {l : Label} (hl : ∀ t renames, l ≠ .commit t renames) :
    installed s s' l = [] := by
  cases l with
  | commit t renames => exact absurd rfl (hl t renames)
  | call | snapshot | mutate | create | write | sync | fail | reserve => rfl

/-- The calls get closures, and no commit wraps the version around. -/
def VersionRoom (s : Sys) : Label → Prop
  | .call _ mutator => Closure mutator
  | .commit _ _ => s.guard.version.toNat + 1 < 2 ^ 32
  | _ => True

/-- The runs from a state, with the closures whose candidates were installed, in order. -/
inductive History (crc : Bytes → UInt32) (s₀ : Sys) : Sys → List Mutator → Prop where
  | start : History crc s₀ s₀ []
  | next {s s' : Sys} {mutators : List Mutator} {l : Label} : History crc s₀ s mutators →
      VersionRoom s l → step crc s l = some s' → History crc s₀ s' (mutators ++ installed s s' l)

/-- A manifest that was read behind the lock: when its version is still the current one, only the
table counter has changed since. -/
structure Snapshot (guard m : Manifest) : Prop where
  version : m.version.toNat ≤ guard.version.toNat
  same : m.version = guard.version → guard = withNextSstableId guard.nextSstableId m

/-- What a call knows at its point of the loop. -/
def Carried (guard : Manifest) : Call → Prop
  | .idle => True
  | .looping mutator _ => Closure mutator
  | .snapped a => Closure a.mutator ∧ Snapshot guard a.snapshot
  | .mutated a candidate | .writing a candidate _ _ _ | .written a candidate =>
      Closure a.mutator ∧ Snapshot guard a.snapshot ∧ commitOf a.mutator a.snapshot = .ok candidate

theorem Snapshot.refl (m : Manifest) : Snapshot m m := ⟨Nat.le_refl _, fun _ => rfl⟩

/-- The guard moves on to another version, or only its table counter changes. -/
theorem Carried.mono {guard guard' : Manifest} {c : Call} (h : Carried guard c)
    (hguard : guard.version.toNat < guard'.version.toNat ∨
      guard' = withNextSstableId guard'.nextSstableId guard) : Carried guard' c := by
  have hsnapshot : ∀ {m}, Snapshot guard m → Snapshot guard' m := by
    intro m hm
    have hle := hm.version
    rcases hguard with hless | hsame
    · exact ⟨by omega, fun heq => by rw [heq] at hle; omega⟩
    · have hversion : guard'.version = guard.version := by rw [hsame]; rfl
      refine ⟨by rw [hversion]; exact hle, fun heq => ?_⟩
      rw [hsame, hm.same (heq.trans hversion)]
      rfl
  cases c with
  | idle => trivial
  | looping => exact h
  | snapped => exact ⟨h.1, hsnapshot h.2⟩
  | mutated | writing | written => exact ⟨h.1, hsnapshot h.2.1, h.2.2⟩

/-- A closure that does not look at the table counter commits the same behind another one. -/
theorem commitOf_blind {mutator : Mutator} (h : Closure mutator) {m c : Manifest} (id : UInt32)
    (hc : commitOf mutator m = .ok c) :
    commitOf mutator (withNextSstableId id m) = .ok (withNextSstableId id c) := by
  unfold commitOf at hc ⊢
  rw [h.blind]
  cases hm : mutator m with
  | error e =>
      rw [hm] at hc
      cases hc
  | ok m' =>
      rw [hm] at hc
      cases hc
      rfl

theorem version_of_commitOf {mutator : Mutator} (h : Closure mutator) {m c : Manifest}
    (hc : commitOf mutator m = .ok c) : c.version = m.version + 1 := by
  unfold commitOf at hc
  cases hm : mutator m with
  | error e =>
      rw [hm] at hc
      cases hc
  | ok m' =>
      rw [hm] at hc
      cases hc
      show m'.version + 1 = m.version + 1
      rw [h.counters.version hm]

/-- The manifest behind the lock and those that were returned are those of the closures so far. -/
structure Serial (s₀ s : Sys) (mutators : List Mutator) : Prop where
  guard : serial s₀.guard mutators =
    .ok (withNextSstableId s₀.guard.nextSstableId s.guard)
  version : s.guard.version.toNat = s₀.guard.version.toNat + mutators.length
  length : s.returned.length = mutators.length
  returned : ∀ i c, s.returned.reverse[i]? = some c →
    serial s₀.guard (mutators.take (i + 1)) = .ok (withNextSstableId s₀.guard.nextSstableId c)
  calls : ∀ t, Carried s.guard (s.calls t)

namespace Serial

variable {s₀ s s' : Sys} {mutators : List Mutator}

theorem start {crc : Bytes → UInt32} (h : Start crc s₀) : Serial s₀ s₀ [] where
  guard := rfl
  version := rfl
  length := by rw [h.returned]; rfl
  returned i c hc := by
    rw [h.returned] at hc
    cases hc
  calls t := by
    rw [h.calls t]
    trivial

/-- One call moves on. -/
theorem setCall (h : Serial s₀ s mutators) (dir : Dir) (t : Nat) {c : Call}
    (hc : Carried s.guard c) : Serial s₀ ({ s with dir }.setCall t c) mutators where
  guard := h.guard
  version := h.version
  length := h.length
  returned := h.returned
  calls u := by
    by_cases hu : u = t
    · subst hu
      simpa using hc
    · simpa [Function.update_of_ne hu] using h.calls u

/-- A table id is reserved. -/
theorem reserve (h : Serial s₀ s mutators) : Serial s₀ s.reserve mutators where
  guard := h.guard
  version := h.version
  length := h.length
  returned := h.returned
  calls t := (h.calls t).mono (.inr rfl)

/-- A candidate is installed. -/
theorem install (h : Serial s₀ s mutators) {t : Nat} {a : Attempt} {candidate : Manifest}
    (dir : Dir)
    (hcall : s.calls t = .written a candidate) (hversion : s.guard.version = a.snapshot.version)
    (hroom : s.guard.version.toNat + 1 < 2 ^ 32) :
    Serial s₀
      ({ s with dir, guard := candidate, returned := candidate :: s.returned }.setCall t .idle)
      (mutators ++ [a.mutator]) := by
  obtain ⟨hclosure, hsnapshot, hcommit⟩ : Carried s.guard (.written a candidate) :=
    hcall ▸ h.calls t
  let id := s₀.guard.nextSstableId
  have hnext : candidate.version.toNat = s.guard.version.toNat + 1 := by
    rw [version_of_commitOf hclosure hcommit, ← hversion, UInt32.toNat_add]
    exact Nat.mod_eq_of_lt hroom
  -- behind the closures so far the closure gives the candidate
  have hserial :
      serial s₀.guard (mutators ++ [a.mutator]) = .ok (withNextSstableId id candidate) := by
    have hguard : withNextSstableId id s.guard = withNextSstableId id a.snapshot := by
      rw [hsnapshot.same hversion.symm]
      rfl
    have hprefix := h.guard
    unfold serial at hprefix ⊢
    rw [List.foldlM_append, hprefix]
    show commitOf a.mutator (withNextSstableId id s.guard) >>= pure = _
    rw [hguard, commitOf_blind hclosure id hcommit]
    rfl
  refine ⟨hserial, ?_, ?_, fun i c hc => ?_, fun u => ?_⟩
  · show candidate.version.toNat = _
    rw [hnext, h.version, List.length_append, List.length_singleton]
    omega
  · show s.returned.length + 1 = _
    rw [h.length, List.length_append, List.length_singleton]
  · have hc : (candidate :: s.returned).reverse[i]? = some c := hc
    rw [List.reverse_cons] at hc
    by_cases hi : i < s.returned.reverse.length
    · rw [List.getElem?_append_left hi] at hc
      rw [List.length_reverse, h.length] at hi
      rw [List.take_append_of_le_length hi]
      exact h.returned i c hc
    · have hlast : i = s.returned.reverse.length := by
        have hless := (List.getElem?_eq_some_iff.mp hc).1
        rw [List.length_append, List.length_singleton] at hless
        omega
      rw [hlast, List.getElem?_concat_length] at hc
      rw [← Option.some.inj hc, hlast, List.length_reverse, h.length, List.take_of_length_le
        (by rw [List.length_append, List.length_singleton])]
      exact hserial
  · by_cases hu : u = t
    · subst hu
      show Carried candidate (Function.update s.calls u .idle u)
      rw [Function.update_self]
      trivial
    · show Carried candidate (Function.update s.calls t .idle u)
      rw [Function.update_of_ne hu]
      exact (h.calls u).mono (.inl (by omega))

/-- One step. -/
theorem step {crc : Bytes → UInt32} {l : Label} (h : Serial s₀ s mutators) (hroom : VersionRoom s l)
    (hs : AtomicUpdate.step crc s l = some s') :
    Serial s₀ s' (mutators ++ installed s s' l) := by
  cases l with
  | call t mutator =>
      rw [installed_eq_nil (by simp), List.append_nil]
      simp only [AtomicUpdate.step] at hs
      split at hs <;> cases hs
      exact h.setCall s.dir t hroom
  | snapshot t =>
      rw [installed_eq_nil (by simp), List.append_nil]
      simp only [AtomicUpdate.step] at hs
      split at hs
      · rename_i mutator n hcall
        have hclosure : Carried s.guard (.looping mutator n) := hcall ▸ h.calls t
        split at hs <;> cases hs
        · exact h.setCall s.dir t (c := .idle) trivial
        · exact h.setCall s.dir t (c := .snapped _) ⟨hclosure, .refl _⟩
      · cases hs
  | mutate t =>
      rw [installed_eq_nil (by simp), List.append_nil]
      simp only [AtomicUpdate.step] at hs
      split at hs
      · rename_i a hcall
        obtain ⟨hclosure, hsnapshot⟩ : Carried s.guard (.snapped a) := hcall ▸ h.calls t
        split at hs <;> cases hs
        · exact h.setCall s.dir t (c := .idle) trivial
        · rename_i m hm
          refine h.setCall s.dir t (c := .mutated a _) ⟨hclosure, hsnapshot, ?_⟩
          rw [commitOf, hm]
          rfl
      · cases hs
  | create t =>
      rw [installed_eq_nil (by simp), List.append_nil]
      simp only [AtomicUpdate.step] at hs
      split at hs <;> cases hs
      rename_i a candidate hcall
      have hcarried : Carried s.guard (.mutated a candidate) := hcall ▸ h.calls t
      exact h.setCall _ t hcarried
  | write t n =>
      rw [installed_eq_nil (by simp), List.append_nil]
      simp only [AtomicUpdate.step] at hs
      split at hs
      · rename_i a candidate inode pos rest hcall
        have hcarried : Carried s.guard (.writing a candidate inode pos rest) := hcall ▸ h.calls t
        split at hs <;> cases hs
        exact h.setCall _ t hcarried
      · cases hs
  | sync t =>
      rw [installed_eq_nil (by simp), List.append_nil]
      simp only [AtomicUpdate.step] at hs
      split at hs <;> cases hs
      rename_i a candidate inode pos hcall
      have hcarried : Carried s.guard (.writing a candidate inode pos []) := hcall ▸ h.calls t
      exact h.setCall s.dir t hcarried
  | commit t renames =>
      simp only [AtomicUpdate.step] at hs
      split at hs
      · rename_i a candidate hcall
        obtain ⟨hclosure, _, _⟩ : Carried s.guard (.written a candidate) := hcall ▸ h.calls t
        cases hs
        rcases commit_cases s t a candidate renames with ⟨c, hc, heq⟩ | ⟨hversion, dir, _, heq⟩
        · have hnone : installed s (s.commit t a candidate renames) (.commit t renames) = [] := by
            simp only [installed, hcall, heq]
            exact if_pos rfl
          rw [hnone, List.append_nil, heq]
          refine h.setCall _ t ?_
          rcases hc with rfl | rfl
          · exact hclosure
          · trivial
        · have hone : installed s (s.commit t a candidate renames) (.commit t renames) =
              [a.mutator] := by
            simp only [installed, hcall, heq]
            exact if_neg (Nat.succ_ne_self _)
          rw [hone, heq]
          exact h.install dir hcall hversion hroom
      · cases hs
  | fail t =>
      rw [installed_eq_nil (by simp), List.append_nil]
      simp only [AtomicUpdate.step] at hs
      split at hs <;> cases hs
      · exact h.setCall s.dir t (c := .idle) trivial
      · exact h.setCall s.dir t (c := .idle) trivial
  | reserve =>
      rw [installed_eq_nil (by simp), List.append_nil]
      cases hs
      exact h.reserve

end Serial

theorem History.serial {crc : Bytes → UInt32} {s₀ s : Sys} {mutators : List Mutator}
    (hstart : Start crc s₀) (h : History crc s₀ s mutators) : Serial s₀ s mutators := by
  induction h with
  | start => exact .start hstart
  | next _ hroom hs ih => exact ih.step hroom hs

/-- A step installs at most one candidate. -/
theorem length_installed_le (s s' : Sys) (l : Label) : (installed s s' l).length ≤ 1 := by
  cases l with
  | commit t renames =>
      simp only [installed]
      split
      · split <;> simp
      · simp
  | call | snapshot | mutate | create | write | sync | fail | reserve => simp [installed]

/-- A run whose calls get closures and that is shorter than the versions that are left. -/
theorem History.run {crc : Bytes → UInt32} {s₀ s s' : Sys} {mutators : List Mutator}
    {ls : List Label}
    (hstart : Start crc s₀) (h : History crc s₀ s mutators)
    (hcalls : ∀ t mutator, .call t mutator ∈ ls → Closure mutator)
    (hroom : s.guard.version.toNat + ls.length < 2 ^ 32)
    (hrun : Lib.run (step crc) s ls = some s') :
    ∃ mutators', History crc s₀ s' mutators' := by
  induction ls generalizing s mutators with
  | nil =>
      cases hrun
      exact ⟨_, h⟩
  | cons l ls ih =>
      simp only [Lib.run, Option.bind_eq_some_iff] at hrun
      obtain ⟨mid, hmid, hrest⟩ := hrun
      rw [List.length_cons] at hroom
      have hl : VersionRoom s l := by
        cases l with
        | call t mutator => exact hcalls t mutator List.mem_cons_self
        | commit t renames =>
            show s.guard.version.toNat + 1 < 2 ^ 32
            omega
        | snapshot | mutate | create | write | sync | fail | reserve => trivial
      have hnext := h.next hl hmid
      have hversion := (h.serial hstart).version
      have hversion' := (hnext.serial hstart).version
      have hle := length_installed_le s mid l
      rw [List.length_append] at hversion'
      exact ih hnext (fun t mutator hmem => hcalls t mutator (List.mem_cons_of_mem _ hmem))
        (by omega) hrest

/-- In every run of any calls from a start, the manifest behind the lock is what the closures of the
calls that have committed give one after the other, up to the table counter; its version counts
them; and every such call has returned the manifest right behind its own closure. -/
theorem commits_serial (crc : Bytes → UInt32) (s₀ s : Sys) (mutators : List Mutator)
    (hstart : Start crc s₀) (h : History crc s₀ s mutators) :
    serial s₀.guard mutators = .ok (withNextSstableId s₀.guard.nextSstableId s.guard) ∧
    s.guard.version.toNat = s₀.guard.version.toNat + mutators.length ∧
    s.returned.length = mutators.length ∧
    ∀ i c, s.returned.reverse[i]? = some c →
      serial s₀.guard (mutators.take (i + 1)) = .ok
        (withNextSstableId s₀.guard.nextSstableId c) := by
  have hserial := h.serial hstart
  exact ⟨hserial.guard, hserial.version, hserial.length, hserial.returned⟩

/-- Two rotations take their snapshots, one commits, and the other one has to start over. -/
def rotatedTwice : List Label :=
  [.call 0 rotateMutator, .call 1 rotateMutator, .snapshot 0, .snapshot 1, .mutate 0, .mutate 1,
    .create 0, .write 0 40, .sync 0, .commit 0 true, .create 1, .write 1 40, .sync 1,
    .commit 1 true,
    .snapshot 1, .mutate 1, .create 1, .write 1 44, .sync 1, .commit 1 true]

theorem commits_serial_rotated_twice : ∃ s mutators,
    run (step crc32) (pristine crc32) rotatedTwice = some s ∧ s.guard.wals = [0, 1, 1] ∧
    serial (Manifest.new 0) mutators = .ok (withNextSstableId 0 s.guard) ∧ mutators.length = 2 := by
  have hrun : ∃ s, run (step crc32) (pristine crc32) rotatedTwice = some s ∧
      s.guard.wals = [0, 1, 1] ∧ s.returned.length = 2 := ⟨_, rfl, rfl, rfl⟩
  obtain ⟨s, hrun, hwals, htwo⟩ := hrun
  have hcalls : ∀ t mutator, .call t mutator ∈ rotatedTwice → Closure mutator := by
    intro t mutator hmem
    have hrotate : t = 0 ∧ mutator = rotateMutator ∨ t = 1 ∧ mutator = rotateMutator := by
      simpa [rotatedTwice] using hmem
    rcases hrotate with ⟨_, rfl⟩ | ⟨_, rfl⟩ <;> exact rotateMutator_closure
  obtain ⟨mutators, hhistory⟩ :=
    History.start.run (start_pristine crc32) hcalls (by decide) hrun
  obtain ⟨hserial, _, hlength, _⟩ :=
    commits_serial crc32 (pristine crc32) s mutators (start_pristine crc32) hhistory
  exact ⟨s, mutators, hrun, hwals, hserial, hlength ▸ htwo⟩

end EasyLsm.AtomicUpdate
