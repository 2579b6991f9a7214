import Mathlib.Data.List.Basic
import EasyLsm.Lib.Crc32
import EasyLsm.AtomicUpdate.Machine

/-!
# The manifest on disk

Two calls that start from one version create, write and remove one temporary file, outside the
lock. When the second one creates the file after the first one has written it and before the
first one renames it, the renamed file is empty or holds the other candidate.
`committed_of_own_tmp_file` says that this is the only way: as long as no call creates a
temporary file that another call is using, the file of every returned manifest holds its
encoding, and recovery loads the committed manifest.
-/

namespace EasyLsm.AtomicUpdate

open Lib

/-- A closure leaves the version alone. -/
def KeepsVersion (mutator : Manifest → Except DbError Manifest) : Prop :=
  ∀ m m', mutator m = .ok m' → m'.version = m.version

/-- The closures of the code leave the version alone. -/
theorem KeepsCounters.keepsVersion {mutator : Manifest → Except DbError Manifest}
    (h : KeepsCounters mutator) : KeepsVersion mutator := fun _ _ => h.version

/-- The version of the temporary file that a call has created and not yet renamed or removed. -/
def Call.holding : Call → Option UInt32
  | .writing _ candidate _ _ _ | .written _ candidate => some candidate.version
  | _ => none

variable (crc : Bytes → UInt32)

/-- Every returned manifest is in its file, and recovery loads the WALs, the levels and the
version of the committed one. -/
def Committed (s : Sys) : Prop :=
  (∀ m ∈ s.returned, s.dir.read (.mf m.version) = some (m.encode crc)) ∧
    ∀ dbDir, ∃ m, Manifest.recover crc dbDir s.dir = some (.ok m) ∧
      m.wals = s.guard.wals ∧ m.levels = s.guard.levels ∧ m.version = s.guard.version

/-- The condition on a step: no call creates a temporary file that another call is using, what is
committed can be encoded, closures leave the version alone, and versions do not overflow. -/
def OwnTmpFile (s : Sys) : Label → Prop
  | .call _ mutator => KeepsVersion mutator
  | .snapshot _ => s.guard.version.toNat + 1 < 2 ^ 32
  | .create t => ∀ a candidate, s.calls t = .mutated a candidate →
      ∀ u, u ≠ t → (s.calls u).holding ≠ some candidate.version
  | .commit t _ => ∀ a candidate, s.calls t = .written a candidate → candidate.Fits
  | _ => True

/-- The candidate is one version ahead of the snapshot. -/
def Ahead (a : Attempt) (candidate : Manifest) : Prop :=
  KeepsVersion a.mutator ∧ candidate.version.toNat = a.snapshot.version.toNat + 1

/-- A call that has created its temporary file owns it: the file holds what was written. -/
def CallOk (dir : Dir) : Call → Prop
  | .idle => True
  | .looping mutator _ => KeepsVersion mutator
  | .snapped a => KeepsVersion a.mutator ∧ a.snapshot.version.toNat + 1 < 2 ^ 32
  | .mutated a candidate => Ahead a candidate
  | .writing a candidate inode pos rest => Ahead a candidate ∧
      (FileName.mfTmp candidate.version, inode) ∈ dir.names ∧
      pos = (dir.content inode).length ∧ dir.content inode ++ rest = candidate.encode crc
  | .written a candidate => Ahead a candidate ∧
      ∃ inode, (FileName.mfTmp candidate.version, inode) ∈ dir.names ∧
        dir.content inode = candidate.encode crc

/-- The invariant. -/
structure Installed (s : Sys) : Prop where
  returned : ∀ m ∈ s.returned, ∃ i, (FileName.mf m.version, i) ∈ s.dir.names ∧
    s.dir.content i = m.encode crc
  file : ∃ i, (FileName.mf s.guard.version, i) ∈ s.dir.names ∧
    s.dir.content i = s.guard.encode crc
  newest : ∀ v i, (FileName.mf v, i) ∈ s.dir.names → v ≤ s.guard.version
  fits : s.guard.Fits
  calls : ∀ t, CallOk crc s.dir (s.calls t)
  exclusive : ∀ t u v, t ≠ u → (s.calls t).holding = some v → (s.calls u).holding ≠ some v

/-- Two directories agree on every file but the temporary one of a version. -/
structure Frame (v : UInt32) (dir dir' : Dir) : Prop where
  names : ∀ n i, n ≠ .mfTmp v → ((n, i) ∈ dir'.names ↔ (n, i) ∈ dir.names)
  contents : ∀ n i, n ≠ .mfTmp v → (n, i) ∈ dir.names → dir'.content i = dir.content i

variable {crc}

/-- A directory agrees with itself. -/
theorem Frame.refl (v : UInt32) (dir : Dir) : Frame v dir dir :=
  ⟨fun _ _ _ => Iff.rfl, fun _ _ _ _ => rfl⟩

/-- Creating the temporary file touches no other file. -/
theorem Frame.create {v : UInt32} {dir dir' : Dir} {i : Nat}
    (h : dir.create (.mfTmp v) = (i, dir')) : Frame v dir dir' := by
  obtain ⟨hnames, hinode, _, hcontent, _⟩ := FileStore.create_spec h
  refine ⟨fun n j hn => ?_, fun n j hn hj => ?_⟩
  · rw [hnames]
    simp [hn]
  · refine hcontent j ?_ (fun heq => dir.next_not_mem n (heq ▸ hj))
    rintro rfl
    rcases hinode with hi | rfl
    · exact hn (dir.name_unique hj hi)
    · exact dir.next_not_mem n hj

/-- Writing to the temporary file touches no other file. -/
theorem Frame.writeAt {v : UInt32} {dir : Dir} {i pos : Nat} {data : Bytes}
    (h : (FileName.mfTmp v, i) ∈ dir.names) : Frame v dir (dir.writeAt i pos data) := by
  refine ⟨fun _ _ _ => Iff.rfl, fun n j hn hj => ?_⟩
  refine FileStore.content_setContent_of_ne dir ?_ _
  rintro rfl
  exact hn (dir.name_unique hj h)

/-- Removing the temporary file touches no other file. -/
theorem Frame.unlink (v : UInt32) (dir : Dir) : Frame v dir (dir.unlink (.mfTmp v)) :=
  ⟨fun n i hn => by simp [FileStore.mem_unlink, hn], fun _ _ _ _ => rfl⟩

/-- The manifest files are among the files that stay. -/
theorem Frame.mf_iff {v w : UInt32} {dir dir' : Dir} {i : Nat} (h : Frame v dir dir') :
    (FileName.mf w, i) ∈ dir'.names ↔ (FileName.mf w, i) ∈ dir.names :=
  h.names _ _ nofun

/-- The manifest files keep their contents. -/
theorem Frame.mf_content {v w : UInt32} {dir dir' : Dir} {i : Nat} (h : Frame v dir dir')
    (hmem : (FileName.mf w, i) ∈ dir.names) : dir'.content i = dir.content i :=
  h.contents (.mf w) i nofun hmem

/-- A call is not affected by changes to a temporary file that it does not use. -/
theorem CallOk.frame {v : UInt32} {dir dir' : Dir} {c : Call} (h : CallOk crc dir c)
    (hframe : Frame v dir dir') (hc : c.holding ≠ some v) : CallOk crc dir' c := by
  cases c with
  | idle => exact h
  | looping => exact h
  | snapped => exact h
  | mutated => exact h
  | writing a candidate inode pos rest =>
      obtain ⟨hahead, hmem, hpos, hbytes⟩ := h
      have hne : FileName.mfTmp candidate.version ≠ .mfTmp v := by
        rintro heq
        cases heq
        exact hc rfl
      have hsame := hframe.contents _ _ hne hmem
      exact ⟨hahead, (hframe.names _ _ hne).mpr hmem, by rw [hsame]; exact hpos,
        by rw [hsame]; exact hbytes⟩
  | written a candidate =>
      obtain ⟨hahead, inode, hmem, hbytes⟩ := h
      have hne : FileName.mfTmp candidate.version ≠ .mfTmp v := by
        rintro heq
        cases heq
        exact hc rfl
      exact ⟨hahead, inode, (hframe.names _ _ hne).mpr hmem,
        by rw [hframe.contents _ _ hne hmem]; exact hbytes⟩

/-- A call moves and changes nothing but the temporary file of a version no other call uses. -/
theorem Installed.move {s : Sys} (h : Installed crc s) {t : Nat} {c : Call} {v : UInt32}
    {dir : Dir} (hframe : Frame v s.dir dir) (hother : ∀ u, u ≠ t → (s.calls u).holding ≠ some v)
    (hc : CallOk crc dir c) (hholding : c.holding = none ∨ c.holding = some v) :
    Installed crc ({ s with dir }.setCall t c) where
  returned m hm := by
    obtain ⟨i, hmem, hbytes⟩ := h.returned m hm
    exact ⟨i, hframe.mf_iff.mpr hmem, (hframe.mf_content hmem).trans hbytes⟩
  file := by
    obtain ⟨i, hmem, hbytes⟩ := h.file
    exact ⟨i, hframe.mf_iff.mpr hmem, (hframe.mf_content hmem).trans hbytes⟩
  newest w i hmem := h.newest w i (hframe.mf_iff.mp hmem)
  fits := h.fits
  calls u := by
    by_cases hu : u = t
    · subst hu
      simpa using hc
    · simpa [Function.update_of_ne hu] using (h.calls u).frame hframe (hother u hu)
  exclusive u w x huw hx := by
    simp only [calls_setCall] at hx ⊢
    by_cases hu : u = t
    · subst hu
      rw [Function.update_self] at hx
      rw [Function.update_of_ne huw.symm]
      have hxv : v = x := by
        rcases hholding with hnone | hsome
        · rw [hnone] at hx
          cases hx
        · rw [hsome] at hx
          exact Option.some.inj hx
      exact hxv ▸ hother w huw.symm
    · rw [Function.update_of_ne hu] at hx
      by_cases hw : w = t
      · subst hw
        rw [Function.update_self]
        rcases hholding with hnone | hsome
        · rw [hnone]
          nofun
        · rw [hsome]
          intro hvx
          exact hother u hu (hx.trans hvx.symm)
      · rw [Function.update_of_ne hw]
        exact h.exclusive u w x huw hx

/-- A call moves to a point where it uses no temporary file; the directory does not change. -/
theorem Installed.release {s : Sys} (h : Installed crc s) {t : Nat} {c : Call}
    (hc : CallOk crc s.dir c) (hnone : c.holding = none) :
    Installed crc (s.setCall t c) := by
  constructor
  · exact h.returned
  · exact h.file
  · exact h.newest
  · exact h.fits
  · intro u
    by_cases hu : u = t
    · subst hu
      simpa using hc
    · simpa [Function.update_of_ne hu] using h.calls u
  · intro u w x huw hx
    simp only [calls_setCall] at hx ⊢
    by_cases hu : u = t
    · subst hu
      rw [Function.update_self, hnone] at hx
      cases hx
    · rw [Function.update_of_ne hu] at hx
      by_cases hw : w = t
      · subst hw
        rw [Function.update_self, hnone]
        nofun
      · rw [Function.update_of_ne hw]
        exact h.exclusive u w x huw hx

/-- The other calls do not use the temporary file of a call. -/
theorem Installed.others {s : Sys} (h : Installed crc s) {t : Nat} {v : UInt32}
    (hv : (s.calls t).holding = some v) : ∀ u, u ≠ t → (s.calls u).holding ≠ some v :=
  fun u hu => h.exclusive t u v hu.symm hv

/-- Installing a candidate: its temporary file becomes the newest manifest file. -/
theorem Installed.install {s : Sys} (h : Installed crc s) {t : Nat} {a : Attempt}
    {candidate : Manifest} {dir : Dir} (hcall : s.calls t = .written a candidate)
    (hversion : s.guard.version = a.snapshot.version) (hfits : candidate.Fits)
    (hdir : s.dir.rename (.mfTmp candidate.version) (.mf candidate.version) = some dir) :
    Installed crc ({ s with
      dir, guard := candidate, returned := candidate :: s.returned }.setCall t .idle) := by
  have hok : CallOk crc s.dir (.written a candidate) := hcall ▸ h.calls t
  obtain ⟨⟨_, hahead⟩, inode, htmp, hbytes⟩ := hok
  obtain ⟨i, hi, hcontent, _, hnames⟩ := FileStore.rename_spec hdir
  cases s.dir.inode_unique htmp hi
  have hlt : s.guard.version < candidate.version := by
    rw [UInt32.lt_iff_toNat_lt, hversion]
    omega
  have hold : ∀ v j, (FileName.mf v, j) ∈ s.dir.names → (FileName.mf v, j) ∈ dir.names := by
    intro v j hj
    refine (hnames _ _).mpr (.inr ⟨hj, nofun, fun heq => ?_⟩)
    cases heq
    exact UInt32.not_lt.mpr (h.newest _ _ hj) hlt
  have hnew : (FileName.mf candidate.version, inode) ∈ dir.names :=
    (hnames _ _).mpr (.inl ⟨rfl, rfl⟩)
  have hother := h.others (t := t) (v := candidate.version) (by rw [hcall]; rfl)
  have hdata : dir.content inode = candidate.encode crc := (congrFun hcontent inode).trans hbytes
  refine { returned := ?_, file := ⟨inode, hnew, hdata⟩, newest := ?_,
           fits := hfits, calls := ?_, exclusive := ?_ }
  · intro m hm
    rcases List.mem_cons.mp hm with rfl | hm
    · exact ⟨inode, hnew, hdata⟩
    · obtain ⟨j, hj, hjbytes⟩ := h.returned m hm
      exact ⟨j, hold _ _ hj, (congrFun hcontent j).trans hjbytes⟩
  · intro v j hj
    rcases (hnames _ _).mp hj with ⟨heq, _⟩ | ⟨hj, _⟩
    · cases heq
      exact UInt32.le_refl _
    · exact UInt32.le_of_lt (UInt32.lt_of_le_of_lt (h.newest _ _ hj) hlt)
  · intro u
    by_cases hu : u = t
    · subst hu
      simp only [calls_setCall, Function.update_self]
      exact trivial
    · simp only [calls_setCall, Function.update_of_ne hu, dir_setCall]
      -- the other calls see the directory as if only the temporary file had gone
      have hframe : Frame candidate.version s.dir (s.dir.unlink (.mfTmp candidate.version)) :=
        Frame.unlink _ _
      have hu' := (h.calls u).frame hframe (hother u hu)
      cases hc : s.calls u with
      | idle => exact trivial
      | looping => rw [hc] at hu'; exact hu'
      | snapped => rw [hc] at hu'; exact hu'
      | mutated => rw [hc] at hu'; exact hu'
      | writing b cand j pos rest =>
          rw [hc] at hu'
          obtain ⟨hb, hmem, hpos, hrest⟩ := hu'
          obtain ⟨hmem, hne⟩ := FileStore.mem_unlink.mp hmem
          have hsame : dir.content j = s.dir.content j := congrFun hcontent j
          exact ⟨hb, (hnames _ _).mpr (.inr ⟨hmem, hne, nofun⟩), by rw [hsame]; exact hpos,
            by rw [hsame]; exact hrest⟩
      | written b cand =>
          rw [hc] at hu'
          obtain ⟨hb, j, hmem, hj⟩ := hu'
          obtain ⟨hmem, hne⟩ := FileStore.mem_unlink.mp hmem
          exact ⟨hb, j, (hnames _ _).mpr (.inr ⟨hmem, hne, nofun⟩),
            (congrFun hcontent j).trans hj⟩
  · exact (h.release (t := t) (c := .idle) trivial rfl).exclusive

/-- One step keeps the invariant. -/
theorem Installed.step {s s' : Sys} {l : Label} (h : Installed crc s) (hl : OwnTmpFile s l)
    (hs : step crc s l = some s') : Installed crc s' := by
  cases l with
  | call t mutator =>
      simp only [AtomicUpdate.step] at hs
      split at hs <;> cases hs
      exact h.release hl rfl
  | snapshot t =>
      simp only [AtomicUpdate.step] at hs
      split at hs
      · rename_i mutator n hcall
        have hok : CallOk crc s.dir (.looping mutator n) := hcall ▸ h.calls t
        split at hs <;> cases hs
        · exact h.release trivial rfl
        · exact h.release ⟨hok, hl⟩ rfl
      · cases hs
  | mutate t =>
      simp only [AtomicUpdate.step] at hs
      split at hs
      · rename_i a hcall
        have hok : CallOk crc s.dir (.snapped a) := hcall ▸ h.calls t
        split at hs <;> cases hs
        · exact h.release trivial rfl
        · rename_i m hm
          refine h.release ⟨hok.1, ?_⟩ rfl
          have hone : (1 : UInt32).toNat = 1 := rfl
          have hroom := hok.2
          simp only [UInt32.toNat_add, hok.1 _ m hm, hone]
          omega
      · cases hs
  | create t =>
      simp only [AtomicUpdate.step] at hs
      split at hs
      · rename_i a candidate hcall
        have hok : CallOk crc s.dir (.mutated a candidate) := hcall ▸ h.calls t
        rcases hcreate : s.dir.create (.mfTmp candidate.version) with ⟨inode, dir⟩
        obtain ⟨hnames, _, hempty, _⟩ := FileStore.create_spec hcreate
        simp only [hcreate, Option.some.injEq] at hs
        subst hs
        refine h.move (Frame.create hcreate) (hl a candidate hcall) ?_ (.inr rfl)
        exact ⟨hok, (hnames _ _).mpr (.inl ⟨rfl, rfl⟩), by simp [hempty],
          by rw [hempty, List.nil_append]⟩
      · cases hs
  | write t n =>
      simp only [AtomicUpdate.step] at hs
      split at hs
      · rename_i a candidate inode pos rest hcall
        have hok : CallOk crc s.dir (.writing a candidate inode pos rest) := hcall ▸ h.calls t
        obtain ⟨hahead, hmem, hpos, hbytes⟩ := hok
        split at hs <;> cases hs
        rename_i hn
        have hdata : (s.dir.writeAt inode pos (rest.take n)).content inode =
            s.dir.content inode ++ rest.take n := by
          rw [FileStore.writeAt, FileStore.content_setContent_self, hpos, overwrite_length]
        refine h.move (Frame.writeAt hmem) (h.others (by rw [hcall]; rfl)) ?_ (.inr rfl)
        refine ⟨hahead, hmem, ?_, ?_⟩
        · rw [hdata, List.length_append, List.length_take, Nat.min_eq_left hn, hpos]
        · rw [hdata, List.append_assoc, List.take_append_drop, hbytes]
      · cases hs
  | sync t =>
      simp only [AtomicUpdate.step] at hs
      split at hs <;> cases hs
      rename_i a candidate inode pos hcall
      have hok : CallOk crc s.dir (.writing a candidate inode pos []) := hcall ▸ h.calls t
      obtain ⟨hahead, hmem, _, hbytes⟩ := hok
      rw [List.append_nil] at hbytes
      exact h.move (Frame.refl candidate.version s.dir) (h.others (by rw [hcall]; rfl))
        ⟨hahead, inode, hmem, hbytes⟩ (.inr rfl)
  | commit t renames =>
      simp only [AtomicUpdate.step] at hs
      split at hs <;> cases hs
      rename_i a candidate hcall
      have hok : CallOk crc s.dir (.written a candidate) := hcall ▸ h.calls t
      rcases commit_cases s t a candidate renames with ⟨c, hc, heq⟩ | ⟨hversion, dir, hdir, heq⟩
      · rw [heq]
        refine h.move (Frame.unlink _ _) (h.others (by rw [hcall]; rfl)) ?_ ?_
        · rcases hc with rfl | rfl
          · exact hok.1.1
          · exact trivial
        · rcases hc with rfl | rfl <;> exact .inl rfl
      · rw [heq]
        exact h.install hcall hversion (hl a candidate hcall) hdir
  | fail t =>
      simp only [AtomicUpdate.step] at hs
      split at hs <;> cases hs
      · exact h.release trivial rfl
      · exact h.release trivial rfl
  | reserve =>
      cases hs
      exact ⟨h.returned, h.file, h.newest, h.fits, h.calls, h.exclusive⟩

/-- The invariant gives the claim about files and about recovery. -/
theorem Installed.committed {s : Sys} (h : Installed crc s) : Committed crc s := by
  refine ⟨fun m hm => ?_, fun dbDir => ?_⟩
  · obtain ⟨i, hmem, hbytes⟩ := h.returned m hm
    rw [FileStore.read_of_mem hmem, hbytes]
  · obtain ⟨i, hmem, hbytes⟩ := h.file
    have hnewest : Manifest.newestVersion s.dir = some s.guard.version := by
      refine Manifest.newestVersion_eq (Dir.mem_versions.mpr ⟨i, hmem⟩) (fun v hv => ?_)
      obtain ⟨j, hj⟩ := Dir.mem_versions.mp hv
      exact h.newest v j hj
    have hopen := @Manifest.tryOpen_encode crc _ h.fits s.guard.version
    refine ⟨{ s.guard with
      nextWalId := Manifest.maxId s.guard.wals + 1
      nextSstableId := Manifest.maxId s.guard.sstableIds + 1 }, ?_, rfl, rfl, rfl⟩
    rw [Manifest.recover, hnewest, Option.map_some, FileStore.read_of_mem hmem,
      Option.getD_some, hbytes, hopen]

/-- The states a run starts from: nothing is running, and the manifest behind the lock can be
encoded and is the newest one in the directory. -/
structure StartFits (crc : Bytes → UInt32) (s : Sys) : Prop extends Start crc s where
  fits : s.guard.Fits

/-- In every run in which no call creates a temporary file that another call is using, and in
which what is committed can be encoded, every returned manifest is in its file, and recovery
loads the committed manifest. -/
theorem committed_of_own_tmp_file {s : Sys}
    (h : Reach (step crc) (StartFits crc) OwnTmpFile s) : Committed crc s := by
  have hinv : Installed crc s := h.invariant (P := Installed crc)
    (fun s hs =>
      { returned := by rw [hs.returned]; exact fun m hm => absurd hm List.not_mem_nil
        file := hs.file
        newest := hs.newest
        fits := hs.fits
        calls := fun t => by rw [hs.calls t]; trivial
        exclusive := fun t u v _ hv => by rw [hs.calls t] at hv; cases hv })
    (fun _ _ _ hi hl hs => hi.step hl hs)
  exact hinv.committed

theorem startFits_pristine : StartFits crc32 (pristine crc32) where
  toStart := start_pristine crc32
  fits := by decide

/-- A rotation that runs alone on a new database is committed. -/
theorem committed_rotation :
    ∃ s, run (step crc32) (pristine crc32) [.call 0 rotateMutator, .snapshot 0, .mutate 0,
        .create 0, .write 0 40, .sync 0, .commit 0 true] = some s ∧ Committed crc32 s :=
  have hcall : KeepsVersion rotateMutator := KeepsCounters.keepsVersion rotateMutator_keepsCounters
  ⟨_, rfl, @committed_of_own_tmp_file crc32 _
    (.next (l := .commit 0 true) (.next (l := .sync 0) (.next (l := .write 0 40)
      (.next (l := .create 0) (.next (l := .mutate 0) (.next (l := .snapshot 0)
        (.next (l := .call 0 rotateMutator) (.start startFits_pristine) hcall rfl)
        (by decide : (0 : UInt32).toNat + 1 < 2 ^ 32) rfl) trivial rfl)
        (fun _ _ _ u hu => by
          cases u with
          | zero => exact absurd rfl hu
          | succ u =>
              show none ≠ some _
              nofun) rfl) trivial rfl) trivial rfl)
      (fun _ _ h => by cases h; decide) rfl)⟩

/-- Two rotations start from one version; the second creates the temporary file after the first
has written it and before the first renames it. -/
def sharedTmpFile : List Label :=
  [.call 0 rotateMutator, .call 1 rotateMutator, .snapshot 0, .snapshot 1, .mutate 0, .mutate 1,
    .create 0, .write 0 40, .sync 0, .create 1, .commit 0 true]

/-- The first rotation of `sharedTmpFile` returns and its manifest file is empty. -/
theorem returned_manifest_file_empty :
    ¬ ∀ s, Reach (step crc32) (StartFits crc32) anyStep s → Committed crc32 s := by
  intro hall
  have hrun : ∃ s m, run (step crc32) (pristine crc32) sharedTmpFile = some s ∧
      s.returned = [m] ∧ s.dir.read (.mf m.version) = some [] := ⟨_, _, rfl, rfl, rfl⟩
  obtain ⟨s, m, hrun, hreturned, hread⟩ := hrun
  have hcommitted := hall s (Reach.of_run (.start startFits_pristine) hrun)
  have hfile := hcommitted.1 m (by rw [hreturned]; simp)
  rw [hread] at hfile
  have hlen := congrArg List.length (Option.some.inj hfile)
  have hpos : 0 < (m.encode crc32).length := by
    show 0 < (leBytes 4 _ ++ _).length
    simp
  simp only [List.length_nil] at hlen
  omega

end EasyLsm.AtomicUpdate
