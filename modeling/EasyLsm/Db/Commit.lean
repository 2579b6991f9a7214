import Mathlib.Data.List.Basic
import EasyLsm.Db.Quiet

/-!
# Committing a manifest

`applyAtomicUpdate_spec` says what one call of `apply_atomic_update` does when no other thread runs:
there is no retry, the candidate is written to its temporary file, and the rename is the only step
that changes a manifest file. The specifications of the I/O calls used here also say which of them
takes which fault.
-/

namespace EasyLsm.Db

open Lib Lib.FileStore

variable {env : Env} {keep : FileName → Prop} {w₀ w w' : World}

/-- The next `n` I/O calls succeed. -/
def NoFault (w : World) (n : Nat) : Prop := ∀ i < n, w.faults.getD i none = none

/-- One call and then the others. -/
theorem noFault_succ {n : Nat} (h : w'.faults = w.faults.tail) :
    NoFault w (n + 1) ↔ w.faults.headD none = none ∧ NoFault w' n := by
  have hget : ∀ i, w'.faults.getD i none = w.faults.getD (i + 1) none := by
    intro i
    rw [h]
    cases w.faults <;> simp
  have hhead : w.faults.headD none = w.faults.getD 0 none := by cases w.faults <;> rfl
  unfold NoFault
  rw [hhead]
  constructor
  · intro hall
    exact ⟨hall 0 (Nat.succ_pos n), fun i hi => hget i ▸ hall (i + 1) (Nat.succ_lt_succ hi)⟩
  · rintro ⟨hzero, hrest⟩ i hi
    cases i with
    | zero => exact hzero
    | succ i => exact hget i ▸ hrest i (Nat.lt_of_succ_lt_succ hi)

theorem noFault_zero (w : World) : NoFault w 0 := fun _ hi => absurd hi (Nat.not_lt_zero _)

theorem headD_of_noFault {n : Nat} (h : NoFault w (n + 1)) : w.faults.headD none = none :=
  ((@noFault_succ w { w with faults := w.faults.tail } n rfl).mp h).1

/-! ## I/O calls -/

/-- `File::create` makes an empty file of the name. -/
theorem createFile_run (w₀ : World) (name : FileName) :
    Prog.Spec (· = w₀) (createFile name)
      (fun inode w => (w₀.faults.headD none = none ∧ w.faults = w₀.faults.tail) ∧
        ((name, inode) ∈ w.dir.names ∧ w.dir.content inode = []) ∧ Quiet (· ≠ name) w₀ w)
      (fun _ w => w₀.faults.headD none ≠ none ∧ Quiet (· ≠ name) w₀ w) := by
  have hquiet := @createFile_spec (· ≠ name) w₀ name (by simp)
  rintro w₀ rfl
  have h := hquiet w₀ (Quiet.refl _ w₀)
  cases hfault : w₀.faults.headD none with
  | none =>
      have hrun : createFile name w₀ = (.ok (w₀.dir.create name).1, { w₀ with
          faults := w₀.faults.tail
          dir := (w₀.dir.create name).2
          trace := w₀.trace ++ [(w₀.dir.create name).2] }) := by
        simp only [createFile, Prog.bind_apply, nextFault_run, Prog.read, hfault]
        rfl
      rw [hrun] at h ⊢
      obtain ⟨hnames, _, hcontent, _⟩ := @create_spec _ _ w₀.dir _ name _ rfl
      exact ⟨⟨rfl, rfl⟩, ⟨(hnames _ _).mpr (.inl ⟨rfl, rfl⟩), hcontent⟩, h.2⟩
  | some f =>
      have hrun : createFile name w₀ =
          (.error (.io f.kind), { w₀ with faults := w₀.faults.tail }) := by
        simp only [createFile, Prog.bind_apply, nextFault_run, Prog.read, hfault]
        rfl
      rw [hrun] at h ⊢
      exact ⟨by simp, h⟩

/-- The last of the states of a file that is written is the whole file. -/
theorem getLastD_writeSteps (dir dir' : Dir) (inode : Nat) (bytes : Bytes) :
    (writeSteps dir inode bytes).getLastD dir' = dir.setContent inode bytes := by
  unfold writeSteps
  rw [List.range_succ, List.map_append, List.getLastD_eq_getLast?, List.map_singleton,
    List.getLast?_concat, Option.getD_some, List.take_length]

/-- A file that is written has the content. -/
theorem writeFile_run (w₀ : World) {name : FileName} {inode : Nat}
    (hname : (name, inode) ∈ w₀.dir.names) (bytes : Bytes) :
    Prog.Spec (· = w₀) (writeFile inode bytes)
      (fun _ w => (w₀.faults.headD none = none ∧ w.faults = w₀.faults.tail) ∧
        w.dir = w₀.dir.setContent inode bytes ∧ Quiet (· ≠ name) w₀ w)
      (fun _ w => w₀.faults.headD none ≠ none ∧ Quiet (· ≠ name) w₀ w) := by
  have hfree : Free (· ≠ name) w₀.dir inode := free_of_mem (by simp) hname
  rintro w₀ rfl
  have h := writeFile_calm hfree bytes w₀ (Quiet.refl _ w₀)
  cases hfault : w₀.faults.headD none with
  | none =>
      have hrun : writeFile inode bytes w₀ = (.ok (), { w₀ with
          faults := w₀.faults.tail
          dir := (writeSteps w₀.dir inode bytes).getLastD w₀.dir
          trace := w₀.trace ++ writeSteps w₀.dir inode bytes }) := by
        simp only [writeFile, Prog.bind_apply, nextFault_run, Prog.read, hfault]
        rfl
      rw [hrun] at h ⊢
      exact ⟨⟨rfl, rfl⟩, getLastD_writeSteps _ _ _ _, h⟩
  | some f =>
      have hrun : writeFile inode bytes w₀ = (.error (.io f.kind), { w₀ with
          faults := w₀.faults.tail
          dir := (writeSteps w₀.dir inode (bytes.take f.taken)).getLastD w₀.dir
          trace := w₀.trace ++ writeSteps w₀.dir inode (bytes.take f.taken) }) := by
        simp only [writeFile, Prog.bind_apply, nextFault_run, Prog.read, hfault]
        rfl
      rw [hrun] at h ⊢
      exact ⟨by simp, h⟩

/-- A manifest that is written is what its file holds. -/
theorem writeToPath_run (env : Env) (w₀ : World) (m : Manifest) (name : FileName) :
    Prog.Spec (· = w₀) (writeToPath env m name)
      (fun _ w => (NoFault w₀ 2 ∧ w.faults = w₀.faults.drop 2) ∧
        w.dir.read name = some (m.encode env.crates.crc32) ∧ Quiet (· ≠ name) w₀ w)
      (fun _ w => ¬ NoFault w₀ 2 ∧ Quiet (· ≠ name) w₀ w) := by
  refine Prog.Spec.bind_forall ((createFile_run w₀ name).weaken (fun _ h => h) (fun _ _ h => h) ?_)
    fun inode w₁ hcreate => ?_
  · rintro e w ⟨hfault, hquiet⟩
    exact ⟨fun h => hfault (headD_of_noFault h), hquiet⟩
  · obtain ⟨⟨hfault, hfaults⟩, ⟨hmem, _⟩, hquiet⟩ := hcreate
    refine (writeFile_run w₁ hmem _).weaken (fun _ h => h) ?_ ?_
    · rintro _ w ⟨⟨hfault', hfaults'⟩, hdir, hquiet'⟩
      have hmem' : (name, inode) ∈ w.dir.names := by rw [hdir]; exact hmem
      refine ⟨⟨?_, by rw [hfaults', hfaults, ← List.drop_one, ← List.drop_one, List.drop_drop]⟩, ?_,
        hquiet.trans hquiet'⟩
      · exact (noFault_succ hfaults).mpr ⟨hfault, (noFault_succ hfaults').mpr
          ⟨hfault', noFault_zero w⟩⟩
      · rw [read_of_mem hmem', hdir, content_setContent_self]
    · rintro e w ⟨hfault', hquiet'⟩
      exact ⟨fun h => hfault' (headD_of_noFault ((noFault_succ hfaults).mp h).2),
        hquiet.trans hquiet'⟩

/-- `fs::rename` of a file that exists fails only on a fault. -/
theorem renameFile_run {w₀ : World} {old new : FileName} {bytes : Bytes}
    (hold : w₀.dir.read old = some bytes) :
    Prog.Spec (· = w₀) (renameFile old new)
      (fun _ w => (w₀.faults.headD none = none ∧ w.faults = w₀.faults.tail) ∧
        ∃ d, w₀.dir.rename old new = some d ∧
          w = { w₀ with faults := w₀.faults.tail, dir := d, trace := w₀.trace ++ [d] })
      (fun _ w => w₀.faults.headD none ≠ none ∧ w = { w₀ with faults := w₀.faults.tail }) := by
  rintro w₀ rfl
  obtain ⟨d, hrename⟩ : ∃ d, w₀.dir.rename old new = some d := by
    obtain ⟨inode, hlookup, _⟩ := Option.map_eq_some_iff.mp hold
    exact rename_isSome (lookup_eq_some.mp hlookup)
  cases hfault : w₀.faults.headD none with
  | none =>
      have hrun : renameFile old new w₀ = (.ok (), { w₀ with
          faults := w₀.faults.tail, dir := d, trace := w₀.trace ++ [d] }) := by
        simp only [renameFile, Prog.bind_apply, nextFault_run, Prog.read, hrename, hfault]
        rfl
      rw [hrun]
      exact ⟨⟨rfl, rfl⟩, d, hrename, rfl⟩
  | some f =>
      have hrun : renameFile old new w₀ =
          (.error (.io f.kind), { w₀ with faults := w₀.faults.tail }) := by
        simp only [renameFile, Prog.bind_apply, nextFault_run, Prog.read, hfault]
        rfl
      rw [hrun]
      exact ⟨by simp, rfl⟩

/-- The file of a log, as `Wal<Writable>::open` finds it. -/
def walFile (dir : Dir) (id : UInt32) : Bytes := (dir.read (.wal id)).getD []

/-- A log that is not empty is there. -/
theorem read_of_walFile {dir : Dir} {id : UInt32} (h : walFile dir id ≠ []) :
    dir.read (.wal id) = some (walFile dir id) := by
  unfold walFile at h ⊢
  cases hread : dir.read (.wal id) with
  | none => exact absurd (by rw [hread]; rfl) h
  | some file => rfl

section OpenWal

variable {w₀ : World} {id : UInt32} {inode : Nat} {dir : Dir}

/-- The file that was opened or created is empty when there was none, or an empty one. -/
theorem length_opened (hopen : w₀.dir.openOrCreate (.wal id) = (inode, dir)) :
    (dir.content inode).length = 0 ↔ walFile w₀.dir id = [] := by
  rw [List.length_eq_zero_iff, content_openOrCreate hopen, ← walFile]

/-- A fault comes before anything was written, or a new log gets a part of its magic number. -/
theorem openWal_fault {f : Fault} (hfault : w₀.faults.headD none = some f) :
    ∃ w, openWal id w₀ = (.error (.io f.kind), w) ∧ (w = { w₀ with faults := w₀.faults.tail } ∨
      walFile w₀.dir id = [] ∧ walFile w.dir id <+: Wal.magicBytes) := by
  rcases hopen : w₀.dir.openOrCreate (.wal id) with ⟨inode, dir⟩
  obtain ⟨taken, kind⟩ := f
  cases taken with
  | zero =>
      refine ⟨{ w₀ with faults := w₀.faults.tail }, ?_, .inl rfl⟩
      simp only [openWal, Prog.bind_apply, nextFault_run, Prog.read, hfault]
      rfl
  | succ taken =>
      by_cases hnil : walFile w₀.dir id = []
      · refine ⟨{ w₀ with
          faults := w₀.faults.tail
          dir := (writeSteps dir inode (Wal.magicBytes.take taken)).getLastD w₀.dir
          trace := w₀.trace ++ writeSteps dir inode (Wal.magicBytes.take taken) },
          ?_, .inr ⟨hnil, ?_⟩⟩
        · simp only [openWal, Prog.bind_apply, nextFault_run, Prog.read, hfault, hopen]
          rw [if_pos ((length_opened hopen).mpr hnil)]
          rfl
        · have hmem : (FileName.wal id, inode) ∈
              (dir.setContent inode (Wal.magicBytes.take taken)).names :=
            ((openOrCreate_spec hopen).1 _ _).mpr (.inl ⟨rfl, rfl⟩)
          rw [getLastD_writeSteps, walFile, read_of_mem hmem, Option.getD_some,
            content_setContent_self]
          exact List.take_prefix taken _
      · refine ⟨{ w₀ with faults := w₀.faults.tail }, ?_, .inl rfl⟩
        simp only [openWal, Prog.bind_apply, nextFault_run, Prog.read, hfault, hopen]
        rw [if_neg (mt (length_opened hopen).mp hnil)]
        rfl

/-- A file that is not a log is refused. -/
theorem openWal_refused (hfault : w₀.faults.headD none = none) {e : DbError}
    (hfile : Wal.openWritable (walFile w₀.dir id) = .error e) :
    openWal id w₀ = (.error e, { w₀ with faults := w₀.faults.tail }) := by
  rcases hopen : w₀.dir.openOrCreate (.wal id) with ⟨inode, dir⟩
  have hcontent : dir.content inode = walFile w₀.dir id := content_openOrCreate hopen
  simp only [openWal, Prog.bind_apply, nextFault_run, Prog.read, hfault, hopen, hcontent, hfile]
  rfl

/-- A new log, or an empty one, gets its magic number. -/
theorem openWal_created (hfault : w₀.faults.headD none = none)
    (hopen : w₀.dir.openOrCreate (.wal id) = (inode, dir)) (hnil : walFile w₀.dir id = [])
    {bytes : Bytes}
    (hfile : Wal.openWritable (walFile w₀.dir id) = .ok bytes) :
    openWal id w₀ = (.ok ⟨id, inode, []⟩, { w₀ with
      faults := w₀.faults.tail
      dir := (writeSteps dir inode bytes).getLastD w₀.dir
      trace := w₀.trace ++ writeSteps dir inode bytes }) := by
  have hcontent : dir.content inode = walFile w₀.dir id := content_openOrCreate hopen
  simp only [openWal, Prog.bind_apply, nextFault_run, Prog.read, hfault, hopen, hcontent, hfile]
  rw [if_pos (by rw [hnil]; rfl)]
  rfl

/-- A log that is there is opened as it is. -/
theorem openWal_found (hfault : w₀.faults.headD none = none)
    (hopen : w₀.dir.openOrCreate (.wal id) = (inode, dir)) (hne : walFile w₀.dir id ≠ [])
    {bytes : Bytes}
    (hfile : Wal.openWritable (walFile w₀.dir id) = .ok bytes) :
    openWal id w₀ = (.ok ⟨id, inode, []⟩, { w₀ with faults := w₀.faults.tail }) ∧ dir = w₀.dir ∧
      bytes = walFile w₀.dir id := by
  have hcontent : dir.content inode = walFile w₀.dir id := content_openOrCreate hopen
  have hlength : ¬ (walFile w₀.dir id).length = 0 := by rwa [List.length_eq_zero_iff]
  refine ⟨?_, openOrCreate_of_read (read_of_walFile hne) hopen, ?_⟩
  · simp only [openWal, Prog.bind_apply, nextFault_run, Prog.read, hfault, hopen, hcontent, hfile]
    rw [if_neg hlength]
    rfl
  · unfold Wal.openWritable at hfile
    rw [if_neg hlength] at hfile
    obtain ⟨⟨magicBuf, r⟩, _, hfile⟩ := bind_ok_iff.mp hfile
    simp only at hfile
    split at hfile
    · cases hfile
    · cases hfile
      rfl

/-- `Wal<Writable>::open` fails on a fault or on a file that is not a log. -/
theorem openWal_run (w₀ : World) (id : UInt32) :
    Prog.Spec (· = w₀) (openWal id)
      (fun wal w => (w₀.faults.headD none = none ∧ w.faults = w₀.faults.tail) ∧
        (wal.id = id ∧ wal.buf = []) ∧
        (Wal.openWritable (walFile w₀.dir id) = .ok (w.dir.content wal.inode) ∧
          (.wal id, wal.inode) ∈ w.dir.names) ∧
        Quiet (· ≠ .wal id) w₀ w ∧
        (walFile w₀.dir id ≠ [] → w = { w₀ with faults := w₀.faults.tail }))
      (fun _ w => (NoFault w₀ 1 → ∀ bytes, Wal.openWritable (walFile w₀.dir id) ≠ .ok bytes) ∧
        Quiet (· ≠ .wal id) w₀ w ∧ (w = { w₀ with faults := w₀.faults.tail } ∨
          walFile w₀.dir id = [] ∧ walFile w.dir id <+: Wal.magicBytes)) := by
  have hcalm := @openWal_calm (· ≠ .wal id) w₀ id (by simp)
  rintro w₀ rfl
  have h := hcalm w₀ (Quiet.refl _ w₀)
  rcases hopen : w₀.dir.openOrCreate (.wal id) with ⟨inode, dir⟩
  have hcontent : dir.content inode = walFile w₀.dir id := content_openOrCreate hopen
  have hmem : (FileName.wal id, inode) ∈ dir.names :=
    ((openOrCreate_spec hopen).1 _ _).mpr (.inl ⟨rfl, rfl⟩)
  cases hfault : w₀.faults.headD none with
  | some f =>
      obtain ⟨w, hrun, hw⟩ := @openWal_fault w₀ id f hfault
      rw [hrun] at h ⊢
      refine ⟨fun hno => ?_, h, hw⟩
      rw [headD_of_noFault hno] at hfault
      cases hfault
  | none =>
      cases hfile : Wal.openWritable (walFile w₀.dir id) with
      | error e =>
          rw [openWal_refused hfault hfile] at h ⊢
          exact ⟨fun _ bytes => by simp, h, .inl rfl⟩
      | ok bytes =>
          by_cases hnil : walFile w₀.dir id = []
          · rw [openWal_created hfault hopen hnil hfile] at h ⊢
            refine ⟨⟨rfl, rfl⟩, ⟨rfl, rfl⟩, ?_, h, fun hne => absurd hnil hne⟩
            simp only [getLastD_writeSteps]
            exact ⟨by rw [content_setContent_self], hmem⟩
          · obtain ⟨hrun, hdir, hsame⟩ := openWal_found hfault hopen hnil hfile
            rw [hrun] at h ⊢
            subst hdir
            refine ⟨⟨rfl, rfl⟩, ⟨rfl, rfl⟩, ⟨?_, hmem⟩, h, fun _ => rfl⟩
            show _ = Except.ok (w₀.dir.content inode)
            rw [hcontent, hsame]

end OpenWal

/-! ## The commit -/

/-- From `w₁` the candidate `c` was committed: it was written to its temporary file, which was
renamed, and became the manifest. -/
structure Committed (env : Env) (w₁ : World) (c : Manifest) (w : World) : Prop where
  manifest : w.manifest = { c with version := c.version + 1 }
  current : w.current = w₁.current
  nextLsn : w.nextLsn = w₁.nextLsn
  faults : w₁.faults = [] → w.faults = []
  rename : ∃ w₂, Quiet (· ≠ .mfTmp (c.version + 1)) w₁ w₂ ∧
    w₂.dir.read (.mfTmp (c.version + 1)) = some (w.manifest.encode env.crates.crc32) ∧
    w₂.dir.rename (.mfTmp (c.version + 1)) (.mf (c.version + 1)) = some w.dir ∧
    w.trace = w₂.trace ++ [w.dir]

/-- One call of `apply_atomic_update`: the closure runs once, and of the I/O calls of the commit
either all three succeed, or nothing but the temporary file has changed. -/
theorem applyAtomicUpdate_spec {mutator : Manifest → Op Manifest} {R : Manifest → World → Prop}
    {F : Prop} (hversion : ∀ c w, R c w → c.version = w₀.manifest.version)
    (htmp : ∀ v, ¬ keep (.mfTmp v))
    (hmutator : Prog.Spec (· = w₀) (mutator w₀.manifest) (fun c w => R c w ∧ Quiet keep w₀ w)
      fun _ w => F ∧ Quiet keep w₀ w) (attempts : Nat) :
    Prog.Spec (· = w₀) (applyAtomicUpdate env mutator (attempts + 1))
      (fun m w => m = w.manifest ∧ ∃ c w₁, (R c w₁ ∧ Quiet keep w₀ w₁) ∧
        (NoFault w₁ 3 ∧ w.faults = w₁.faults.drop 3) ∧ Committed env w₁ c w)
      (fun _ w => Quiet keep w₀ w ∧
        (F ∨ ∃ c w₁, (R c w₁ ∧ Quiet keep w₀ w₁) ∧ ¬ NoFault w₁ 3)) := by
  refine Prog.Spec.bind_forall (Q := fun m w => m = w₀.manifest ∧ w = w₀)
    (Prog.Spec.read fun w hw => ⟨by rw [hw], hw⟩) fun guard w hguard => ?_
  obtain ⟨rfl, rfl⟩ := hguard
  refine Prog.Spec.bind_forall (hmutator.weaken (fun _ h => h) (fun _ _ h => h) ?_)
    fun c w₁ hc => ?_
  · rintro e w' ⟨hf, hquiet⟩
    exact ⟨hquiet, .inl hf⟩
  obtain ⟨hR, hquiet₁⟩ := hc
  have htmpQuiet : ∀ {w'}, Quiet (· ≠ .mfTmp (c.version + 1)) w₁ w' → Quiet keep w w' := by
    intro w' h
    exact hquiet₁.trans (h.mono fun n hn heq => htmp _ (heq ▸ hn))
  refine Prog.Spec.bind_forall ((writeToPath_run env w₁ _ _).weaken (fun _ h => h)
    (fun _ _ h => h) ?_) fun _ w₂ hw₂ => ?_
  · rintro e w' ⟨hfault, hquiet⟩
    refine ⟨htmpQuiet hquiet, .inr ⟨c, w₁, ⟨hR, hquiet₁⟩, fun h => hfault ?_⟩⟩
    exact fun i hi => h i (Nat.lt_succ_of_lt hi)
  obtain ⟨⟨hfault₂, hfaults₂⟩, hread₂, hquiet₂⟩ := hw₂
  refine Prog.Spec.bind_forall (Q := fun m w' => m = w₂.manifest ∧ w' = w₂)
    (Prog.Spec.read fun w' hw' => ⟨by rw [hw'], hw'⟩) fun guard w' hguard => ?_
  obtain ⟨rfl, rfl⟩ := hguard
  -- nothing else commits in between, so the versions are equal
  have hsame : w'.manifest.version = w.manifest.version := by
    obtain ⟨id, hid⟩ := (htmpQuiet hquiet₂).manifest
    rw [hid]
  rw [if_neg (by simpa using hsame)]
  have hthree : NoFault w₁ 3 ↔ w'.faults.headD none = none := by
    have hget : w₁.faults.getD 2 none = w'.faults.headD none := by
      rw [hfaults₂]
      simp [List.headD_eq_head?_getD, List.head?_drop, List.getD_eq_getElem?_getD]
    constructor
    · intro h
      rw [← hget]
      exact h 2 (by omega)
    · intro h i hi
      rcases Nat.lt_succ_iff_lt_or_eq.mp hi with hlt | rfl
      · exact hfault₂ i hlt
      · rw [hget, h]
  refine Prog.Spec.bind_forall (Q := fun res w'' => match res with
      | .ok () => (w'.faults.headD none = none ∧ w''.faults = w'.faults.tail) ∧
          ∃ d, w'.dir.rename (.mfTmp (c.version + 1)) (.mf (c.version + 1)) = some d ∧
            w'' = { w' with faults := w'.faults.tail, dir := d, trace := w'.trace ++ [d] }
      | .error _ => w'.faults.headD none ≠ none ∧ w'' = { w' with faults := w'.faults.tail })
    (Prog.Spec.attempt (renameFile_run hread₂)) fun res w'' hrename => ?_
  cases res with
  | error e =>
      obtain ⟨hfault, rfl⟩ := hrename
      have hw'' := (htmpQuiet hquiet₂).tail
      refine Prog.Spec.bind (Q := fun _ => Quiet keep w) ?_ fun _ => Prog.Spec.fail fun s hs =>
        ⟨hs, .inr ⟨c, w₁, ⟨hR, hquiet₁⟩, fun h => hfault (hthree.mp h)⟩⟩
      rintro _ rfl
      exact ((removeFile_calm (htmp _)).attempt).quiet hw''
  | ok =>
      obtain ⟨⟨hfault, hfaults⟩, d, hd, rfl⟩ := hrename
      refine Prog.Spec.bind_forall (Q := fun _ s => s = { w' with
          faults := w'.faults.tail
          dir := d
          trace := w'.trace ++ [d]
          manifest := { c with version := c.version + 1 } })
        (Prog.Spec.modify fun s hs => by rw [hs]) fun _ s hs => Prog.Spec.pure ?_
      rintro _ rfl
      subst hs
      refine ⟨rfl, c, w₁, ⟨hR, hquiet₁⟩, ⟨hthree.mpr hfault, ?_⟩, rfl, hquiet₂.current,
        hquiet₂.nextLsn, hquiet₂.tail.faults, w', hquiet₂, hread₂, hd, rfl⟩
      show w'.faults.tail = _
      rw [hfaults₂, List.tail_drop]

end EasyLsm.Db
