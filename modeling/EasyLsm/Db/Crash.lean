import Mathlib.Data.List.Basic
import EasyLsm.Db.Journaled
import EasyLsm.Db.LogTrace
import EasyLsm.Db.Rotations

/-!
# What a crash leaves of a command

A crash leaves one of the directories on the way of a command. `Journaled.left`: the directory
belongs to a database, that from before the command or one that the command makes, unless it has a
torn record at the end of the active log.
-/

namespace EasyLsm.Db

open Lib Lib.FileStore

variable {env : Env} {w w' w₁ : World} {shelf : List (List (OpenTable env.crates))} {j : LogJournal}
  {command : Command} {r : Except DbError Unit} {d : Dir}

/-- The directory is one of those between the two states. -/
def Leaves (w w' : World) (d : Dir) : Prop := ∃ dirs, w'.trace = w.trace ++ dirs ∧ d ∈ dirs

theorem Throughout.of_leaves {P : Dir → Prop} (h : Throughout P w w') (hd : Leaves w w' d) :
    P d := by
  obtain ⟨⟨dirs, htrace, hdirs⟩, _⟩ := h
  obtain ⟨dirs', htrace', hd⟩ := hd
  obtain rfl := List.append_cancel_left (htrace.symm.trans htrace')
  exact hdirs d hd

/-! ## Phases -/

/-- Before the rename only a temporary file has changed, afterwards the new manifest is on the disk,
with the files that it lists. -/
theorem Published.leaves {f : Manifest → Except DbError Manifest} {g : Version → Version}
    (h : Published env f g w₁ w') (hdisk : OnDisk env w₁.dir w₁.manifest) (hf : KeepsCounters f)
    (hversion : w₁.manifest.version.toNat + 1 < 2 ^ 32)
    (hfits : ∀ c, f w₁.manifest = .ok c → c.Fits) :
    Throughout (fun d => Agree (fun n => ∀ v, n ≠ .mfTmp v) w₁.dir d ∨
      OnDisk env d w'.manifest ∧ Agree (Listed w'.manifest) w'.dir d) w₁ w' := by
  have hfinal := (h.phases hdisk hf hversion hfits).2
  obtain ⟨c, w₂, hc, hcommitted, hswept⟩ := h
  have hsameVersion := hf.version hc
  have hdisk₂ : OnDisk env w₂.dir w₂.manifest :=
    hcommitted.onDisk (by rw [hsameVersion]; exact hdisk.newest)
      (by rw [hsameVersion]; exact hversion)
      (hfits c hc)
  have hmanifest : w'.manifest = w₂.manifest := hswept.manifest
  -- a directory in which some files that the new manifest does not list are gone
  have hpruned : ∀ {d}, Pruned (Needed w₂.dir w₂.manifest) w₂.dir d →
      OnDisk env d w'.manifest ∧ Agree (Listed w'.manifest) w₂.dir d := by
    intro d hd
    rw [hmanifest]
    exact ⟨hdisk₂.of_pruned hd, hd.agree.mono fun _ hn => .inr hn⟩
  have hlast := hpruned hswept.dir
  have hnew : ∀ {d}, Pruned (Needed w₂.dir w₂.manifest) w₂.dir d →
      OnDisk env d w'.manifest ∧ Agree (Listed w'.manifest) w'.dir d :=
    fun hd => ⟨(hpruned hd).1, hlast.2.symm.trans (hpruned hd).2⟩
  obtain ⟨w₃, hquiet, _, _, htrace⟩ := hcommitted.rename
  let P : Dir → Prop := fun d => Agree (fun n => ∀ v, n ≠ .mfTmp v) w₁.dir d ∨
    OnDisk env d w'.manifest ∧ Agree (Listed w'.manifest) w'.dir d
  have hbefore : Throughout P w₁ w₃ :=
    hquiet.throughout.mono fun d hd => .inl (hd.mono fun _ hn => hn _)
  have hrenamed : Throughout P w₃ w₂ := by
    have hfresh := hnew (Pruned.refl _ w₂.dir)
    exact ⟨⟨[w₂.dir], htrace, fun d hd => .inr (List.mem_singleton.mp hd ▸ hfresh)⟩, .inr hfresh⟩
  have hafter : Throughout P { w₂ with current := g w₂.current } w' :=
    hswept.throughout.mono fun d hd => .inr (hnew hd)
  exact (hbefore.trans hrenamed).trans hafter

/-- The directories on the way of a flush that succeeds. -/
theorem FlushDone.leaves {hs : List TableHandle} (h : FlushDone env w w₁ hs w')
    (hondisk : OnDisk env w.dir w.manifest) (hroom : Room env w (.structural .flushMemtables))
    (hdisk : DiskRoom env w (.structural .flushMemtables)) :
    Throughout (fun d => Agree (Kept w.manifest) w.dir d ∨
      OnDisk env d w'.manifest ∧ Agree (Listed w'.manifest) w'.dir d) w w' := by
  have hkept : ∀ n, Kept w.manifest n → OtherThan (flushTables env.crates w) n := by
    intro n hn t ht
    rcases hn with ⟨v, rfl⟩ | ⟨id, _, rfl⟩ | ⟨id, hid, rfl⟩
    · simp
    · simp
    · exact fun heq => hroom.2 t ht (FileName.sst.inj heq ▸ hid)
  obtain ⟨hdisk₁, _, _⟩ := h.publication hondisk hdisk.1 hdisk.2
  have hbuilt : Throughout (Agree (Kept w.manifest) w.dir) w w₁ :=
    h.built.quiet.throughout.mono fun _ hd => hd.mono hkept
  have hpublished := h.published.leaves hdisk₁ (flushMutator_keepsCounters _ _)
    (by rw [h.reserved]; exact hdisk.1) fun c hc => ?_
  · refine (hbuilt.mono fun _ hd => .inl hd).trans (hpublished.mono fun d hd => ?_)
    exact hd.imp_left fun hold => hbuilt.2.trans (hold.mono fun n hn v heq =>
      not_kept_mfTmp _ v (heq ▸ hn))
  · rw [h.reserved, flushMutator_counter] at hc
    cases hmutated : flushMutator ((flushTables env.crates w).map Table.meta')
      (w.manifest.wals.take w.current.frozenMemtables.length) w.manifest with
    | error e =>
        rw [hmutated] at hc
        cases hc
    | ok c' =>
        rw [hmutated] at hc
        cases hc
        exact hdisk.2 c' hmutated

/-- The directories on the way of a compaction that succeeds. -/
theorem Compacted.leaves {targetFileSize : UInt64} {s : Selection} {merged : List Entry}
    (h : Compacted env (Kept w.manifest) w targetFileSize s merged w₁ w')
    (hondisk : OnDisk env w.dir w.manifest) (hroom : CompactRoom env w targetFileSize s) :
    Throughout (fun d => Agree (Kept w.manifest) w.dir d ∨
      OnDisk env d w'.manifest ∧ Agree (Listed w'.manifest) w'.dir d) w w' := by
  obtain ⟨newFiles, hs, hmerged, hpublished⟩ := h
  have hbuilt := hmerged.built.quiet.throughout
  have hdisk₁ : OnDisk env w₁.dir w₁.manifest := by
    rw [hmerged.manifest]
    exact hondisk.of_agree (hbuilt.2.mono fun _ hn => .inl hn)
  have hleaves := hpublished.leaves hdisk₁ (compactMutator_keepsCounters _ _ _ _)
    (by rw [hmerged.manifest]; exact hroom.version) fun c hc => by
      cases hc
      rw [hmerged.manifest, hmerged.newFiles]
      have hfits := hroom.manifest merged hmerged.sorted _ rfl
      exact hfits
  refine (hbuilt.mono fun _ hd => .inl hd).trans (hleaves.mono fun d hd => ?_)
  exact hd.imp_left fun hold => hbuilt.2.trans (hold.mono fun n hn v heq =>
    not_kept_mfTmp _ v (heq ▸ hn))

/-- Before the rename of a rotation everything that the manifest lists is as it was, afterwards the
directory is the last one, if the old log holds nothing back. -/
theorem rotateMemtable_leaves (hlogs : ∀ id ∈ w.manifest.wals, walFile w.dir id ≠ [])
    (hbuf : w.current.mutableWal.buf = []) : Prog.Spec (· = w) (rotateMemtable env)
      (fun _ w' => Throughout (fun d => Agree (Kept w.manifest) w.dir d ∨ d = w'.dir) w w')
      fun _ _ => True := by
  refine (@rotateMemtable_rotationOf env (Kept w.manifest) w
    (fun hkept => hlogs _ (kept_wal.mp hkept))
    (not_kept_mfTmp _)).weaken (fun _ h => h) (fun _ w' hrotation => ?_) fun _ _ _ => trivial
  rcases hrotation with hsteady | ⟨w₁, w₂, faults, hbefore, _, hcommitted, hafter⟩
  · exact hsteady.quiet.throughout.mono fun _ hd => .inl hd
  have hagree := hbefore.quiet.dir
  have hall := (hbefore.quiet.throughout.mono fun d hd => .inl hd).trans
    ((hcommitted.throughout (not_kept_mfTmp w.manifest)).mono fun d hd => hd.imp_left hagree.trans)
  have hw' : w'.dir = w₂.dir ∧ w'.trace = w₂.trace := by
    rcases hafter with rfl | ⟨wal, _, _, _, _, hdropped⟩
    · exact ⟨rfl, rfl⟩
    · have hheld : w₂.current.mutableWal.buf = [] := by
        rw [hcommitted.current, hbefore.quiet.current]
        exact hbuf
      rw [hdropped.of_nil hheld]
      exact ⟨rfl, rfl⟩
  rw [hw'.1]
  exact hall.congr hw'.1 hw'.2

/-! ## The database of a directory -/

namespace Journaled

/-- The same database in another directory, in which everything that the manifest lists is the
same. -/
theorem moved (h : Journaled env w shelf j) (hdisk : OnDisk env d w.manifest)
    (hagree : Agree (Listed w.manifest) w.dir d) (hunwritten : UnwrittenIn j.active d) :
    Journaled env { w with dir := d } shelf j := by
  have hread : ∀ id ∈ j.ids, d.read (.wal id) = w.dir.read (.wal id) := fun id hid =>
    hagree.read (.inl ⟨id, h.wals ▸ hid, rfl⟩)
  have hname : (FileName.wal w.current.mutableWal.id, w.current.mutableWal.inode) ∈ d.names :=
    (hagree.names (.inl ⟨_, h.layout.log_listed, rfl⟩) _).mpr h.layout.log
  refine ⟨⟨⟨hdisk.newest, fun _ => hdisk⟩, hname, h.active, h.buf, h.wals, h.frozen, h.memory,
    h.next,
    h.seq, fun id hid => (hread id hid).trans (h.logs id hid), h.records, h.bounded, hunwritten⟩,
    ⟨h.layout.shelved.frame rfl rfl (hagree.mono ?_), hname, h.layout.wals⟩, hdisk, h.stored⟩
  intro n ⟨t, ht, hn⟩
  rw [hn]
  exact h.layout.shelved.listed_of_mem ht

/-- The same database, when also the manifests are the same. -/
theorem kept (h : Journaled env w shelf j) (hagree : Agree (Kept w.manifest) w.dir d)
    (hunwritten : UnwrittenIn j.active d) : Journaled env { w with dir := d } shelf j :=
  h.moved (h.onDisk.of_agree (hagree.mono fun _ hn => .inl hn)) (hagree.mono fun _ hn => .inr hn)
    hunwritten

/-- The logs above the active one on the way of a program. -/
theorem unwrittenIn {α : Type} {x : Op α} {a : Except DbError α} (hx : TraceUnwritten j.active w x)
    (hrun : x w = (a, w')) (hd : Leaves w w' d) : UnwrittenIn j.active d := by
  cases a with
  | ok => exact (hx.ok rfl hrun).of_leaves hd
  | error e => exact (hx.error rfl hrun).of_leaves hd

end Journaled

/-- The directory is that of the database of a journal. -/
def Holds (env : Env) (d : Dir) (j : LogJournal) : Prop :=
  ∃ v shelf, v.dir = d ∧ Journaled env v shelf j

namespace Journaled

theorem holds (h : Journaled env w shelf j) : Holds env w.dir j := ⟨w, shelf, rfl, h⟩

/-- A rotation. -/
theorem rotation_left (h : Journaled env w shelf j) (hroom : RotateRoom w)
    (hharmless : r = .ok () ∨ ¬ ReopenFails w) (hrun : rotateMemtable env w = (r, w'))
    (hd : Leaves w w' d) : Holds env d j ∨ r = .ok () ∧ Holds env d j.rotate := by
  have hlogs : ∀ id ∈ w.manifest.wals, walFile w.dir id ≠ [] := fun _ => h.walFile_ne_nil
  have hunwritten := unwrittenIn (rotateMemtable_traceUnwritten env h.logUpTo h.unwritten) hrun hd
  cases r with
  | ok =>
      rcases ((rotateMemtable_leaves hlogs h.buf).ok rfl hrun).of_leaves hd with hkept | rfl
      · exact .inl (h.kept hkept hunwritten).holds
      · exact .inr ⟨rfl, (h.rotated hroom hrun).holds⟩
  | error e =>
      have hquiet := rotate_harmless hlogs (hharmless.resolve_left (by simp)) hrun
      exact .inl (h.kept (hquiet.throughout.of_leaves hd) hunwritten).holds

/-- A flush that succeeds. -/
theorem flush_left (h : Journaled env w shelf j) (hroom : Room env w (.structural .flushMemtables))
    (hdisk : DiskRoom env w (.structural .flushMemtables))
    (hrun : flushMemtables env w = (.ok (), w')) (hd : Leaves w w' d) :
    Holds env d j ∨ Holds env d j.flush := by
  have hunwritten := unwrittenIn ((flushMemtables_staysUnwritten env).of_state h.unwritten) hrun hd
  obtain ⟨shelf₁, houtcome, _⟩ := h.layout.step hroom hrun
  obtain ⟨shelf', hflushed⟩ := h.flushed hroom hdisk hrun
  rcases houtcome.flush_cases with ⟨_, rfl, _⟩ | ⟨new, w₁, hs, _, _, hdone⟩
  · exact .inl (h.kept (Throughout.of_leaves ⟨⟨[], (List.append_nil _).symm, by simp⟩,
      Agree.refl _ _⟩ hd) hunwritten).holds
  · rcases (hdone.leaves h.onDisk hroom hdisk).of_leaves hd with hold | ⟨hnew, hagree⟩
    · exact .inl (h.kept hold hunwritten).holds
    · exact .inr (hflushed.moved hnew hagree hunwritten).holds

/-- A compaction that succeeds. -/
theorem compaction_left (h : Journaled env w shelf j) {k : Compaction} {targetFileSize : UInt64}
    (hroom : CompactionRoom env w targetFileSize k)
    (hdisk : ∀ s, k.select w.manifest = some s → CompactRoom env w targetFileSize s)
    (hrun : k.run env targetFileSize w = (.ok (), w')) (hd : Leaves w w' d) : Holds env d j := by
  obtain ⟨shelf₁, houtcome, _⟩ := h.layout.compaction hroom hrun
  obtain ⟨shelf', hcompacted⟩ := h.compacted hroom hdisk hrun
  have htrace : TraceUnwritten j.active w (k.run env targetFileSize) := by
    cases k with
    | l0 => exact Structural.traceUnwritten env (.compactL0 targetFileSize) h.logUpTo h.unwritten
    | ln levelIdx =>
        exact Structural.traceUnwritten env
          (.compactLn levelIdx targetFileSize) h.logUpTo h.unwritten
  have hunwritten := unwrittenIn htrace hrun hd
  cases hselect : k.select w.manifest with
  | none =>
      rw [k.run_eq, hselect] at hrun
      cases hrun
      exact (h.kept (Throughout.of_leaves ⟨⟨[], (List.append_nil _).symm, by simp⟩,
        Agree.refl _ _⟩ hd) hunwritten).holds
  | some s =>
      obtain ⟨merged, new, w₁, _, _, hdone, _⟩ := houtcome.exists_compacted hselect
      rcases (hdone.leaves h.onDisk (hdisk s hselect)).of_leaves hd with hold | ⟨hnew, hagree⟩
      · exact (h.kept hold hunwritten).holds
      · exact (hcompacted.moved hnew hagree hunwritten).holds

end Journaled

/-! ## Writes -/

/-- The log of the mutable memtable ends in a part of the record, neither nothing nor all of it. -/
def TornRecord (env : Env) (w : World) (e : Entry) (d : Dir) : Prop :=
  ∃ n, 0 < n ∧ n < (Wal.encodeEntry env.crates.crc32 e).length ∧
    d = w.dir.append w.current.mutableWal.inode ((Wal.encodeEntry env.crates.crc32 e).take n)

/-- Appending nothing changes no file. -/
theorem agree_append_nil (keep : FileName → Prop) (dir : Dir) (inode : Nat) :
    Agree keep dir (dir.append inode []) where
  names _ _ := Iff.rfl
  content {n i} _ _ := by
    rw [FileStore.append, List.append_nil]
    by_cases hi : i = inode
    · rw [hi, content_setContent_self]
    · exact dir.content_setContent_of_ne hi _

/-- The directories of a run that goes on from a state in between. -/
theorem Leaves.cases (h : Leaves w w' d) {dirs : List Dir} (hfirst : w₁.trace = w.trace ++ dirs)
    {P : Dir → Prop} (hsecond : Throughout P w₁ w') : d ∈ dirs ∨ Leaves w₁ w' d := by
  obtain ⟨all, hall, hd⟩ := h
  obtain ⟨⟨rest, hrest, _⟩, _⟩ := hsecond
  have heq : all = dirs ++ rest := by
    refine List.append_cancel_left (hall.symm.trans ?_)
    rw [hrest, hfirst, List.append_assoc]
  rw [heq] at hd
  exact (List.mem_append.mp hd).imp_right fun hd => ⟨rest, hrest, hd⟩

namespace Journaled

/-- A record that is appended byte by byte. -/
theorem append_left (h : Journaled env w shelf j) {key : Bytes} {value : Value}
    (hfits : Entry.Fits (Key.new key w.nextLsn, value)) (hroom : w.nextLsn.toNat + 1 < 2 ^ 64)
    (hd : d ∈ appendSteps w.dir w.current.mutableWal.inode
      (w.pendingBytes env (Key.new key w.nextLsn, value))) :
    TornRecord env w (Key.new key w.nextLsn, value) d ∨ Holds env d j ∨
      Holds env d (j.write (Key.new key w.nextLsn, value)) := by
  have hpending : w.pendingBytes env (Key.new key w.nextLsn, value) =
      Wal.encodeEntry env.crates.crc32 (Key.new key w.nextLsn, value) := by
    rw [World.pendingBytes, h.buf, List.nil_append]
  have hinserted := h.inserted hfits hroom
  have hdir : (Db.inserted env w (Key.new key w.nextLsn, value)).dir =
      w.dir.append w.current.mutableWal.inode (w.pendingBytes env (Key.new key w.nextLsn, value)) :=
        rfl
  obtain ⟨n, hn, rfl⟩ := List.mem_map.mp hd
  have hle := List.mem_range.mp hn
  rcases Nat.eq_zero_or_pos n with rfl | hpos
  · have hagree : ∀ keep, Agree keep w.dir (w.dir.append w.current.mutableWal.inode []) :=
      fun keep => agree_append_nil keep _ _
    exact .inr (.inl (h.kept (hagree _) (UnwrittenIn.of_agree h.unwritten (hagree _))).holds)
  · rw [hpending] at hle hdir ⊢
    rcases Nat.lt_or_ge n
      (Wal.encodeEntry env.crates.crc32 (Key.new key w.nextLsn, value)).length with
      hless | hge
    · exact .inl ⟨n, hpos, hless, rfl⟩
    · rw [List.take_of_length_le hge, ← hdir]
      exact .inr (.inr hinserted.holds)

/-- A `put`. -/
theorem put_left (h : Journaled env w shelf j) {key : Bytes} {value : Value}
    (hroom : LifeRoom env w (.put key value) r) (hrun : put env key value w = (r, w'))
    (hd : Leaves w w' d) : TornRecord env w (Key.new key w.nextLsn, value) d ∨ Holds env d j ∨
      Holds env d (j.write (Key.new key w.nextLsn, value)) ∨
      Rotates env w (.put key value) ∧
        Holds env d (j.write (Key.new key w.nextLsn, value)).rotate := by
  obtain ⟨hlsn, hdisk, hharmless⟩ := hroom
  have hinserted := h.inserted hdisk.1 hlsn
  have happended : ∀ {d}, d ∈ appendSteps w.dir w.current.mutableWal.inode
      (w.pendingBytes env (Key.new key w.nextLsn, value)) →
      TornRecord env w (Key.new key w.nextLsn, value) d ∨ Holds env d j ∨
        Holds env d (j.write (Key.new key w.nextLsn, value)) ∨ Rotates env w (.put key value) ∧
          Holds env d (j.write (Key.new key w.nextLsn, value)).rotate := fun hd =>
    (h.append_left hdisk.1 hlsn hd).imp_right fun hholds => hholds.imp_right .inl
  -- the record was written, and perhaps the memtable is rotated
  have hrotated : ∀ {r}, Rotates env w (.put key value) → (r = .ok () ∨
      ¬ ReopenFails (Db.inserted env w (Key.new key w.nextLsn, value))) →
      rotateMemtable env (Db.inserted env w (Key.new key w.nextLsn, value)) = (r, w') →
      Leaves (Db.inserted env w (Key.new key w.nextLsn, value)) w' d →
      Holds env d (j.write (Key.new key w.nextLsn, value)) ∨
        Holds env d (j.write (Key.new key w.nextLsn, value)).rotate :=
          fun hfull hharmless hrotate hd =>
    (hinserted.rotation_left (hdisk.2 hfull) hharmless hrotate hd).imp_right And.right
  have hlogs : ∀ id ∈ (Db.inserted env w (Key.new key w.nextLsn, value)).manifest.wals,
      walFile (Db.inserted env w (Key.new key w.nextLsn, value)).dir id ≠ [] :=
    fun _ => hinserted.walFile_ne_nil
  cases r with
  | ok =>
      have hwrite := write_ok hrun
      simp only at hwrite
      split at hwrite
      · rename_i hfull
        rcases hd.cases rfl ((rotateMemtable_leaves hlogs rfl).ok rfl hwrite) with hd | hd
        · exact happended hd
        · rcases hrotated hfull (.inl rfl) hwrite hd with hholds | hholds
          · exact .inr (.inr (.inl hholds))
          · exact .inr (.inr (.inr ⟨hfull, hholds⟩))
      · obtain ⟨dirs, htrace, hd⟩ := hd
        rw [hwrite] at htrace
        rw [← List.append_cancel_left htrace] at hd
        exact happended hd
  | error e =>
      obtain ⟨hfault, hno⟩ := hharmless.resolve_left (by simp)
      obtain ⟨hfull, hrotate⟩ := put_harmless hfault hrun
      have hquiet := rotate_harmless hlogs (hno hfull) hrotate
      rcases hd.cases rfl hquiet.throughout with hd | hd
      · exact happended hd
      · rcases hrotated hfull (.inr (hno hfull)) hrotate hd with hholds | hholds
        · exact .inr (.inr (.inl hholds))
        · exact .inr (.inr (.inr ⟨hfull, hholds⟩))

/-- What a crash leaves of a command: the database of before, or one that the command makes, or a
torn record of its `put`. -/
theorem left (h : Journaled env w shelf j) (hroom : LifeRoom env w command r)
    (hrun : command.run env w = (r, w')) (hd : Leaves w w' d) :
    (∃ key value, command = .put key value ∧ TornRecord env w (Key.new key w.nextLsn, value) d) ∨
      ∃ j', (j' = j ∨ ∃ r', Follows env w j command r' j') ∧ Holds env d j' := by
  cases command with
  | put key value =>
      rcases h.put_left hroom hrun hd with htorn | hholds | hholds | ⟨hfull, hholds⟩
      · exact .inl ⟨key, value, rfl, htorn⟩
      · exact .inr ⟨j, .inl rfl, hholds⟩
      · exact .inr ⟨_, .inr ⟨.error .writerPanic, .putFailed⟩, hholds⟩
      · exact .inr ⟨_, .inr ⟨_, .putRotated hfull⟩, hholds⟩
  | structural op =>
      refine .inr ?_
      obtain ⟨hroom, hdisk, hharmless⟩ := hroom
      cases r with
      | ok =>
          cases op with
          | rotateMemtable =>
              rcases h.rotation_left hdisk (.inl rfl) hrun hd with hholds | ⟨_, hholds⟩
              · exact ⟨j, .inl rfl, hholds⟩
              · exact ⟨_, .inr ⟨_, .structural⟩, hholds⟩
          | flushMemtables =>
              rcases h.flush_left hroom hdisk hrun hd with hholds | hholds
              · exact ⟨j, .inl rfl, hholds⟩
              · exact ⟨_, .inr ⟨_, .structural⟩, hholds⟩
          | compactL0 targetFileSize =>
              exact ⟨j, .inl rfl, h.compaction_left (k := .l0) hroom hdisk hrun hd⟩
          | compactLn levelIdx targetFileSize =>
              exact ⟨j, .inl rfl, h.compaction_left (k := .ln levelIdx) hroom hdisk hrun hd⟩
      | error e =>
          have hharmless := hharmless.resolve_left (by simp)
          have hquiet := h.layout.failed hroom hharmless (fun _ => h.walFile_ne_nil) hrun
          exact ⟨j, .inl rfl, (h.kept (hquiet.throughout.of_leaves hd)
            (unwrittenIn (op.traceUnwritten env h.logUpTo h.unwritten) hrun hd)).holds⟩

end Journaled

end EasyLsm.Db
