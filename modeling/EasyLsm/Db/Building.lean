import Mathlib.Data.List.Basic
import EasyLsm.Db.Tables

/-!
# Writing tables

What the calls that write a table file do: on success the file holds the whole table, and when an
I/O call fails only this file has changed. `Built` says that a number of tables were written and
opened.
-/

namespace EasyLsm.Db

open Lib Lib.FileStore

variable {env : Env} {keep : FileName → Prop} {w₀ w w' : World}

/-- Files outside of `keep` changed, and of the memory nothing. -/
structure Steady (keep : FileName → Prop) (w₀ w : World) : Prop where
  quiet : Quiet keep w₀ w
  manifest : w.manifest = w₀.manifest

/-- An I/O call failed. -/
def Broken (keep : FileName → Prop) (w₀ w : World) : Prop := Steady keep w₀ w ∧ w₀.faults ≠ []

namespace Steady

theorem refl (keep : FileName → Prop) (w : World) : Steady keep w w := ⟨Quiet.refl keep w, rfl⟩

theorem trans (h : Steady keep w₀ w) (h' : Steady keep w w') : Steady keep w₀ w' :=
  ⟨h.quiet.trans h'.quiet, h'.manifest.trans h.manifest⟩

theorem mono {keep' : FileName → Prop} (h : Steady keep w₀ w) (hkeep : ∀ n, keep' n → keep n) :
    Steady keep' w₀ w := ⟨h.quiet.mono hkeep, h.manifest⟩

end Steady

theorem Reads.steady (h : Reads w₀ w) (keep : FileName → Prop) : Steady keep w₀ w := by
  refine ⟨h.quiet keep, ?_⟩
  obtain ⟨faults, rfl, _⟩ := h
  rfl

/-- A call that failed after others that succeeded. -/
theorem Broken.after {keep' : FileName → Prop} (h : Steady keep w₀ w) (h' : Broken keep' w w')
    (hkeep : ∀ n, keep n → keep' n) : Broken keep w₀ w' :=
  ⟨h.trans (h'.1.mono hkeep), fun hnil => h'.2 (h.quiet.faults hnil)⟩

/-- The first fault is one of the faults. -/
theorem faults_ne_nil (h : w.faults.headD none ≠ none) : w.faults ≠ [] := by
  rintro hnil
  rw [hnil] at h
  exact h rfl

/-! ## I/O calls -/

/-- The program leaves the manifest in memory alone. -/
def KeepsManifest {α : Type} (m : Manifest) (x : Op α) : Prop :=
  Prog.Spec (fun w => w.manifest = m) x (fun _ w => w.manifest = m) fun _ w => w.manifest = m

namespace KeepsManifest

variable {α β : Type} {m : Manifest}

theorem bind {x : Op α} {f : α → Op β} (hx : KeepsManifest m x)
    (hf : ∀ a, KeepsManifest m (f a)) : KeepsManifest m (x >>= f) := Prog.Spec.bind hx hf

theorem pure (a : α) : KeepsManifest m (Pure.pure a : Op α) := Prog.Spec.pure fun _ h => h

theorem fail (e : DbError) : KeepsManifest m (Prog.fail e : Op α) := Prog.Spec.fail fun _ h => h

theorem read (f : World → α) : KeepsManifest m (Prog.read f) := Prog.Spec.read fun _ h => h

theorem nextFault : KeepsManifest m nextFault := by
  intro w hw
  rw [nextFault_run]
  exact hw

theorem through (dirs : List Dir) : KeepsManifest m (through dirs) :=
  Prog.Spec.modify fun _ h => h

theorem createFile (name : FileName) : KeepsManifest m (createFile name) := by
  refine nextFault.bind fun fault => (read World.dir).bind fun dir => ?_
  cases fault with
  | none => exact (through _).bind fun _ => pure _
  | some f => exact fail _

theorem writeFile (inode : Nat) (bytes : Bytes) : KeepsManifest m (writeFile inode bytes) := by
  refine nextFault.bind fun fault => (read World.dir).bind fun dir => ?_
  cases fault with
  | none => exact through _
  | some f => exact (through _).bind fun _ => fail _

theorem attempt {x : Op α} (h : KeepsManifest m x) : KeepsManifest m x.attempt :=
  Prog.Spec.attempt h

theorem ofExcept (x : Except DbError α) : KeepsManifest m (Prog.ofExcept x) :=
  Prog.Spec.ofExcept (fun _ _ _ h => h) fun _ _ _ h => h

theorem renameFile (old new : FileName) : KeepsManifest m (renameFile old new) := by
  refine nextFault.bind fun fault => (read World.dir).bind fun dir => ?_
  split
  · exact fail _
  · exact fail _
  · exact through _

theorem removeFile (name : FileName) : KeepsManifest m (removeFile name) := by
  refine nextFault.bind fun fault => (read World.dir).bind fun dir => ?_
  split
  · exact fail _
  · exact fail _
  · exact through _

theorem writeToPath (env : Env) (c : Manifest) (name : FileName) :
    KeepsManifest m (writeToPath env c name) :=
  (createFile name).bind fun inode => writeFile inode _

theorem openWal (id : UInt32) : KeepsManifest m (openWal id) := by
  refine nextFault.bind fun fault => (read World.dir).bind fun dir => ?_
  rcases dir.openOrCreate (.wal id) with ⟨inode, dir'⟩
  simp only
  split
  · split
    · exact fail _
    · split
      · exact (through _).bind fun _ => pure _
      · exact pure _
  · exact fail _
  · split
    · exact (through _).bind fun _ => fail _
    · exact fail _

/-- Together with what is known of the other parts of the state. -/
theorem steady {x : Op α} {Q : α → World → Prop} {E : Prop} (hx : KeepsManifest w₀.manifest x)
    (h : Prog.Spec (· = w₀) x (fun a w => Q a w ∧ Quiet keep w₀ w)
      fun _ w => E ∧ Quiet keep w₀ w) (hE : E → w₀.faults ≠ []) :
    Prog.Spec (· = w₀) x (fun a w => Q a w ∧ Steady keep w₀ w) fun _ => Broken keep w₀ := by
  refine (h.and (hx.weaken (fun w hw => by rw [hw]) (fun _ _ h => h) fun _ _ h => h)).weaken
    (fun _ h => h) ?_ ?_
  · rintro a w ⟨⟨hq, hquiet⟩, hmanifest⟩
    exact ⟨hq, hquiet, hmanifest⟩
  · rintro e w ⟨⟨he, hquiet⟩, hmanifest⟩
    exact ⟨⟨hquiet, hmanifest⟩, hE he⟩

end KeepsManifest

/-- Creating the file of a table. -/
theorem newTable_steady (name : FileName) :
    Prog.Spec (· = w₀) (TableWriter.new name)
      (fun t w => (t.writer = SstableWriter.new ∧ (name, t.inode) ∈ w.dir.names) ∧
        Steady (· ≠ name) w₀ w) (fun _ => Broken (· ≠ name) w₀) := by
  have hrun : Prog.Spec (· = w₀) (createFile name)
      (fun inode w => (name, inode) ∈ w.dir.names ∧ Quiet (· ≠ name) w₀ w)
      (fun _ w => w₀.faults.headD none ≠ none ∧ Quiet (· ≠ name) w₀ w) :=
    (createFile_run w₀ name).weaken (fun _ h => h) (fun _ _ h => ⟨h.2.1.1, h.2.2⟩) fun _ _ h => h
  have hcreate := (KeepsManifest.createFile name).steady hrun faults_ne_nil
  exact hcreate.bind fun inode => Prog.Spec.pure fun w hw => ⟨⟨rfl, hw.1⟩, hw.2⟩

/-- A part of a table gets into its file. -/
theorem Steady.writeSteps {name : FileName} {inode : Nat} (h : Reads w₀ w)
    (hname : (name, inode) ∈ w₀.dir.names) (bytes : Bytes) :
    Steady (· ≠ name) w₀ (through (writeSteps w.dir inode bytes) w).2 := by
  obtain ⟨faults, rfl, hnil⟩ := h
  exact ⟨(Reads.quiet ⟨faults, rfl, hnil⟩ (· ≠ name)).through
    (agree_writeSteps (Agree.refl _ _) (free_of_mem (by simp) hname) bytes), rfl⟩

/-- Writing an entry to a table. -/
theorem writeTable_steady {name : FileName} {t : TableWriter}
    (hname : (name, t.inode) ∈ w₀.dir.names) (key : Key) (value : Value) :
    Prog.Spec (· = w₀) (t.write env key value)
      (fun t' w => t' = { t with writer := t.writer.write env.crates key value } ∧ Reads w₀ w)
      (fun _ => Broken (· ≠ name) w₀) := by
  refine Prog.Spec.bind nextFault_from fun fault => ?_
  cases fault with
  | none => exact Prog.Spec.pure fun w hw => ⟨rfl, hw.2⟩
  | some f =>
      rintro w ⟨hfault, hreads⟩
      exact ⟨.writeSteps hreads hname _, hfault (by simp)⟩

/-- Writing entries to a table one after the other. -/
theorem writeAll_steady {name : FileName} {t : TableWriter}
    (hname : (name, t.inode) ∈ w₀.dir.names) (es : List Entry) :
    Prog.Spec (· = w₀) (t.writeAll env es)
      (fun t' w => t' = { t with writer := t.writer.writeAll env.crates es } ∧ Reads w₀ w)
      (fun _ => Broken (· ≠ name) w₀) := by
  induction es generalizing t w₀ with
  | nil => exact Prog.Spec.pure fun w hw => ⟨rfl, hw ▸ Reads.refl _⟩
  | cons e es ih =>
      refine Prog.Spec.bind_forall (writeTable_steady hname e.1 e.2) fun t' w hw => ?_
      obtain ⟨rfl, hreads⟩ := hw
      have hname' : (name, t.inode) ∈ w.dir.names := by
        obtain ⟨faults, rfl, _⟩ := hreads
        exact hname
      refine (ih (t := { t with writer := t.writer.write env.crates e.1 e.2 }) hname').weaken
        (fun _ h => h) ?_ ?_
      · rintro _ w' ⟨rfl, hreads'⟩
        exact ⟨rfl, hreads.trans hreads'⟩
      · exact fun _ _ h => h.after (hreads.steady _) fun _ h => h

/-- Finishing a table. -/
theorem finalize_steady {name : FileName} {t : TableWriter}
    (hname : (name, t.inode) ∈ w₀.dir.names) :
    Prog.Spec (· = w₀) (t.finalize env)
      (fun meta' w => (meta' = (t.writer.finalize env.crates).2 ∧
        w.dir.read name = some (t.writer.finalize env.crates).1) ∧ Steady (· ≠ name) w₀ w)
      (fun _ => Broken (· ≠ name) w₀) := by
  have hrun : Prog.Spec (· = w₀) (writeFile t.inode (t.writer.finalize env.crates).1)
      (fun _ w => w.dir.read name = some (t.writer.finalize env.crates).1 ∧
        Quiet (· ≠ name) w₀ w)
      (fun _ w => w₀.faults.headD none ≠ none ∧ Quiet (· ≠ name) w₀ w) := by
    refine (writeFile_run w₀ hname _).weaken (fun _ h => h) (fun _ w h => ⟨?_, h.2.2⟩)
      fun _ _ h => h
    have hname' : (name, t.inode) ∈ w.dir.names := by
      rw [h.2.1]
      exact hname
    rw [read_of_mem hname', h.2.1, content_setContent_self]
  have hwrite := (KeepsManifest.writeFile _ _).steady hrun faults_ne_nil
  exact hwrite.bind fun _ => Prog.Spec.pure fun w hw => ⟨⟨rfl, hw.1⟩, hw.2⟩

theorem currentSize_reads {name : FileName} {t : TableWriter}
    (hname : (name, t.inode) ∈ w₀.dir.names) :
    Prog.Spec (· = w₀) t.currentSize (fun size w => size = t.writer.currentSize ∧ Reads w₀ w)
      (fun _ => Broken (· ≠ name) w₀) := by
  refine Prog.Spec.bind nextFault_from fun fault => ?_
  cases fault with
  | none => exact Prog.Spec.pure fun w hw => ⟨rfl, hw.2⟩
  | some f =>
      rintro w ⟨hfault, hreads⟩
      exact ⟨.writeSteps hreads hname _, hfault (by simp)⟩

/-- A table that is dropped before it is finished. -/
theorem dropTable_steady {name : FileName} {t : TableWriter}
    (hname : (name, t.inode) ∈ w₀.dir.names) : Steady (· ≠ name) w₀ (t.drop w₀).2 := by
  unfold TableWriter.drop
  split
  · exact Steady.refl _ _
  · have hfault := @nextFault_from w₀ (fun _ _ => False) w₀ rfl
    rw [nextFault_run] at hfault
    rw [Prog.bind_apply, nextFault_run]
    exact .writeSteps hfault.2 hname _

/-! ## Tables -/

/-- Tables were written, which left the files of `keep` alone, and opened. -/
structure Built (env : Env) (keep : FileName → Prop) (w₀ : World) (ts : List Table)
    (hs : List TableHandle) (w : World) : Prop where
  quiet : Quiet keep w₀ w
  stored : ∀ t ∈ ts, Stored env.crates w.dir t
  opened : List.Forall₂ (Opened env.crates w.dir) ts hs

/-- Writing a memtable to a table. -/
theorem flushTable_steady (sstId : UInt32) (memtable : Memtable .immutable) :
    Prog.Spec (· = w₀) (flushTable env sstId memtable)
      (fun meta' w => (meta' = (writtenTable env.crates sstId memtable.iter).meta' ∧
        w.dir.read (.sst sstId) = some (writeTable env.crates memtable.iter).1) ∧
        Steady (· ≠ .sst sstId) w₀ w) (fun _ => Broken (· ≠ .sst sstId) w₀) := by
  refine Prog.Spec.bind_forall (Prog.Spec.mapError (newTable_steady _)) fun t w₁ hw₁ => ?_
  obtain ⟨⟨hnew, hname⟩, hsteady₁⟩ := hw₁
  refine Prog.Spec.bind_forall (Prog.Spec.mapError ((writeAll_steady hname memtable.iter).weaken
    (fun _ h => h) (fun _ _ h => h) fun _ _ h => h.after hsteady₁ fun _ h => h))
    fun t' w₂ hw₂ => ?_
  obtain ⟨rfl, hreads⟩ := hw₂
  have hsteady₂ := hsteady₁.trans (hreads.steady _)
  have hname₂ : (.sst sstId, t.inode) ∈ w₂.dir.names := by
    obtain ⟨faults, rfl, _⟩ := hreads
    exact hname
  refine Prog.Spec.bind (Prog.Spec.mapError ((finalize_steady (t := { t with
    writer := t.writer.writeAll env.crates memtable.iter }) hname₂).weaken (fun _ h => h)
    (fun _ _ h => h) fun _ _ h => h.after hsteady₂ fun _ h => h)) fun meta' => ?_
  refine Prog.Spec.pure ?_
  rintro w ⟨⟨rfl, hread⟩, hsteady₃⟩
  rw [hnew] at hread ⊢
  exact ⟨⟨rfl, hread⟩, hsteady₂.trans hsteady₃⟩

/-- Different offsets give different ids. -/
theorem add_ofNat_ne (start : UInt32) {i j : Nat} (hi : i < 2 ^ 32) (hj : j < 2 ^ 32)
    (h : i ≠ j) : start + UInt32.ofNat i ≠ start + UInt32.ofNat j := by
  intro heq
  have hcancel : UInt32.ofNat i = UInt32.ofNat j := by
    have hsub := congrArg (fun x => x - start) heq
    simpa [UInt32.add_comm start] using hsub
  have hnat := congrArg UInt32.toNat hcancel
  rw [UInt32.toNat_ofNat_of_lt' hi, UInt32.toNat_ofNat_of_lt' hj] at hnat
  exact h hnat

/-- Ids behind the next one, as numbers. -/
theorem toNat_add_ofNat {start : UInt32} {i : Nat} (h : start.toNat + i < 2 ^ 32) :
    (start + UInt32.ofNat i).toNat = start.toNat + i := by
  rw [UInt32.toNat_add, UInt32.toNat_ofNat_of_lt' (by show i < 2 ^ 32; omega)]
  exact Nat.mod_eq_of_lt h

/-- The files of other tables, and all that are not tables. -/
def OtherThan (ts : List Table) (n : FileName) : Prop := ∀ t ∈ ts, n ≠ .sst t.meta'.fileId

/-- The table that a memtable with its position is written to. -/
def flushedTable (c : Crates) (startSstId : UInt32) (p : Memtable .immutable × Nat) : Table :=
  writtenTable c (startSstId + UInt32.ofNat p.2) p.1.iter

theorem map_flushedTable (c : Crates) (startSstId : UInt32)
    (memtables : List (Memtable .immutable)) : memtables.zipIdx.map (flushedTable c startSstId) =
      writtenTables c startSstId (memtables.map Memtable.iter) := by
  unfold writtenTables
  rw [List.zipIdx_map, List.map_map]
  rfl

/-- Writing the memtables from a position on. The files have different ids, so none is written
twice. -/
theorem flushTables_steady (startSstId : UInt32) (memtables : List (Memtable .immutable)) (k : Nat)
    (hcount : k + memtables.length ≤ 2 ^ 32) :
    Prog.Spec (· = w₀)
      (Prog.forEach (fun p => flushTable env (startSstId + UInt32.ofNat p.2) p.1)
        (memtables.zipIdx k))
      (fun metas w =>
        (metas = ((memtables.zipIdx k).map (flushedTable env.crates startSstId)).map Table.meta' ∧
          ∀ t ∈ (memtables.zipIdx k).map (flushedTable env.crates startSstId),
            w.dir.read (.sst t.meta'.fileId) = some (writeTable env.crates t.entries).1) ∧
        Steady (OtherThan ((memtables.zipIdx k).map (flushedTable env.crates startSstId))) w₀ w)
      (fun _ => Broken (OtherThan ((memtables.zipIdx k).map
        (flushedTable env.crates startSstId))) w₀) := by
  induction memtables generalizing k w₀ with
  | nil => exact Prog.Spec.pure fun w hw => ⟨⟨rfl, by simp⟩, hw ▸ Steady.refl _ _⟩
  | cons memtable memtables ih =>
      rw [List.length_cons] at hcount
      rw [List.zipIdx_cons, List.map_cons]
      have hfirst : ∀ n, OtherThan (flushedTable env.crates startSstId (memtable, k) ::
          (memtables.zipIdx (k + 1)).map (flushedTable env.crates startSstId)) n →
          n ≠ .sst (startSstId + UInt32.ofNat k) := fun n hn => hn _ List.mem_cons_self
      have hrest : ∀ n, OtherThan (flushedTable env.crates startSstId (memtable, k) ::
          (memtables.zipIdx (k + 1)).map (flushedTable env.crates startSstId)) n →
          OtherThan ((memtables.zipIdx (k + 1)).map (flushedTable env.crates startSstId)) n :=
        fun n hn t ht => hn t (List.mem_cons_of_mem _ ht)
      refine Prog.Spec.bind_forall ((flushTable_steady _ memtable).weaken (fun _ h => h)
        (fun _ _ h => h) fun _ _ h => ⟨h.1.mono hfirst, h.2⟩) fun meta' w₁ hw₁ => ?_
      obtain ⟨⟨rfl, hread⟩, hsteady⟩ := hw₁
      refine Prog.Spec.bind ((ih (k + 1) (by omega)).weaken (fun _ h => h) (fun _ _ h => h)
        fun _ _ h => h.after (hsteady.mono hfirst) hrest) fun metas => Prog.Spec.pure ?_
      rintro w ⟨⟨rfl, hreads⟩, hsteady'⟩
      refine ⟨⟨rfl, fun t ht => ?_⟩, (hsteady.mono hfirst).trans (hsteady'.mono hrest)⟩
      rcases List.mem_cons.mp ht with rfl | ht
      · -- the later tables have other ids
        refine (hsteady'.quiet.dir.read fun t ht => ?_).trans hread
        obtain ⟨p, hp, rfl⟩ := List.mem_map.mp ht
        obtain ⟨hle, hlt, _⟩ := List.mem_zipIdx hp
        have hne := add_ofNat_ne startSstId (i := k) (j := p.2) (by omega) (by omega) (by omega)
        exact fun heq => hne (FileName.sst.inj heq)
      · exact hreads t ht

end EasyLsm.Db
