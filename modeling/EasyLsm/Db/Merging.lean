import Mathlib.Data.List.Basic
import Mathlib.Data.List.Sort
import EasyLsm.Db.Building
import EasyLsm.Lib.Cut

/-!
# What the merge loop writes

`mergeFiles_spec`: the loop writes all the entries of its inputs, in key order, and cuts them where
the current table has reached the target size. The tables get consecutive ids. The inputs are read
while the outputs are written, so they have to be other files.
-/

namespace EasyLsm.Db

open Lib Lib.FileStore

variable {env : Env} {keep : FileName → Prop} {w₀ w w' : World}

/-- The table of these entries has reached the target size, as far as it has been written. -/
def reachedTarget (c : Crates) (targetFileSize : UInt64) (es : List Entry) : Bool :=
  targetFileSize.toNat ≤ (SstableWriter.new.writeAll c es).currentSize

/-- The entries of the output tables. -/
def cutOutputs (c : Crates) (targetFileSize : UInt64) (merged : List Entry) : List (List Entry) :=
  Cut.cut (reachedTarget c targetFileSize) merged

/-- With the target size 0 every entry gets a table of its own. -/
theorem cutOutputs_zero (c : Crates) (merged : List Entry) :
    cutOutputs c 0 merged = merged.map fun e => [e] :=
  Cut.cut_of_full (fun _ => decide_eq_true (Nat.zero_le _)) merged

/-- All the entries in key order. -/
def SortedMerge (inputs merged : List Entry) : Prop := merged.Perm inputs ∧ KeyOrdered merged

/-- Entries with different keys have one order. -/
theorem SortedMerge.eq {inputs merged merged' : List Entry} (h : SortedMerge inputs merged)
    (h' : SortedMerge inputs merged') (hnodup : (inputs.map Prod.fst).Nodup) :
    merged' = merged := by
  have hperm := h'.1.trans h.1.symm
  refine hperm.eq_of_pairwise (fun a b ha hb hab hba => ?_) h'.2 h.2
  exact List.inj_on_of_nodup_map hnodup (h'.1.mem_iff.mp ha)
    (h'.1.mem_iff.mp (hperm.mem_iff.mpr hb))
    (le_antisymm hab hba)

/-- The files with consecutive ids are not those of `keep`, and the ids are different. -/
structure Fresh (keep : FileName → Prop) (startSstId : UInt32) (count : Nat) : Prop where
  free : ∀ i, i < count → ¬ keep (.sst (startSstId + UInt32.ofNat i))
  small : count ≤ 2 ^ 32

/-! ## Outputs -/

/-- The tables of the pieces that are done are written, and a number of ids is taken. -/
structure Finished (env : Env) (keep : FileName → Prop) (w₀ : World) (done : List (List Entry))
    (taken : Nat) (newFiles : List FileMetadata) (w : World) : Prop where
  quiet : Quiet keep w₀ w
  newFiles : newFiles =
    (writtenTables env.crates w₀.manifest.nextSstableId done).map Table.meta'
  written : ∀ t ∈ writtenTables env.crates w₀.manifest.nextSstableId done,
    w.dir.read (.sst t.meta'.fileId) = some (writeTable env.crates t.entries).1
  counter : w.manifest.nextSstableId = w₀.manifest.nextSstableId + UInt32.ofNat taken

/-- The writer of the piece behind those that are done has written the current entries. -/
def Writing (env : Env) (w₀ : World) (done : List (List Entry)) (cur : List Entry)
    (writer : TableWriter × UInt32) (w : World) : Prop :=
  writer.1.writer = SstableWriter.new.writeAll env.crates cur ∧
    writer.2 = w₀.manifest.nextSstableId + UInt32.ofNat done.length ∧
    (.sst writer.2, writer.1.inode) ∈ w.dir.names

/-- The outputs after some pieces and the current one. -/
def OutputsAt (env : Env) (keep : FileName → Prop) (w₀ : World)
    (s : List (List Entry) × List Entry) (out : Outputs) (w : World) : Prop :=
  if s.2.isEmpty then
    Finished env keep w₀ s.1 s.1.length out.newFiles w ∧ out.currentWriter = none
  else
    Finished env keep w₀ s.1 (s.1.length + 1) out.newFiles w ∧
      ∃ writer, out.currentWriter = some writer ∧ Writing env w₀ s.1 s.2 writer w

/-- Changes to the file of a later piece. -/
theorem Finished.steady {done : List (List Entry)} {taken : Nat} {newFiles : List FileMetadata}
    (h : Finished env keep w₀ done taken newFiles w) {count : Nat}
    (hfresh : Fresh keep w₀.manifest.nextSstableId count) (hcount : done.length < count)
    (hsteady : Steady (· ≠ .sst (w₀.manifest.nextSstableId + UInt32.ofNat done.length)) w w') :
    Finished env keep w₀ done taken newFiles w' where
  quiet := h.quiet.trans (hsteady.quiet.mono fun n hn heq => hfresh.free _ hcount (heq ▸ hn))
  newFiles := h.newFiles
  written t ht := by
    refine (hsteady.quiet.dir.read fun heq => ?_).trans (h.written t ht)
    obtain ⟨i, es, hi, rfl⟩ := mem_writtenTables.mp ht
    have hlt := (List.getElem?_eq_some_iff.mp hi).1
    have hsmall := hfresh.small
    exact add_ofNat_ne _ (by omega) (by omega) (by omega) (FileName.sst.inj heq)
  counter := by rw [hsteady.manifest, h.counter]

theorem Reads.finished {done : List (List Entry)} {taken : Nat} {newFiles : List FileMetadata}
    (hreads : Reads w w') (h : Finished env keep w₀ done taken newFiles w) :
    Finished env keep w₀ done taken newFiles w' where
  quiet := h.quiet.trans (hreads.quiet keep)
  newFiles := h.newFiles
  written t ht := by
    obtain ⟨faults, rfl, _⟩ := hreads
    exact h.written t ht
  counter := by
    obtain ⟨faults, rfl, _⟩ := hreads
    exact h.counter

/-- What is left when an I/O call fails. -/
def Failed (keep : FileName → Prop) (w₀ w : World) : Prop := Quiet keep w₀ w ∧ w₀.faults ≠ []

/-- At most `count` ids are taken. -/
structure Within (keep : FileName → Prop) (w₀ : World) (count : Nat) (w : World) : Prop where
  quiet : Quiet keep w₀ w
  counter : ∃ taken ≤ count,
    w.manifest.nextSstableId = w₀.manifest.nextSstableId + UInt32.ofNat taken

theorem Finished.within {done : List (List Entry)} {taken count : Nat}
    {newFiles : List FileMetadata} (h : Finished env keep w₀ done taken newFiles w)
    (htaken : taken ≤ count) : Within keep w₀ count w :=
  ⟨h.quiet, taken, htaken, h.counter⟩

/-- What is left when an I/O call fails while the outputs are written. -/
def Stopped (keep : FileName → Prop) (w₀ : World) (count : Nat) (w : World) : Prop :=
  Within keep w₀ count w ∧ w₀.faults ≠ []

theorem Stopped.failed {count : Nat} (h : Stopped keep w₀ count w) : Failed keep w₀ w :=
  ⟨h.1.quiet, h.2⟩

/-- Changes to a file that is not one of `keep`. -/
theorem Within.steady {count : Nat} {n : FileName} (h : Within keep w₀ count w)
    (hsteady : Steady (· ≠ n) w w') (hn : ¬ keep n) : Within keep w₀ count w' := by
  obtain ⟨taken, htaken, hcounter⟩ := h.counter
  refine ⟨h.quiet.trans (hsteady.quiet.mono fun _ hm heq => hn (heq ▸ hm)), taken, htaken, ?_⟩
  rw [hsteady.manifest, hcounter]

theorem Broken.stopped {count : Nat} {n : FileName} (h : Broken (· ≠ n) w w')
    (hwithin : Within keep w₀ count w) (hn : ¬ keep n) : Stopped keep w₀ count w' :=
  ⟨hwithin.steady h.1 hn, fun hnil => h.2 (hwithin.quiet.faults hnil)⟩

theorem Faulty.failed (h : Faulty w w') (hquiet : Quiet keep w₀ w) : Failed keep w₀ w' :=
  ⟨hquiet.trans (h.1.quiet keep), fun hnil => h.2 (hquiet.faults hnil)⟩

/-- Finishing the current table. -/
theorem finishOutput_finished {done : List (List Entry)} {cur : List Entry} {out : Outputs}
    {writer : TableWriter × UInt32} {count : Nat}
    (h : Finished env keep w₀ done (done.length + 1) out.newFiles w)
    (hwriter : out.currentWriter = some writer) (hwriting : Writing env w₀ done cur writer w)
    (hfresh : Fresh keep w₀.manifest.nextSstableId count) (hcount : done.length < count) :
    Prog.Spec (· = w) (finishOutput env out)
      (fun out' w' => Finished env keep w₀ (done ++ [cur]) (done.length + 1) out'.newFiles w' ∧
        out'.currentWriter = none) (fun _ => Stopped keep w₀ count) := by
  obtain ⟨hentries, hid, hname⟩ := hwriting
  obtain ⟨table, id⟩ := writer
  simp only at hid hname hentries
  subst hid
  unfold finishOutput
  rw [hwriter]
  refine Prog.Spec.bind (Prog.Spec.mapError ((finalize_steady hname).weaken (fun _ h => h)
    (fun _ _ h => h) fun _ _ hbroken => hbroken.stopped (h.within hcount) (hfresh.free _ hcount)))
    fun meta' => Prog.Spec.pure ?_
  rintro w' ⟨⟨rfl, hread⟩, hsteady⟩
  have hlast := h.steady hfresh hcount hsteady
  rw [hentries] at hread ⊢
  refine ⟨⟨hlast.quiet, ?_, fun t ht => ?_, hlast.counter⟩, rfl⟩
  · rw [writtenTables_concat, List.map_append, ← h.newFiles]
    rfl
  · rw [writtenTables_concat] at ht
    rcases List.mem_append.mp ht with ht | ht
    · exact hlast.written t ht
    · rw [List.mem_singleton.mp ht]
      exact hread

/-- Taking an id and creating the file of the next table. -/
theorem beginOutput_writing {done : List (List Entry)} {out : Outputs} {count : Nat}
    (h : Finished env keep w₀ done done.length out.newFiles w)
    (hfresh : Fresh keep w₀.manifest.nextSstableId count) (hcount : done.length < count) :
    Prog.Spec (· = w)
      (reserveSstableId >>= fun nextId =>
        ((TableWriter.new (.sst nextId)).mapError (otherError "Failed to create SST")) >>= fun t =>
          pure { out with currentWriter := some (t, nextId) })
      (fun out' w' => Finished env keep w₀ done (done.length + 1) out'.newFiles w' ∧
        ∃ writer, out'.currentWriter = some writer ∧ Writing env w₀ done [] writer w')
      (fun _ => Stopped keep w₀ count) := by
  let reserved : World :=
    { w with manifest := { w.manifest with nextSstableId := w.manifest.nextSstableId + 1 } }
  have hreserved : Finished env keep w₀ done (done.length + 1) out.newFiles reserved := by
    refine ⟨h.quiet.trans ⟨⟨_, rfl⟩, rfl, rfl, id, Agree.refl keep _, [],
      (List.append_nil _).symm, by simp⟩, h.newFiles, h.written, ?_⟩
    show w.manifest.nextSstableId + 1 = _
    rw [h.counter, UInt32.ofNat_add, ← UInt32.add_assoc]
    rfl
  refine Prog.Spec.bind_forall (Q := fun id w' =>
    id = w₀.manifest.nextSstableId + UInt32.ofNat done.length ∧ w' = reserved) ?_
    fun id w' hid => ?_
  · rintro _ rfl
    exact ⟨h.counter, rfl⟩
  obtain ⟨rfl, rfl⟩ := hid
  refine Prog.Spec.bind (Prog.Spec.mapError ((newTable_steady _).weaken (fun _ h => h)
    (fun _ _ h => h) fun _ _ hbroken => hbroken.stopped (hreserved.within hcount)
      (hfresh.free _ hcount)))
    fun t => Prog.Spec.pure ?_
  rintro w' ⟨⟨hnew, hname⟩, hsteady⟩
  exact ⟨hreserved.steady hfresh hcount hsteady, _, rfl, hnew, rfl, hname⟩

/-- Writing an entry to the current table. -/
theorem writeCurrent_writing {done : List (List Entry)} {cur : List Entry} {out : Outputs}
    {writer : TableWriter × UInt32} {count : Nat}
    (h : Finished env keep w₀ done (done.length + 1) out.newFiles w)
    (hwriter : out.currentWriter = some writer) (hwriting : Writing env w₀ done cur writer w)
    (hfresh : Fresh keep w₀.manifest.nextSstableId count) (hcount : done.length < count)
    (key : Key) (val : Value) :
    Prog.Spec (· = w) (writeCurrent env out key val)
      (fun out' w' => Finished env keep w₀ done (done.length + 1) out'.newFiles w' ∧
        ∃ writer, out'.currentWriter = some writer ∧
          Writing env w₀ done (cur ++ [(key, val)]) writer w') (fun _ =>
            Stopped keep w₀ count) := by
  obtain ⟨hentries, hid, hname⟩ := hwriting
  obtain ⟨table, id⟩ := writer
  simp only at hid hname hentries
  subst hid
  unfold writeCurrent
  rw [hwriter]
  refine Prog.Spec.bind (Prog.Spec.mapError ((writeTable_steady hname key val).weaken
    (fun _ h => h) (fun _ _ h => h) fun _ _ hbroken =>
      hbroken.stopped (h.within hcount) (hfresh.free _ hcount))) fun table' => Prog.Spec.pure ?_
  rintro w' ⟨rfl, hreads⟩
  refine ⟨hreads.finished h, _, rfl, ?_, rfl, ?_⟩
  · show table.writer.write env.crates key val = _
    rw [hentries, SstableWriter.writeAll, SstableWriter.writeAll, List.foldl_concat]
  · obtain ⟨faults, rfl, _⟩ := hreads
    exact hname

/-- Finishing the current table, when there is one, and beginning the next. -/
theorem rotateOutput_writing {done : List (List Entry)} {out : Outputs} {count : Nat}
    (hfinish : Prog.Spec (· = w) (finishOutput env out)
      (fun out' w' => Finished env keep w₀ done done.length out'.newFiles w' ∧
        out'.currentWriter = none) (fun _ => Stopped keep w₀ count))
    (hfresh : Fresh keep w₀.manifest.nextSstableId count) (hcount : done.length < count) :
    Prog.Spec (· = w) (rotateOutput env out)
      (fun out' w' => Finished env keep w₀ done (done.length + 1) out'.newFiles w' ∧
        ∃ writer, out'.currentWriter = some writer ∧ Writing env w₀ done [] writer w')
      (fun _ => Stopped keep w₀ count) :=
  Prog.Spec.bind_forall hfinish fun _ _ h => beginOutput_writing h.1 hfresh hcount

/-- An entry goes to the current table, or to the next one when the target size is reached. -/
theorem writeOutput_outputsAt {targetFileSize : UInt64} {s : List (List Entry) × List Entry}
    {out : Outputs} {key : Key} {val : Value} {count : Nat}
    (h : OutputsAt env keep w₀ s out w) (hfresh : Fresh keep w₀.manifest.nextSstableId count)
    (hcount : (Cut.close (Cut.step (reachedTarget env.crates targetFileSize) s
      (key, val))).length ≤ count) :
    Prog.Spec (· = w) (writeOutput env targetFileSize out key val)
      (OutputsAt env keep w₀ (Cut.step (reachedTarget env.crates targetFileSize) s (key, val)))
      (fun _ => Stopped keep w₀ count) := by
  obtain ⟨done, cur⟩ := s
  -- the entry is the first one of a new table
  have hfirst : ∀ {done' : List (List Entry)} {w : World}, done'.length < count →
      Prog.Spec (· = w) (finishOutput env out)
        (fun out' w' => Finished env keep w₀ done' done'.length out'.newFiles w' ∧
          out'.currentWriter = none) (fun _ => Stopped keep w₀ count) →
      Prog.Spec (· = w) (rotateOutput env out >>= fun out => writeCurrent env out key val)
        (OutputsAt env keep w₀ (done', [(key, val)])) (fun _ => Stopped keep w₀ count) := by
    intro done' w hlt hfinish
    refine Prog.Spec.bind_forall (rotateOutput_writing hfinish hfresh hlt) fun out' w' hout => ?_
    obtain ⟨hfinished, writer, hwriter, hwriting⟩ := hout
    exact writeCurrent_writing hfinished hwriter hwriting hfresh hlt key val
  unfold writeOutput
  cases cur with
  | nil =>
      obtain ⟨hfinished, hnone⟩ := h
      rw [shouldRotate, hnone]
      rw [show Cut.step (reachedTarget env.crates targetFileSize) (done, []) (key, val) =
        (done, [(key, val)]) from rfl] at hcount ⊢
      have hlt : done.length < count := by
        rw [Cut.close, List.isEmpty_cons, if_neg (by simp), List.length_append] at hcount
        exact hcount
      refine hfirst hlt ?_
      unfold finishOutput
      rw [hnone]
      exact Prog.Spec.pure fun w' hw' => hw' ▸ ⟨hfinished, hnone⟩
  | cons e es =>
      obtain ⟨hfinished, writer, hwriter, hwriting⟩ := h
      obtain ⟨hentries, hid, hname⟩ := hwriting
      have hlt : done.length < count := by
        have hclose := Nat.le_trans (Cut.length_close_step (done, e :: es) (key, val)) hcount
        rw [Cut.close, List.isEmpty_cons, if_neg (by simp), List.length_append] at hclose
        exact hclose
      rw [shouldRotate, hwriter]
      refine Prog.Spec.bind_forall (Q := fun rotate w' =>
        rotate = reachedTarget env.crates targetFileSize (e :: es) ∧ Reads w w') ?_
        fun rotate w' hrotate => ?_
      · refine Prog.Spec.bind (Prog.Spec.mapError ((currentSize_reads hname).weaken (fun _ h => h)
          (fun _ _ h => h) fun _ _ hbroken => hbroken.stopped (hfinished.within hlt)
            (hid ▸ hfresh.free _ hlt))) fun size => Prog.Spec.pure ?_
        rintro w' ⟨rfl, hreads⟩
        rw [hentries]
        exact ⟨rfl, hreads⟩
      obtain ⟨rfl, hreads⟩ := hrotate
      have hfinished' := hreads.finished hfinished
      have hwriting' : Writing env w₀ done (e :: es) writer w' := by
        obtain ⟨faults, rfl, _⟩ := hreads
        exact ⟨hentries, hid, hname⟩
      unfold Cut.step at hcount ⊢
      simp only [List.isEmpty_cons, Bool.false_or] at hcount ⊢
      cases hreached : reachedTarget env.crates targetFileSize (e :: es) with
      | true =>
          rw [hreached] at hcount
          simp only [Cut.close, List.isEmpty_cons, if_true, Bool.false_eq_true, if_false,
            List.length_append, List.length_singleton] at hcount ⊢
          have hdone := finishOutput_finished hfinished' hwriter hwriting' hfresh hlt
          refine @hfirst (done ++ [e :: es]) _ ?_ ?_
          · rw [List.length_append, List.length_singleton]
            omega
          · rw [List.length_append]
            exact hdone
      | false =>
          simp only [Bool.false_eq_true, if_false]
          have hwrite := writeCurrent_writing hfinished' hwriter hwriting' hfresh hlt key val
          exact (Prog.Spec.bind_forall (Q := fun out' w'' => out' = out ∧ w'' = w')
            (Prog.Spec.pure fun _ h => ⟨rfl, h⟩) fun out' w'' h => by
              obtain ⟨rfl, rfl⟩ := h
              exact hwrite)

/-- Finishing the last table. -/
theorem finishOutput_outputsAt {s : List (List Entry) × List Entry} {out : Outputs} {count : Nat}
    (h : OutputsAt env keep w₀ s out w) (hfresh : Fresh keep w₀.manifest.nextSstableId count)
    (hcount : (Cut.close s).length ≤ count) :
    Prog.Spec (· = w) (finishOutput env out)
      (fun out' w' => Finished env keep w₀ (Cut.close s) (Cut.close s).length out'.newFiles w')
      (fun _ => Stopped keep w₀ count) := by
  obtain ⟨done, cur⟩ := s
  cases cur with
  | nil =>
      obtain ⟨hfinished, hnone⟩ := h
      unfold finishOutput
      rw [hnone]
      exact Prog.Spec.pure fun w' hw' => hw' ▸ hfinished
  | cons e es =>
      obtain ⟨hfinished, writer, hwriter, hwriting⟩ := h
      have hclose : Cut.close (done, e :: es) = done ++ [e :: es] := rfl
      rw [hclose, List.length_append, List.length_singleton] at hcount ⊢
      exact (finishOutput_finished hfinished hwriter hwriting hfresh hcount).weaken (fun _ h => h)
        (fun _ _ h => h.1) fun _ _ h => h

theorem OutputsAt.quiet {s : List (List Entry) × List Entry} {out : Outputs}
    (h : OutputsAt env keep w₀ s out w) : Quiet keep w₀ w := by
  unfold OutputsAt at h
  split at h <;> exact h.1.quiet

/-- There are as many ids taken as there are pieces. -/
theorem OutputsAt.within {s : List (List Entry) × List Entry} {out : Outputs} {count : Nat}
    (h : OutputsAt env keep w₀ s out w) (hcount : (Cut.close s).length ≤ count) :
    Within keep w₀ count w := by
  unfold OutputsAt at h
  unfold Cut.close at hcount
  split at h
  · rename_i hnil
    rw [if_pos hnil] at hcount
    exact h.1.within hcount
  · rename_i hne
    rw [if_neg hne, List.length_append] at hcount
    exact h.1.within hcount

/-- When the outputs are dropped, nothing but the file of the current one changes. -/
theorem OutputsAt.drop {s : List (List Entry) × List Entry} {out : Outputs} {count : Nat}
    (h : OutputsAt env keep w₀ s out w) (hfresh : Fresh keep w₀.manifest.nextSstableId count)
    (hcount : (Cut.close s).length ≤ count) : Within keep w₀ count (out.drop w).2 := by
  have hwithin := h.within hcount
  unfold OutputsAt at h
  unfold Cut.close at hcount
  unfold Outputs.drop
  split at h
  · rw [h.2]
    exact hwithin
  · rename_i hne
    rw [if_neg hne, List.length_append] at hcount
    obtain ⟨-, ⟨t, id⟩, hwriter, -, hid, hname⟩ := h
    have hlt : s.1.length < count := hcount
    rw [hwriter]
    exact hwithin.steady (dropTable_steady hname) (hid ▸ hfresh.free _ hlt)

/-! ## The loop -/

/-- Some entries are written in order, and the others are not smaller. -/
structure WrittenPart (inputs written rest : List Entry) : Prop where
  perm : (written ++ rest).Perm inputs
  ordered : KeyOrdered written
  below : ∀ x ∈ written, ∀ y ∈ rest, x.1 ≤ y.1

namespace WrittenPart

variable {inputs written rest rest' : List Entry} {e : Entry}

/-- What is written, with the rest in order, is a sorted merge. -/
theorem sortedMerge (h : WrittenPart inputs written rest) :
    SortedMerge inputs (written ++ rest.insertionSort fun a b => a.1 ≤ b.1) := by
  have hperm := List.perm_insertionSort (fun a b : Entry => a.1 ≤ b.1) rest
  refine ⟨(hperm.append_left written).trans h.perm, ?_⟩
  refine List.pairwise_append.mpr ⟨h.ordered, ?_, fun x hx y hy => ?_⟩
  · have htotal : Std.Total fun a b : Entry => a.1 ≤ b.1 := ⟨fun a b => le_total a.1 b.1⟩
    have htrans : IsTrans Entry fun a b => a.1 ≤ b.1 := ⟨fun _ _ _ => le_trans⟩
    exact List.pairwise_insertionSort (fun a b : Entry => a.1 ≤ b.1) rest
  · exact h.below x hx y (hperm.mem_iff.mp hy)

/-- A smallest entry of the rest is written. -/
theorem step (h : WrittenPart inputs written rest) (hperm : (e :: rest').Perm rest)
    (hmin : ∀ x ∈ rest, e.1 ≤ x.1) : WrittenPart inputs (written ++ [e]) rest' where
  perm := by
    rw [List.append_assoc]
    exact (hperm.append_left written).trans h.perm
  ordered := by
    refine List.pairwise_append.mpr ⟨h.ordered, List.pairwise_singleton _ _, fun x hx y hy => ?_⟩
    rw [List.mem_singleton.mp hy]
    exact h.below x hx e (hperm.mem_iff.mp List.mem_cons_self)
  below := by
    intro x hx y hy
    have hy' := hperm.mem_iff.mp (List.mem_cons_of_mem e hy)
    rcases List.mem_append.mp hx with hx | hx
    · exact h.below x hx y hy'
    · rw [List.mem_singleton.mp hx]
      exact hmin y hy'

end WrittenPart

/-- The state of the loop: the entries that are written, and those that remain. The iterators read
files of `keep`, so they read what was there at the beginning. -/
structure MergeAt (env : Env) (keep : FileName → Prop) (w₀ : World) (targetFileSize : UInt64)
    (inputs written : List Entry)
    (pending : List (Merge.Item Key Value × List Entry)) (m : MergeIterator) (out : Outputs)
    (w : World) : Prop where
  merge : Merge.Inv (SstableIterator.next env.crates w₀.dir) (w₀.faults ≠ []) m pending
  iters : ∀ it ∈ m.iters, ∃ n, keep n ∧ (n, it.inode) ∈ w₀.dir.names
  part : WrittenPart inputs written (Merge.remaining pending)
  outputs : OutputsAt env keep w₀
    (written.foldl (Cut.step (reachedTarget env.crates targetFileSize)) ([], [])) out w

/-- The merge reads its tables as they were at the beginning. -/
theorem MergeAt.next_eq {targetFileSize : UInt64} {inputs written : List Entry}
    {pending : List (Merge.Item Key Value × List Entry)} {m : MergeIterator} {out : Outputs}
    (h : MergeAt env keep w₀ targetFileSize inputs written pending m out w) :
    m.next env.crates w.dir = m.next env.crates w₀.dir := by
  refine Merge.next_congr fun it hit => SstableIterator.next_congr ?_
  obtain ⟨n, hn, hname⟩ := h.iters it hit
  exact h.outputs.quiet.dir.content hn hname

/-- The loop writes all that remains. -/
theorem mergeLoop_outputsAt {targetFileSize : UInt64} {inputs : List Entry} {count : Nat}
    (hfresh : Fresh keep w₀.manifest.nextSstableId count)
    (hcount : ∀ merged, SortedMerge inputs merged →
      (cutOutputs env.crates targetFileSize merged).length ≤ count)
    (m : MergeIterator) (out : Outputs) :
    Prog.Spec (fun w => ∃ written pending,
        MergeAt env keep w₀ targetFileSize inputs written pending m out w)
      (mergeLoop env targetFileSize m out)
      (fun out w => ∃ merged, SortedMerge inputs merged ∧ OutputsAt env keep w₀
        (merged.foldl (Cut.step (reachedTarget env.crates targetFileSize)) ([], [])) out w)
      (fun _ => Failed keep w₀) := by
  refine mergeLoop_spec (I := fun m out w => ∃ written pending,
    MergeAt env keep w₀ targetFileSize inputs written pending m out w) ?_ ?_ ?_ m out
  · rintro m m' out w ⟨written, pending, h⟩ hnext
    rw [h.next_eq] at hnext
    rcases h.merge.next with ⟨hempty, _⟩ | ⟨a, m'', pending', hsome, _⟩ | ⟨_, e, m'', hsome⟩
    · refine ⟨written, ⟨?_, h.part.ordered⟩, h.outputs⟩
      have hperm := h.part.perm
      rwa [hempty, List.append_nil] at hperm
    · cases hnext.symm.trans hsome
    · cases hnext.symm.trans hsome
  · rintro m m' out w e ⟨written, pending, h⟩ hnext
    rw [h.next_eq] at hnext
    rcases h.merge.next with ⟨_, hnone⟩ | ⟨a, m'', pending', hsome, _⟩ | ⟨hmay, _⟩
    · cases hnext.symm.trans hnone
    · cases hnext.symm.trans hsome
    · have hpieces := Nat.le_trans (Cut.length_cut_le (reachedTarget env.crates targetFileSize) _ _)
        (hcount _ h.part.sortedMerge)
      exact ⟨(h.outputs.drop hfresh hpieces).quiet, hmay⟩
  · rintro m m' out w key val ⟨written, pending, h⟩ hnext
    rw [h.next_eq] at hnext
    rcases h.merge.next with ⟨_, hnone⟩ | ⟨a, m'', pending', hsome, hinv, hperm, hmin⟩ |
      ⟨_, e, m'', herror⟩
    · cases hnext.symm.trans hnone
    · cases hnext.symm.trans hsome
      have hpart := h.part.step hperm hmin
      -- there are no more tables than for the whole merge
      have hpieces := Nat.le_trans (Cut.length_cut_le (reachedTarget env.crates targetFileSize) _ _)
        (hcount _ hpart.sortedMerge)
      have hfold : (written ++ [(key, val)]).foldl
          (Cut.step (reachedTarget env.crates targetFileSize)) ([], []) = _ := List.foldl_concat ..
      rw [Cut.cut, hfold] at hpieces
      refine (writeOutput_outputsAt h.outputs hfresh hpieces).weaken (fun _ h => h)
        (fun out' w' hout => ?_) fun _ _ hstopped => hstopped.failed
      exact ⟨written ++ [(key, val)], pending', hinv, Merge.next_iters
        (fun hstep hit => by rw [SstableIterator.inode_next hstep]; exact hit) hnext h.iters,
        hpart, hfold ▸ hout⟩
    · cases hnext.symm.trans herror

/-! ## All of it -/

/-- An iterator over a stored table. -/
def Reading (c : Crates) (w₀ : World) (it : SstableIterator) (t : Table) : Prop :=
  Merge.Yields (SstableIterator.next c w₀.dir) (w₀.faults ≠ []) it t.entries ∧
    (.sst t.meta'.fileId, it.inode) ∈ w₀.dir.names

/-- Iterators over stored tables. -/
theorem openInputs_reads {ts : List Table} (h : ∀ t ∈ ts, Stored env.crates w₀.dir t) :
    Prog.Spec (Reads w₀) (Prog.forEach (openInput env) (ts.map Table.meta'))
      (fun its w => List.Forall₂ (Reading env.crates w₀) its ts ∧ Reads w₀ w)
      (fun _ => Faulty w₀) := by
  induction ts with
  | nil => exact Prog.Spec.pure fun w hw => ⟨.nil, hw⟩
  | cons t ts ih =>
      refine Prog.Spec.bind (openInput_reads (h t List.mem_cons_self)) fun it => ?_
      rintro w ⟨hreading, hw⟩
      refine Prog.Spec.bind (ih fun t' ht' => h t' (List.mem_cons_of_mem t ht'))
        (fun its => ?_) w hw
      exact Prog.Spec.pure fun w hw => ⟨.cons hreading hw.1, hw.2⟩

/-- The entries of several tables. -/
def allEntries (ts : List Table) : List Entry := (ts.map Table.entries).flatten

/-- What a merge has written: tables with all the entries of its inputs, in key order. -/
structure Merged (env : Env) (keep : FileName → Prop) (w₀ : World) (targetFileSize : UInt64)
    (ts : List Table) (merged : List Entry) (newFiles : List FileMetadata) (hs : List TableHandle)
    (w : World) : Prop where
  sorted : SortedMerge (allEntries ts) merged
  newFiles : newFiles = (writtenTables env.crates w₀.manifest.nextSstableId
    (cutOutputs env.crates targetFileSize merged)).map Table.meta'
  built : Built env keep w₀ (writtenTables env.crates w₀.manifest.nextSstableId
    (cutOutputs env.crates targetFileSize merged)) hs w
  manifest : w.manifest = { w₀.manifest with
    nextSstableId := w₀.manifest.nextSstableId +
      UInt32.ofNat (cutOutputs env.crates targetFileSize merged).length }

/-- The outputs of a merge have other ids than the files of `keep`, and no length of them is
narrowed. -/
structure MergeRoom (env : Env) (keep : FileName → Prop) (w₀ : World) (targetFileSize : UInt64)
    (inputs : List Entry) (count : Nat) : Prop where
  fresh : Fresh keep w₀.manifest.nextSstableId count
  pieces : ∀ merged, SortedMerge inputs merged →
    (cutOutputs env.crates targetFileSize merged).length ≤ count
  tables : ∀ merged, SortedMerge inputs merged →
    ∀ es ∈ cutOutputs env.crates targetFileSize merged, TableFits env.crates es

/-- The iterators of a merge read files of `keep`. -/
theorem reading_files {its : List SstableIterator} {ts : List Table}
    (h : List.Forall₂ (Reading env.crates w₀) its ts)
    (hkeep : ∀ t ∈ ts, keep (.sst t.meta'.fileId)) :
    ∀ it ∈ its, ∃ n, keep n ∧ (n, it.inode) ∈ w₀.dir.names := by
  induction h with
  | nil => exact fun it hit => absurd hit List.not_mem_nil
  | cons hfirst _ ih =>
      intro it hit
      rcases List.mem_cons.mp hit with rfl | hit
      · exact ⟨_, hkeep _ List.mem_cons_self, hfirst.2⟩
      · exact ih (fun t ht => hkeep t (List.mem_cons_of_mem _ ht)) it hit

/-- A new merge iterator is at the beginning of the loop. -/
theorem newMerge_spec {targetFileSize : UInt64} {ts : List Table} {inputs : List SstableIterator}
    (hreading : List.Forall₂ (Reading env.crates w₀) inputs ts) (hreads : Reads w₀ w)
    (hordered : ∀ t ∈ ts, KeyOrdered t.entries) (hkeep : ∀ t ∈ ts, keep (.sst t.meta'.fileId)) :
    Prog.Spec (· = w) (Prog.ofExcept (MergeIterator.new env.crates w₀.dir inputs))
      (fun m w' => w' = w ∧ ∃ pending,
        MergeAt env keep w₀ targetFileSize (allEntries ts) [] pending m ⟨[], none⟩ w)
      (fun _ => Failed keep w₀) := by
  have hyields : List.Forall₂ (Merge.Yields (SstableIterator.next env.crates w₀.dir)
      (w₀.faults ≠ [])) inputs (ts.map Table.entries) :=
    List.forall₂_map_right_iff.mpr (hreading.imp fun _ _ h => h.1)
  have hsorted : ∀ l ∈ ts.map Table.entries, l.Pairwise fun a b => a.1 ≤ b.1 := by
    intro l hl
    obtain ⟨t, ht, rfl⟩ := List.mem_map.mp hl
    exact hordered t ht
  have hnew := Merge.new_spec hyields hsorted
  refine Prog.Spec.ofExcept ?_ ?_
  · rintro m _ hok rfl
    rcases hnew with ⟨m', pending, hok', hinv, hperm⟩ | ⟨_, e, herror⟩
    · cases hok.symm.trans hok'
      refine ⟨rfl, pending, hinv, Merge.new_iters (fun hstep hit => by
        rw [SstableIterator.inode_next hstep]; exact hit) (reading_files hreading hkeep) hok,
        ⟨hperm, List.Pairwise.nil, by simp⟩, ⟨hreads.quiet keep, rfl, by simp [writtenTables], ?_⟩,
          rfl⟩
      obtain ⟨faults, rfl, _⟩ := hreads
      exact (UInt32.add_zero _).symm
    · cases hok.symm.trans herror
  · rintro e _ herror rfl
    rcases hnew with ⟨m', pending, hok', _⟩ | ⟨hmay, _⟩
    · cases herror.symm.trans hok'
    · exact ⟨hreads.quiet keep, hmay⟩

/-- The tables that a merge has written are opened. -/
theorem openMerged_spec {targetFileSize : UInt64} {ts : List Table} {count : Nat}
    {merged : List Entry} {newFiles : List FileMetadata} (text : String)
    (hroom : MergeRoom env keep w₀ targetFileSize (allEntries ts) count)
    (hmerged : SortedMerge (allEntries ts) merged)
    (hfinished : Finished env keep w₀ (cutOutputs env.crates targetFileSize merged)
      (cutOutputs env.crates targetFileSize merged).length newFiles w) :
    Prog.Spec (· = w) (openNewTables env text newFiles)
      (fun hs w' => Merged env keep w₀ targetFileSize ts merged newFiles hs w' ∧
        ∀ t ∈ writtenTables env.crates w₀.manifest.nextSstableId
          (cutOutputs env.crates targetFileSize merged),
          w'.dir.read (.sst t.meta'.fileId) = some (writeTable env.crates t.entries).1)
      (fun _ => Failed keep w₀) := by
  have hentries : ∀ t ∈ writtenTables env.crates w₀.manifest.nextSstableId
      (cutOutputs env.crates targetFileSize merged),
      t.entries ∈ cutOutputs env.crates targetFileSize merged := by
    intro t ht
    obtain ⟨i, es, hi, rfl⟩ := mem_writtenTables.mp ht
    exact List.mem_of_getElem? hi
  have hopen := @openWritten_reads env w text _
    (fun t ht => hroom.tables _ hmerged _ (hentries t ht)) hfinished.written
  rw [← hfinished.newFiles] at hopen
  refine hopen.weaken (fun _ h => h ▸ Reads.refl _) ?_ ?_
  · rintro hs w' ⟨⟨_, hopened⟩, hreads⟩
    have hdir : w'.dir = w.dir := by
      obtain ⟨faults, rfl, _⟩ := hreads
      rfl
    refine ⟨⟨hmerged, hfinished.newFiles, ?_, ?_⟩, hdir ▸ hfinished.written⟩
    · rw [← hdir] at hopened
      exact ⟨hfinished.quiet.trans (hreads.quiet keep), stored_of_opened hopened, hopened⟩
    · obtain ⟨id, hid⟩ := hfinished.quiet.manifest
      have hcounter := hfinished.counter
      obtain ⟨faults, rfl, _⟩ := hreads
      show w.manifest = _
      rw [hid] at hcounter ⊢
      rw [← hcounter]
  · rintro e w' ⟨hreads, hfail⟩
    refine ⟨hfinished.quiet.trans (hreads.quiet keep), fun hnil => ?_⟩
    obtain ⟨t, ht, hempty⟩ := hfail (hfinished.quiet.faults hnil)
    exact Cut.ne_nil_of_mem_cut (hentries t ht) hempty

/-- A merge succeeds unless an I/O call fails, and its outputs are the files that it has written. -/
theorem mergeFiles_spec {targetFileSize : UInt64} {ts : List Table} {count : Nat}
    (hstored : ∀ t ∈ ts, Stored env.crates w₀.dir t) (hordered : ∀ t ∈ ts, KeyOrdered t.entries)
    (hkeep : ∀ t ∈ ts, keep (.sst t.meta'.fileId))
    (hroom : MergeRoom env keep w₀ targetFileSize (allEntries ts) count) :
    Prog.Spec (· = w₀) (mergeFiles env targetFileSize (ts.map Table.meta'))
      (fun r w => ∃ merged, Merged env keep w₀ targetFileSize ts merged r.1 r.2 w ∧
        ∀ t ∈ writtenTables env.crates w₀.manifest.nextSstableId
          (cutOutputs env.crates targetFileSize merged),
          w.dir.read (.sst t.meta'.fileId) = some (writeTable env.crates t.entries).1)
      (fun _ => Failed keep w₀) := by
  -- the inputs
  refine Prog.Spec.bind_forall ((openInputs_reads hstored).weaken (fun _ h => h ▸ Reads.refl _)
    (fun _ _ h => h) fun _ _ hfaulty => hfaulty.failed (Quiet.refl keep _)) fun inputs w₁ h₁ => ?_
  obtain ⟨hreading, hreads⟩ := h₁
  have hdir : w₁.dir = w₀.dir := by
    obtain ⟨faults, rfl, _⟩ := hreads
    rfl
  refine Prog.Spec.bind_forall (Q := fun d w => d = w₀.dir ∧ w = w₁)
    (Prog.Spec.read fun w hw => ⟨by rw [hw, hdir], hw⟩) fun d w h => ?_
  obtain ⟨rfl, rfl⟩ := h
  refine Prog.Spec.bind_forall (Prog.Spec.mapError (@newMerge_spec _ _ _ _ targetFileSize _ _
    hreading hreads hordered hkeep)) fun m w' hm => ?_
  obtain ⟨rfl, pending, hstart⟩ := hm
  -- the loop
  refine Prog.Spec.bind_forall ((mergeLoop_outputsAt hroom.fresh hroom.pieces m _).weaken
    (fun w hw => ⟨[], pending, hw ▸ hstart⟩) (fun _ _ h => h) fun _ _ h => h) fun out w₂ hout => ?_
  obtain ⟨merged, hmerged, hout⟩ := hout
  refine Prog.Spec.bind_forall ((finishOutput_outputsAt hout hroom.fresh
    (hroom.pieces _ hmerged)).weaken (fun _ h => h) (fun _ _ h => h)
    fun _ _ hstopped => hstopped.failed) fun out' w₃ hfinished => ?_
  -- the outputs
  exact Prog.Spec.bind (openMerged_spec _ hroom hmerged hfinished) fun hs =>
    Prog.Spec.pure fun w hdone => ⟨merged, hdone⟩

end EasyLsm.Db
