import Mathlib.Data.List.Basic
import EasyLsm.Db.Publish
import EasyLsm.Db.Recover
import EasyLsm.Db.Write

/-!
# What a flush does

`flushMemtables_spec`: a flush that succeeds has written every frozen memtable to a table of its
own, listed the tables in level 0, dropped the first logs of the manifest, and installed a version
without the memtables (`Flushed`). Without a fault it fails only on an empty memtable or when the
manifest lists fewer logs than there are frozen memtables. `flush_succeeds`: the empty memtable is
what a flush cannot write.
-/

namespace EasyLsm.Db

open Lib Lib.FileStore

variable {env : Env} {keep : FileName → Prop} {w₀ w w' : World}

/-- The tables that a flush writes. -/
def flushTables (c : Crates) (w : World) : List Table :=
  writtenTables c w.manifest.nextSstableId (w.current.frozenMemtables.map Memtable.iter)

/-- The frozen memtables can be written to tables: their number and no length is narrowed. -/
structure FlushFits (c : Crates) (w : World) : Prop where
  tables : ∀ memtable ∈ w.current.frozenMemtables, TableFits c memtable.iter
  count : w.current.frozenMemtables.length ≤ 2 ^ 32

theorem entries_flushTables (c : Crates) (w : World) :
    (flushTables c w).map Table.entries = w.current.frozenMemtables.map Memtable.iter :=
  entries_writtenTables _ _

theorem length_flushTables (c : Crates) (w : World) :
    (flushTables c w).length = w.current.frozenMemtables.length := by
  rw [flushTables, writtenTables, List.length_map, List.length_zipIdx, List.length_map]

/-- A table of a flush holds the entries of a memtable. -/
theorem mem_flushTables {c : Crates} {t : Table} (h : t ∈ flushTables c w) :
    ∃ memtable ∈ w.current.frozenMemtables, t.entries = memtable.iter := by
  have hentries : t.entries ∈ (flushTables c w).map Table.entries := List.mem_map_of_mem h
  rw [entries_flushTables] at hentries
  obtain ⟨memtable, hmem, heq⟩ := List.mem_map.mp hentries
  exact ⟨memtable, hmem, heq.symm⟩

/-- A flush of frozen memtables that succeeded. -/
structure Flushed (env : Env) (w₀ w : World) : Prop where
  wals : w₀.current.frozenMemtables.length ≤ w₀.manifest.wals.length
  ne_nil : ∀ memtable ∈ w₀.current.frozenMemtables, memtable.iter ≠ []
  steps : ∃ w₁ hs, Built env (OtherThan (flushTables env.crates w₀)) w₀
      (flushTables env.crates w₀) hs w₁ ∧
    w₁.manifest = { w₀.manifest with nextSstableId := w₀.manifest.nextSstableId + 1 } ∧
    Published env (flushMutator ((flushTables env.crates w₀).map Table.meta')
      (w₀.manifest.wals.take w₀.current.frozenMemtables.length))
      (flushVersion w₀.current.frozenMemtables.length hs) w₁ w

/-- The closure of a flush accepts the logs that were there before. -/
theorem flushMutator_ne_error (metas : List FileMetadata) (n : Nat) (m : Manifest) :
    ∃ c, flushMutator metas (m.wals.take n) m = .ok c := by
  obtain ⟨levels, hfold⟩ := foldl_pushL0_eq metas m
  have htake : m.wals.take (m.wals.take n).length = m.wals.take n := by
    rw [List.length_take, ← List.take_eq_take_min]
  unfold flushMutator
  simp only [hfold, htake, ne_eq, not_true, if_false]
  exact ⟨_, rfl⟩

/-- What a flush does after it has written its tables. -/
def publishFlush (env : Env) (w₀ : World) : Op Unit := do
  let newSstables := (flushTables env.crates w₀).map Table.meta'
  let walsToDelete := w₀.manifest.wals.take w₀.current.frozenMemtables.length
  let newSstObjs ← openNewTables env "Failed to open new SSTable " newSstables
  let _ ← applyAtomicUpdate env
    (fun candidate => Prog.ofExcept (flushMutator newSstables walsToDelete candidate)) 3
  Prog.modify fun w => { w with
    current := flushVersion newSstables.length newSstObjs w.current }
  collectGarbage env

/-- One table id is reserved. -/
def Reserved (w₀ w : World) : Prop :=
  w.manifest = { w₀.manifest with nextSstableId := w₀.manifest.nextSstableId + 1 }

/-- The first part of a flush. An id is reserved and the memtables are written to files, and nothing
else has changed when the tables are opened. -/
theorem flushMemtables_write {Q : Unit → World → Prop} {E : DbError → World → Prop}
    (hne : w₀.current.frozenMemtables ≠ [])
    (hcount : w₀.current.frozenMemtables.length ≤ 2 ^ 32)
    (hshort : ∀ e w, w₀.manifest.wals.length < w₀.current.frozenMemtables.length →
      (∀ keep, Quiet keep w₀ w) → Reserved w₀ w → E e w)
    (hbroken : ∀ e w, Quiet (OtherThan (flushTables env.crates w₀)) w₀ w → Reserved w₀ w →
      w₀.faults ≠ [] → E e w)
    (hpublish : ∀ w₁, w₀.current.frozenMemtables.length ≤ w₀.manifest.wals.length →
      Quiet (OtherThan (flushTables env.crates w₀)) w₀ w₁ → Reserved w₀ w₁ →
      (∀ t ∈ flushTables env.crates w₀, w₁.dir.read (.sst t.meta'.fileId) =
        some (writeTable env.crates t.entries).1) →
      Prog.Spec (· = w₁) (publishFlush env w₀) Q E) :
    Prog.Spec (· = w₀) (flushMemtables env) Q E := by
  refine Prog.Spec.bind_forall (Q := fun v w => v = w₀.current ∧ w = w₀)
    (Prog.Spec.read fun w hw => ⟨by rw [hw], hw⟩) fun v w hv => ?_
  obtain ⟨rfl, rfl⟩ := hv
  simp only [List.isEmpty_iff, hne, if_false]
  -- the id is reserved
  have hreserve : reserveSstableId w = (.ok w.manifest.nextSstableId, { w with
      manifest := { w.manifest with nextSstableId := w.manifest.nextSstableId + 1 } }) := rfl
  refine Prog.Spec.bind_forall (Q := fun id w₁ => id = w.manifest.nextSstableId ∧
    w₁ = { w with manifest := { w.manifest with nextSstableId := w.manifest.nextSstableId + 1 } })
    (fun s hs => by rw [hs, hreserve]; exact ⟨rfl, rfl⟩) fun startSstId w₁ hw₁ => ?_
  obtain ⟨rfl, hw₁⟩ := hw₁
  have hquiet₁ : ∀ keep, Quiet keep w w₁ := by
    intro keep
    rw [hw₁]
    exact ⟨⟨_, rfl⟩, rfl, rfl, id, Agree.refl keep _, [], (List.append_nil _).symm, by simp⟩
  refine Prog.Spec.bind_forall (Q := fun m s => m = w₁.manifest ∧ s = w₁)
    (Prog.Spec.read fun s hs => ⟨by rw [hs], hs⟩) fun m s hm => ?_
  obtain ⟨rfl, rfl⟩ := hm
  have hwals : s.manifest.wals = w.manifest.wals := by rw [hw₁]
  rw [hwals]
  refine Prog.Spec.ite (fun hless => Prog.Spec.fail ?_) fun hlong => ?_
  · rintro _ rfl
    refine hshort _ _ ?_ hquiet₁ (by rw [hw₁, Reserved])
    rw [List.length_take] at hless
    omega
  have hlong : w.current.frozenMemtables.length ≤ w.manifest.wals.length := by
    rw [List.length_take] at hlong
    omega
  -- the tables are written
  have htables := @flushTables_steady env s w.manifest.nextSstableId
    w.current.frozenMemtables 0 (by rw [Nat.zero_add]; exact hcount)
  rw [map_flushedTable] at htables
  refine Prog.Spec.bind_forall (htables.weaken (fun _ h => h) (fun _ _ h => h) ?_)
    fun newSstables w₂ hw₂ => ?_
  · rintro e w' ⟨hsteady, hfaults⟩
    refine hbroken e w' ((hquiet₁ _).trans hsteady.quiet) ?_ ?_
    · rw [Reserved, hsteady.manifest, hw₁]
    · exact fun hnil => hfaults ((hquiet₁ (fun _ => True)).faults hnil)
  obtain ⟨⟨rfl, hread⟩, hsteady⟩ := hw₂
  refine hpublish w₂ hlong ((hquiet₁ _).trans hsteady.quiet) ?_ hread
  rw [Reserved, hsteady.manifest, hw₁]

/-- A flush succeeds and its tables are the files that it has written, or it has changed nothing but
files of new tables and a temporary file. -/
theorem flushMemtables_written (hfits : FlushFits env.crates w₀) :
    Prog.Spec (· = w₀) (flushMemtables env)
      (fun _ w => if w₀.current.frozenMemtables = [] then w = w₀ else
        w₀.current.frozenMemtables.length ≤ w₀.manifest.wals.length ∧
        (∀ memtable ∈ w₀.current.frozenMemtables, memtable.iter ≠ []) ∧
        ∃ w₁ hs, (Built env (OtherThan (flushTables env.crates w₀)) w₀
            (flushTables env.crates w₀) hs w₁ ∧
          w₁.manifest = { w₀.manifest with nextSstableId := w₀.manifest.nextSstableId + 1 } ∧
          Published env (flushMutator ((flushTables env.crates w₀).map Table.meta')
            (w₀.manifest.wals.take w₀.current.frozenMemtables.length))
            (flushVersion w₀.current.frozenMemtables.length hs) w₁ w) ∧
          ∀ t ∈ flushTables env.crates w₀, w₁.dir.read (.sst t.meta'.fileId) =
            some (writeTable env.crates t.entries).1)
      (fun _ w => Quiet
        (fun n => OtherThan (flushTables env.crates w₀) n ∧ ∀ v, n ≠ .mfTmp v) w₀ w ∧
        (w₀.faults = [] → w₀.manifest.wals.length < w₀.current.frozenMemtables.length ∨
          ∃ memtable ∈ w₀.current.frozenMemtables, memtable.iter = [])) := by
  by_cases hempty : w₀.current.frozenMemtables = []
  · refine Prog.Spec.bind_forall (Q := fun v w => v = w₀.current ∧ w = w₀)
      (Prog.Spec.read fun w hw => ⟨by rw [hw], hw⟩) fun v w hv => ?_
    obtain ⟨rfl, rfl⟩ := hv
    simp only [hempty, List.isEmpty_nil, if_true]
    exact Prog.Spec.pure fun _ h => h
  simp only [hempty, if_false]
  have hother : ∀ n, (OtherThan (flushTables env.crates w₀) n ∧ ∀ v, n ≠ .mfTmp v) →
      OtherThan (flushTables env.crates w₀) n := fun _ h => h.1
  refine flushMemtables_write hempty hfits.count (fun _ _ hshort hquiet _ => ⟨hquiet _, fun _ =>
    .inl hshort⟩) (fun _ _ hquiet _ hfaults => ⟨hquiet.mono hother,
      fun hnil => absurd hnil hfaults⟩)
    fun w₂ hlong hquiet₂ hmanifest hread => ?_
  have hentries : ∀ t ∈ flushTables env.crates w₀, TableFits env.crates t.entries := by
    intro t ht
    obtain ⟨memtable, hmem, heq⟩ := mem_flushTables ht
    rw [heq]
    exact hfits.tables memtable hmem
  -- the tables are opened
  refine Prog.Spec.bind_forall ((@openWritten_reads env w₂ _ _ hentries hread).weaken
    (fun _ h => h ▸ Reads.refl _) (fun _ _ h => h) ?_) fun newSstObjs w₃ hw₃ => ?_
  · rintro e w' ⟨hreads, hfail⟩
    refine ⟨(hquiet₂.mono hother).trans (hreads.quiet _), fun hnil => .inr ?_⟩
    obtain ⟨t, ht, hnone⟩ := hfail (hquiet₂.faults hnil)
    obtain ⟨memtable, hmem, heq⟩ := mem_flushTables ht
    exact ⟨memtable, hmem, heq ▸ hnone⟩
  obtain ⟨⟨hne, hopened⟩, hreads⟩ := hw₃
  have hquiet₃ := hquiet₂.trans (hreads.quiet _)
  have hmanifest₃ : w₃.manifest = w₂.manifest := (hreads.steady (fun _ => True)).manifest
  have hdir : w₃.dir = w₂.dir := by
    obtain ⟨faults, rfl, _⟩ := hreads
    rfl
  -- and published
  refine (publish_spec (flushMutator_keepsCounters _ _) _).weaken (fun _ h => h) ?_ ?_
  · rintro _ w' hpublished
    refine ⟨hlong, fun memtable hmem hnil => ?_, w₃, newSstObjs,
      ⟨⟨hquiet₃, fun t ht => ?_, ?_⟩, ?_, ?_⟩, hdir ▸ hread⟩
    · have hmem' : memtable.iter ∈ (flushTables env.crates w₀).map Table.entries := by
        rw [entries_flushTables]
        exact List.mem_map_of_mem hmem
      obtain ⟨t, ht, heq⟩ := List.mem_map.mp hmem'
      exact hne t ht (heq.trans hnil)
    · rw [hdir]
      exact stored_of_opened hopened t ht
    · rw [hdir]
      exact hopened
    · rw [hmanifest₃, hmanifest]
    · have hlength : ((flushTables env.crates w₀).map Table.meta').length =
          w₀.current.frozenMemtables.length := by rw [List.length_map, length_flushTables]
      have hpublished : Published env _ (flushVersion
        ((flushTables env.crates w₀).map Table.meta').length newSstObjs) w₃ w' := hpublished
      rw [hlength] at hpublished
      exact hpublished
  · rintro e w' ⟨hsteady, hfail⟩
    refine ⟨(hquiet₃.mono hother).trans (hsteady.quiet.mono fun _ h => h.2), fun hnil => ?_⟩
    obtain ⟨c, hc⟩ := flushMutator_ne_error ((flushTables env.crates w₀).map Table.meta')
      w₀.current.frozenMemtables.length w₃.manifest
    have hsame : w₃.manifest.wals = w₀.manifest.wals := by rw [hmanifest₃, hmanifest]
    rw [hsame] at hc
    exact absurd hc (hfail (hquiet₃.faults hnil) c)

/-- What is known of a flush when the contents of its files do not matter. -/
theorem flushMemtables_spec (hfits : FlushFits env.crates w₀) :
    Prog.Spec (· = w₀) (flushMemtables env)
      (fun _ w => if w₀.current.frozenMemtables = [] then w = w₀ else Flushed env w₀ w)
      (fun _ w => Quiet
        (fun n => OtherThan (flushTables env.crates w₀) n ∧ ∀ v, n ≠ .mfTmp v) w₀ w ∧
        (w₀.faults = [] → w₀.manifest.wals.length < w₀.current.frozenMemtables.length ∨
          ∃ memtable ∈ w₀.current.frozenMemtables, memtable.iter = [])) := by
  refine (flushMemtables_written hfits).weaken (fun _ h => h) (fun _ w h => ?_) fun _ _ h => h
  split at h
  · rename_i hempty
    rwa [if_pos hempty]
  · rename_i hne
    obtain ⟨hwals, hfull, w₁, hs, hsteps, _⟩ := h
    rw [if_neg hne]
    exact ⟨hwals, hfull, w₁, hs, hsteps⟩

/-! ## When a flush succeeds -/

/-- A flush that succeeds had no empty memtable to write, also when lengths are narrowed. -/
theorem flushMemtables_ne_nil (hcount : w₀.current.frozenMemtables.length ≤ 2 ^ 32)
    (hok : (flushMemtables env w₀).1 = .ok ()) :
    ∀ memtable ∈ w₀.current.frozenMemtables, memtable.iter ≠ [] := by
  intro memtable hmem hnil
  have hmem' : memtable.iter ∈ (flushTables env.crates w₀).map Table.entries := by
    rw [entries_flushTables]
    exact List.mem_map_of_mem hmem
  obtain ⟨t, ht, heq⟩ := List.mem_map.mp hmem'
  -- the file of this memtable is written, and then it is not opened
  have hspec : Prog.Spec (· = w₀) (flushMemtables env) (fun _ _ => False) fun _ _ => True := by
    refine flushMemtables_write (List.ne_nil_of_mem hmem) hcount (fun _ _ _ _ _ => trivial)
      (fun _ _ _ _ _ => trivial) fun w₁ _ _ _ hread => ?_
    exact Prog.Spec.bind ((openWritten_fails _ ht (heq.trans hnil) hread).weaken
      (fun _ h => h ▸ Reads.refl _) (fun _ _ h => h) fun _ _ _ => trivial)
      fun _ _ hfalse => hfalse.elim
  have hend := hspec w₀ rfl
  rcases hrun : flushMemtables env w₀ with ⟨e | _, w'⟩
  · rw [hrun] at hok
    cases hok
  · rwa [hrun] at hend

/-- A flush without faults succeeds. -/
theorem flush_run (hfits : FlushFits env.crates w) (hfaults : w.faults = [])
    (hwals : w.current.frozenMemtables.length ≤ w.manifest.wals.length)
    (hne : ∀ memtable ∈ w.current.frozenMemtables, memtable.iter ≠ []) :
    flushMemtables env w = (.ok (), (flushMemtables env w).2) := by
  rcases hrun : flushMemtables env w with ⟨e | _, w'⟩
  · rcases ((flushMemtables_spec hfits).error rfl hrun).2 hfaults with hless |
      ⟨memtable, hmem, hnil⟩
    · omega
    · exact absurd hnil (hne memtable hmem)
  · rfl

/-- Without I/O errors and with a log for every frozen memtable, a flush succeeds when no frozen
memtable is empty, and it does not succeed when one is: of the tables that can be written, the one
without entries is the only one that cannot be opened. -/
theorem flush_succeeds (env : Env) (w : World) (hfaults : w.faults = [])
    (hwals : w.current.frozenMemtables.length ≤ w.manifest.wals.length) :
    ((flushMemtables env w).1 = .ok () → w.current.frozenMemtables.length ≤ 2 ^ 32 →
      ∀ memtable ∈ w.current.frozenMemtables, memtable.iter ≠ []) ∧
    ((∀ memtable ∈ w.current.frozenMemtables, memtable.iter ≠ []) → FlushFits env.crates w →
      (flushMemtables env w).1 = .ok ()) ∧
    ∀ (id : UInt32) (es : List Entry), TableFits env.crates es →
      ((∃ sst, Sstable.new env.crates id (writeTable env.crates es).1 = .ok sst) ↔ es ≠ []) := by
  refine ⟨fun hok hcount => ?_, fun hne hfits => ?_, fun id es hfits => ⟨?_, fun hne => ?_⟩⟩
  · exact flushMemtables_ne_nil hcount hok
  · rw [flush_run hfits hfaults hwals hne]
  · rintro ⟨sst, hnew⟩ rfl
    exact new_writeTable_nil _ _ _ hnew
  · exact ⟨_, new_writeTable hfits hne id⟩

/-- A new database after a put and a rotation. -/
def oneFrozen : World :=
  (rotateMemtable defaultEnv (put defaultEnv [97] (.bytes [1]) (pristine defaultEnv)).2).2

theorem flush_succeeds_one : (flushMemtables defaultEnv oneFrozen).1 = .ok () := by
  have hfrozen : oneFrozen.current.frozenMemtables =
      [((Memtable.new).putBatch [(Key.new [97] 1, .bytes [1])]).freeze] := rfl
  refine (flush_succeeds defaultEnv oneFrozen rfl (by decide +kernel)).2.1 ?_ ⟨?_, ?_⟩
  · rw [hfrozen]
    decide
  · rw [hfrozen]
    decide
  · rw [hfrozen]
    decide

/-- A new database after a rotation: the first log, which holds only its magic number, has become
that of a frozen memtable. -/
def emptyFrozen : World := (rotateMemtable defaultEnv (pristine defaultEnv)).2

/-- A frozen memtable that is replayed from a log without records cannot be flushed. -/
theorem flush_fails_on_empty : ¬ ∀ (env : Env) (w : World), w.faults = [] →
    w.current.frozenMemtables.length ≤ w.manifest.wals.length →
    (∀ memtable ∈ w.current.frozenMemtables, ∃ id,
      (replayImmutableWal env id w).1 = .ok memtable) →
    (flushMemtables env w).1 = .ok () := by
  intro hall
  have hfrozen : emptyFrozen.current.frozenMemtables = [Memtable.new.freeze] := rfl
  have hreplay : (replayImmutableWal defaultEnv 0 emptyFrozen).1 = .ok Memtable.new.freeze := rfl
  have hok : (flushMemtables defaultEnv emptyFrozen).1 = .ok () := by
    refine hall defaultEnv emptyFrozen rfl (by decide +kernel) fun memtable hmem => ⟨0, ?_⟩
    rw [hfrozen] at hmem
    rw [List.mem_singleton.mp hmem]
    exact hreplay
  have hne := flushMemtables_ne_nil (by rw [hfrozen]; decide) hok
  rw [hfrozen] at hne
  exact hne _ (List.mem_singleton_self _) rfl

end EasyLsm.Db
