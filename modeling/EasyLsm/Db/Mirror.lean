import Mathlib.Data.List.Basic
import Mathlib.Data.List.Forall2
import EasyLsm.Db.CompactCrash
import EasyLsm.Db.Flushing

/-!
# The version mirrors the manifest

The tables of the version are those that the manifest lists, level by level and in the same order
(`Mirror`). The two are changed by different code: the closure of the commit works on metadata, the
rest of the operation on open tables. `mirror_iff`: every structural operation that succeeds keeps
the two alike, except that a flush of more than one memtable leaves the next table id behind the ids
that it has used.
-/

namespace EasyLsm.Db

open Lib Lib.FileStore

variable {env : Env} {keep : FileName → Prop} {w₀ w w' : World}

/-- The tables that a manifest lists, level by level: the id and the smallest key of each. -/
def listedTables (m : Manifest) : List (List (UInt32 × Key)) :=
  (fileLists m).map (List.map fun f => (f.fileId, f.minKey))

/-- The tables of a version. -/
def presentedTables (v : Version) : List (List (UInt32 × Key)) :=
  v.sstables.map (List.map fun t => (t.sst.id, t.sst.minKey))

/-- The version presents the tables that the manifest lists, and the next table id is above the ids
of these. -/
structure Mirror (m : Manifest) (v : Version) : Prop where
  tables : presentedTables v = listedTables m
  ids : ∀ id ∈ m.sstableIds, id < m.nextSstableId

/-! ## Opening files -/

/-- The file of some metadata was opened. -/
def OpenedFile (c : Crates) (dir : Dir) (f : FileMetadata) (h : TableHandle) : Prop :=
  (.sst f.fileId, h.inode) ∈ dir.names ∧
    Sstable.new c f.fileId (dir.content h.inode) = .ok h.sst

/-- The handle has the id and the smallest key of the metadata. -/
def Twin (f : FileMetadata) (h : TableHandle) : Prop :=
  h.sst.id = f.fileId ∧ h.sst.minKey = f.minKey

/-- What an open that succeeds has opened. -/
theorem openTable_opened (id : UInt32) :
    Prog.Spec (Reads w₀) (openTable env id)
      (fun h w => ((.sst id, h.inode) ∈ w₀.dir.names ∧
        Sstable.new env.crates id (w₀.dir.content h.inode) = .ok h.sst) ∧ Reads w₀ w)
      (fun _ => Reads w₀) := by
  cases hlookup : w₀.dir.lookup (.sst id) with
  | some inode =>
      have hmem := lookup_eq_some.mp hlookup
      refine (openTable_reads hmem).weaken (fun _ h => h) ?_ fun _ _ h => h.1
      intro h w hopened
      obtain ⟨⟨rfl, hnew⟩, hreads⟩ := hopened
      exact ⟨⟨hmem, hnew⟩, hreads⟩
  | none =>
      -- the file is missing, so opening it fails
      refine Prog.Spec.bind (Q := fun _ _ => False) ?_ fun _ _ hfalse => hfalse.elim
      refine Prog.Spec.bind nextFault_reads fun fault => ?_
      intro w hw
      obtain ⟨_, faults, rfl, hnil⟩ := hw
      cases fault with
      | none =>
          simp only [Prog.bind_apply, Prog.read, hlookup]
          exact ⟨faults, rfl, hnil⟩
      | some f => exact ⟨faults, rfl, hnil⟩

/-- What opening several files has opened. -/
theorem openNewTables_opened (text : String) (files : List FileMetadata) :
    Prog.Spec (Reads w₀) (openNewTables env text files)
      (fun hs w => List.Forall₂ (OpenedFile env.crates w₀.dir) files hs ∧ Reads w₀ w)
      (fun _ => Reads w₀) :=
  Prog.Spec.forEach_related fun f _ => Prog.Spec.mapError (openTable_opened f.fileId)

/-- A table that was written with representable lengths has the smallest key of its metadata when it
is opened. -/
theorem twin_of_written {dir : Dir} {id : UInt32} {es : List Entry} {h : TableHandle}
    (hfits : TableFits env.crates es)
    (hread : dir.read (.sst id) = some (writeTable env.crates es).1)
    (hopened : OpenedFile env.crates dir (writtenTable env.crates id es).meta' h) :
    Twin (writtenTable env.crates id es).meta' h := by
  obtain ⟨hmem, hnew⟩ := hopened
  rw [fileId_writtenTable] at hmem hnew
  refine ⟨(new_eq_ok hnew).1, ?_⟩
  rw [read_of_mem hmem] at hread
  rw [Option.some.inj hread] at hnew
  have hne : es ≠ [] := by
    intro hnil
    rw [hnil] at hnew
    exact new_writeTable_nil _ _ _ hnew
  rw [new_writeTable hfits hne] at hnew
  rw [← Except.ok.inj hnew]
  exact (writeTable_eq es).2.1.symm

/-- Tables that were written are twins of their metadata when they are opened. -/
theorem openWritten_twins (text : String) {startSstId : UInt32} {pieces : List (List Entry)}
    (hfits : ∀ es ∈ pieces, TableFits env.crates es)
    (hread : ∀ t ∈ writtenTables env.crates startSstId pieces,
      w₀.dir.read (.sst t.meta'.fileId) = some (writeTable env.crates t.entries).1) :
    Prog.Spec (Reads w₀)
      (openNewTables env text ((writtenTables env.crates startSstId pieces).map Table.meta'))
      (fun hs w => List.Forall₂ Twin
        ((writtenTables env.crates startSstId pieces).map Table.meta') hs ∧ Reads w₀ w)
      (fun _ => Reads w₀) := by
  refine (openNewTables_opened text _).weaken (fun _ h => h) ?_ fun _ _ h => h
  intro hs w h
  obtain ⟨hopened, hreads⟩ := h
  refine ⟨List.forall₂_map_left_iff.mpr ?_, hreads⟩
  have hboth := (List.forall₂_and_left _ _).mpr
    ⟨fun t (ht : t ∈ writtenTables env.crates startSstId pieces) => ht,
      List.forall₂_map_left_iff.mp hopened⟩
  refine hboth.imp fun t h hth => ?_
  obtain ⟨ht, hopen⟩ := hth
  have hfile := hread t ht
  obtain ⟨i, es, hes, rfl⟩ := mem_writtenTables.mp ht
  exact twin_of_written (hfits es (List.mem_of_getElem? hes)) hfile hopen

/-- Lists whose elements have the same values. -/
theorem map_eq_of_forall₂ {α β γ : Type} {f : α → γ} {g : β → γ} {as : List α} {bs : List β}
    (h : List.Forall₂ (fun a b => g b = f a) as bs) : bs.map g = as.map f := by
  induction h with
  | nil => rfl
  | cons hfirst _ ih => rw [List.map_cons, List.map_cons, hfirst, ih]

/-- Twins have the same ids and smallest keys. -/
theorem map_twins {files : List FileMetadata} {hs : List TableHandle}
    (h : List.Forall₂ Twin files hs) :
    hs.map (fun t => (t.sst.id, t.sst.minKey)) = files.map fun f => (f.fileId, f.minKey) :=
  map_eq_of_forall₂ (h.imp fun _ _ htwin => Prod.ext htwin.1 htwin.2)

/-! ## What a compaction merges -/

/-- A merge of files as they are in a directory has returned some entries. -/
def MergedFrom (c : Crates) (dir : Dir) (files : List FileMetadata) (written : List Entry)
    (m : MergeIterator) : Prop :=
  ∃ handles m₀, List.Forall₂ (OpenedFile c dir) files handles ∧
    MergeIterator.new c dir (handles.map fun h => SstableIterator.new h none) = .ok m₀ ∧
    Merge.Returns (MergeIterator.next c dir) m₀ written m

/-- The second iterator is the first one without its fault. -/
def Unfaulted (it it' : SstableIterator) : Prop := it' = { it with fault := none }

/-- An iterator without a fault does what one with a fault does before it fails. -/
theorem follows_unfaulted (c : Crates) (dir : Dir) :
    Merge.Follows (SstableIterator.next c dir) (SstableIterator.next c dir) Unfaulted := by
  have hblock : ∀ {it it₁ : SstableIterator} {r}, it.nextInBlock = (r, it₁) →
      ({ it with fault := none } : SstableIterator).nextInBlock =
        (r, { it₁ with fault := none }) := by
    intro it it₁ r h
    unfold SstableIterator.nextInBlock at h ⊢
    split at h
    · rename_i hempty
      cases h
      rw [if_pos hempty]
    · rename_i hne
      rw [if_neg hne]
      split at h <;> rename_i hdecode <;> cases h <;> simp only [hdecode]
  have hnext : ∀ {it it₁ : SstableIterator} {r}, SstableIterator.next c dir it = (r, it₁) →
      (∀ e, r ≠ some (.error e)) →
      SstableIterator.next c dir { it with fault := none } = (r, { it₁ with fault := none }) := by
    intro it it₁ r h hr
    unfold SstableIterator.next at h ⊢
    split at h
    · rename_i hempty
      rw [if_pos hempty]
      simp only
      split at h
      · rename_i hindex
        cases h
        rw [hindex]
      · rename_i min max offset index hindex
        rw [hindex]
        split at h
        · cases h
          exact absurd rfl (hr _)
        · split at h
          · cases h
            exact absurd rfl (hr _)
          · exact hblock h
    · rename_i hne
      rw [if_neg hne]
      exact hblock h
  constructor
  · intro it it₁ it' hit hstep
    subst hit
    exact ⟨_, hnext hstep (by simp), rfl⟩
  · intro it a it₁ it' hit hstep
    subst hit
    exact ⟨_, hnext hstep (by simp), rfl⟩

/-- The iterators over the input files. -/
theorem openInputs_opened (files : List FileMetadata) :
    Prog.Spec (Reads w₀) (Prog.forEach (openInput env) files)
      (fun its w => (∃ handles, List.Forall₂ (OpenedFile env.crates w₀.dir) files handles ∧
        List.Forall₂ Unfaulted its (handles.map fun h => SstableIterator.new h none)) ∧
        (∀ it ∈ its, ∃ f ∈ files, (.sst f.fileId, it.inode) ∈ w₀.dir.names) ∧ Reads w₀ w)
      (fun _ => Reads w₀) := by
  induction files with
  | nil => exact Prog.Spec.pure fun w hw => ⟨⟨[], .nil, .nil⟩, by simp, hw⟩
  | cons f files ih =>
      have hfirst : Prog.Spec (Reads w₀) (openInput env f)
          (fun it w => (∃ h, OpenedFile env.crates w₀.dir f h ∧
            Unfaulted it (SstableIterator.new h none) ∧
            (.sst f.fileId, it.inode) ∈ w₀.dir.names) ∧ Reads w₀ w) (fun _ => Reads w₀) := by
        refine Prog.Spec.bind (Prog.Spec.mapError (openTable_opened f.fileId)) fun h => ?_
        intro w hw
        refine Prog.Spec.bind nextFault_reads (fun fault => Prog.Spec.pure fun w' hw' => ?_) w hw.2
        exact ⟨⟨h, hw.1, rfl, hw.1.1⟩, hw'.2⟩
      refine Prog.Spec.bind hfirst fun it => ?_
      intro w hw
      obtain ⟨⟨h, hopened, hunfaulted, hname⟩, hreads⟩ := hw
      refine Prog.Spec.bind ih (fun its => Prog.Spec.pure fun w' hw' => ?_) w hreads
      obtain ⟨⟨handles, hall, hits⟩, hnames, hreads'⟩ := hw'
      refine ⟨⟨h :: handles, .cons hopened hall, .cons hunfaulted hits⟩, fun x hx => ?_, hreads'⟩
      rcases List.mem_cons.mp hx with rfl | hx
      · exact ⟨f, List.mem_cons_self, hname⟩
      · obtain ⟨g, hg, hmem⟩ := hnames x hx
        exact ⟨g, List.mem_cons_of_mem f hg, hmem⟩

/-- The state of the loop: what the merge of the input files has returned is written. The iterators
read files of `keep`, so they read what was there at the beginning. -/
structure LoopAt (env : Env) (keep : FileName → Prop) (w₀ : World) (targetFileSize : UInt64)
    (files : List FileMetadata) (written : List Entry) (m m' : MergeIterator) (out : Outputs)
    (w : World) : Prop where
  merged : MergedFrom env.crates w₀.dir files written m'
  alike : Merge.Alike Unfaulted m m'
  iters : ∀ it ∈ m.iters, ∃ n, keep n ∧ (n, it.inode) ∈ w₀.dir.names
  outputs : OutputsAt env keep w₀
    (written.foldl (Cut.step (reachedTarget env.crates targetFileSize)) ([], [])) out w

/-- A step of the merge, as it is without faults at the beginning. -/
theorem LoopAt.next_eq {targetFileSize : UInt64} {files : List FileMetadata}
    {written : List Entry} {m m' : MergeIterator} {out : Outputs}
    (h : LoopAt env keep w₀ targetFileSize files written m m' out w) :
    m.next env.crates w.dir = m.next env.crates w₀.dir := by
  refine Merge.next_congr fun it hit => SstableIterator.next_congr ?_
  obtain ⟨n, hn, hname⟩ := h.iters it hit
  exact h.outputs.quiet.dir.content hn hname

/-- A loop that ends has written all that the merge of its files returns. -/
theorem mergeLoop_merged {targetFileSize : UInt64} {files : List FileMetadata} {count : Nat}
    (hfresh : Fresh keep w₀.manifest.nextSstableId count)
    (hcount : ∀ written m, MergedFrom env.crates w₀.dir files written m →
      (cutOutputs env.crates targetFileSize written).length ≤ count)
    (m : MergeIterator) (out : Outputs) :
    Prog.Spec (fun w => ∃ written m', LoopAt env keep w₀ targetFileSize files written m m' out w)
      (mergeLoop env targetFileSize m out)
      (fun out w => ∃ merged m' m'', MergedFrom env.crates w₀.dir files merged m' ∧
        m'.next env.crates w₀.dir = (none, m'') ∧ OutputsAt env keep w₀
          (merged.foldl (Cut.step (reachedTarget env.crates targetFileSize)) ([], [])) out w)
      (fun _ => Within keep w₀ count) := by
  have hfollows := Merge.follows_next (follows_unfaulted env.crates w₀.dir)
  refine mergeLoop_spec (I := fun m out w => ∃ written m',
    LoopAt env keep w₀ targetFileSize files written m m' out w) ?_ ?_ ?_ m out
  · intro m m₁ out w hloop hnext
    obtain ⟨written, m', h⟩ := hloop
    rw [h.next_eq] at hnext
    obtain ⟨m'', hnone, _⟩ := hfollows.none h.alike hnext
    exact ⟨written, m', m'', h.merged, hnone, h.outputs⟩
  · intro m m₁ out w e hloop _
    obtain ⟨written, m', h⟩ := hloop
    exact h.outputs.drop hfresh (hcount _ _ h.merged)
  · intro m m₁ out w key val hloop hnext
    obtain ⟨written, m', h⟩ := hloop
    rw [h.next_eq] at hnext
    obtain ⟨m'', hsome, halike⟩ := hfollows.item h.alike hnext
    have hmerged : MergedFrom env.crates w₀.dir files (written ++ [(key, val)]) m'' := by
      obtain ⟨handles, m₀, hopened, hnew, hreturns⟩ := h.merged
      exact ⟨handles, m₀, hopened, hnew, hreturns.item hsome⟩
    have hpieces := hcount _ _ hmerged
    have hfold : (written ++ [(key, val)]).foldl
        (Cut.step (reachedTarget env.crates targetFileSize)) ([], []) = _ := List.foldl_concat ..
    rw [cutOutputs, Cut.cut, hfold] at hpieces
    refine (writeOutput_outputsAt h.outputs hfresh hpieces).weaken (fun _ h => h)
      (fun out' w' hout => ?_) fun _ _ hstopped => hstopped.1
    exact ⟨written ++ [(key, val)], m'', hmerged, halike, Merge.next_iters
      (fun hstep hit => by rw [SstableIterator.inode_next hstep]; exact hit) hnext h.iters,
      hfold ▸ hout⟩

/-- The ids and the lengths of the tables that a merge of files writes are representable, and so is
the id behind them. -/
structure CompactFits (env : Env) (w : World) (targetFileSize : UInt64)
    (files : List FileMetadata) : Prop where
  ids : ∀ written m, MergedFrom env.crates w.dir files written m →
    w.manifest.nextSstableId.toNat + (cutOutputs env.crates targetFileSize written).length < 2 ^ 32
  tables : ∀ merged m m', MergedFrom env.crates w.dir files merged m →
    m.next env.crates w.dir = (none, m') →
    ∀ es ∈ cutOutputs env.crates targetFileSize merged, TableFits env.crates es

/-- The manifests, the logs, and the table files with ids below the next one. -/
def Settled (w : World) (n : FileName) : Prop :=
  IsManifest n ∨ (∃ id, n = .wal id) ∨ ∃ id < w.manifest.nextSstableId, n = .sst id

/-- The ids from the next one on are free. -/
theorem fresh_settled (w : World) : Fresh (Settled w) w.manifest.nextSstableId
    (2 ^ 32 - w.manifest.nextSstableId.toNat) := by
  refine ⟨fun i hi hsettled => ?_, Nat.sub_le _ _⟩
  rcases hsettled with ⟨v, hv⟩ | ⟨id, hname⟩ | ⟨id, hless, hname⟩
  · cases hv
  · cases hname
  · rw [UInt32.lt_iff_toNat_lt, ← FileName.sst.inj hname, toNat_add_ofNat (by omega)] at hless
    omega

/-- What a merge has written and opened. -/
structure MergedFiles (env : Env) (keep : FileName → Prop) (w₀ : World) (targetFileSize : UInt64)
    (files : List FileMetadata) (newFiles : List FileMetadata) (hs : List TableHandle) (w : World) :
    Prop where
  pieces : ∃ merged m m', MergedFrom env.crates w₀.dir files merged m ∧
    m.next env.crates w₀.dir = (none, m') ∧
    newFiles = (writtenTables env.crates w₀.manifest.nextSstableId
      (cutOutputs env.crates targetFileSize merged)).map Table.meta' ∧
    w.manifest = { w₀.manifest with
      nextSstableId := w₀.manifest.nextSstableId +
        UInt32.ofNat (cutOutputs env.crates targetFileSize merged).length }
  twins : List.Forall₂ Twin newFiles hs
  quiet : Quiet keep w₀ w

/-- A merge of files, whatever they hold, writes its outputs to other files. -/
theorem mergeFiles_twins {targetFileSize : UInt64} {files : List FileMetadata} {count : Nat}
    (hfresh : Fresh keep w₀.manifest.nextSstableId count)
    (hcount : ∀ written m, MergedFrom env.crates w₀.dir files written m →
      (cutOutputs env.crates targetFileSize written).length ≤ count)
    (htables : ∀ merged m m', MergedFrom env.crates w₀.dir files merged m →
      m.next env.crates w₀.dir = (none, m') →
      ∀ es ∈ cutOutputs env.crates targetFileSize merged, TableFits env.crates es)
    (hkeep : ∀ f ∈ files, keep (.sst f.fileId)) :
    Prog.Spec (· = w₀) (mergeFiles env targetFileSize files)
      (fun r w => MergedFiles env keep w₀ targetFileSize files r.1 r.2 w)
      (fun _ => Within keep w₀ count) := by
  have hreading : ∀ {w}, Reads w₀ w → Within keep w₀ count w := by
    intro w hreads
    refine ⟨hreads.quiet keep, 0, Nat.zero_le _, ?_⟩
    obtain ⟨faults, rfl, _⟩ := hreads
    exact (UInt32.add_zero _).symm
  refine Prog.Spec.bind_forall ((@openInputs_opened env w₀ files).weaken
    (fun _ h => h ▸ Reads.refl _) (fun _ _ h => h) fun _ _ h => hreading h) fun inputs w₁ h₁ => ?_
  obtain ⟨⟨handles, hopened, hunfaulted⟩, hnames, hreads⟩ := h₁
  have hdir : w₁.dir = w₀.dir := by
    obtain ⟨faults, rfl, _⟩ := hreads
    rfl
  refine Prog.Spec.bind_forall (Q := fun d w => d = w₀.dir ∧ w = w₁)
    (Prog.Spec.read fun w hw => ⟨by rw [hw, hdir], hw⟩) fun d w h => ?_
  obtain ⟨rfl, rfl⟩ := h
  refine Prog.Spec.bind_forall (Q := fun m w' => w' = w ∧
    MergeIterator.new env.crates w₀.dir inputs = .ok m) (Prog.Spec.mapError (Prog.Spec.ofExcept
      (fun m w' hok hw' => ⟨hw', hok⟩) fun _ _ _ hw' => hreading (hw' ▸ hreads))) fun m w' hm => ?_
  obtain ⟨rfl, hnew⟩ := hm
  obtain ⟨m₀, hnew₀, halike⟩ :=
    Merge.new_follows (follows_unfaulted env.crates w₀.dir) hunfaulted hnew
  -- the loop begins with nothing written
  have hstart : LoopAt env keep w₀ targetFileSize files [] m m₀ ⟨[], none⟩ w' := by
    refine ⟨⟨handles, m₀, hopened, hnew₀, .start⟩, halike, Merge.new_iters (fun hstep hit => by
      rw [SstableIterator.inode_next hstep]; exact hit) (fun it hit => ?_) hnew,
      ⟨hreads.quiet _, rfl, by simp [writtenTables], ?_⟩, rfl⟩
    · obtain ⟨f, hf, hmem⟩ := hnames it hit
      exact ⟨_, hkeep f hf, hmem⟩
    · obtain ⟨faults, rfl, _⟩ := hreads
      exact (UInt32.add_zero _).symm
  refine Prog.Spec.bind_forall ((mergeLoop_merged hfresh hcount m _).weaken
    (fun w hw => ⟨[], m₀, hw ▸ hstart⟩) (fun _ _ h => h) fun _ _ h => h) fun out w₂ hout => ?_
  obtain ⟨merged, m', m'', hmerged, hnone, hout⟩ := hout
  have hclose : Cut.close (merged.foldl (Cut.step (reachedTarget env.crates targetFileSize))
    ([], [])) = cutOutputs env.crates targetFileSize merged := rfl
  refine Prog.Spec.bind_forall ((finishOutput_outputsAt hout hfresh (hcount _ _ hmerged)).weaken
    (fun _ h => h) (fun _ _ h => h) fun _ _ hstopped => hstopped.1) fun out' w₃ hfinished => ?_
  rw [hclose] at hfinished
  -- the outputs are opened
  have hopen := @openWritten_twins env w₃ "Failed to open new SST " _ _
    (htables merged m' m'' hmerged hnone) hfinished.written
  rw [← hfinished.newFiles] at hopen
  refine Prog.Spec.bind (hopen.weaken (fun _ h => h ▸ Reads.refl _) (fun _ _ h => h)
    fun _ _ h => (h.finished hfinished).within (hcount _ _ hmerged)) fun hs =>
      Prog.Spec.pure fun w hw => ?_
  obtain ⟨htwins, hreads'⟩ := hw
  refine ⟨⟨merged, m', m'', hmerged, hnone, hfinished.newFiles, ?_⟩, htwins,
    hfinished.quiet.trans (hreads'.quiet keep)⟩
  obtain ⟨faults, rfl, _⟩ := hreads'
  obtain ⟨id, hid⟩ := hfinished.quiet.manifest
  have hcounter := hfinished.counter
  show w₃.manifest = _
  rw [hid] at hcounter ⊢
  rw [← hcounter]

theorem CompactFits.mergeFiles {targetFileSize : UInt64} {files : List FileMetadata}
    (hfits : CompactFits env w₀ targetFileSize files)
    (hids : ∀ id ∈ w₀.manifest.sstableIds, id < w₀.manifest.nextSstableId)
    (hlisted : ∀ f ∈ files, f.fileId ∈ w₀.manifest.sstableIds) :
    Prog.Spec (· = w₀) (mergeFiles env targetFileSize files)
      (fun r w => MergedFiles env (Settled w₀) w₀ targetFileSize files r.1 r.2 w)
      (fun _ => Within (Settled w₀) w₀ (2 ^ 32 - 1 - w₀.manifest.nextSstableId.toNat)) := by
  refine mergeFiles_twins ⟨fun i hi => (fresh_settled w₀).free i (by omega), by omega⟩
    (fun written m hmerged => ?_) hfits.tables fun f hf => .inr
      (.inr ⟨_, hids _ (hlisted f hf), rfl⟩)
  have hless := hfits.ids written m hmerged
  omega

/-! ## The operations -/

/-- A compaction keeps the version and the manifest alike. -/
theorem Mirror.compaction {targetFileSize : UInt64} {k : Compaction}
    (h : Mirror w.manifest w.current)
    (hfits : ∀ s, k.select w.manifest = some s → CompactFits env w targetFileSize s.all)
    (hrun : k.run env targetFileSize w = (.ok (), w')) : Mirror w'.manifest w'.current := by
  rw [Compaction.run_eq] at hrun
  cases hselect : k.select w.manifest with
  | none =>
      rw [hselect] at hrun
      cases hrun
      exact h
  | some s =>
      rw [hselect] at hrun
      have hspec : Prog.Spec (· = w)
          (executeCompaction env s.sourceLevelIdx s.all s.fromSource s.fromTarget targetFileSize)
          (fun _ w' => Mirror w'.manifest w'.current) (fun _ _ => True) := by
        refine Prog.Spec.bind_forall (((hfits s hselect).mergeFiles h.ids
          fun f hf => selected_mem_sstableIds hselect hf).weaken (fun _ h => h) (fun _ _ h => h)
            fun _ _ _ => trivial) fun r w₁ hr => ?_
        obtain ⟨newFiles, hs⟩ := r
        obtain ⟨⟨merged, m, _, hmerged, _, hnew, hmanifest⟩, htwins, hquiet⟩ := hr
        have hless := (hfits s hselect).ids _ _ hmerged
        refine (publish_spec (compactMutator_keepsCounters _ _ _ _) _).weaken (fun _ h => h) ?_
          fun _ _ _ => trivial
        intro _ w' hpublished
        have hpublished : Published env (compactMutator s.sourceLevelIdx s.fromSource s.fromTarget
          newFiles) (compactVersion (fun t => t.sst.id) (fun t => t.sst.minKey) s.sourceLevelIdx
          s.fromSource s.fromTarget hs) w₁ w' := hpublished
        obtain ⟨c, hc, hw'⟩ := hpublished.manifest
        obtain ⟨hlists, _⟩ := compactMutator_eq hc
        have hnext : w'.manifest.nextSstableId = w.manifest.nextSstableId +
            UInt32.ofNat (cutOutputs env.crates targetFileSize merged).length := by
          rw [hw', (compactMutator_keepsCounters _ _ _ _).nextSstableId hc, hmanifest]
        have hfiles : fileLists w'.manifest = Levels.replace
            (fun f => hasId s.fromSource f.fileId) (fun f => hasId s.fromTarget f.fileId)
            (fun a b => a.minKey ≤ b.minKey) s.sourceLevelIdx newFiles (fileLists w.manifest) := by
          rw [hmanifest] at hlists
          rw [hw']
          exact hlists
        constructor
        · -- both updates are one update of the ids and smallest keys
          have hversion := @Levels.map_replace TableHandle (UInt32 × Key)
            (fun t => (t.sst.id, t.sst.minKey)) _ _ (fun p => hasId s.fromSource p.1)
            (fun p => hasId s.fromTarget p.1) _ _ (fun p q => p.2 ≤ q.2) _ (fun _ => rfl)
            (fun _ => rfl) (fun _ _ => Iff.rfl) s.sourceLevelIdx hs w.current.sstables
          have hmanifest := @Levels.map_replace FileMetadata (UInt32 × Key)
            (fun f => (f.fileId, f.minKey)) _ _ (fun p => hasId s.fromSource p.1)
            (fun p => hasId s.fromTarget p.1) _ _ (fun p q => p.2 ≤ q.2) _ (fun _ => rfl)
            (fun _ => rfl) (fun _ _ => Iff.rfl) s.sourceLevelIdx newFiles (fileLists w.manifest)
          rw [presentedTables, hpublished.current, sstables_compactVersion, hquiet.current,
            listedTables, hfiles]
          refine hversion.trans (Eq.trans ?_ hmanifest.symm)
          rw [map_twins htwins]
          exact congrArg _ h.tables
        · intro id hid
          rw [hnext]
          refine lt_next_of_written (c := env.crates) h.ids hless ?_
          rw [← hnew, sstableIds_eq]
          rw [sstableIds_eq, hfiles] at hid
          obtain ⟨f, hf, rfl⟩ := List.mem_map.mp hid
          have hmem := (Levels.flatten_replace _ _ _ _ _ _).mem_iff.mp (List.mem_append_left _ hf)
          rcases List.mem_append.mp hmem with hold | hnew
          · exact .inl (List.mem_map_of_mem hold)
          · exact .inr (List.mem_map_of_mem hnew)
      exact hspec.ok rfl hrun

/-- What a flush of frozen memtables leaves in memory. -/
structure FlushMirrored (env : Env) (w w' : World) : Prop where
  tables : presentedTables w'.current = listedTables w'.manifest
  next : w'.manifest.nextSstableId = w.manifest.nextSstableId + 1
  listed : ∀ id, id ∈ w'.manifest.sstableIds ↔ id ∈ w.manifest.sstableIds ∨
    id ∈ ((flushTables env.crates w).map Table.meta').map FileMetadata.fileId

theorem flushMemtables_mirrored (htables : presentedTables w.current = listedTables w.manifest)
    (hne : w.current.frozenMemtables ≠ []) (hfits : FlushFits env.crates w) :
    Prog.Spec (· = w) (flushMemtables env) (fun _ w' => FlushMirrored env w w')
      (fun _ _ => True) := by
  refine flushMemtables_write hne hfits.count (fun _ _ _ _ _ => trivial) (fun _ _ _ _ _ => trivial)
    fun w₁ _ hquiet hmanifest hread => ?_
  have hpieces : ∀ es ∈ w.current.frozenMemtables.map Memtable.iter, TableFits env.crates es := by
    intro es hes
    obtain ⟨memtable, hmem, rfl⟩ := List.mem_map.mp hes
    exact hfits.tables memtable hmem
  refine Prog.Spec.bind_forall ((openWritten_twins _ hpieces hread).weaken
    (fun _ h => h ▸ Reads.refl _) (fun _ _ h => h) fun _ _ _ => trivial) fun hs w₂ hw₂ => ?_
  obtain ⟨htwins, faults, rfl, _⟩ := hw₂
  refine (publish_spec (flushMutator_keepsCounters _ _) _).weaken (fun _ h => h) ?_
    fun _ _ _ => trivial
  intro _ w' hpublished
  have hpublished : Published env (flushMutator ((flushTables env.crates w).map Table.meta')
    (w.manifest.wals.take w.current.frozenMemtables.length))
    (flushVersion ((flushTables env.crates w).map Table.meta').length hs)
    { w₁ with faults } w' := hpublished
  obtain ⟨c, hc, hw'⟩ := hpublished.manifest
  have hnonempty : (flushTables env.crates w).map Table.meta' ≠ [] := by
    intro hnil
    have hlen := length_flushTables env.crates w
    rw [List.map_eq_nil_iff.mp hnil] at hlen
    exact hne (List.length_eq_zero_iff.mp hlen.symm)
  obtain ⟨hlists, _⟩ := flushMutator_eq hnonempty hc
  have hfiles : fileLists w'.manifest =
      Levels.push ((flushTables env.crates w).map Table.meta') (fileLists w.manifest) := by
    rw [hw']
    refine hlists.trans ?_
    show Levels.push _ (fileLists w₁.manifest) = _
    rw [hmanifest]
    rfl
  refine ⟨?_, ?_, fun id => ?_⟩
  · rw [presentedTables, hpublished.current, sstables_flushVersion, Levels.map_push, listedTables,
      hfiles, Levels.map_push]
    show Levels.push _ (presentedTables w₁.current) = _
    rw [hquiet.current, htables]
    exact congrArg (Levels.push · _) (map_twins htwins)
  · rw [hw', (flushMutator_keepsCounters _ _).nextSstableId hc]
    show w₁.manifest.nextSstableId = _
    rw [hmanifest]
  · rw [sstableIds_eq, hfiles, sstableIds_eq, ← List.mem_append, ← List.map_append]
    exact ((Levels.flatten_push _ _).map FileMetadata.fileId).mem_iff

/-- When one id is taken, and tables are written to the files with this id and the following ones,
the listed ids are below the next one exactly as long as there is no second table. -/
theorem below_reserved_iff {c : Crates} {m m' : Manifest} {pieces : List (List Entry)}
    (hids : ∀ id ∈ m.sstableIds, id < m.nextSstableId) (hne : pieces ≠ [])
    (hless : m.nextSstableId.toNat + 1 < 2 ^ 32) (hnext : m'.nextSstableId = m.nextSstableId + 1)
    (hlisted : ∀ id, id ∈ m'.sstableIds ↔ id ∈ m.sstableIds ∨
      id ∈ ((writtenTables c m.nextSstableId pieces).map Table.meta').map FileMetadata.fileId) :
    (∀ id ∈ m'.sstableIds, id < m'.nextSstableId) ↔ ¬ 2 ≤ pieces.length := by
  constructor
  · intro hbelow htwo
    -- the second table has the next id
    have hsecond : m.nextSstableId + 1 ∈ m'.sstableIds := by
      refine (hlisted _).mpr (.inr (List.mem_map.mpr ⟨_, List.mem_map.mpr ⟨_, mem_writtenTables.mpr
        ⟨1, pieces[1], List.getElem?_eq_getElem htwo, rfl⟩, rfl⟩, rfl⟩))
    have hless := hbelow _ hsecond
    rw [hnext] at hless
    exact absurd hless (UInt32.lt_irrefl _)
  · intro hone id hid
    have hlength : pieces.length = 1 := by
      have hpositive := List.length_pos_iff.mpr hne
      omega
    have hbelow := @lt_next_of_written c m pieces hids (by rw [hlength]; exact hless) id
      ((hlisted id).mp hid)
    rw [hlength] at hbelow
    rw [hnext]
    exact hbelow

/-- A flush keeps the version and the manifest alike unless it writes more than one table: the next
id is the one behind the first table. -/
theorem Mirror.flush_iff (h : Mirror w.manifest w.current) (hfits : FlushFits env.crates w)
    (hless : w.manifest.nextSstableId.toNat + 1 < 2 ^ 32)
    (hrun : flushMemtables env w = (.ok (), w')) :
    Mirror w'.manifest w'.current ↔ ¬ 2 ≤ w.current.frozenMemtables.length := by
  by_cases hempty : w.current.frozenMemtables = []
  · have hspec := (flushMemtables_spec hfits).ok rfl hrun
    rw [if_pos hempty] at hspec
    rw [hspec, hempty]
    exact iff_of_true h (by simp)
  have hdone := (flushMemtables_mirrored h.tables hempty hfits).ok rfl hrun
  have hbelow := below_reserved_iff h.ids (fun hnil => hempty (List.map_eq_nil_iff.mp hnil)) hless
    hdone.next hdone.listed
  rw [List.length_map] at hbelow
  exact ⟨fun hmirror => hbelow.mp hmirror.ids, fun hone => ⟨hdone.tables, hbelow.mpr hone⟩⟩

/-- A rotation changes neither. -/
theorem Mirror.rotation (h : Mirror w.manifest w.current)
    (hrun : rotateMemtable env w = (.ok (), w')) : Mirror w'.manifest w'.current := by
  have hrotated := ((@rotateMemtable_spec env (fun _ => False) w (by simp) (by simp)).ok rfl hrun).1
  obtain ⟨v, hswitched, hdropped⟩ := hrotated
  rw [hdropped.manifest, hdropped.current]
  obtain ⟨w₁, w₂, newWal, faults, _, _, hcommitted, _, _, _, rfl⟩ := hswitched.steps
  have hlists : fileLists w₂.manifest = fileLists w.manifest := by
    rw [hcommitted.manifest]
    rfl
  have hids : w₂.manifest.sstableIds = w.manifest.sstableIds := by
    rw [sstableIds_eq, sstableIds_eq, hlists]
  refine ⟨?_, fun id hid => ?_⟩
  · show presentedTables w.current = listedTables w₂.manifest
    rw [listedTables, hlists]
    exact h.tables
  · have hbelow := h.ids id (hids ▸ hid)
    show id < w₂.manifest.nextSstableId
    rw [hcommitted.manifest]
    exact hbelow

/-! ## Restarts -/

/-- A restart presents the tables in the order of the manifest. -/
theorem recoverState_tables (m : Manifest) :
    Prog.Spec (fun _ => True) (recoverState env m)
      (fun state _ => state.sstables.map (List.map fun t => t.sst.id) =
        (fileLists m).map (List.map FileMetadata.fileId)) (fun _ _ => True) := by
  have hany : ∀ {α : Type} (x : Op α), Prog.Spec (fun _ => True) x (fun _ _ => True)
      fun _ _ => True := by
    intro α x w _
    rcases x w with ⟨_ | _, _⟩ <;> trivial
  have hopen : ∀ f : FileMetadata, Prog.Spec (fun _ => True) (openTable env f.fileId)
      (fun h _ => h.sst.id = f.fileId ∧ True) fun _ _ => True :=
    fun f => Prog.Spec.of_forall fun w _ => (@openTable_opened env w f.fileId).weaken
      (fun _ hw => hw ▸ Reads.refl w) (fun h _ hopened => ⟨(new_eq_ok hopened.1.2).1, trivial⟩)
      fun _ _ _ => trivial
  have hlevel : ∀ level : Level, Prog.Spec (fun _ => True)
      (Prog.forEach (fun f => openTable env f.fileId) level.files)
      (fun hs _ => List.Forall₂ (fun f h => h.sst.id = f.fileId) level.files hs ∧ True)
      fun _ _ => True := fun level => Prog.Spec.forEach_related fun f _ => hopen f
  unfold recoverState
  cases m.wals.getLast? with
  | none => exact Prog.Spec.fail fun _ _ => trivial
  | some mutableWalId =>
      refine (hany _).bind fun _ => (hany _).bind fun _ => (hany _).bind fun _ => ?_
      refine Prog.Spec.bind (Prog.Spec.forEach_related fun level _ => hlevel level)
        fun sstables => Prog.Spec.pure fun _ h => ?_
      rw [fileLists, List.map_map]
      exact map_eq_of_forall₂ (h.1.imp fun _ _ hlists => map_eq_of_forall₂ hlists)

/-- The ids, the number and the lengths of the tables that an operation writes are representable. -/
def MirrorRoom (env : Env) (w : World) : Structural → Prop
  | .rotateMemtable => True
  | .flushMemtables => FlushFits env.crates w ∧ w.manifest.nextSstableId.toNat + 1 < 2 ^ 32
  | .compactL0 targetFileSize => ∀ s, Compaction.l0.select w.manifest = some s →
      CompactFits env w targetFileSize s.all
  | .compactLn levelIdx targetFileSize => ∀ s,
      (Compaction.ln levelIdx).select w.manifest = some s → CompactFits env w targetFileSize s.all

/-- An operation that succeeds keeps the version and the manifest alike, if and only if it is not a
flush of two or more memtables. In any case a restart presents the tables of the manifest in the
order of the version. -/
theorem mirror_iff (env : Env) (op : Structural) (w w' : World)
    (hmirror : Mirror w.manifest w.current) (hroom : MirrorRoom env w op)
    (hrun : op.run env w = (.ok (), w')) :
    (Mirror w'.manifest w'.current ↔
      ¬ (op = .flushMemtables ∧ 2 ≤ w.current.frozenMemtables.length)) ∧
    ∀ (u u' : World) (state : RecoveredState),
      recoverState env w'.manifest u = (.ok state, u') →
      state.sstables.map (List.map fun t => t.sst.id) =
        w'.current.sstables.map (List.map fun t => t.sst.id) := by
  have htables : presentedTables w'.current = listedTables w'.manifest →
      ∀ (u u' : World) (state : RecoveredState),
      recoverState env w'.manifest u = (.ok state, u') →
      state.sstables.map (List.map fun t => t.sst.id) =
        w'.current.sstables.map (List.map fun t => t.sst.id) := by
    intro hsame u u' state hrecover
    have hids := (recoverState_tables w'.manifest).ok trivial hrecover
    have hfst := congrArg (List.map (List.map Prod.fst)) hsame
    rw [presentedTables, listedTables, List.map_map, List.map_map] at hfst
    rw [hids]
    simpa [Function.comp_def] using hfst.symm
  cases op with
  | rotateMemtable =>
      have hafter := hmirror.rotation hrun
      exact ⟨iff_of_true hafter fun hboth => (by cases hboth.1), htables hafter.tables⟩
  | flushMemtables =>
      refine ⟨(hmirror.flush_iff hroom.1 hroom.2 hrun).trans (by simp), htables ?_⟩
      by_cases hempty : w.current.frozenMemtables = []
      · have hspec := (flushMemtables_spec hroom.1).ok rfl hrun
        rw [if_pos hempty] at hspec
        rw [hspec]
        exact hmirror.tables
      · exact ((flushMemtables_mirrored hmirror.tables hempty hroom.1).ok rfl hrun).tables
  | compactL0 targetFileSize =>
      have hafter := Mirror.compaction (k := .l0) hmirror hroom hrun
      exact ⟨iff_of_true hafter fun hboth => (by cases hboth.1), htables hafter.tables⟩
  | compactLn levelIdx targetFileSize =>
      have hafter := Mirror.compaction (k := .ln levelIdx) hmirror hroom hrun
      exact ⟨iff_of_true hafter fun hboth => (by cases hboth.1), htables hafter.tables⟩

theorem mirror_iff_one_frozen :
    Mirror (flushMemtables defaultEnv oneFrozen).2.manifest
      (flushMemtables defaultEnv oneFrozen).2.current := by
  have hfrozen : oneFrozen.current.frozenMemtables =
      [((Memtable.new).putBatch [(Key.new [97] 1, .bytes [1])]).freeze] := rfl
  have hids : oneFrozen.manifest.sstableIds = [] := rfl
  have hfits : FlushFits defaultEnv.crates oneFrozen := by
    constructor <;> rw [hfrozen] <;> decide
  have hrun : flushMemtables defaultEnv oneFrozen =
      (.ok (), (flushMemtables defaultEnv oneFrozen).2) :=
    flush_run hfits rfl (by decide +kernel) (by rw [hfrozen]; decide)
  refine (mirror_iff defaultEnv .flushMemtables oneFrozen _ ⟨rfl, ?_⟩ ⟨hfits, ?_⟩ hrun).1.mpr ?_
  · rw [hids]
    exact fun id hid => absurd hid List.not_mem_nil
  · decide +kernel
  · intro htwo
    rw [hfrozen] at htwo
    exact absurd htwo.2 (by decide)

/-- A new database after two puts, each with a rotation behind it. -/
def twoPuts : World :=
  (rotateMemtable defaultEnv (put defaultEnv [98] (.bytes [2]) oneFrozen).2).2

/-- A flush of two memtables lists the table ids 0 and 1, and the next table id is 1. -/
theorem flush_breaks_mirror : ¬ ∀ (env : Env) (op : Structural) (w w' : World),
    Mirror w.manifest w.current → op.run env w = (.ok (), w') →
    Mirror w'.manifest w'.current := by
  intro hall
  have hfrozen : twoPuts.current.frozenMemtables =
      [((Memtable.new).putBatch [(Key.new [97] 1, .bytes [1])]).freeze,
        ((Memtable.new).putBatch [(Key.new [98] 2, .bytes [2])]).freeze] := rfl
  have hids : twoPuts.manifest.sstableIds = [] := rfl
  have hmirror : Mirror twoPuts.manifest twoPuts.current := by
    refine ⟨rfl, ?_⟩
    rw [hids]
    exact fun id hid => absurd hid List.not_mem_nil
  have hfits : FlushFits defaultEnv.crates twoPuts := by
    constructor <;> rw [hfrozen] <;> decide
  have hrun := flush_run hfits rfl (by decide +kernel) (by rw [hfrozen]; decide)
  have hafter := hall defaultEnv .flushMemtables _ _ hmirror hrun
  refine (hmirror.flush_iff hfits (by decide +kernel) hrun).mp hafter ?_
  rw [hfrozen]
  decide

end EasyLsm.Db
