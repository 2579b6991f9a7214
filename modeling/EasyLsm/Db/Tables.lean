import Mathlib.Data.List.Basic
import EasyLsm.DataStores.SstableSearch
import EasyLsm.Db.Commit

/-!
# Tables on disk

A `Table` is what a manifest says about a table together with its entries, and `Stored` says that
its file holds them. An iterator over a stored table yields its entries, and a table that was
written and whose lengths are representable is stored.
-/

namespace EasyLsm.Db

open Lib Lib.FileStore

/-- A table: its metadata and its entries. -/
structure Table where
  meta' : FileMetadata
  entries : List Entry
  deriving DecidableEq

/-- The entries in the table file with an id, when it can be read. -/
def tableEntries (c : Crates) (dir : Dir) (id : UInt32) : Option (List Entry) := do
  let file ← dir.read (.sst id)
  let sst ← (Sstable.new c id file).toOption
  (sst.iter c).toOption

/-- The file of the table holds its entries. -/
def Stored (c : Crates) (dir : Dir) (t : Table) : Prop :=
  tableEntries c dir t.meta'.fileId = some t.entries

variable {c : Crates} {dir dir' : Dir} {env : Env} {w₀ w : World}

theorem tableEntries_eq_some {id : UInt32} {es : List Entry} :
    tableEntries c dir id = some es ↔ ∃ inode sst, (.sst id, inode) ∈ dir.names ∧
      Sstable.new c id (dir.content inode) = .ok sst ∧ sst.iter c = .ok es := by
  have hopt : ∀ {α : Type} {x : Except DbError α} {a : α}, x.toOption = some a ↔ x = .ok a := by
    intro α x a
    cases x <;> simp [Except.toOption]
  unfold tableEntries
  simp only [Option.bind_eq_bind, Option.bind_eq_some_iff, hopt]
  constructor
  · rintro ⟨file, hread, sst, hnew, hiter⟩
    obtain ⟨inode, hlookup, rfl⟩ := Option.map_eq_some_iff.mp hread
    exact ⟨inode, sst, lookup_eq_some.mp hlookup, hnew, hiter⟩
  · rintro ⟨inode, sst, hmem, hnew, hiter⟩
    exact ⟨_, read_of_mem hmem, sst, hnew, hiter⟩

/-- A table file that is the same in two directories holds the same entries. -/
theorem tableEntries_congr {id : UInt32} (h : dir'.read (.sst id) = dir.read (.sst id)) :
    tableEntries c dir' id = tableEntries c dir id := by
  unfold tableEntries
  rw [h]

/-- Opening a table keeps its id and its file. -/
theorem new_eq_ok {id : UInt32} {file : Bytes} {sst : Sstable}
    (h : Sstable.new c id file = .ok sst) : sst.id = id ∧ sst.file = file := by
  unfold Sstable.new at h
  split at h
  · cases h
  · obtain ⟨⟨indexOffset, r⟩, _, h⟩ := bind_ok_iff.mp h
    obtain ⟨⟨bloomOffset, r'⟩, _, h⟩ := bind_ok_iff.mp h
    obtain ⟨⟨storedChecksum, magic⟩, _, h⟩ := bind_ok_iff.mp h
    simp only at h
    split at h
    · cases h
    · split at h
      · cases h
      · obtain ⟨bloom, _, h⟩ := bind_ok_iff.mp h
        split at h
        · cases h
        · obtain ⟨indexData, _, h⟩ := bind_ok_iff.mp h
          obtain ⟨⟨minKey, r⟩, _, h⟩ := bind_ok_iff.mp h
          obtain ⟨⟨maxKey, r⟩, _, h⟩ := bind_ok_iff.mp h
          obtain ⟨index, _, h⟩ := bind_ok_iff.mp h
          cases h
          exact ⟨rfl, rfl⟩

/-! ## Iterating -/

namespace SstableIterator

/-- An iterator stays with its file. -/
theorem inode_next {it it' : SstableIterator} {r : Option (Except DbError Entry)}
    (h : it.next c dir = (r, it')) : it'.inode = it.inode := by
  have hblock : ∀ {it it' : SstableIterator} {r}, it.nextInBlock = (r, it') →
      it'.inode = it.inode := by
    intro it it' r h
    unfold nextInBlock at h
    split at h
    · cases h
      rfl
    · split at h <;> cases h <;> rfl
  unfold next at h
  split at h
  · split at h
    · cases h
      rfl
    · split at h
      · cases h
        rfl
      · split at h
        · cases h
          rfl
        · have hinode := hblock h
          exact hinode
  · exact hblock h

/-- A step looks at the file of the iterator only. -/
theorem next_congr {it : SstableIterator} (h : dir'.content it.inode = dir.content it.inode) :
    it.next c dir' = it.next c dir := by
  unfold next
  rw [h]

/-- The rest of a block, and then what the other blocks yield. -/
theorem yields_block {mayFail : Prop} {inode fuel : Nat} {index : List (Key × Key × UInt64)}
    {block : Bytes} {fault : Option Fault} {es rest : List Entry} (hfuel : block.length ≤ fuel)
    (hblock : decodeAll Entry.decode fuel block = .ok es)
    (hrest : Merge.Yields (next c dir) mayFail ⟨inode, index, [], fault⟩ rest) :
    Merge.Yields (next c dir) mayFail ⟨inode, index, block, fault⟩ (es ++ rest) := by
  induction fuel generalizing block es with
  | zero =>
      obtain rfl := List.length_eq_zero_iff.mp (Nat.le_zero.mp hfuel)
      cases hblock
      exact hrest
  | succ fuel ih =>
      cases block with
      | nil =>
          cases hblock
          exact hrest
      | cons b r =>
          obtain ⟨⟨e, r'⟩, hdecode, hblock⟩ := bind_ok_iff.mp hblock
          obtain ⟨es', hes, hblock⟩ := bind_ok_iff.mp hblock
          cases hblock
          have hlt := (Entry.decode_eq_ok hdecode).2
          have hstep : next c dir ⟨inode, index, b :: r, fault⟩ =
              (some (.ok e), ⟨inode, index, r', fault⟩) := by
            simp only [next, nextInBlock, List.isEmpty_cons, Bool.false_eq_true, if_false, hdecode]
          exact .item hstep (ih (by omega) hes)

/-- Between two blocks the next one is loaded, unless the fault comes before it. -/
theorem next_load {inode : Nat} {min max : Key} {offset : UInt64}
    {index : List (Key × Key × UInt64)} {fault : Option Fault} {data : Bytes}
    (h : Sstable.readBlockWithCrcAt c (dir.content inode) offset = .ok data) :
    (fault ≠ none ∧ ∃ e it', next c dir ⟨inode, (min, max, offset) :: index, [], fault⟩ =
      (some (.error e), it')) ∨
    ∃ fault', (fault' ≠ none → fault ≠ none) ∧
      next c dir ⟨inode, (min, max, offset) :: index, [], fault⟩ =
        nextInBlock ⟨inode, index, data, fault'⟩ := by
  unfold next
  simp only [List.isEmpty_nil, if_true, h]
  rcases fault with _ | ⟨_ | taken, kind⟩
  · exact .inr ⟨none, id, rfl⟩
  · exact .inl ⟨by simp, _, _, rfl⟩
  · exact .inr ⟨some ⟨taken, kind⟩, by simp, rfl⟩

/-- An iterator over a table yields the entries that iterating the table gives. -/
theorem yields_iterBlocks {mayFail : Prop} {inode : Nat} {index : List (Key × Key × UInt64)}
    {fault : Option Fault} {es : List Entry} (hfault : fault ≠ none → mayFail)
    (h : Sstable.iterBlocks c (dir.content inode) index = .ok es) :
    Merge.Yields (next c dir) mayFail ⟨inode, index, [], fault⟩ es := by
  induction index generalizing fault es with
  | nil =>
      cases h
      exact .done rfl
  | cons head index ih =>
      obtain ⟨min, max, offset⟩ := head
      obtain ⟨data, hread, h⟩ := bind_ok_iff.mp h
      rcases @next_load c dir inode min max offset index fault data hread with
        ⟨hsome, e, it', hnext⟩ | ⟨fault', hfault', hnext⟩
      · exact .fail (hfault hsome) hnext
      · cases data with
        | nil =>
            cases h
            exact .done hnext
        | cons b r =>
            obtain ⟨first, hfirst, h⟩ := bind_ok_iff.mp h
            obtain ⟨rest, hrest, h⟩ := bind_ok_iff.mp h
            cases h
            obtain ⟨⟨e, r'⟩, hdecode, hfirst⟩ := bind_ok_iff.mp hfirst
            obtain ⟨es', hes, hfirst⟩ := bind_ok_iff.mp hfirst
            cases hfirst
            have hlt := (Entry.decode_eq_ok hdecode).2
            rw [List.length_cons] at hlt
            refine .item (hnext.trans (?_ : _ = (_, ⟨inode, index, r', fault'⟩)))
              (yields_block (Nat.le_of_lt_succ hlt) hes
                (ih (fun hsome => hfault (hfault' hsome)) hrest))
            simp only [nextInBlock, List.isEmpty_cons, Bool.false_eq_true, if_false, hdecode]

end SstableIterator

/-! ## Opening -/

/-- Only faults were taken. -/
def Reads (w₀ w : World) : Prop := ∃ faults, w = { w₀ with faults } ∧ (w₀.faults = [] → faults = [])

/-- Only faults were taken, and one of them came. -/
def Faulty (w₀ w : World) : Prop := Reads w₀ w ∧ w₀.faults ≠ []

theorem Reads.refl (w : World) : Reads w w := ⟨_, rfl, id⟩

theorem Reads.trans {w' : World} (h : Reads w₀ w) (h' : Reads w w') : Reads w₀ w' := by
  obtain ⟨faults, rfl, hnil⟩ := h
  obtain ⟨faults', rfl, hnil'⟩ := h'
  exact ⟨faults', rfl, fun h => hnil' (hnil h)⟩

theorem Reads.quiet (h : Reads w₀ w) (keep : FileName → Prop) : Quiet keep w₀ w := by
  obtain ⟨faults, rfl, hnil⟩ := h
  exact ⟨⟨_, rfl⟩, rfl, rfl, hnil, Agree.refl keep _, [], (List.append_nil _).symm, by simp⟩

theorem nextFault_reads {E : DbError → World → Prop} : Prog.Spec (Reads w₀) nextFault
    (fun fault w => (fault ≠ none → w₀.faults ≠ []) ∧ Reads w₀ w) E := by
  rintro _ ⟨faults, rfl, hnil⟩
  rw [nextFault_run]
  refine ⟨fun hsome hempty => hsome ?_, faults.tail, rfl, fun hempty => ?_⟩
  · show faults.headD none = none
    rw [hnil hempty]
    rfl
  · rw [hnil hempty]
    rfl

/-- The next fault of a state. -/
theorem nextFault_from {E : DbError → World → Prop} : Prog.Spec (· = w₀) nextFault
    (fun fault w => (fault ≠ none → w₀.faults ≠ []) ∧ Reads w₀ w) E :=
  nextFault_reads.weaken (fun _ h => h ▸ Reads.refl _) (fun _ _ h => h) fun _ _ h => h

/-- A file that exists is opened. -/
theorem openFile_reads {name : FileName} {inode : Nat} (h : (name, inode) ∈ w₀.dir.names) :
    Prog.Spec (Reads w₀) (openFile name) (fun i w => i = inode ∧ Reads w₀ w)
      (fun _ => Faulty w₀) := by
  refine Prog.Spec.bind nextFault_reads fun fault => ?_
  rintro _ ⟨hfault, faults, rfl, hnil⟩
  have hlookup : w₀.dir.lookup name = some inode := lookup_eq_some.mpr h
  cases fault with
  | none =>
      simp only [Prog.bind_apply, Prog.read, hlookup]
      exact ⟨rfl, faults, rfl, hnil⟩
  | some f => exact ⟨⟨faults, rfl, hnil⟩, hfault (by simp)⟩

/-- A table is opened when its file can be read. -/
theorem openTable_reads {id : UInt32} {inode : Nat} (hmem : (.sst id, inode) ∈ w₀.dir.names) :
    Prog.Spec (Reads w₀) (openTable env id)
      (fun h w => (h.inode = inode ∧
        Sstable.new env.crates id (w₀.dir.content inode) = .ok h.sst) ∧ Reads w₀ w)
      (fun _ w => Reads w₀ w ∧ (w₀.faults = [] →
        ∀ sst, Sstable.new env.crates id (w₀.dir.content inode) ≠ .ok sst)) := by
  refine Prog.Spec.bind ((openFile_reads hmem).weaken (fun _ h => h) (fun _ _ h => h)
    fun _ w h => ⟨h.1, fun hnil => absurd hnil h.2⟩) fun i => ?_
  rintro _ ⟨rfl, faults, rfl, hnil⟩
  simp only [Prog.bind_apply, Prog.read, Prog.ofExcept]
  cases hnew : Sstable.new env.crates id (w₀.dir.content i) with
  | ok sst => exact ⟨⟨rfl, rfl⟩, faults, rfl, hnil⟩
  | error e => exact ⟨⟨faults, rfl, hnil⟩, by simp⟩

/-- The handle is that of the table. -/
def Opened (c : Crates) (dir : Dir) (t : Table) (h : TableHandle) : Prop :=
  (.sst t.meta'.fileId, h.inode) ∈ dir.names ∧
    Sstable.new c t.meta'.fileId (dir.content h.inode) = .ok h.sst ∧ h.sst.iter c = .ok t.entries

/-- Tables with handles are stored. -/
theorem stored_of_opened {ts : List Table} {hs : List TableHandle}
    (h : List.Forall₂ (Opened c dir) ts hs) : ∀ t ∈ ts, Stored c dir t := by
  induction h with
  | nil => exact fun t ht => absurd ht List.not_mem_nil
  | cons hopen _ ih =>
      intro t ht
      rcases List.mem_cons.mp ht with rfl | ht
      · exact tableEntries_eq_some.mpr ⟨_, _, hopen.1, hopen.2.1, hopen.2.2⟩
      · exact ih t ht

/-- A stored table is opened. -/
theorem openStored_reads {t : Table} (h : Stored env.crates w₀.dir t) :
    Prog.Spec (Reads w₀) (openTable env t.meta'.fileId)
      (fun h w => Opened env.crates w₀.dir t h ∧ Reads w₀ w) (fun _ => Faulty w₀) := by
  obtain ⟨inode, sst, hmem, hnew, hiter⟩ := tableEntries_eq_some.mp h
  refine (openTable_reads hmem).weaken (fun _ h => h) ?_ ?_
  · rintro handle w ⟨⟨rfl, hopen⟩, hreads⟩
    have hsst : sst = handle.sst := Except.ok.inj (hnew.symm.trans hopen)
    exact ⟨⟨hmem, hopen, hsst ▸ hiter⟩, hreads⟩
  · rintro e w ⟨hreads, hfail⟩
    exact ⟨hreads, fun hnil => hfail hnil sst hnew⟩

/-- Stored tables are opened one after the other. -/
theorem openNewTables_reads (text : String) {ts : List Table}
    (h : ∀ t ∈ ts, Stored env.crates w₀.dir t) :
    Prog.Spec (Reads w₀) (openNewTables env text (ts.map Table.meta'))
      (fun hs w => List.Forall₂ (Opened env.crates w₀.dir) ts hs ∧ Reads w₀ w)
      (fun _ => Faulty w₀) := by
  induction ts with
  | nil => exact Prog.Spec.pure fun w hw => ⟨.nil, hw⟩
  | cons t ts ih =>
      refine Prog.Spec.bind (Prog.Spec.mapError (openStored_reads (h t List.mem_cons_self)))
        fun handle => ?_
      rintro w ⟨hopened, hw⟩
      refine Prog.Spec.bind (ih fun t' ht' => h t' (List.mem_cons_of_mem t ht')) (fun hs => ?_) w hw
      exact Prog.Spec.pure fun w hw => ⟨.cons hopened hw.1, hw.2⟩

/-- An iterator over a stored table. -/
theorem openInput_reads {t : Table} (h : Stored env.crates w₀.dir t) :
    Prog.Spec (Reads w₀) (openInput env t.meta')
      (fun it w => (Merge.Yields (SstableIterator.next env.crates w₀.dir) (w₀.faults ≠ []) it
        t.entries ∧ (.sst t.meta'.fileId, it.inode) ∈ w₀.dir.names) ∧ Reads w₀ w)
      (fun _ => Faulty w₀) := by
  refine Prog.Spec.bind (Prog.Spec.mapError (openStored_reads h)) fun handle => ?_
  rintro w ⟨⟨hmem, hnew, hiter⟩, hw⟩
  refine Prog.Spec.bind nextFault_reads (fun fault => ?_) w hw
  refine Prog.Spec.pure fun w hw => ⟨⟨?_, hmem⟩, hw.2⟩
  refine SstableIterator.yields_iterBlocks hw.1 ?_
  rw [← (new_eq_ok hnew).2]
  exact hiter

/-! ## Written tables -/

/-- The table that is written with given entries to the file with a given id. -/
def writtenTable (c : Crates) (id : UInt32) (es : List Entry) : Table :=
  ⟨{ (writeTable c es).2 with fileId := id }, es⟩

/-- The tables that are written to the files with consecutive ids. -/
def writtenTables (c : Crates) (startSstId : UInt32) (pieces : List (List Entry)) : List Table :=
  pieces.zipIdx.map fun p => writtenTable c (startSstId + UInt32.ofNat p.2) p.1

@[simp] theorem fileId_writtenTable (id : UInt32) (es : List Entry) :
    (writtenTable c id es).meta'.fileId = id := rfl

@[simp] theorem entries_writtenTable (id : UInt32) (es : List Entry) :
    (writtenTable c id es).entries = es := rfl

theorem minKey_writtenTable {id : UInt32} {es : List Entry} {k : Key} (h : firstKey es = some k) :
    (writtenTable c id es).meta'.minKey = k := by
  show (writeTable c es).2.minKey = k
  rw [(writeTable_eq es).2.1, h, Option.getD_some]

theorem maxKey_writtenTable {id : UInt32} {es : List Entry} {k : Key} (h : lastKey es = some k) :
    (writtenTable c id es).meta'.maxKey = k := by
  show (writeTable c es).2.maxKey = k
  rw [(writeTable_eq es).2.2, h, Option.getD_some]

theorem entries_writtenTables (startSstId : UInt32) (pieces : List (List Entry)) :
    (writtenTables c startSstId pieces).map Table.entries = pieces := by
  unfold writtenTables
  rw [List.map_map]
  exact List.zipIdx_map_fst 0 pieces

/-- A table of a piece with its id. -/
theorem mem_writtenTables {startSstId : UInt32} {pieces : List (List Entry)} {t : Table} :
    t ∈ writtenTables c startSstId pieces ↔ ∃ i es, pieces[i]? = some es ∧
      t = writtenTable c (startSstId + UInt32.ofNat i) es := by
  unfold writtenTables
  rw [List.mem_map]
  constructor
  · rintro ⟨⟨es, i⟩, hmem, rfl⟩
    exact ⟨i, es, List.mem_zipIdx_iff_getElem?.mp hmem, rfl⟩
  · rintro ⟨i, es, hget, rfl⟩
    exact ⟨(es, i), List.mem_zipIdx_iff_getElem?.mpr hget, rfl⟩

theorem writtenTables_concat (startSstId : UInt32) (pieces : List (List Entry)) (es : List Entry) :
    writtenTables c startSstId (pieces ++ [es]) = writtenTables c startSstId pieces ++
      [writtenTable c (startSstId + UInt32.ofNat pieces.length) es] := by
  unfold writtenTables
  rw [List.zipIdx_append, List.map_append]
  simp

/-- A table with entries of representable lengths is stored once its file is written. -/
theorem stored_writtenTable {id : UInt32} {es : List Entry} (hfits : TableFits c es)
    (hne : es ≠ []) (hread : dir.read (.sst id) = some (writeTable c es).1) :
    Stored c dir (writtenTable c id es) := by
  obtain ⟨inode, hlookup, hcontent⟩ := Option.map_eq_some_iff.mp hread
  refine tableEntries_eq_some.mpr ⟨inode, openedTable c id es, lookup_eq_some.mp hlookup, ?_,
    iter_openedTable hfits id⟩
  rw [hcontent]
  exact new_writeTable hfits hne id

/-- A table without entries cannot be opened: its index block has no keys. -/
theorem new_writeTable_nil (c : Crates) (id : UInt32) (sst : Sstable) :
    Sstable.new c id (writeTable c []).1 ≠ .ok sst := by
  intro h
  have hfits : TableFits c [] := ⟨by simp, by simp [tableBlocks, cutBlocks], Nat.two_pow_pos 32⟩
  have hbloom := readBloom_writeTable hfits
  have hindex := readIndex_writeTable hfits
  rw [(writeTable_eq []).1] at h hbloom hindex
  rw [← List.append_assoc, ← List.append_assoc, new_append_footer, List.append_assoc,
    List.append_assoc, Sstable.load, hbloom] at h
  simp only [ok_bind, c.bincode.roundTrip] at h
  rw [hindex, ok_bind] at h
  obtain ⟨⟨key, r⟩, hkey, _⟩ := bind_ok_iff.mp h
  have hlen := (Key.decode_eq_ok hkey).2
  have hnil : (tableIndex c []).length = 0 := rfl
  rw [hnil, Key.serializedHeaderSize] at hlen
  omega

/-- Tables that were written are not all opened when one of them has no entries. -/
theorem openWritten_fails (text : String) {ts : List Table} {t : Table} (ht : t ∈ ts)
    (hempty : t.entries = [])
    (hread : ∀ t ∈ ts, w₀.dir.read (.sst t.meta'.fileId) =
      some (writeTable env.crates t.entries).1) :
    Prog.Spec (Reads w₀) (openNewTables env text (ts.map Table.meta')) (fun _ _ => False)
      (fun _ => Reads w₀) := by
  induction ts with
  | nil => cases ht
  | cons t' ts ih =>
      -- the tables before the first empty one are opened, and that one is not
      obtain ⟨inode, hlookup, hcontent⟩ := Option.map_eq_some_iff.mp
        (hread t' List.mem_cons_self)
      refine Prog.Spec.bind (Prog.Spec.mapError ((openTable_reads
        (lookup_eq_some.mp hlookup)).weaken (fun _ h => h) (fun _ _ h => h)
        fun _ _ h => h.1)) fun handle => ?_
      rintro w ⟨⟨_, hopen⟩, hw⟩
      rcases List.mem_cons.mp ht with rfl | ht
      · rw [hcontent, hempty] at hopen
        exact absurd hopen (new_writeTable_nil _ _ _)
      · refine Prog.Spec.bind (ih ht fun t ht => hread t (List.mem_cons_of_mem t' ht))
          (fun hs => ?_) w hw
        exact fun w hfalse => hfalse.elim

/-- Tables that were written are opened one after the other, up to one without entries. -/
theorem openWritten_reads (text : String) {ts : List Table}
    (hfits : ∀ t ∈ ts, TableFits env.crates t.entries)
    (hread : ∀ t ∈ ts, w₀.dir.read (.sst t.meta'.fileId) =
      some (writeTable env.crates t.entries).1) :
    Prog.Spec (Reads w₀) (openNewTables env text (ts.map Table.meta'))
      (fun hs w => ((∀ t ∈ ts, t.entries ≠ []) ∧
        List.Forall₂ (Opened env.crates w₀.dir) ts hs) ∧ Reads w₀ w)
      (fun _ w => Reads w₀ w ∧ (w₀.faults = [] → ∃ t ∈ ts, t.entries = [])) := by
  by_cases hall : ∀ t ∈ ts, t.entries ≠ []
  · refine (openNewTables_reads text fun t ht => ?_).weaken (fun _ h => h)
      (fun hs w h => ⟨⟨hall, h.1⟩, h.2⟩) fun _ w h => ⟨h.1, fun hnil => absurd hnil h.2⟩
    obtain ⟨inode, hlookup, hcontent⟩ := Option.map_eq_some_iff.mp (hread t ht)
    refine tableEntries_eq_some.mpr ⟨inode, openedTable env.crates t.meta'.fileId t.entries,
      lookup_eq_some.mp hlookup, ?_, iter_openedTable (hfits t ht) _⟩
    rw [hcontent]
    exact new_writeTable (hfits t ht) (hall t ht) _
  · obtain ⟨t, ht, hempty⟩ : ∃ t ∈ ts, t.entries = [] := by simpa using hall
    exact (openWritten_fails text ht hempty hread).weaken (fun _ h => h) (fun _ _ h => h.elim)
      fun _ _ h => ⟨h, fun _ => ⟨t, ht, hempty⟩⟩

end EasyLsm.Db
