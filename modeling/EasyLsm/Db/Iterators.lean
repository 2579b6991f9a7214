import Mathlib.Data.List.Basic
import EasyLsm.Db.Tables

/-!
# Iterating tables and merging them

`table_round_trip`: a table that was written is opened, and an iterator over it returns what was
written. `merge_sorted`: a merge of iterators over ordered tables returns everything that they
return, in key order.
-/

namespace EasyLsm.Db

open Lib Lib.FileStore

/-- A table that was written is opened with the keys of its first and its last entry, as its
metadata say, and an iterator over it returns its entries one after the other, and then nothing. -/
theorem table_round_trip (c : Crates) (dir : Dir) (inode : Nat) (id : UInt32) (es : List Entry)
    (hne : es ≠ []) (hfits : TableFits c es) :
    ∃ sst, Sstable.new c id (writeTable c es).1 = .ok sst ∧
      (firstKey es = some sst.minKey ∧ lastKey es = some sst.maxKey) ∧
      ((writeTable c es).2.minKey = sst.minKey ∧ (writeTable c es).2.maxKey = sst.maxKey) ∧
      Merge.Yields (SstableIterator.next c (dir.setContent inode (writeTable c es).1)) False
        (SstableIterator.new ⟨sst, inode⟩ none) es := by
  have hfirst : firstKey es = some (openedTable c id es).minKey := by
    rw [firstKey, List.head?_eq_some_head hne]
    show _ = some ((firstKey es).getD (Key.new [] 0))
    rw [firstKey, List.head?_eq_some_head hne]
    rfl
  have hlast : lastKey es = some (openedTable c id es).maxKey := by
    rw [lastKey, List.getLast?_eq_some_getLast hne]
    show _ = some ((lastKey es).getD (Key.new [] 0))
    rw [lastKey, List.getLast?_eq_some_getLast hne]
    rfl
  refine ⟨openedTable c id es, new_writeTable hfits hne id, ⟨hfirst, hlast⟩, ⟨?_, ?_⟩, ?_⟩
  · rw [(writeTable_eq es).2.1]
    rfl
  · rw [(writeTable_eq es).2.2]
    rfl
  · refine SstableIterator.yields_iterBlocks (fun hfault => absurd rfl hfault) ?_
    rw [content_setContent_self]
    exact iter_openedTable hfits id

theorem table_round_trip_three :
    ∃ sst, Sstable.new crates 7 (writeTable crates threeEntries).1 = .ok sst ∧
      (firstKey threeEntries = some sst.minKey ∧ lastKey threeEntries = some sst.maxKey) ∧
      ((writeTable crates threeEntries).2.minKey = sst.minKey ∧
        (writeTable crates threeEntries).2.maxKey = sst.maxKey) ∧
      Merge.Yields (SstableIterator.next crates
          (FileStore.empty.setContent 0 (writeTable crates threeEntries).1)) False
        (SstableIterator.new ⟨sst, 0⟩ none) threeEntries :=
  table_round_trip crates FileStore.empty 0 7 threeEntries (by decide) (by decide)

/-- A merge of iterators that return ordered entries without an error returns all these entries,
each with its value and as often as its iterators do, in key order, and then nothing. -/
theorem merge_sorted (c : Crates) (dir : Dir) (iters : List SstableIterator)
    (lists : List (List Entry))
    (hyields : List.Forall₂ (Merge.Yields (SstableIterator.next c dir) False) iters lists)
    (hordered : ∀ l ∈ lists, KeyOrdered l) :
    ∃ m out, MergeIterator.new c dir iters = .ok m ∧
      Merge.Yields (MergeIterator.next c dir) False m out ∧ KeyOrdered out ∧
      out.Perm lists.flatten := by
  rcases Merge.new_spec hyields hordered with ⟨m, pending, hnew, hinv, hperm⟩ | ⟨hfalse, _⟩
  · obtain ⟨out, hout, houtPerm, hsorted⟩ := hinv.yields
    exact ⟨m, out, hnew, hout, hsorted, houtPerm.trans hperm⟩
  · exact hfalse.elim

/-- An iterator that has entries of representable lengths left in its block. -/
theorem yields_lastBlock (c : Crates) (dir : Dir) {es : List Entry} (hfits : ∀ e ∈ es, e.Fits) :
    Merge.Yields (SstableIterator.next c dir) False ⟨0, [], encodeEntries es, none⟩ es := by
  have hend : Merge.Yields (SstableIterator.next c dir) False ⟨0, [], [], none⟩ [] := .done rfl
  have hblock := SstableIterator.yields_block (Nat.le_refl _) (decodeAll_encodeEntries hfits) hend
  rwa [List.append_nil] at hblock

theorem merge_sorted_three : ∃ m out,
    MergeIterator.new crates FileStore.empty [⟨0, [], encodeEntries threeEntries, none⟩,
      ⟨0, [], encodeEntries [], none⟩,
      ⟨0, [], encodeEntries [(Key.new [97] 2, .tombstone)], none⟩] = .ok m ∧
    Merge.Yields (MergeIterator.next crates FileStore.empty) False m out ∧ KeyOrdered out ∧
    out.Perm [threeEntries, [], [(Key.new [97] 2, .tombstone)]].flatten :=
  merge_sorted crates FileStore.empty _ [threeEntries, [], [(Key.new [97] 2, .tombstone)]]
    (.cons (yields_lastBlock _ _ (by decide)) (.cons (yields_lastBlock _ _ (by decide))
      (.cons (yields_lastBlock _ _ (by decide)) .nil)))
    (by decide)

end EasyLsm.Db
